import Plic.Fault

/-!
# Parsers

A parser reads tokens from the front of a list that ends with the end of the source. It answers a
value or a fault, and in both cases the tokens that are left, so that reading can go on where it
stopped. The end of the source is never passed.

Repetition goes through `many` and `fold`: a round of theirs that goes on reads a token, so one
round for each remaining token is enough.
-/

namespace Plic

/-- A reader of tokens. -/
abbrev Parser (α : Type) := EStateM Fault (List Token) α

namespace Parser

variable {α β : Type}

/-- The token at the front; behind the last token the source stays at its end. -/
def front : List Token → Token
  | [] => .endOfSource .nowhere
  | t :: _ => t

/-- The tokens behind the one at the front, which stays when it is the end of the source. -/
def behind : List Token → List Token
  | [] => []
  | t :: ts => if t.kind = .eof then t :: ts else ts

/-- The token at the front, which is not read. -/
def peek : Parser Token := fun ts => .ok (front ts) ts

/-- Reads one token. -/
def advance : Parser Unit := fun ts => .ok () (behind ts)

/-- Refuses the program for a cause at a place. -/
def refuse (loc : Location) (cause : Fault.Cause) : Parser α := fun ts => .error ⟨cause, loc⟩ ts

/-- Refuses the token at the front, in place of which something else is looked for. -/
def unexpected (what : Sought) (place : Place) : Parser α := fun ts =>
  refuse (front ts).loc (.expected what place (front ts)) ts

/-- Whether the token at the front is of the given kind. -/
def check (kind : Token.Kind) : Parser Bool := fun ts => .ok ((front ts).kind = kind) ts

/-- Reads a token if it is of the given kind, and says whether it was. -/
def accept (kind : Token.Kind) : Parser Bool := fun ts =>
  if (front ts).kind = kind then .ok true (behind ts) else .ok false ts

/-- Reads a symbol. -/
def symbol (mark : Symbol) (place : Place) : Parser Unit := do
  unless ← accept (.symbol mark) do unexpected (.symbol mark) place

/-- Reads a keyword. -/
def keyword (word : Keyword) (place : Place) : Parser Unit := do
  unless ← accept (.keyword word) do unexpected (.keyword word) place

/-- Reads an identifier. -/
def identifier : Parser String := do
  match (← peek).kind with
  | .name n => advance; return n
  | _ => unexpected .identifier .unspecified

/-- Reads a name, for which a keyword is good too. -/
def name : Parser String := do
  let t ← peek
  match t.kind with
  | .name n => advance; return n
  | .keyword _ => advance; return Text.lower t.lexeme
  | _ => unexpected .name .unspecified

/-- Reads an integer literal. -/
def integer : Parser Nat := do
  match (← peek).kind with
  | .number n => advance; return n
  | _ => unexpected .integer .unspecified

/-- At most `n` rounds of `p`, up to the first that answers nothing. -/
def manyUpTo (p : Parser (Option α)) : Nat → Parser (List α)
  | 0 => pure []
  | n + 1 => do
    match ← p with
    | none => return []
    | some a => return a :: (← manyUpTo p n)

/-- The values of `p`, asked again and again until it answers nothing. -/
def many (p : Parser (Option α)) : Parser (List α) := fun ts => manyUpTo p ts.length ts

/-- At most `n` rounds of `step` on a state, up to the first that answers nothing. -/
def foldUpTo (step : β → Parser (Option β)) : Nat → β → Parser β
  | 0, b => pure b
  | n + 1, b => do
    match ← step b with
    | none => return b
    | some b' => foldUpTo step n b'

/-- The last state of `step`, asked again and again until it answers nothing. -/
def fold (step : β → Parser (Option β)) (b : β) : Parser β := fun ts =>
  foldUpTo step ts.length b ts

/-- One or more items with commas between them. -/
def commaList (item : Parser α) : Parser (List α) := do
  let first ← item
  let rest ← many do
    if ← accept (.symbol .comma) then return some (← item) else return none
  return first :: rest

end Parser

end Plic
