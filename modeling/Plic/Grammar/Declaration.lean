import Plic.Grammar.Basic

/-!
# Declarations

`DCL items attributes;`. Items may be factored: extents behind a list in parentheses are those of
every item of the list that has none of its own. The attributes, in any order, are collected first
and then resolved into a type.
-/

namespace Plic.Grammar

open Plic.Parser

/-- The extents of an array, in parentheses. -/
def extents : Parser (List Int) := do
  symbol .lparen .arrayExtentOpen
  let dims ← commaList integer
  symbol .rparen .arrayExtent
  return dims.map Int.ofNat

/-- The extents of an array if an opening parenthesis stands at the front. -/
def extents? : Parser (List Int) := do
  if ← check (.symbol .lparen) then extents else return []

/-- The item with the extents of its list, unless it has its own. -/
def withExtents (dims : List Int) (item : Item) : Item :=
  if item.dims = [] then { item with dims := dims } else item

/-- An item, or a list of items in parentheses whose members are read by `nested`. -/
def itemsOf (nested : Parser (List Item)) : Parser (List Item) := do
  if ← accept (.symbol .lparen) then
    let members ← commaList nested
    symbol .rparen .factoredList
    let dims ← extents?
    return members.flatten.map (withExtents dims)
  else
    let loc := (← peek).loc
    let name ← identifier
    let dims ← extents?
    return [⟨name, dims, loc⟩]

/-- Items with at most `depth` lists inside one another. -/
def itemsWithin : (depth : Nat) → Parser (List Item)
  | 0 => unexpected .identifier .unspecified
  | depth + 1 => itemsOf (itemsWithin depth)

def items : Parser (List Item) := fun ts => itemsWithin ts.length ts

/-- The data attributes of a declaration. -/
structure Attributes where
  fixed : Bool
  binary : Bool
  decimal : Bool
  /-- The length of a character type. -/
  character : Option Nat
  varying : Bool
  /-- Precision and scale. -/
  precision : Option (Nat × Option Nat)
  /-- The attributes as written, in small letters. -/
  spellings : List String

namespace Attributes

def none : Attributes := ⟨false, false, false, .none, false, .none, []⟩

/-- The type that a collection of attributes denotes. -/
def resolve (a : Attributes) : Except Fault.Cause DataType :=
  match a.fixed, a.binary, a.decimal, a.character, a.varying with
  | false, false, false, some length, varying => .ok (.character length varying)
  | true, true, false, .none, false =>
    match a.precision with
    | some (_, some (_ + 1)) => .error .fractionalBinary
    | p => .ok (.fixedBinary (p.map Prod.fst))
  | true, false, _, .none, false =>
    .ok (.fixedDecimal (a.precision.map Prod.fst) (a.precision.bind Prod.snd))
  | _, _, _, _, _ => .error (.attributeCombination a.spellings)

end Attributes

/-- The numbers that fit lengths, precisions and scales. -/
def fitsWord (n : Nat) : Bool := n < 0x100000000

/-- A scale behind a comma, if one is written. -/
def scale? : Parser (Option Nat) := do
  if ← accept (.symbol .comma) then return some (← integer) else return none

/-- A precision with an optional scale, in parentheses. -/
def precision : Parser (Nat × Option Nat) := do
  let loc := (← peek).loc
  symbol .lparen .precisionOpen
  let digits ← integer
  let scale ← scale?
  symbol .rparen .precision
  unless fitsWord digits do refuse loc (.precision digits)
  if let some q := scale then
    unless fitsWord q do refuse loc (.precision q)
  return (digits, scale)

/-- The length written behind `CHAR`, or 1 when none is written. -/
def writtenLength : Parser Nat := do
  if ← accept (.symbol .lparen) then
    let n ← integer
    symbol .rparen .characterLength
    return n
  else return 1

/-- The length of a character type whose keyword stands at `loc`. -/
def characterLength (loc : Location) : Parser Nat := do
  let length ← writtenLength
  unless 0 < length && fitsWord length do refuse loc (.characterLength length)
  return length

/-- The attribute at the front, added to those before it; whether it is a repetition; nothing when
no attribute is at the front. -/
def attribute? (a : Attributes) : Parser (Option (Attributes × Bool)) := do
  let t ← peek
  match t.kind with
  | .keyword .FIXED => advance; return some ({ a with fixed := true }, a.fixed)
  | .keyword .BIN => advance; return some ({ a with binary := true }, a.binary)
  | .keyword .DEC | .keyword .DECIMAL =>
    advance
    return some ({ a with decimal := true }, a.decimal)
  | .keyword .VARYING => advance; return some ({ a with varying := true }, a.varying)
  | .keyword .CHAR =>
    advance
    let length ← characterLength t.loc
    return some ({ a with character := some length }, a.character.isSome)
  | _ => return none

/-- The precision behind an attribute, unless a character type is being declared. -/
def attributePrecision (a : Attributes) : Parser Attributes := do
  let t ← peek
  if a.character.isNone && t.kind = .symbol .lparen then
    if a.precision.isSome then refuse t.loc .repeatedPrecision
    return { a with precision := some (← precision) }
  else return a

/-- The attribute at the front with its precision, added to those before it. -/
def nextAttribute (a : Attributes) : Parser (Option Attributes) := do
  let t ← peek
  match ← attribute? a with
  | none => return none
  | some (b, repeated) =>
    let spelling := Text.lower t.lexeme
    if repeated then refuse t.loc (.repeatedAttribute spelling)
    return some (← attributePrecision { b with spellings := a.spellings ++ [spelling] })

/-- One or more attributes. -/
def attributes : Parser Attributes := do
  let a ← fold nextAttribute .none
  if a.spellings.isEmpty then unexpected .attributes .unspecified else return a

def declaration : Parser Declaration := do
  let loc := (← peek).loc
  keyword .DCL .unspecified
  let names ← commaList items
  let a ← attributes
  match a.resolve with
  | .error cause => refuse loc cause
  | .ok type =>
    symbol .semicolon .declaration
    return ⟨names.flatten, type, loc⟩

end Plic.Grammar
