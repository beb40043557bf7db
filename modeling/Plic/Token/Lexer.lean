import Plic.Text.Blank
import Plic.Token

/-!
# From characters to tokens

A source is cut into pieces from left to right: blanks, comments, tokens, and pieces that are
dropped with a report. The pieces, put together, are the source again, so the place of each one is
the place after the pieces before it. Scanning never fails: what cannot begin a token is dropped and
scanning goes on behind it.
-/

namespace Plic

/-- Why a piece of the source was dropped. -/
inductive Lexer.Problem where
  | illegalCharacter (c : Char)
  | unterminatedComment
  | unterminatedText
  | unterminatedQuery
  | numberOutOfRange (digits : String)
deriving DecidableEq

/-- The wording of a report. -/
def Lexer.Problem.message : Lexer.Problem → String
  | illegalCharacter c => "Illegal character '" ++ c.toString ++ "'"
  | unterminatedComment => "Unterminated block comment"
  | unterminatedText => "Unterminated character constant"
  | unterminatedQuery => "Unterminated query string"
  | numberOutOfRange digits => "Integer literal out of range: " ++ digits

/-- A report on a dropped piece, which does not stop the work on the source. -/
structure Diagnostic where
  problem : Lexer.Problem
  loc : Location
deriving DecidableEq

namespace Diagnostic

/-- The wording of the report, without its place. -/
def message (d : Diagnostic) : String := d.problem.message

/-- The report in full. -/
def display (d : Diagnostic) : String :=
  "Lexical error at " ++ d.loc.cite ++ ": " ++ d.message

end Diagnostic

inductive Piece where
  | blank (c : Char)
  | comment (text : List Char)
  | token (kind : Token.Kind) (text : List Char)
  | dropped (problem : Lexer.Problem) (text : List Char)

def Piece.text : Piece → List Char
  | blank c => [c]
  | comment text => text
  | token _ text => text
  | dropped _ text => text

namespace Lexer

/-- The largest integer literal. -/
def maxNumber : Nat := 0x7FFFFFFFFFFFFFFF

/-- Whether `c` can begin an identifier or keyword. -/
def isNameStart (c : Char) : Bool := c.isAlpha || c = '_'

/-- Whether `c` can continue an identifier or keyword. -/
def isNameRest (c : Char) : Bool := isNameStart c || c.isDigit

/-- The number that a run of decimal digits denotes. -/
def digitsValue (digits : List Char) : Nat :=
  digits.foldl (fun n c => 10 * n + (c.toNat - '0'.toNat)) 0

/-- The characters up to and with the first end mark of a comment, if there is one. -/
def commentBody : List Char → Option (List Char)
  | [] => none
  | c :: cs =>
    if c = '*' && cs.head? = some '/' then some ['*', '/'] else (commentBody cs).map (c :: ·)

/-- Reads the rest of a character constant behind its opening quote: its value, and its characters
with the closing quote. Two quotes stand for one. A constant ends on its own line. -/
def textBody : List Char → Option (List Char × List Char)
  | [] => none
  | '\x27' :: '\x27' :: cs => (textBody cs).map fun (v, t) => ('\x27' :: v, '\x27' :: '\x27' :: t)
  | c :: cs =>
    if c = '\x27' then some ([], ['\x27'])
    else if c = '\n' then none
    else (textBody cs).map fun (v, t) => (c :: v, c :: t)

/-- Reads the rest of a query behind its opening quote: its value, and its characters with the
closing quote. A backslash before a quote or a backslash stands for that character; any other
backslash stands for itself. A query ends on its own line. -/
def queryBody : List Char → Option (List Char × List Char)
  | [] => none
  | '\\' :: '\x22' :: cs => (queryBody cs).map fun (v, t) => ('\x22' :: v, '\\' :: '\x22' :: t)
  | '\\' :: '\\' :: cs => (queryBody cs).map fun (v, t) => ('\\' :: v, '\\' :: '\\' :: t)
  | c :: cs =>
    if c = '\x22' then some ([], ['\x22'])
    else if c = '\n' then none
    else (queryBody cs).map fun (v, t) => (c :: v, c :: t)

def numberPiece (digits : List Char) : Piece :=
  if digitsValue digits ≤ maxNumber then .token (.number (digitsValue digits)) digits
  else .dropped (.numberOutOfRange (String.ofList digits)) digits

/-- What a word is: a keyword in any mixture of cases, or else an identifier. -/
def wordKind (letters : List Char) : Token.Kind :=
  let word := String.ofList (letters.map Char.toLower)
  match Keyword.ofSpelling? word with
  | some k => .keyword k
  | none => .name word

/-- The piece that a text beginning with `c` starts with. -/
def firstPiece (c : Char) (rest : List Char) : Piece :=
  if Text.isBlank c then .blank c
  else if c = '/' && rest.head? = some '*' then
    match commentBody rest.tail with
    | some body => .comment ('/' :: '*' :: body)
    | none => .dropped .unterminatedComment (c :: rest)
  else if c = '\x27' then
    match textBody rest with
    | some (value, body) => .token (.text (String.ofList value)) (c :: body)
    | none => .dropped .unterminatedText [c]
  else if c = '\x22' then
    match queryBody rest with
    | some (value, body) => .token (.query (String.ofList value)) (c :: body)
    | none => .dropped .unterminatedQuery [c]
  else if c.isDigit then numberPiece (c :: rest.takeWhile Char.isDigit)
  else if isNameStart c then
    let letters := c :: rest.takeWhile isNameRest
    .token (wordKind letters) letters
  else
    match Symbol.spellings.find? fun s => s.1.isPrefixOf (c :: rest) with
    | some (text, mark) => .token (.symbol mark) text
    | none => .dropped (.illegalCharacter c) [c]

/-- The pieces of a text, after `skip` characters that an earlier piece covers. -/
def piecesAfter : Nat → List Char → List Piece
  | _, [] => []
  | skip + 1, _ :: cs => piecesAfter skip cs
  | 0, c :: cs =>
    let p := firstPiece c cs
    p :: piecesAfter (p.text.length - 1) cs

def pieces (text : List Char) : List Piece := piecesAfter 0 text

/-- Each piece with its place, when the first one stands at `l`. -/
def placed : Location → List Piece → List (Location × Piece)
  | _, [] => []
  | l, p :: ps => (l, p) :: placed (l.after p.text) ps

def tokenOf : Location × Piece → Option Token
  | (l, .token kind text) => some ⟨kind, String.ofList text, l⟩
  | _ => none

/-- The report on a piece that stands at `l`. -/
def diagnosticOf : Location × Piece → Option Diagnostic
  | (l, .dropped problem _) => some ⟨problem, l⟩
  | _ => none

end Lexer

/-- A source being read: the text that remains, its place, and the reports so far. -/
structure Lexer where
  rest : List Char
  loc : Location
  diagnostics : List Diagnostic

namespace Lexer

/-- The state before the first character. -/
def ofSource (source : String) : Lexer := ⟨source.toList, .start, []⟩

/-- Reads what remains: its tokens with the end of the source behind them. Nothing remains then, so
a second reading finds the end of the source only. -/
def tokenize (l : Lexer) : List Token × Lexer :=
  let ps := placed l.loc (pieces l.rest)
  let finish := l.loc.after l.rest
  (ps.filterMap tokenOf ++ [Token.endOfSource finish],
    ⟨[], finish, l.diagnostics ++ ps.filterMap diagnosticOf⟩)

end Lexer

end Plic
