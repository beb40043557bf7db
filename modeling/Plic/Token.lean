import Plic.Source.Location
import Plic.Text.Case
import Plic.Token.Keyword

/-!
# Tokens

A token is a word, literal or symbol of the source with the characters that spell it (its lexeme)
and the place of the first of them. Identifiers are kept in small letters; literals are kept by
value.
-/

namespace Plic

/-- The operators and marks of punctuation. -/
inductive Symbol where
  | plus | minus | star | slash | concat
  | eq | eqEq | ne | lt | le | gt | ge
  | lparen | rparen | colon | semicolon | comma
deriving DecidableEq

/-- Every spelling of every symbol, a longer one before its own beginnings, so that the first
spelling that begins a text is the longest. -/
def Symbol.spellings : List (List Char × Symbol) :=
  [(['=', '='], eqEq), (['<', '='], le), (['<', '>'], ne), (['>', '='], ge), (['^', '='], ne),
    (['¬', '='], ne), (['|', '|'], concat),
    (['+'], plus), (['-'], minus), (['*'], star), (['/'], slash), (['='], eq), (['<'], lt),
    (['>'], gt), (['('], lparen), ([')'], rparen), ([':'], colon), ([';'], semicolon),
    ([','], comma)]

inductive Token.Kind where
  /-- An integer literal, at most 2^63 - 1. -/
  | number (value : Nat)
  /-- A character constant, by its value. -/
  | text (value : String)
  | query (value : String)
  /-- An identifier, in small letters. -/
  | name (value : String)
  | keyword (word : Keyword)
  | symbol (mark : Symbol)
  /-- The end of the source. -/
  | eof
deriving DecidableEq

/-- A token, the characters that spell it, and the place where it starts. -/
structure Token where
  kind : Token.Kind
  lexeme : String
  loc : Location
deriving DecidableEq

namespace Token

def endOfSource (loc : Location) : Token := ⟨.eof, "", loc⟩

def isKeyword (t : Token) : Bool :=
  match t.kind with
  | .keyword _ => true
  | _ => false

/-- How messages name a token. -/
def describe (t : Token) : String :=
  match t.kind with
  | .number n => "number " ++ toString n
  | .text _ => "character constant " ++ t.lexeme
  | .query _ => "query string " ++ t.lexeme
  | .name n => "identifier '" ++ n ++ "'"
  | .keyword _ => "keyword '" ++ Text.lower t.lexeme ++ "'"
  | .symbol _ => "'" ++ t.lexeme ++ "'"
  | .eof => "end of input"

end Token

end Plic
