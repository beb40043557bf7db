/-!
# Keywords

The reserved words of the PL/I subset. Several words have a short and a long spelling, which mean
the same keyword.
-/

namespace Plic

/-- The reserved words. -/
inductive Keyword where
  | PROC | OPTIONS | MAIN | DCL | FIXED | BIN | DEC | CHAR | VARYING
  | IF | THEN | ELSE | PUT | GET | SKIP | LIST | END | WHEN | OTHER | SELECT
  | DO | WHILE | TO | BY | SUBSTR | INDEX | DECIMAL | MOD | ENDFILE
  | EXEC | SQL | INTO | OPEN | CLOSE | READ | WRITE | FILE | INPUT | OUTPUT | FROM
deriving DecidableEq

namespace Keyword

def spellings : List (String × Keyword) :=
  [("proc", PROC), ("procedure", PROC), ("options", OPTIONS), ("main", MAIN), ("end", END),
    ("dcl", DCL), ("declare", DCL), ("fixed", FIXED), ("bin", BIN), ("binary", BIN), ("dec", DEC),
    ("char", CHAR), ("character", CHAR), ("varying", VARYING),
    ("if", IF), ("then", THEN), ("else", ELSE), ("select", SELECT), ("when", WHEN),
    ("other", OTHER), ("otherwise", OTHER), ("do", DO), ("while", WHILE), ("to", TO), ("by", BY),
    ("put", PUT), ("get", GET), ("skip", SKIP), ("list", LIST),
    ("open", OPEN), ("close", CLOSE), ("read", READ), ("write", WRITE), ("file", FILE),
    ("input", INPUT), ("output", OUTPUT), ("into", INTO), ("from", FROM),
    ("exec", EXEC), ("sql", SQL),
    ("substr", SUBSTR), ("index", INDEX), ("decimal", DECIMAL), ("mod", MOD), ("endfile", ENDFILE)]

/-- The keyword with the given spelling in small letters, if there is one. -/
def ofSpelling? (word : String) : Option Keyword :=
  spellings.lookup word

end Keyword

end Plic
