import Plic.Text.Alphanumeric
import Plic.Token.Lexer
import Plic.Viewer.Picture

/-!
# Highlighting

A line of code is cut into spans from left to right: comments, literals, words, and single
characters for all else. Each line stands alone, so a comment over several lines is seen on its
first line only. The spans, put together, are the line again.
-/

namespace Plic.Viewer

/-- The languages of the two code panes. -/
inductive Language where
  | pli | python
deriving DecidableEq

/-- What a span is. -/
inductive Role where
  | plain | keyword | function | dataAttribute | number | literal | comment
deriving DecidableEq

def Role.style : Role → Style
  | plain => .ofForeground Theme.text
  | keyword => (Style.ofForeground Theme.primary).strong
  | function => .ofForeground Theme.accent
  | dataAttribute => .ofForeground Theme.attributes
  | number => .ofForeground Theme.secondary
  | literal => .ofForeground Theme.secondary
  | comment => .ofForeground Theme.muted

namespace Highlight

def pythonKeywords : List String :=
  ["and", "as", "break", "def", "elif", "else", "except", "finally", "for", "if", "import", "in",
    "is", "not", "or", "pass", "return", "try", "while", "with", "None", "True", "False", "global",
    "raise"]

def pythonFunctions : List String := ["print", "str", "int", "input", "open", "len", "range"]

def isWordChar (c : Char) : Bool := Text.isAlphanumeric c || c = '_'

def pliRole (word : List Char) : Role :=
  match Keyword.ofSpelling? (String.ofList (word.map Char.toLower)) with
  | some .SUBSTR | some .INDEX | some .DECIMAL | some .MOD | some .ENDFILE => .function
  | some .FIXED | some .BIN | some .DEC | some .CHAR | some .VARYING => .dataAttribute
  | some _ => .keyword
  | none => .plain

/-- The role of a word of Python, by whether an opening parenthesis follows. -/
def pythonRole (word : List Char) (called : Bool) : Role :=
  if String.ofList word ∈ pythonKeywords then .keyword
  else if String.ofList word ∈ pythonFunctions || (called && "_pli".toList.isPrefixOf word) then
    .function
  else .plain

def wordRole (language : Language) (word : List Char) (called : Bool) : Role :=
  if word.all Char.isDigit then .number
  else
    match language with
    | .pli => pliRole word
    | .python => pythonRole word called

/-- The rest of a literal behind its opening quote, with its closing quote if it has one. A
backslash protects the next character in Python. -/
def literalBody (language : Language) (quote : Char) : List Char → List Char
  | [] => []
  | [c] => [c]
  | c :: d :: cs =>
    if c = '\\' && language = .python then c :: d :: literalBody language quote cs
    else if c = quote then [c]
    else c :: literalBody language quote (d :: cs)

def beginsComment (language : Language) (c : Char) (rest : List Char) : Bool :=
  match language with
  | .pli => c = '/' && rest.head? = some '*'
  | .python => c = '#'

def commentRest (language : Language) (rest : List Char) : List Char :=
  match language with
  | .python => rest
  | .pli =>
    match Lexer.commentBody rest.tail with
    | some body => rest.take 1 ++ body
    | none => rest

/-- The span that a text beginning with `c` starts with, and its role. -/
def firstSpan (language : Language) (c : Char) (rest : List Char) : List Char × Role :=
  if beginsComment language c rest then (c :: commentRest language rest, .comment)
  else if c = '\x27' || c = '\x22' then (c :: literalBody language c rest, .literal)
  else if isWordChar c then
    let word := c :: rest.takeWhile isWordChar
    (word, wordRole language word ((rest.dropWhile isWordChar).head? = some '('))
  else ([c], .plain)

/-- The spans of a text, after `skip` characters that an earlier span covers. -/
def spansAfter (language : Language) : Nat → List Char → List (List Char × Role)
  | _, [] => []
  | skip + 1, _ :: cs => spansAfter language skip cs
  | 0, c :: cs =>
    let s := firstSpan language c cs
    s :: spansAfter language (s.1.length - 1) cs

end Highlight

def highlight (language : Language) (line : List Char) : List Span :=
  (Highlight.spansAfter language 0 line).map fun s => ⟨s.1, s.2.style⟩

end Plic.Viewer
