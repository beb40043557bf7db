import Plic.Python.Expr
import Plic.Proofs.Token.Pieces

/-!
# How Python reads an expression

The expressions of Python as far as generated code uses them, said without the
printer: which tokens a line is cut into (`Scans`), how tokens group (`Groups`,
a left-recursive grammar with one level for each kind of operator), and what a
text denotes in the end (`Reads`).

Main results:

* `Scans.unique` — a text is cut into tokens in at most one way.
* `Groups.unique` — tokens group in at most one way.
* `Reads.unique` — so a text has at most one reading.

Tokens group in one way because a reader that never goes back can follow the
grammar. `Run` is that reader, as a relation: it holds what was read so far and
decides by the next token how to go on.
-/

namespace Plic.Python

open Lexer (isNameStart isNameRest isDigit_of_isNameStart)

/-! ## Tokens -/

/-- The tokens of expressions. -/
inductive Tok where
  | int (value : Nat)
  | str (value : String)
  | name (id : String)
  | op (op : Operator)
  | lparen | rparen | lbracket | rbracket | colon | comma | dot
deriving DecidableEq

/-- The words that are not names. -/
def keywords : List String :=
  ["False", "None", "True", "and", "as", "assert", "async", "await", "break", "class", "continue",
    "def", "del", "elif", "else", "except", "finally", "for", "from", "global", "if", "import",
    "in", "is", "lambda", "nonlocal", "not", "or", "pass", "raise", "return", "try", "while",
    "with", "yield"]

/-- The token that a character is by itself. -/
def markOf : Char → Option Tok
  | '+' => some (.op .add)
  | '-' => some (.op .sub)
  | '*' => some (.op .mul)
  | '/' => some (.op .div)
  | '%' => some (.op .mod)
  | '(' => some .lparen
  | ')' => some .rparen
  | '[' => some .lbracket
  | ']' => some .rbracket
  | ':' => some .colon
  | ',' => some .comma
  | '.' => some .dot
  | _ => none

/-- Whether two characters begin a token that is longer than the first of
them: an assignment in place, `->`, `**`, `//`, `:=`, a fraction or `...`. -/
def isLonger : Char → Char → Bool
  | '-', '>' | '*', '*' | '/', '/' | '.', '.' => true
  | '+', '=' | '-', '=' | '*', '=' | '/', '=' | '%', '=' | ':', '=' => true
  | '.', d => d.isDigit
  | _, _ => false

/-- The character that a backslash and a further character stand for in a
literal, for the escapes that generated code uses. -/
def unescape : Char → Option Char
  | '\\' => some '\\'
  | '\x27' => some '\x27'
  | 'n' => some '\n'
  | 'r' => some '\r'
  | 't' => some '\t'
  | _ => none

/-- The value of a literal behind its opening quote, and what comes behind its
closing quote. A raw line break ends the line before the literal does. -/
def literalBody : List Char → Option (List Char × List Char)
  | [] => none
  | '\x27' :: cs => some ([], cs)
  | '\\' :: [] => none
  | '\\' :: e :: cs =>
    (unescape e).bind fun c => (literalBody cs).map fun (value, rest) => (c :: value, rest)
  | c :: cs =>
    if c = '\n' ∨ c = '\r' then none
    else (literalBody cs).map fun (value, rest) => (c :: value, rest)

/-- A text is cut into tokens. Words and numbers are taken as long as they go.
A word directly before a quote would belong to the literal, a number directly
before a letter or a point is malformed or a fraction, and three quotes in a
row open another kind of literal: none of these is read. -/
inductive Scans : List Char → List Tok → Prop where
  | nil : Scans [] []
  | blank {cs : List Char} {ts : List Tok} : Scans cs ts → Scans (' ' :: cs) ts
  | mark {c : Char} {cs : List Char} {k : Tok} {ts : List Tok} :
      markOf c = some k → (∀ d ∈ cs.head?, ¬ isLonger c d) → Scans cs ts →
      Scans (c :: cs) (k :: ts)
  | word {c : Char} {cs : List Char} {ts : List Tok} :
      isNameStart c → String.ofList (c :: cs.takeWhile isNameRest) ∉ keywords →
      (∀ d ∈ (cs.dropWhile isNameRest).head?, d ≠ '\x27' ∧ d ≠ '\x22') →
      Scans (cs.dropWhile isNameRest) ts →
      Scans (c :: cs) (.name (String.ofList (c :: cs.takeWhile isNameRest)) :: ts)
  | number {c : Char} {cs : List Char} {ts : List Tok} :
      c.isDigit → (c = '0' → ∀ d ∈ cs.takeWhile Char.isDigit, d = '0') →
      (∀ d ∈ (cs.dropWhile Char.isDigit).head?, ¬ isNameStart d ∧ d ≠ '.') →
      Scans (cs.dropWhile Char.isDigit) ts →
      Scans (c :: cs) (.int (Nat.ofDigitChars 10 (c :: cs.takeWhile Char.isDigit) 0) :: ts)
  | literal {cs value rest : List Char} {ts : List Tok} :
      ¬ ['\x27', '\x27'] <+: cs → literalBody cs = some (value, rest) → Scans rest ts →
      Scans ('\x27' :: cs) (.str (String.ofList value) :: ts)

theorem markOf_some {c : Char} {k : Tok} (h : markOf c = some k) :
    isNameStart c = false ∧ c.isDigit = false ∧ c ≠ ' ' ∧ c ≠ '\x27' := by
  unfold markOf at h
  split at h <;> first | decide | exact absurd h (by simp)

variable {ts rest : List Tok} {l : Level}

/-- A text is cut into tokens in at most one way: its first character decides
what is taken off the front, and how much of it. -/
theorem Scans.unique {cs : List Char} {us : List Tok} (h : Scans cs ts) (h' : Scans cs us) :
    ts = us := by
  -- the first character decides which of the rules was used, so the other scan used the same
  induction h generalizing us with
  | nil =>
    cases h'
    rfl
  | blank _ ih =>
    cases h' with
    | blank h' => exact ih h'
    | mark hmark => exact absurd rfl (markOf_some hmark).2.2.1
    | word hstart => exact absurd hstart (by decide)
    | number hdigit => exact absurd hdigit (by decide)
  | mark hmark _ _ ih =>
    obtain ⟨hname, hdigit, hblank, hquote⟩ := markOf_some hmark
    cases h' with
    | blank _ => exact absurd rfl hblank
    | mark hmark' _ h' =>
      obtain rfl := Option.some.inj (hmark.symm.trans hmark')
      rw [ih h']
    | word hstart => simp [hname] at hstart
    | number hdigit' => simp [hdigit] at hdigit'
    | literal _ _ => exact absurd rfl hquote
  | word hstart _ _ _ ih =>
    cases h' with
    | blank _ => exact absurd hstart (by decide)
    | mark hmark => simp [(markOf_some hmark).1] at hstart
    | word _ _ _ h' => rw [ih h']
    | number hdigit => simp [isDigit_of_isNameStart hstart] at hdigit
    | literal _ _ => exact absurd hstart (by decide)
  | number hdigit _ _ _ ih =>
    cases h' with
    | blank _ => exact absurd hdigit (by decide)
    | mark hmark => simp [(markOf_some hmark).2.1] at hdigit
    | word hstart => simp [isDigit_of_isNameStart hstart] at hdigit
    | number _ _ _ h' => rw [ih h']
    | literal _ _ => exact absurd hdigit (by decide)
  | literal _ hbody _ ih =>
    cases h' with
    | mark hmark => exact absurd rfl (markOf_some hmark).2.2.2
    | word hstart => exact absurd hstart (by decide)
    | number hdigit => exact absurd hdigit (by decide)
    | literal _ hbody' h' =>
      obtain ⟨rfl, rfl⟩ := Prod.mk.inj (Option.some.inj (hbody.symm.trans hbody'))
      rw [ih h']

/-! ## Grouping -/

/-- What an expression denotes. -/
inductive Tree where
  | int (value : Nat)
  | str (value : String)
  | name (id : String)
  | neg (operand : Tree)
  | binary (op : Operator) (left right : Tree)
  | index (base subscript : Tree)
  | sliceFrom (base low : Tree)
  | slice (base low high : Tree)
  /-- An attribute, written `base.id`. -/
  | member (base : Tree) (id : String)
  | call (function : Tree) (args : List Tree)

/-- The level of the operands of a level. -/
def Level.tighter : Level → Level
  | sum => product
  | product => sign
  | sign => atom
  | atom => atom

mutual

/-- Tokens group as a tree whose operators bind as tightly as a level asks for. -/
inductive Groups : Level → List Tok → Tree → Prop where
  | product {xs : List Tok} {t : Tree} : Groups .product xs t → Groups .sum xs t
  | sign {xs : List Tok} {t : Tree} : Groups .sign xs t → Groups .product xs t
  | atom {xs : List Tok} {t : Tree} : Groups .atom xs t → Groups .sign xs t
  /-- Operators of one level group to the left. -/
  | binary {op : Operator} {l : Level} {xs ys : List Tok} {a b : Tree} :
      op.level = l → Groups l xs a → Groups l.tighter ys b →
      Groups l (xs ++ .op op :: ys) (.binary op a b)
  | neg {xs : List Tok} {t : Tree} : Groups .sign xs t → Groups .sign (.op .sub :: xs) (.neg t)
  | int (n : Nat) : Groups .atom [.int n] (.int n)
  | str (s : String) : Groups .atom [.str s] (.str s)
  | name (id : String) : Groups .atom [.name id] (.name id)
  | enclosed {xs : List Tok} {t : Tree} :
      Groups .sum xs t → Groups .atom (.lparen :: xs ++ [.rparen]) t
  | index {bs xs : List Tok} {b i : Tree} :
      Groups .atom bs b → Groups .sum xs i →
      Groups .atom (bs ++ .lbracket :: xs ++ [.rbracket]) (.index b i)
  | sliceFrom {bs xs : List Tok} {b low : Tree} :
      Groups .atom bs b → Groups .sum xs low →
      Groups .atom (bs ++ .lbracket :: xs ++ [.colon, .rbracket]) (.sliceFrom b low)
  | slice {bs xs ys : List Tok} {b low high : Tree} :
      Groups .atom bs b → Groups .sum xs low → Groups .sum ys high →
      Groups .atom (bs ++ .lbracket :: xs ++ .colon :: ys ++ [.rbracket]) (.slice b low high)
  | member {bs : List Tok} {b : Tree} {id : String} :
      Groups .atom bs b → Groups .atom (bs ++ [.dot, .name id]) (.member b id)
  | call {fs xs : List Tok} {f : Tree} {args : List Tree} :
      Groups .atom fs f → Arguments xs args →
      Groups .atom (fs ++ .lparen :: xs ++ [.rparen]) (.call f args)

/-- The arguments of a call, with commas between them. -/
inductive Arguments : List Tok → List Tree → Prop where
  | none : Arguments [] []
  | one {xs : List Tok} {t : Tree} : Groups .sum xs t → Arguments xs [t]
  | more {xs ys : List Tok} {t u : Tree} {ts : List Tree} :
      Groups .sum xs t → Arguments ys (u :: ts) → Arguments (xs ++ .comma :: ys) (t :: u :: ts)

end

/-- The text, read as one expression, denotes the tree. -/
def Reads (text : String) (t : Tree) : Prop :=
  ∃ ts, Scans text.toList ts ∧ Groups .sum ts t

/-! ## A reader that never goes back -/

/-- Whether an expression of the level, once read, goes on with the token. -/
def Level.goesOn : Level → Tok → Bool
  | _, .lparen => true
  | _, .lbracket => true
  | _, .dot => true
  | .sum, .op _ => true
  | .product, .op op => op.level = .product
  | _, _ => false

/-- No expression of the level goes on with the token at the front. -/
def Ends (l : Level) (ts : List Tok) : Prop := ∀ k ∈ ts.head?, l.goesOn k = false

/-- What a reader is about to do. -/
inductive Mode where
  /-- To read an expression of a level. -/
  | start (l : Level)
  /-- To go on behind an expression of a level. -/
  | after (l : Level) (read : Tree)
  /-- To read a further argument of a call. -/
  | argument (function : Tree) (read : List Tree)

/-- The reader, begun in a mode, takes some tokens off the front and answers
the tree of the whole expression. -/
inductive Run : Mode → List Tok → Tree → List Tok → Prop where
  | sum {ts mid rest : List Tok} {a t : Tree} :
      Run (.start .product) ts a mid → Run (.after .sum a) mid t rest →
      Run (.start .sum) ts t rest
  | product {ts mid rest : List Tok} {a t : Tree} :
      Run (.start .sign) ts a mid → Run (.after .product a) mid t rest →
      Run (.start .product) ts t rest
  | neg {ts rest : List Tok} {a : Tree} :
      Run (.start .sign) ts a rest → Run (.start .sign) (.op .sub :: ts) (.neg a) rest
  | operand {ts rest : List Tok} {a : Tree} :
      ts.head? ≠ some (.op .sub) → Run (.start .atom) ts a rest → Run (.start .sign) ts a rest
  | int {n : Nat} {ts rest : List Tok} {t : Tree} :
      Run (.after .atom (.int n)) ts t rest → Run (.start .atom) (.int n :: ts) t rest
  | str {s : String} {ts rest : List Tok} {t : Tree} :
      Run (.after .atom (.str s)) ts t rest → Run (.start .atom) (.str s :: ts) t rest
  | name {id : String} {ts rest : List Tok} {t : Tree} :
      Run (.after .atom (.name id)) ts t rest → Run (.start .atom) (.name id :: ts) t rest
  | enclosed {ts mid rest : List Tok} {a t : Tree} :
      Run (.start .sum) ts a (.rparen :: mid) → Run (.after .atom a) mid t rest →
      Run (.start .atom) (.lparen :: ts) t rest
  | stop {l : Level} {a : Tree} {ts : List Tok} : Ends l ts → Run (.after l a) ts a ts
  | binary {op : Operator} {l : Level} {a b t : Tree} {ts mid rest : List Tok} :
      op.level = l → Run (.start l.tighter) ts b mid →
      Run (.after l (.binary op a b)) mid t rest → Run (.after l a) (.op op :: ts) t rest
  | index {a i t : Tree} {ts mid rest : List Tok} :
      Run (.start .sum) ts i (.rbracket :: mid) → Run (.after .atom (.index a i)) mid t rest →
      Run (.after .atom a) (.lbracket :: ts) t rest
  | sliceFrom {a low t : Tree} {ts mid rest : List Tok} :
      Run (.start .sum) ts low (.colon :: .rbracket :: mid) →
      Run (.after .atom (.sliceFrom a low)) mid t rest →
      Run (.after .atom a) (.lbracket :: ts) t rest
  | slice {a low high t : Tree} {ts mid last rest : List Tok} :
      Run (.start .sum) ts low (.colon :: mid) → mid.head? ≠ some .rbracket →
      Run (.start .sum) mid high (.rbracket :: last) →
      Run (.after .atom (.slice a low high)) last t rest →
      Run (.after .atom a) (.lbracket :: ts) t rest
  | member {a t : Tree} {id : String} {ts rest : List Tok} :
      Run (.after .atom (.member a id)) ts t rest →
      Run (.after .atom a) (.dot :: .name id :: ts) t rest
  | callEmpty {a t : Tree} {ts rest : List Tok} :
      Run (.after .atom (.call a [])) ts t rest →
      Run (.after .atom a) (.lparen :: .rparen :: ts) t rest
  | call {a t : Tree} {ts rest : List Tok} :
      ts.head? ≠ some .rparen → Run (.argument a []) ts t rest →
      Run (.after .atom a) (.lparen :: ts) t rest
  | more {f a t : Tree} {read : List Tree} {ts mid rest : List Tok} :
      Run (.start .sum) ts a (.comma :: mid) → Run (.argument f (read ++ [a])) mid t rest →
      Run (.argument f read) ts t rest
  | last {f a t : Tree} {read : List Tree} {ts mid rest : List Tok} :
      Run (.start .sum) ts a (.rparen :: mid) →
      Run (.after .atom (.call f (read ++ [a]))) mid t rest →
      Run (.argument f read) ts t rest

/-- A level does not end in front of one of its own operators. -/
theorem Ends.not_op {op : Operator} (hl : op.level = l) : ¬ Ends l (.op op :: ts) := by
  intro h
  have hop := h _ rfl
  subst hl
  revert hop
  cases op <;> decide

/-! ### The next token decides -/

section

variable {m : Mode} {mid last : List Tok} {a b f t : Tree} {k : Tok}

/-- The reader, begun in the mode, comes to this answer and to no other. -/
def Decided (m : Mode) (ts : List Tok) (t : Tree) (rest : List Tok) : Prop :=
  ∀ t' rest', Run m ts t' rest' → t = t' ∧ rest = rest'

/-- What stops at a token stops at no other token. -/
theorem Decided.behind (h : Decided m ts t (k :: mid)) {t' : Tree} {k' : Tok} {mid' : List Tok}
    (h' : Run m ts t' (k' :: mid')) : t = t' ∧ k = k' ∧ mid = mid' := by
  obtain ⟨rfl, hmid⟩ := h _ _ h'
  exact ⟨rfl, List.cons.inj hmid⟩

/-- The two levels of operators have one way to begin, which is an operand. -/
theorem decided_sum (hfirst : Decided (.start .product) ts a mid)
    (hafter : Decided (.after .sum a) mid t rest) : Decided (.start .sum) ts t rest := by
  intro t' rest' h'
  cases h' with
  | sum hfirst' hafter' =>
    obtain ⟨rfl, rfl⟩ := hfirst _ _ hfirst'
    exact hafter _ _ hafter'

/-- A product is begun by its first operand. -/
theorem decided_product (hfirst : Decided (.start .sign) ts a mid)
    (hafter : Decided (.after .product a) mid t rest) : Decided (.start .product) ts t rest := by
  intro t' rest' h'
  cases h' with
  | product hfirst' hafter' =>
    obtain ⟨rfl, rfl⟩ := hfirst _ _ hfirst'
    exact hafter _ _ hafter'

/-- A sign is never read as an operand, so the next token tells the two apart. -/
theorem decided_neg (h : Decided (.start .sign) ts a rest) :
    Decided (.start .sign) (.op .sub :: ts) (.neg a) rest := by
  intro t' rest' h'
  cases h' with
  | neg h' =>
    obtain ⟨rfl, rfl⟩ := h _ _ h'
    exact ⟨rfl, rfl⟩
  | operand hhead _ => exact absurd rfl hhead

/-- Without a minus in front, a signed operand is an atom. -/
theorem decided_operand (hhead : ts.head? ≠ some (.op .sub))
    (h : Decided (.start .atom) ts a rest) : Decided (.start .sign) ts a rest := by
  intro t' rest' h'
  cases h' with
  | neg _ => exact absurd rfl hhead
  | operand _ h' => exact h _ _ h'

/-- An expression in parentheses is decided if it is decided inside of them. -/
theorem decided_enclosed (hinner : Decided (.start .sum) ts a (.rparen :: mid))
    (hafter : Decided (.after .atom a) mid t rest) :
    Decided (.start .atom) (.lparen :: ts) t rest := by
  intro t' rest' h'
  cases h' with
  | enclosed hinner' hafter' =>
    obtain ⟨rfl, -, rfl⟩ := hinner.behind hinner'
    exact hafter _ _ hafter'

/-- Every way of going on starts with a token that `Ends` excludes. -/
theorem decided_stop (hends : Ends l ts) : Decided (.after l a) ts a ts := by
  intro t' rest' h'
  cases h' with
  | stop _ => exact ⟨rfl, rfl⟩
  | binary hl _ _ => exact absurd hends (Ends.not_op hl)
  | index _ _ | sliceFrom _ _ | slice _ _ _ _ | member _ | callEmpty _ | call _ _ =>
    exact absurd (hends _ rfl) (by decide)

/-- An operator of the level takes what was read so far as its left operand. -/
theorem decided_binary {op : Operator} (hl : op.level = l)
    (hright : Decided (.start l.tighter) ts b mid)
    (hafter : Decided (.after l (.binary op a b)) mid t rest) :
    Decided (.after l a) (.op op :: ts) t rest := by
  intro t' rest' h'
  cases h' with
  | stop hends => exact absurd hends (Ends.not_op hl)
  | binary _ hright' hafter' =>
    obtain ⟨rfl, rfl⟩ := hright _ _ hright'
    exact hafter _ _ hafter'

/-- All three subscripts begin alike; what the first bound stops at differs. -/
theorem decided_index (hinner : Decided (.start .sum) ts b (.rbracket :: mid))
    (hafter : Decided (.after .atom (.index a b)) mid t rest) :
    Decided (.after .atom a) (.lbracket :: ts) t rest := by
  intro t' rest' h'
  cases h' with
  | stop hends => exact absurd (hends _ rfl) (by decide)
  | index hinner' hafter' =>
    obtain ⟨rfl, -, rfl⟩ := hinner.behind hinner'
    exact hafter _ _ hafter'
  | sliceFrom hinner' _ | slice hinner' _ _ _ =>
    exact absurd (hinner.behind hinner').2.1 (by decide)

/-- A slice to the end is known by the bracket behind its colon. -/
theorem decided_sliceFrom (hinner : Decided (.start .sum) ts b (.colon :: .rbracket :: mid))
    (hafter : Decided (.after .atom (.sliceFrom a b)) mid t rest) :
    Decided (.after .atom a) (.lbracket :: ts) t rest := by
  intro t' rest' h'
  cases h' with
  | stop hends => exact absurd (hends _ rfl) (by decide)
  | index hinner' _ => exact absurd (hinner.behind hinner').2.1 (by decide)
  | sliceFrom hinner' hafter' =>
    -- the low end is decided already, so both runs go on behind the same colon
    obtain ⟨rfl, -, hmid⟩ := hinner.behind hinner'
    obtain ⟨-, rfl⟩ := List.cons.inj hmid
    exact hafter _ _ hafter'
  | slice hinner' hhead _ _ =>
    obtain ⟨-, -, rfl⟩ := hinner.behind hinner'
    exact absurd rfl hhead

/-- Any other slice has an upper bound behind the colon. -/
theorem decided_slice (hlow : Decided (.start .sum) ts b (.colon :: mid))
    (hhead : mid.head? ≠ some .rbracket) (hhigh : Decided (.start .sum) mid f (.rbracket :: last))
    (hafter : Decided (.after .atom (.slice a b f)) last t rest) :
    Decided (.after .atom a) (.lbracket :: ts) t rest := by
  intro t' rest' h'
  cases h' with
  | stop hends => exact absurd (hends _ rfl) (by decide)
  | index hlow' _ => exact absurd (hlow.behind hlow').2.1 (by decide)
  | sliceFrom hlow' _ =>
    obtain ⟨-, -, rfl⟩ := hlow.behind hlow'
    exact absurd rfl hhead
  | slice hlow' _ hhigh' hafter' =>
    -- both ends are decided already
    obtain ⟨rfl, -, rfl⟩ := hlow.behind hlow'
    obtain ⟨rfl, -, rfl⟩ := hhigh.behind hhigh'
    exact hafter _ _ hafter'

/-- A call without arguments is told from one with arguments by the parenthesis. -/
theorem decided_callEmpty (h : Decided (.after .atom (.call a [])) ts t rest) :
    Decided (.after .atom a) (.lparen :: .rparen :: ts) t rest := by
  intro t' rest' h'
  cases h' with
  | stop hends => exact absurd (hends _ rfl) (by decide)
  | callEmpty h' => exact h _ _ h'
  | call hhead _ => exact absurd rfl hhead

/-- A parenthesis behind an atom opens arguments. -/
theorem decided_call (hhead : ts.head? ≠ some .rparen) (h : Decided (.argument a []) ts t rest) :
    Decided (.after .atom a) (.lparen :: ts) t rest := by
  intro t' rest' h'
  cases h' with
  | stop hends => exact absurd (hends _ rfl) (by decide)
  | callEmpty _ => exact absurd rfl hhead
  | call _ h' => exact h _ _ h'

/-- A point behind an atom names a member. -/
theorem decided_member {id : String} (h : Decided (.after .atom (.member a id)) ts t rest) :
    Decided (.after .atom a) (.dot :: .name id :: ts) t rest := by
  intro t' rest' h'
  cases h' with
  | stop hends => exact absurd (hends _ rfl) (by decide)
  | member h' => exact h _ _ h'

/-- An argument stops at a comma or at the parenthesis, not at both. -/
theorem decided_more {read : List Tree} (hfirst : Decided (.start .sum) ts a (.comma :: mid))
    (hrest : Decided (.argument f (read ++ [a])) mid t rest) :
    Decided (.argument f read) ts t rest := by
  intro t' rest' h'
  cases h' with
  | more hfirst' hrest' =>
    obtain ⟨rfl, -, rfl⟩ := hfirst.behind hfirst'
    exact hrest _ _ hrest'
  | last hfirst' _ => exact absurd (hfirst.behind hfirst').2.1 (by decide)

/-- An argument in front of a closing parenthesis is the last. -/
theorem decided_last {read : List Tree} (hfirst : Decided (.start .sum) ts a (.rparen :: mid))
    (hafter : Decided (.after .atom (.call f (read ++ [a]))) mid t rest) :
    Decided (.argument f read) ts t rest := by
  intro t' rest' h'
  cases h' with
  | more hfirst' _ => exact absurd (hfirst.behind hfirst').2.1 (by decide)
  | last hfirst' hafter' =>
    obtain ⟨rfl, -, rfl⟩ := hfirst.behind hfirst'
    exact hafter _ _ hafter'

/-- The reader has one answer at most, since every step is decided by the next token or by the
token that the part before it stopped at. -/
theorem Run.decided (h : Run m ts t rest) : Decided m ts t rest := by
  induction h with
  | sum _ _ ihFirst ihAfter => exact decided_sum ihFirst ihAfter
  | product _ _ ihFirst ihAfter => exact decided_product ihFirst ihAfter
  | neg _ ih => exact decided_neg ih
  | operand hhead _ ih => exact decided_operand hhead ih
  -- a literal or a name has one reading, and the reader goes on behind it
  | int _ ih =>
    intro t' rest' h'
    cases h' with
    | int h' => exact ih _ _ h'
  | str _ ih =>
    intro t' rest' h'
    cases h' with
    | str h' => exact ih _ _ h'
  | name _ ih =>
    intro t' rest' h'
    cases h' with
    | name h' => exact ih _ _ h'
  | enclosed _ _ ihInner ihAfter => exact decided_enclosed ihInner ihAfter
  | stop hends => exact decided_stop hends
  | binary hl _ _ ihRight ihAfter => exact decided_binary hl ihRight ihAfter
  | index _ _ ihInner ihAfter => exact decided_index ihInner ihAfter
  | sliceFrom _ _ ihInner ihAfter => exact decided_sliceFrom ihInner ihAfter
  | slice _ hhead _ _ ihLow ihHigh ihAfter => exact decided_slice ihLow hhead ihHigh ihAfter
  | member _ ih => exact decided_member ih
  | callEmpty _ ih => exact decided_callEmpty ih
  | call hhead _ ih => exact decided_call hhead ih
  | more _ _ ihFirst ihRest => exact decided_more ihFirst ihRest
  | last _ _ ihFirst ihAfter => exact decided_last ihFirst ihAfter

end

/-! ## The reader follows the grammar -/

/-- Whether an expression can begin with the token. -/
def Tok.begins : Tok → Bool
  | .int _ | .str _ | .name _ | .lparen => true
  | .op o => o = .sub
  | _ => false

/-- An expression begins with a token of its own, an atom not with a sign. -/
theorem Groups.exists_begins {l : Level} {xs : List Tok} {t : Tree} (h : Groups l xs t) :
    ∃ k ks, xs = k :: ks ∧ k.begins ∧ (l = .atom → k ≠ .op .sub) := by
  -- the left operand is never empty, so it holds the first token
  match h with
  | .product h | .sign h | .atom h =>
    obtain ⟨k, ks, rfl, hk, -⟩ := h.exists_begins
    exact ⟨k, ks, rfl, hk, by simp⟩
  | .binary _ h _ =>
    obtain ⟨k, ks, rfl, hk, hatom⟩ := h.exists_begins
    exact ⟨k, _, rfl, hk, hatom⟩
  | .neg _ | .int n | .str s | .name id | .enclosed _ => exact ⟨_, _, rfl, rfl, by simp⟩
  | .index h _ | .sliceFrom h _ | .slice h _ _ | .member h | .call h _ =>
    obtain ⟨k, ks, rfl, hk, hatom⟩ := h.exists_begins
    exact ⟨k, _, rfl, hk, hatom⟩

/-- Where a level ends, an atom ends too. -/
theorem ends_atom (h : Ends l ts) : Ends .atom ts := by
  intro k hk
  have hgoes := h k hk
  cases k <;> first | rfl | simp [Level.goesOn] at hgoes

/-- Going on behind an expression, the reader meets nothing that belongs to its
last operand. -/
theorem Run.ends_tighter {a t : Tree}
    (h : Run (.after l a) ts t rest) (hl : l ≠ .atom) : Ends l.tighter ts := by
  cases h with
  -- what ends a level ends the tighter one too
  | stop hends =>
    intro k hk
    have hgoes := hends k hk
    cases l <;> cases k <;> simp_all [Level.goesOn, Level.tighter]
  | @binary op _ _ _ _ _ _ _ hop _ _ =>
    rintro _ ⟨⟩
    subst hop
    cases op <;> decide
  | index _ _ | sliceFrom _ _ | slice _ _ _ _ | member _ | callEmpty _ | call _ _ =>
    exact absurd rfl hl

/-- Behind a sign and its operand nothing is read. -/
theorem Run.eq_of_after_sign {a t : Tree}
    (h : Run (.after .sign a) ts t rest) : t = a ∧ rest = ts ∧ Ends .sign ts := by
  cases h with
  | stop hends => exact ⟨rfl, rfl, hends⟩
  | @binary op _ _ _ _ _ _ _ hop _ _ => cases op <;> exact absurd hop (by decide)

/-- A closing mark ends an expression. -/
theorem ends_sum_cons {k : Tok} (h : Level.sum.goesOn k = false) (ts : List Tok) :
    Ends .sum (k :: ts) := by
  rintro _ ⟨⟩
  exact h

/-- Arguments are absent, or begin with something else than the end of a call. -/
theorem Arguments.eq_nil_or {xs : List Tok} {args : List Tree} (h : Arguments xs args) :
    (xs = [] ∧ args = []) ∨ (args ≠ [] ∧ ∀ rest, (xs ++ rest).head? ≠ some .rparen) := by
  -- no expression begins with a closing parenthesis
  have hfirst : ∀ {ys t}, Groups .sum ys t → ∀ zs, (ys ++ zs).head? ≠ some .rparen := by
    intro ys t hys zs
    obtain ⟨k, ks, rfl, hk, -⟩ := hys.exists_begins
    rintro ⟨⟩
    exact absurd hk (by decide)
  cases h with
  | none => exact .inl ⟨rfl, rfl⟩
  | one h => exact .inr ⟨by simp, hfirst h⟩
  | more h _ =>
    refine .inr ⟨by simp, fun rest => ?_⟩
    rw [List.append_assoc]
    exact hfirst h _

mutual

/-- What groups at a level is read at that level, and the reader goes on behind
it. -/
theorem Groups.run {l : Level} {xs rest last : List Tok} {a t : Tree} (h : Groups l xs a)
    (hafter : Run (.after l a) rest t last) : Run (.start l) (xs ++ rest) t last := by
  match h with
  | .product h => exact .sum (h.run (.stop (hafter.ends_tighter (by simp)))) hafter
  | .sign h => exact .product (h.run (.stop (hafter.ends_tighter (by simp)))) hafter
  | .atom h =>
    -- taken before `xs` is split, so that the recursion is on `h` itself
    have ih := fun (hends : Ends .sign rest) => h.run (.stop (ends_atom hends))
    obtain ⟨k, ks, rfl, -, hk⟩ := h.exists_begins
    obtain ⟨rfl, rfl, hends⟩ := hafter.eq_of_after_sign
    exact .operand (by simpa using hk rfl) (ih hends)
  | .binary hl hleft hright =>
    have hatom : l ≠ .atom := by
      rintro rfl
      revert hl
      cases ‹Operator› <;> decide
    rw [List.append_assoc]
    -- behind its left operand the reader is still inside the same expression
    exact hleft.run (.binary hl (hright.run (.stop (hafter.ends_tighter hatom))) hafter)
  | .neg h =>
    have ih := fun (hends : Ends .sign rest) => h.run (.stop hends)
    obtain ⟨rfl, rfl, hends⟩ := hafter.eq_of_after_sign
    exact .neg (ih hends)
  | .int n => exact .int hafter
  | .str s => exact .str hafter
  | .name id => exact .name hafter
  | .enclosed h =>
    rw [List.append_assoc]
    exact .enclosed (h.run (.stop (ends_sum_cons rfl _))) hafter
  | .index hbase hinner =>
    simp only [List.append_assoc, List.cons_append, List.nil_append]
    exact hbase.run (.index (hinner.run (.stop (ends_sum_cons rfl _))) hafter)
  | .sliceFrom hbase hlow =>
    simp only [List.append_assoc, List.cons_append, List.nil_append]
    exact hbase.run (.sliceFrom (hlow.run (.stop (ends_sum_cons rfl _))) hafter)
  | .slice hbase hlow hhigh =>
    -- the upper bound is not empty, so the slice is not taken for an open one
    obtain ⟨k, ks, hys, hk, -⟩ := hhigh.exists_begins
    simp only [List.append_assoc, List.cons_append, List.nil_append]
    refine hbase.run (.slice (hlow.run (.stop (ends_sum_cons rfl _))) ?_
      (hhigh.run (.stop (ends_sum_cons rfl _))) hafter)
    rw [hys]
    rintro ⟨⟩
    exact absurd hk (by decide)
  | .member hbase =>
    simp only [List.append_assoc, List.cons_append, List.nil_append]
    exact hbase.run (.member hafter)
  | .call hbase hargs =>
    simp only [List.append_assoc, List.cons_append, List.nil_append]
    refine hbase.run ?_
    have ih := fun hne => (hargs.run hne hafter : Run (.argument _ []) _ t last)
    rcases hargs.eq_nil_or with ⟨rfl, rfl⟩ | ⟨hne, hhead⟩
    · exact .callEmpty hafter
    · exact .call (hhead _) (ih hne)

/-- The arguments of a call are read up to its closing parenthesis. -/
theorem Arguments.run {f t : Tree} {xs rest last : List Tok} {read args : List Tree}
    (h : Arguments xs args) (hne : args ≠ [])
    (hafter : Run (.after .atom (.call f (read ++ args))) rest t last) :
    Run (.argument f read) (xs ++ .rparen :: rest) t last := by
  match h with
  | .none => exact absurd rfl hne
  | .one h => exact .last (h.run (.stop (ends_sum_cons rfl _))) hafter
  | .more h hmore =>
    rw [List.append_assoc]
    exact .more (h.run (.stop (ends_sum_cons rfl _))) (hmore.run (by simp) (by simpa using hafter))

end

/-- Tokens group in at most one way. -/
theorem Groups.unique {xs : List Tok} {t u : Tree} (ht : Groups .sum xs t)
    (hu : Groups .sum xs u) : t = u := by
  have hends : Ends .sum [] := by
    rintro _ ⟨⟩
  exact ((ht.run (.stop hends)).decided _ _ (hu.run (.stop hends))).1

/-- A text has at most one reading. -/
theorem Reads.unique {text : String} {t u : Tree} (ht : Reads text t) (hu : Reads text u) :
    t = u := by
  obtain ⟨ts, hscan, hgroups⟩ := ht
  obtain ⟨us, hscan', hgroups'⟩ := hu
  obtain rfl := hscan.unique hscan'
  exact hgroups.unique hgroups'

end Plic.Python
