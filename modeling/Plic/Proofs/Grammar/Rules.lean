import Mathlib
import Plic.Grammar.Program

/-!
# The grammar

The rules of the language over tokens, said without the parser. A rule relates
a stretch of tokens to the tree that it stands for, the places of its nodes
included. The rules of expressions are left-recursive: each tier of operators
groups to the left and binds more tightly than the one before it.

A rule with a fixed row of tokens in it lists their kinds.
-/

namespace Plic.Grammar

/-- What stretches of tokens stand for. -/
abbrev Rule (α : Type) := List Token → α → Prop

variable {α : Type}

/-- Any number of stretches of one rule, one behind the other. -/
inductive Repeated (R : Rule α) : Rule (List α) where
  | nil : Repeated R [] []
  | cons {xs ys : List Token} {a : α} {as : List α} :
      R xs a → Repeated R ys as → Repeated R (xs ++ ys) (a :: as)

/-- One or more stretches of one rule with commas between them. -/
inductive Separated (R : Rule α) : Rule (List α) where
  | one {xs : List Token} {a : α} : R xs a → Separated R xs [a]
  | more {xs ys : List Token} {comma : Token} {a : α} {as : List α} :
      R xs a → comma.kind = .symbol .comma → Separated R ys as →
      Separated R (xs ++ comma :: ys) (a :: as)

/-- A token of one kind, which may be left out. -/
inductive Optional (k : Token.Kind) : List Token → Prop where
  | absent : Optional k []
  | given {t : Token} : t.kind = k → Optional k [t]

/-! ## Names -/

/-- The names of files: a letter or underscore, then letters, digits and
underscores. -/
def IsFileName : List Char → Prop
  | [] => False
  | c :: cs => (c.isAlpha ∨ c = '_') ∧ ∀ d ∈ cs, d.isAlpha ∨ d.isDigit ∨ d = '_'

/-- A character constant names a file, with or without blanks around it. -/
def NamesFile (value name : String) : Prop :=
  IsFileName name.toList ∧ ∃ before behind : List Char,
    value.toList = before ++ name.toList ++ behind ∧
      (∀ c ∈ before, Text.isBlank c) ∧ ∀ c ∈ behind, Text.isBlank c

/-- A token that can name a procedure: an identifier, or a keyword by its
spelling in small letters. -/
inductive Named : Token → String → Prop where
  | identifier {t : Token} {n : String} : t.kind = .name n → Named t n
  | keyword {t : Token} {k : Keyword} : t.kind = .keyword k → Named t (Text.lower t.lexeme)

/-! ## Expressions -/

/-- The tiers of expressions, from loose to tight. -/
inductive Tier where
  | concat | sum | product | sign | primary
deriving DecidableEq

/-- The tier of the operands of a tier. -/
def Tier.tighter : Tier → Tier
  | concat => sum
  | sum => product
  | product => sign
  | sign => primary
  | primary => primary

/-- The operators of the tiers that have binary ones. -/
inductive Joins : Tier → Symbol → Operator → Prop where
  | concat : Joins .concat .concat .concat
  | add : Joins .sum .plus .add
  | sub : Joins .sum .minus .sub
  | mul : Joins .product .star .mul
  | div : Joins .product .slash .div

/-- The words for the functions. -/
inductive Calls : Keyword → Builtin → Prop where
  | substr : Calls .SUBSTR .substr
  | index : Calls .INDEX .index
  | decimal : Calls .DECIMAL .decimal
  | mod : Calls .MOD .mod

/-- The numbers of arguments that the functions take. -/
inductive Takes : Builtin → Nat → Prop where
  | substr : Takes .substr 2
  | substrLength : Takes .substr 3
  | index : Takes .index 2
  | decimal : Takes .decimal 1
  | mod : Takes .mod 2

mutual

/-- Expressions, by tier. -/
inductive Expression : Tier → Rule Expr where
  -- the tightest tier has no operands, only rules of its own
  | operand {tier : Tier} {xs : List Token} {e : Expr} :
      tier ≠ .primary → Expression tier.tighter xs e → Expression tier xs e
  | binary {tier : Tier} {xs ys : List Token} {t : Token} {m : Symbol} {op : Operator}
      {l r : Expr} :
      Joins tier m op → Expression tier xs l → t.kind = .symbol m →
      Expression tier.tighter ys r → Expression tier (xs ++ t :: ys) (.binary op l r t.loc)
  | minus {t : Token} {xs : List Token} {e : Expr} :
      t.kind = .symbol .minus → Expression .sign xs e →
      Expression .sign (t :: xs) (.neg e t.loc)
  -- neither a plus nor parentheses leave a node
  | plus {t : Token} {xs : List Token} {e : Expr} :
      t.kind = .symbol .plus → Expression .sign xs e → Expression .sign (t :: xs) e
  | number {t : Token} {n : Nat} :
      t.kind = .number n → Expression .primary [t] (.number n t.loc)
  | text {t : Token} {value : String} :
      t.kind = .text value → Expression .primary [t] (.text value t.loc)
  | reference {xs : List Token} {r : Reference} :
      Referenced xs r → Expression .primary xs r.toExpr
  | enclosed {o c : Token} {xs : List Token} {e : Expr} :
      o.kind = .symbol .lparen → Expression .concat xs e → c.kind = .symbol .rparen →
      Expression .primary (o :: xs ++ [c]) e
  | call {t o c : Token} {k : Keyword} {f : Builtin} {xs : List Token} {args : List Expr} :
      t.kind = .keyword k → Calls k f → o.kind = .symbol .lparen →
      Separated (Expression .concat) xs args → c.kind = .symbol .rparen →
      Takes f args.length → Expression .primary (t :: o :: xs ++ [c]) (.call f args t.loc)
  | endfile {t o v c : Token} {value name : String} :
      t.kind = .keyword .ENDFILE → o.kind = .symbol .lparen → v.kind = .text value →
      NamesFile value name → c.kind = .symbol .rparen →
      Expression .primary [t, o, v, c] (.endfile name t.loc)

/-- Variables with or without subscripts. -/
inductive Referenced : Rule Reference where
  | scalar {t : Token} {n : String} : t.kind = .name n → Referenced [t] ⟨n, [], t.loc⟩
  | element {t o c : Token} {n : String} {xs : List Token} {subscripts : List Expr} :
      t.kind = .name n → o.kind = .symbol .lparen →
      Separated (Expression .concat) xs subscripts → c.kind = .symbol .rparen →
      Referenced (t :: o :: xs ++ [c]) ⟨n, subscripts, t.loc⟩

end

/-! ## Conditions -/

/-- The symbols of the relations. -/
inductive Relates : Symbol → Relation → Prop where
  | eq : Relates .eq .eq
  | eqEq : Relates .eqEq .eq
  | ne : Relates .ne .ne
  | lt : Relates .lt .lt
  | le : Relates .le .le
  | gt : Relates .gt .gt
  | ge : Relates .ge .ge

/-- Two expressions with a relation between them. -/
inductive Compared : Rule Condition where
  | intro {t r : Token} {xs ys : List Token} {m : Symbol} {op : Relation} {left right : Expr} :
      Expression .concat (t :: xs) left → r.kind = .symbol m → Relates m op →
      Expression .concat ys right → Compared (t :: xs ++ r :: ys) ⟨left, op, right, t.loc⟩

/-- A comparison, in at most one pair of parentheses of its own. -/
inductive Tested : Rule Condition where
  | bare {xs : List Token} {c : Condition} : Compared xs c → Tested xs c
  | enclosed {o p : Token} {xs : List Token} {c : Condition} :
      o.kind = .symbol .lparen → Compared xs c → p.kind = .symbol .rparen →
      Tested (o :: xs ++ [p]) c

/-! ## Statements -/

/-- `FILE('name')`. -/
inductive FileGiven : Rule String where
  | intro {hs : List Token} {v c : Token} {value name : String} :
      hs.map Token.kind = [.keyword .FILE, .symbol .lparen] → v.kind = .text value →
      NamesFile value name → c.kind = .symbol .rparen → FileGiven (hs ++ [v, c]) name

/-- The words for the directions in which a file is opened. -/
inductive Opens : Keyword → FileMode → Prop where
  | input : Opens .INPUT .input
  | output : Opens .OUTPUT .output

/-- The step of an iterative `DO`, which may be left out. -/
inductive Stepped : Rule (Option Expr) where
  | absent : Stepped [] none
  | given {t : Token} {xs : List Token} {e : Expr} :
      t.kind = .keyword .BY → Expression .concat xs e → Stepped (t :: xs) (some e)

/-- What a `PUT` writes: items, or nothing behind `SKIP` alone. -/
inductive Listed : Rule (List Expr) where
  | skip {t : Token} : t.kind = .keyword .SKIP → Listed [t] []
  | items {skips hs xs : List Token} {c : Token} {es : List Expr} :
      Optional (.keyword .SKIP) skips →
      hs.map Token.kind = [.keyword .LIST, .symbol .lparen] →
      Separated (Expression .concat) xs es → c.kind = .symbol .rparen →
      Listed (skips ++ hs ++ xs ++ [c]) es

/-- The branches of a `SELECT` as a chain, from its `WHEN` clauses and what
stands behind them. -/
def branchesOf (whens : List (List Expr × List Stmt × Location)) (last : Branches) : Branches :=
  whens.foldr (fun w rest => .when w.1 w.2.1 w.2.2 rest) last

mutual

/-- Single statements. -/
inductive Statement : Rule Stmt where
  -- the place of a statement is that of its first token
  | assign {xs ys : List Token} {q s : Token} {r : Reference} {e : Expr} :
      Referenced xs r → q.kind = .symbol .eq → Expression .concat ys e →
      s.kind = .symbol .semicolon → Statement (xs ++ q :: ys ++ [s]) (.assign r e r.loc)
  | ifElse {i t e : Token} {xs ys zs : List Token} {c : Condition} {yes no : List Stmt} :
      i.kind = .keyword .IF → Tested xs c → t.kind = .keyword .THEN → Group ys yes →
      e.kind = .keyword .ELSE → Group zs no →
      Statement (i :: xs ++ t :: ys ++ e :: zs) (.ifElse c yes no i.loc)
  | doWhile {d : Token} {hs xs ms ys es : List Token} {c : Condition} {bodies : List (List Stmt)} :
      d.kind = .keyword .DO → hs.map Token.kind = [.keyword .WHILE, .symbol .lparen] →
      Tested xs c → ms.map Token.kind = [.symbol .rparen, .symbol .semicolon] →
      Repeated Group ys bodies → es.map Token.kind = [.keyword .END, .symbol .semicolon] →
      Statement (d :: hs ++ xs ++ ms ++ ys ++ es) (.doWhile c bodies.flatten d.loc)
  | doLoop {d q t s : Token} {vs xs ys ks zs es : List Token} {v : Reference}
      {start limit : Expr} {step : Option Expr} {bodies : List (List Stmt)} :
      d.kind = .keyword .DO → Referenced vs v → q.kind = .symbol .eq →
      Expression .concat xs start → t.kind = .keyword .TO → Expression .concat ys limit →
      Stepped ks step → s.kind = .symbol .semicolon → Repeated Group zs bodies →
      es.map Token.kind = [.keyword .END, .symbol .semicolon] →
      Statement (d :: vs ++ q :: xs ++ t :: ys ++ ks ++ s :: zs ++ es)
        (.doLoop v start limit step bodies.flatten d.loc)
  -- at least one `WHEN`, and nothing but `END` behind `OTHER`
  | select {k o : Token} {xs ms ws os es : List Token} {subject : Expr}
      {whens : List (List Expr × List Stmt × Location)} {last : Branches} :
      k.kind = .keyword .SELECT → o.kind = .symbol .lparen → Expression .concat xs subject →
      ms.map Token.kind = [.symbol .rparen, .symbol .semicolon] →
      Repeated When ws whens → whens ≠ [] → Otherwise os last →
      es.map Token.kind = [.keyword .END, .symbol .semicolon] →
      Statement (k :: o :: xs ++ ms ++ ws ++ os ++ es)
        (.select subject (branchesOf whens last) k.loc)
  | put {t s : Token} {xs : List Token} {items : List Expr} :
      t.kind = .keyword .PUT → Listed xs items → s.kind = .symbol .semicolon →
      Statement (t :: xs ++ [s]) (.put items t.loc)
  | get {t : Token} {hs xs es : List Token} {targets : List Reference} :
      t.kind = .keyword .GET → hs.map Token.kind = [.keyword .LIST, .symbol .lparen] →
      Separated Referenced xs targets →
      es.map Token.kind = [.symbol .rparen, .symbol .semicolon] →
      Statement (t :: hs ++ xs ++ es) (.get targets t.loc)
  | openFile {t m s : Token} {xs : List Token} {k : Keyword} {name : String} {mode : FileMode} :
      t.kind = .keyword .OPEN → FileGiven xs name → m.kind = .keyword k → Opens k mode →
      s.kind = .symbol .semicolon → Statement (t :: xs ++ [m, s]) (.openFile name mode t.loc)
  | read {t : Token} {xs hs ys es : List Token} {name : String} {target : Reference} :
      t.kind = .keyword .READ → FileGiven xs name →
      hs.map Token.kind = [.keyword .INTO, .symbol .lparen] → Referenced ys target →
      es.map Token.kind = [.symbol .rparen, .symbol .semicolon] →
      Statement (t :: xs ++ hs ++ ys ++ es) (.read name target t.loc)
  | write {t : Token} {xs hs ys es : List Token} {name : String} {source : Reference} :
      t.kind = .keyword .WRITE → FileGiven xs name →
      hs.map Token.kind = [.keyword .FROM, .symbol .lparen] → Referenced ys source →
      es.map Token.kind = [.symbol .rparen, .symbol .semicolon] →
      Statement (t :: xs ++ hs ++ ys ++ es) (.write name source t.loc)
  | closeFile {t s : Token} {xs : List Token} {name : String} :
      t.kind = .keyword .CLOSE → FileGiven xs name → s.kind = .symbol .semicolon →
      Statement (t :: xs ++ [s]) (.closeFile name t.loc)
  | query {t w q i s : Token} {cs xs : List Token} {sql : String} {target : Reference} :
      t.kind = .keyword .EXEC → w.kind = .keyword .SQL → q.kind = .query sql →
      i.kind = .keyword .INTO → Optional (.symbol .colon) cs → Referenced xs target →
      s.kind = .symbol .semicolon →
      Statement (t :: w :: q :: i :: cs ++ xs ++ [s]) (.query sql target t.loc)

/-- One statement, or a row of groups between `DO;` and `END;`, whose
statements it contributes. -/
inductive Group : Rule (List Stmt) where
  | single {xs : List Token} {s : Stmt} : Statement xs s → Group xs [s]
  | block {hs xs es : List Token} {bodies : List (List Stmt)} :
      hs.map Token.kind = [.keyword .DO, .symbol .semicolon] → Repeated Group xs bodies →
      es.map Token.kind = [.keyword .END, .symbol .semicolon] →
      Group (hs ++ xs ++ es) bodies.flatten

/-- One `WHEN` clause. -/
inductive When : Rule (List Expr × List Stmt × Location) where
  | intro {w o c : Token} {xs ys : List Token} {values : List Expr} {body : List Stmt} :
      w.kind = .keyword .WHEN → o.kind = .symbol .lparen →
      Separated (Expression .concat) xs values → c.kind = .symbol .rparen → Group ys body →
      When (w :: o :: xs ++ c :: ys) (values, body, w.loc)

/-- What follows the `WHEN` clauses. -/
inductive Otherwise : Rule Branches where
  | absent : Otherwise [] .done
  | other {t : Token} {xs : List Token} {body : List Stmt} :
      t.kind = .keyword .OTHER → Group xs body → Otherwise (t :: xs) (.other body)

end

/-! ## Programs -/

/-- The name of a procedure repeated at its end, or left out there. -/
inductive Labelled (name : String) : List Token → Prop where
  | absent : Labelled name []
  | same {t : Token} : Named t name → Labelled name [t]

/-- What stands between the label and the body of a program. -/
abbrev headKinds : List Token.Kind :=
  [.symbol .colon, .keyword .PROC, .keyword .OPTIONS, .symbol .lparen, .keyword .MAIN,
    .symbol .rparen, .symbol .semicolon]

/-- Programs without declarations, up to and with the end of the source. -/
inductive Derives : Rule Program where
  | intro {n e s eof : Token} {hs xs ls : List Token} {name : String}
      {bodies : List (List Stmt)} :
      Named n name → hs.map Token.kind = headKinds → Repeated Group xs bodies →
      e.kind = .keyword .END → Labelled name ls → s.kind = .symbol .semicolon → eof.kind = .eof →
      Derives (n :: hs ++ xs ++ e :: ls ++ [s, eof]) ⟨name, [], bodies.flatten, n.loc⟩

end Plic.Grammar
