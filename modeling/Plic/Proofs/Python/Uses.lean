import Plic.Proofs.Python.Lexemes

/-!
# The names that a text uses

A word that is neither a keyword nor a number is a name, unless a point stands
before it. What stands beside a name tells what it is used for: it is defined
behind `def`, `import` and `as`, stored into at the start of a line with a single
`=` behind it, called in front of a parenthesis, and read everywhere else. A name
with a single `=` behind it elsewhere is that of an argument and not a use.

What generated code uses is said on its tree as a row of atoms: the names of
variables and temporaries, and the functions that are called.

Main results:

* `Expr.spends_lexemes` — the names that the text of an expression uses.
* `Procedure.uses_lexemes` — the names that the text of a procedure uses.
-/

namespace Plic.Python

/-! ## Uses -/

/-- What a name is used for. -/
inductive Role where
  | defined | stored | called | read
deriving DecidableEq

/-- A name with what it is used for. -/
structure Use where
  name : String
  role : Role
deriving DecidableEq

/-- Whether the word is a name: neither a keyword nor a number. -/
def isNameWord (w : String) : Bool := w ∉ keywords && !w.toList.head?.any Char.isDigit

/-- What a name is defined behind. -/
def introducers : List (Option Lexeme) :=
  [some (.word "def"), some (.word "import"), some (.word "as")]

/-- Whether the lexemes begin with a single `=`. -/
def isStore (ls : List Lexeme) : Bool :=
  ls.head? = some (.mark '=') && ls.tail.head? ≠ some (.mark '=')

/-- Whether the lexemes begin with a parenthesis. -/
def isCall (ls : List Lexeme) : Bool := ls.head? = some (.mark '(')

/-- The use of a word between the lexeme before it and the lexemes behind it. -/
def useOf (prev : Option Lexeme) (w : String) (rest : List Lexeme) : Option Use :=
  if !isNameWord w || prev = some (.mark '.') then none
  else if prev ∈ introducers then some ⟨w, .defined⟩
  else if isStore rest then
    if prev = none ∨ prev = some .feed then some ⟨w, .stored⟩ else none
  else if isCall rest then some ⟨w, .called⟩
  else some ⟨w, .read⟩

/-- The names that the lexemes use, from left to right, with the lexeme that stands before them. -/
def usesFrom : Option Lexeme → List Lexeme → List Use
  | _, [] => []
  | prev, .word w :: rest => (useOf prev w rest).toList ++ usesFrom (some (.word w)) rest
  | _, .literal v :: rest => usesFrom (some (.literal v)) rest
  | _, .mark c :: rest => usesFrom (some (.mark c)) rest
  | _, .feed :: rest => usesFrom (some .feed) rest

/-- The names that a row of lexemes uses. -/
def uses (ls : List Lexeme) : List Use := usesFrom none ls

/-- A call with a named argument and a member. -/
example : (lex "x = f(y, file=sys.stderr)\nimport re".toList).map uses =
    some [⟨"x", .stored⟩, ⟨"f", .called⟩, ⟨"y", .read⟩, ⟨"sys", .read⟩, ⟨"re", .defined⟩] := by
  decide +kernel

/-- The start of a text is the start of a line. -/
theorem usesFrom_feed (ls : List Lexeme) : usesFrom (some .feed) ls = usesFrom none ls := by
  cases ls with
  | nil => rfl
  | cons l ls =>
    cases l with
    | word w => simp [usesFrom, useOf, introducers]
    | _ => rfl

/-- The end of a line takes nothing from what stands before it. -/
theorem useOf_append_feed (prev : Option Lexeme) (w : String) (ls rest : List Lexeme) :
    useOf prev w (ls ++ .feed :: rest) = useOf prev w ls := by
  have hstore : isStore (ls ++ .feed :: rest) = isStore ls := by
    rcases ls with _ | ⟨l, _ | ⟨m, ls⟩⟩ <;> simp [isStore]
  have hcall : isCall (ls ++ .feed :: rest) = isCall ls := by
    rcases ls with _ | ⟨l, ls⟩ <;> simp [isCall]
  rw [useOf, useOf, hstore, hcall]

/-- The uses of lines are those of each line in turn. -/
theorem usesFrom_append_feed (prev : Option Lexeme) (ls rest : List Lexeme) :
    usesFrom prev (ls ++ .feed :: rest) = usesFrom prev ls ++ usesFrom none rest := by
  induction ls generalizing prev with
  | nil => exact usesFrom_feed rest
  | cons l ls ih =>
    cases l with
    | word w =>
      rw [List.cons_append, usesFrom, usesFrom, ih, useOf_append_feed, List.append_assoc]
    | _ => exact ih _

/-- Line ends separate uses, so those of a text are the uses of its lines in order. -/
theorem uses_textLexemes (lines : List (List Lexeme)) :
    uses (textLexemes lines) = lines.flatMap uses := by
  induction lines with
  | nil => rfl
  | cons ls lines ih =>
    rw [textLexemes, List.flatMap_cons, List.append_assoc, uses, List.singleton_append,
      usesFrom_append_feed, List.flatMap_cons]
    exact congrArg _ ih

/-! ## Lexemes in a row -/

/-- The lexeme has no part in what the name behind it is used for. -/
def Neutral (prev : Option Lexeme) : Prop := prev ≠ some (.mark '.') ∧ prev ∉ introducers

instance (prev : Option Lexeme) : Decidable (Neutral prev) := inferInstanceAs (Decidable (_ ∧ _))

/-- Every mark but a point leaves the next name as it is. -/
theorem neutral_mark {c : Char} (h : c ≠ '.') : Neutral (some (.mark c)) := by
  refine ⟨by simpa using h, ?_⟩
  simp [introducers]

/-- The lexemes have no part in what a name before them is used for, nor has what
stands before them a part in their own uses. -/
structure Free (rest : List Lexeme) : Prop where
  store : isStore rest = false
  call  : isCall rest = false
  prev  : ∀ p, usesFrom p rest = usesFrom none rest

/-- Nothing behind a name says that it is called or stored into. -/
theorem free_nil : Free [] := ⟨rfl, rfl, fun _ => rfl⟩

theorem free_mark {c : Char} (hparen : c ≠ '(') (hstore : c ≠ '=') (rest : List Lexeme) :
    Free (.mark c :: rest) :=
  ⟨by simp [isStore, hstore], by simp [isCall, hparen], fun _ => rfl⟩

/-- Two equal signs compare and do not store. -/
theorem free_equals (rest : List Lexeme) : Free (.mark '=' :: .mark '=' :: rest) :=
  ⟨rfl, rfl, fun _ => rfl⟩

/-- A keyword is not a name, wherever it stands. -/
theorem useOf_keyword {w : String} (h : w ∈ keywords) (prev : Option Lexeme) (rest : List Lexeme) :
    useOf prev w rest = none := by
  have hname : isNameWord w = false := by simp [isNameWord, h]
  rw [useOf, hname]
  rfl

theorem usesFrom_keyword {w : String} (h : w ∈ keywords) (prev : Option Lexeme)
    (rest : List Lexeme) :
    usesFrom prev (.word w :: rest) = usesFrom (some (.word w)) rest := by
  rw [usesFrom, useOf_keyword h]
  rfl

/-- A keyword behind a name makes no call and no store of it. -/
theorem free_keyword {w : String} (h : w ∈ keywords) (rest : List Lexeme) :
    Free (.word w :: rest) :=
  ⟨rfl, rfl, fun p => by rw [usesFrom_keyword h, usesFrom_keyword h]⟩

/-- The lexemes use the given names wherever they stand, and nothing else. -/
def Spends (ls : List Lexeme) (us : List Use) : Prop :=
  ∀ prev rest, Neutral prev → Free rest → usesFrom prev (ls ++ rest) = us ++ usesFrom none rest

/-- The code uses the given names, and what stands beside it is not touched. -/
def Emits (cs : List Lexeme) (ws : List Use) : Prop :=
  ∀ tail, Free (cs ++ tail) ∧ ∃ last, Neutral last ∧
    usesFrom none (cs ++ tail) = ws ++ usesFrom last tail

section

variable {a b cs : List Lexeme} {us vs ws : List Use}

theorem spends_nil : Spends [] [] := fun _ _ _ hrest => hrest.prev _

/-- What is put behind adds its own uses, whatever comes after. -/
theorem Spends.behind (ha : Spends a us) (hcs : Emits cs ws) : Spends (a ++ cs) (us ++ ws) := by
  intro prev rest hprev hrest
  obtain ⟨hfree, last, -, hcode⟩ := hcs rest
  rw [List.append_assoc, ha prev _ hprev hfree, hcode, hrest.prev last, List.append_assoc]

theorem Spends.after (hb : Spends b vs) (hcs : Emits cs ws) : Spends (cs ++ b) (ws ++ vs) := by
  intro prev rest _ hrest
  obtain ⟨hfree, last, hlast, hcode⟩ := hcs (b ++ rest)
  rw [List.append_assoc, hfree.prev prev, hcode, hb last rest hlast hrest, List.append_assoc]

/-- Two parts with code between them use what each of the three uses. -/
theorem Spends.around (ha : Spends a us) (hb : Spends b vs) (hcs : Emits cs ws) :
    Spends (a ++ cs ++ b) (us ++ ws ++ vs) := by
  rw [List.append_assoc, List.append_assoc]
  intro prev rest hprev hrest
  obtain ⟨hfree, last, hlast, hcode⟩ := hcs (b ++ rest)
  rw [List.append_assoc, List.append_assoc, ha prev _ hprev hfree, hcode,
    hb last rest hlast hrest, List.append_assoc, List.append_assoc]

/-- A row of lexemes that stands on a line of its own. -/
theorem Spends.uses_eq (h : Spends a us) : uses a = us := by
  have hline := h none [] (by decide) free_nil
  rwa [List.append_nil, usesFrom, List.append_nil] at hline

/-- A mark with no meaning for names adds no use. -/
theorem emits_mark {c : Char} (hparen : c ≠ '(') (hstore : c ≠ '=') (hpoint : c ≠ '.') :
    Emits [.mark c] [] := fun _ =>
  ⟨free_mark hparen hstore _, some (.mark c), neutral_mark hpoint, rfl⟩

theorem emits_keyword {w : String} (h : w ∈ keywords) (hneutral : Neutral (some (.word w))) :
    Emits [.word w] [] := fun tail =>
  ⟨free_keyword h _, some (.word w), hneutral, usesFrom_keyword h none tail⟩

/-- A mark can be put in front, as long as nothing before it depends on it. -/
theorem Emits.cons_mark (hcs : Emits cs ws) {c : Char} (hparen : c ≠ '(') (hstore : c ≠ '=') :
    Emits (.mark c :: cs) ws := by
  intro tail
  obtain ⟨hfree, last, hlast, hcode⟩ := hcs tail
  refine ⟨free_mark hparen hstore _, last, hlast, ?_⟩
  rw [← hcode]
  exact hfree.prev _

/-- A literal uses no name, whatever stands in it. -/
theorem spends_literal (v : String) : Spends [.literal v] [] := fun _ _ _ hrest => hrest.prev _

theorem spends_number {w : String} (h : isNameWord w = false) : Spends [.word w] [] := by
  intro prev rest _ hrest
  have huse : useOf prev w rest = none := by
    rw [useOf, h]
    rfl
  show (useOf prev w rest).toList ++ usesFrom _ rest = _
  rw [huse, hrest.prev]
  rfl

/-- A name alone is read. -/
theorem spends_name {w : String} (h : isNameWord w) : Spends [.word w] [⟨w, .read⟩] := by
  intro prev rest hprev hrest
  have huse : useOf prev w rest = some ⟨w, .read⟩ := by
    rw [useOf, h, if_neg (by simp [hprev.1]), if_neg hprev.2, hrest.store, hrest.call]
    rfl
  show (useOf prev w rest).toList ++ usesFrom _ rest = _
  rw [huse, hrest.prev]
  rfl

/-- A name in front of a parenthesis is called. -/
theorem Spends.called (hb : Spends b vs) {w : String} (h : isNameWord w) :
    Spends ([.word w] ++ [.mark '('] ++ b ++ [.mark ')']) (⟨w, .called⟩ :: vs) := by
  intro prev rest hprev hrest
  have hclose : Free (.mark ')' :: rest) := free_mark (by decide) (by decide) rest
  have hargs := hb (some (.mark '(')) (.mark ')' :: rest) (neutral_mark (by decide)) hclose
  have huse : useOf prev w (.mark '(' :: (b ++ .mark ')' :: rest)) = some ⟨w, .called⟩ := by
    rw [useOf, h, if_neg (by simp [hprev.1]), if_neg hprev.2]
    rfl
  have hlist : [.word w] ++ [.mark '('] ++ b ++ [.mark ')'] ++ rest =
      Lexeme.word w :: .mark '(' :: (b ++ .mark ')' :: rest) := by simp
  rw [hlist, usesFrom, huse, usesFrom, hargs, usesFrom, hrest.prev]
  rfl

/-- Parentheses change nothing. -/
theorem Spends.enclose (h : Spends a us) (needed : Bool) : Spends (encloseLexemes needed a) us := by
  cases needed with
  | false => exact h
  | true =>
    intro prev rest _ hrest
    have hclose : Free (.mark ')' :: rest) := free_mark (by decide) (by decide) rest
    have hinner := h (some (.mark '(')) (.mark ')' :: rest) (neutral_mark (by decide)) hclose
    have hlist : encloseLexemes true a ++ rest = .mark '(' :: (a ++ .mark ')' :: rest) := by
      simp [encloseLexemes]
    rw [hlist, usesFrom, hinner, usesFrom, hrest.prev]

end

/-! ## Expressions -/

/-- What generated code uses by name. -/
inductive Atom where
  /-- A variable or temporary that is read. -/
  | name (id : String)
  /-- A variable or temporary that is stored into. -/
  | place (id : String)
  | function (f : Function)
  /-- The name for the rounds of a list that is computed item by item. -/
  | each
  /-- The function that counts these rounds. -/
  | range
deriving DecidableEq

/-- The use that an atom of the tree is in the text. -/
def Atom.use : Atom → Use
  | name id => ⟨id, .read⟩
  | place id => ⟨id, .stored⟩
  | function f => ⟨f.name, .called⟩
  | each => ⟨"_", .read⟩
  | range => ⟨"range", .called⟩

mutual

/-- The names that an expression uses, in the order of its text. A list of a given length has two of
its own, those of the round that builds it. -/
@[simp] def Expr.atoms : Expr → List Atom
  | .int _ => []
  | .str _ => []
  | .name id => [.name id]
  | .neg e => e.atoms
  | .binary _ l r => l.atoms ++ r.atoms
  | .index b i => b.atoms ++ i.atoms
  | .sliceFrom b lo => b.atoms ++ lo.atoms
  | .slice b lo hi => b.atoms ++ lo.atoms ++ hi.atoms
  | .call f args => .function f :: atomsAll args
  | .find t p => t.atoms ++ p.atoms
  | .single e => e.atoms
  | .replicate e n => e.atoms ++ [.each, .range] ++ n.atoms

/-- The names that the expressions of a list use. -/
@[simp] def atomsAll : List Expr → List Atom
  | [] => []
  | e :: es => e.atoms ++ atomsAll es

end

/-- The names are neither keywords nor numbers. -/
def Leaf.Named : Leaf → Prop
  | text _ => True
  | name id => isNameWord id

theorem isNameWord_nat (n : Nat) : isNameWord (toString n) = false := by
  have hdigits : toString n = String.ofList (Nat.toDigits 10 n) := Nat.toString_eq_ofList_toDigits
  cases hcs : Nat.toDigits 10 n with
  | nil => exact absurd hcs Nat.toDigits_ne_nil
  | cons c cs =>
    have hdigit : c.isDigit :=
      Nat.isDigit_of_mem_toDigits (by decide) (by decide) (hcs ▸ List.mem_cons_self)
    simp [isNameWord, hdigits, hcs, hdigit]

/-- The functions that generated code calls have names. -/
theorem isNameWord_function (f : Function) : isNameWord f.name := by cases f <;> decide +kernel

theorem emits_operator (op : Operator) : Emits [.mark op.char] [] := by
  cases op <;> exact emits_mark (by decide) (by decide) (by decide)

theorem emits_comma : Emits [.mark ','] [] := emits_mark (by decide) (by decide) (by decide)

theorem emits_colon : Emits [.mark ':'] [] := emits_mark (by decide) (by decide) (by decide)

theorem emits_openIndex : Emits [.mark '['] [] := emits_mark (by decide) (by decide) (by decide)

theorem emits_closeIndex : Emits [.mark ']'] [] := emits_mark (by decide) (by decide) (by decide)

/-- Numbers use no names, with or without a sign. -/
theorem spends_int (n : Int) : Spends (intLexemes n) [] := by
  have hnumber : Spends [.word (toString n.natAbs)] [] := spends_number (isNameWord_nat _)
  unfold intLexemes
  split
  · exact hnumber.after (emits_mark (by decide) (by decide) (by decide))
  · exact hnumber

/-- A member is called, whose name is not a use. -/
theorem emits_find : Emits [.mark '.', .word "find", .mark '('] [] := fun _ =>
  ⟨free_mark (by decide) (by decide) _, some (.mark '('), by decide, rfl⟩

/-- The round that builds a list uses the name it counts with and the range. -/
theorem emits_rounds : Emits [.word "for", .word "_", .word "in", .word "range", .mark '(']
    [⟨"_", .read⟩, ⟨"range", .called⟩] := fun _ =>
  ⟨free_keyword (by decide) _, some (.mark '('), by decide, rfl⟩

mutual

/-- The text of an expression uses its atoms. -/
theorem Expr.spends_lexemes (e : Expr) (h : ∀ l ∈ e.leaves, l.Named) :
    Spends e.lexemes (e.atoms.map Atom.use) := by
  match e with
  | .int n => exact spends_int n
  | .str s => exact spends_literal s
  | .name id => exact spends_name (h (.name id) List.mem_cons_self)
  | .neg e =>
    exact ((e.spends_lexemes h).enclose _).after (emits_mark (by decide) (by decide) (by decide))
  | .binary op l r =>
    rw [Expr.leaves, List.forall_mem_append] at h
    -- each form is its operands with code between them, which uses nothing
    have hspends := ((l.spends_lexemes h.1).enclose (l.level.rank < op.level.rank)).around
      ((r.spends_lexemes h.2).enclose (r.level.rank ≤ op.level.rank)) (emits_operator op)
    simpa [Expr.lexemes] using hspends
  | .index b i =>
    rw [Expr.leaves, List.forall_mem_append] at h
    have hspends := (((b.spends_lexemes h.1).enclose (b.level.rank < Level.atom.rank)).around
      (i.spends_lexemes h.2) emits_openIndex).behind emits_closeIndex
    simpa [Expr.lexemes] using hspends
  | .sliceFrom b lo =>
    rw [Expr.leaves, List.forall_mem_append] at h
    have hclose : Emits [.mark ':', .mark ']'] [] :=
      emits_closeIndex.cons_mark (by decide) (by decide)
    have hspends := (((b.spends_lexemes h.1).enclose (b.level.rank < Level.atom.rank)).around
      (lo.spends_lexemes h.2) emits_openIndex).behind hclose
    simpa [Expr.lexemes] using hspends
  | .slice b lo hi =>
    simp only [Expr.leaves, List.forall_mem_append] at h
    have hspends := ((((b.spends_lexemes h.1.1).enclose (b.level.rank < Level.atom.rank)).around
      (lo.spends_lexemes h.1.2) emits_openIndex).around (hi.spends_lexemes h.2)
      emits_colon).behind emits_closeIndex
    simpa [Expr.lexemes] using hspends
  | .call f args => exact (spends_lexemesAll args h).called (isNameWord_function f)
  -- the name of the method stands behind a point, so it is no use
  | .find t p =>
    rw [Expr.leaves, List.forall_mem_append] at h
    have hclose : Emits [.mark ')'] [] := emits_mark (by decide) (by decide) (by decide)
    have hspends := (((t.spends_lexemes h.1).enclose (t.level.rank < Level.atom.rank)).around
      (p.spends_lexemes h.2) emits_find).behind hclose
    simpa [Expr.lexemes] using hspends
  | .single e =>
    have hspends := ((e.spends_lexemes h).after emits_openIndex).behind emits_closeIndex
    simpa [Expr.lexemes] using hspends
  | .replicate e n =>
    rw [Expr.leaves, List.forall_mem_append] at h
    have hclose : Emits [.mark ')', .mark ']'] [] :=
      emits_closeIndex.cons_mark (by decide) (by decide)
    have hspends := (((e.spends_lexemes h.1).after emits_openIndex).around
      (n.spends_lexemes h.2) emits_rounds).behind hclose
    simpa [Expr.lexemes, Atom.use] using hspends

/-- A list of expressions uses what they use, since commas add nothing. -/
theorem spends_lexemesAll (es : List Expr) (h : ∀ l ∈ leavesAll es, l.Named) :
    Spends (lexemesAll es) ((atomsAll es).map Atom.use) := by
  match es with
  | [] => exact spends_nil
  | [e] =>
    rw [leavesAll, leavesAll, List.append_nil] at h
    simpa [lexemesAll] using e.spends_lexemes h
  | e :: e' :: es =>
    rw [leavesAll, List.forall_mem_append] at h
    have hspends := (e.spends_lexemes h.1).around (spends_lexemesAll (e' :: es) h.2) emits_comma
    simpa [lexemesAll] using hspends

end

/-! ## Lines -/

/-- The names that a comparison uses. -/
@[simp] def Comparison.atoms (c : Comparison) : List Atom := c.left.atoms ++ c.right.atoms

/-- The names that a test uses, in the order of its text. -/
@[simp] def Test.atoms : Test → List Atom
  | holds c => c.atoms
  | oneOf e es => e.atoms ++ atomsAll es
  | choice yes condition no => yes.atoms ++ condition.atoms ++ no.atoms

/-- The names in the target of an assignment. Only a name by itself is stored into; an element of an
array reads the array. -/
@[simp] def Expr.targetAtoms : Expr → List Atom
  | .name id => [.place id]
  | t => t.atoms

mutual

/-- The names that a statement uses, in the order of its text. -/
@[simp] def Stmt.atoms : Stmt → List Atom
  | .assign t v => t.targetAtoms ++ v.atoms
  | .update t _ v => t.atoms ++ v.atoms
  | .run e => e.atoms
  | .branch arms => arms.atoms
  | .loop t body => t.atoms ++ blockAtoms body

/-- The atoms of statements in a row. -/
@[simp] def blockAtoms : List Stmt → List Atom
  | [] => []
  | s :: ss => s.atoms ++ blockAtoms ss

/-- The names that arms use, each test before its body. -/
@[simp] def Arms.atoms : Arms → List Atom
  | .done => []
  | .otherwise body => blockAtoms body
  | .arm t body rest => t.atoms ++ blockAtoms body ++ rest.atoms

end

/-- Variables and elements, which can be stored into. -/
def Expr.IsPlace : Expr → Prop
  | .name _ => True
  | .index _ _ => True
  | _ => False

mutual

/-- Only variables and elements are stored into. -/
def Stmt.Storable : Stmt → Prop
  | .assign t _ => t.IsPlace
  | .update _ _ _ => True
  | .run _ => True
  | .branch arms => arms.Storable
  | .loop _ body => BlockStorable body

/-- The same for statements in a row. -/
def BlockStorable : List Stmt → Prop
  | [] => True
  | s :: ss => s.Storable ∧ BlockStorable ss

/-- The same for a chain. -/
def Arms.Storable : Arms → Prop
  | .done => True
  | .otherwise body => BlockStorable body
  | .arm _ body rest => BlockStorable body ∧ rest.Storable

end

/-- An empty block is written with a word that is no name. -/
@[simp] theorem flatten_orPassLeaves (lines : List (List Leaf)) :
    (orPassLeaves lines).flatten = lines.flatten := by
  cases lines <;> rfl

/-- `pass` uses nothing. -/
theorem uses_orPassLexemes (lines : List (List Lexeme)) :
    (orPassLexemes lines).flatMap uses = lines.flatMap uses := by
  cases lines with
  | nil => decide +kernel
  | cons ls lines => rfl

/-- Relations use no names; the second sign of an equality keeps it from being a store. -/
theorem emits_relation (op : Relation) : Emits op.lexemes [] := by
  have hequals : ∀ {c : Char}, c ≠ '(' → c ≠ '=' → Emits [.mark c, .mark '='] [] := fun hc hc' _ =>
    ⟨free_mark hc hc' _, some (.mark '='), by decide, rfl⟩
  cases op with
  | eq => exact fun _ => ⟨free_equals _, some (.mark '='), by decide, rfl⟩
  | ne | le | ge => exact hequals (by decide) (by decide)
  | lt | gt => exact emits_mark (by decide) (by decide) (by decide)

/-- The text of a comparison uses its atoms. -/
theorem Comparison.spends_lexemes (c : Comparison) (h : ∀ l ∈ c.leaves, l.Named) :
    Spends c.lexemes (c.atoms.map Atom.use) := by
  rw [Comparison.leaves, List.forall_mem_append] at h
  have hspends := (c.left.spends_lexemes h.1).around (c.right.spends_lexemes h.2)
    (emits_relation c.op)
  simpa [Comparison.lexemes] using hspends

theorem Test.spends_lexemes (t : Test) (h : ∀ l ∈ t.leaves, l.Named) :
    Spends t.lexemes (t.atoms.map Atom.use) := by
  cases t with
  | holds c => exact c.spends_lexemes h
  | oneOf e es =>
    rw [Test.leaves, List.forall_mem_append] at h
    -- a parenthesis behind a keyword is no call
    have hin : Emits [.word "in", .mark '('] [] := fun _ =>
      ⟨free_keyword (by decide) _, some (.mark '('), by decide, rfl⟩
    have hclose : Emits [.mark ')'] [] := emits_mark (by decide) (by decide) (by decide)
    have hspends := ((e.spends_lexemes h.1).around (spends_lexemesAll es h.2) hin).behind hclose
    simpa [Test.lexemes] using hspends
  | choice yes condition no =>
    simp only [Test.leaves, List.forall_mem_append] at h
    have hspends := (((yes.spends_lexemes h.1.1).around (condition.spends_lexemes h.1.2)
      (emits_keyword (w := "if") (by decide) (by decide))).around (no.spends_lexemes h.2)
      (emits_keyword (w := "else") (by decide) (by decide))).enclose true
    simpa [Test.lexemes, encloseLexemes] using hspends

theorem head?_append_ne {x : Lexeme} {a b : List Lexeme} (ha : a.head? ≠ some x)
    (hb : b.head? ≠ some x) : (a ++ b).head? ≠ some x := by
  cases a with
  | nil => exact hb
  | cons l a => exact ha

/-- No expression begins with `=`. -/
theorem Expr.head?_lexemes_ne (e : Expr) : e.lexemes.head? ≠ some (.mark '=') := by
  -- the text of an operand comes first, in parentheses or not
  have henclose : ∀ (needed : Bool) {ls : List Lexeme}, ls.head? ≠ some (.mark '=') →
      (encloseLexemes needed ls).head? ≠ some (.mark '=') := by
    intro needed ls hls
    cases needed with
    | false => exact hls
    | true => simp [encloseLexemes]
  cases e with
  | int n =>
    rw [Expr.lexemes, intLexemes]
    split <;> simp
  | str _ | name _ | neg _ | call _ _ | single _ | replicate _ _ => simp [Expr.lexemes]
  | binary op l r =>
    refine head?_append_ne (head?_append_ne (henclose _ l.head?_lexemes_ne) ?_)
      (henclose _ r.head?_lexemes_ne)
    cases op <;> simp [Operator.char]
  | index b i =>
    exact head?_append_ne (head?_append_ne (head?_append_ne (henclose _ b.head?_lexemes_ne)
      (by simp)) i.head?_lexemes_ne) (by simp)
  | sliceFrom b lo =>
    exact head?_append_ne (head?_append_ne (head?_append_ne (henclose _ b.head?_lexemes_ne)
      (by simp)) lo.head?_lexemes_ne) (by simp)
  | slice b lo hi =>
    exact head?_append_ne (head?_append_ne (head?_append_ne (head?_append_ne (head?_append_ne
      (henclose _ b.head?_lexemes_ne) (by simp)) lo.head?_lexemes_ne) (by simp))
      hi.head?_lexemes_ne) (by simp)
  | find t p =>
    exact head?_append_ne (head?_append_ne (head?_append_ne (henclose _ t.head?_lexemes_ne)
      (by simp)) p.head?_lexemes_ne) (by simp)

/-- A line that stores into a variable or an element. -/
theorem uses_assign {t v : Expr} (hplace : t.IsPlace) (ht : ∀ l ∈ t.leaves, l.Named)
    (hv : ∀ l ∈ v.leaves, l.Named) :
    uses (t.lexemes ++ [.mark '='] ++ v.lexemes) =
      (t.targetAtoms ++ v.atoms).map Atom.use := by
  match t with
  | .name id =>
    have hname : isNameWord id := ht (.name id) List.mem_cons_self
    have hvalue := v.spends_lexemes hv (some (.mark '=')) [] (by decide) free_nil
    rw [List.append_nil, usesFrom, List.append_nil] at hvalue
    -- no second `=` follows, so this is no comparison
    have hstore : isStore (.mark '=' :: v.lexemes) := by
      rw [isStore, Bool.and_eq_true, decide_eq_true_eq, decide_eq_true_eq]
      exact ⟨rfl, v.head?_lexemes_ne⟩
    have huse : useOf none id (.mark '=' :: v.lexemes) = some ⟨id, .stored⟩ := by
      rw [useOf, hname, if_neg (by simp), if_neg (by decide), if_pos hstore, if_pos (.inl rfl)]
    show (useOf none id (.mark '=' :: v.lexemes)).toList ++
      usesFrom (some (.mark '=')) v.lexemes = _
    rw [huse, hvalue]
    rfl
  | .index b i =>
    rw [Expr.leaves, List.forall_mem_append] at ht
    -- the bracket stands between the subscript and the `=`
    have hstore : Emits [.mark ']', .mark '='] [] := fun _ =>
      ⟨free_mark (by decide) (by decide) _, some (.mark '='), by decide, rfl⟩
    have hspends := ((((b.spends_lexemes ht.1).enclose (b.level.rank < Level.atom.rank)).around
      (i.spends_lexemes ht.2) emits_openIndex).around (v.spends_lexemes hv) hstore).uses_eq
    simpa [Expr.lexemes] using hspends

/-- A header and the lines under it. -/
theorem uses_header {word : String} (hword : Emits [.word word] []) {t : Test}
    (ht : ∀ l ∈ t.leaves, l.Named) :
    uses ([.word word] ++ t.lexemes ++ [.mark ':']) = t.atoms.map Atom.use := by
  have hspends := (((t.spends_lexemes ht).after hword).behind emits_colon).uses_eq
  simpa using hspends

mutual

/-- The lines of a statement use its atoms, if its targets can be stored into. -/
theorem Stmt.uses_lexemes (s : Stmt) (h : ∀ l ∈ s.leaves.flatten, l.Named) (hs : s.Storable) :
    s.lexemes.flatMap uses = s.atoms.map Atom.use := by
  match s with
  | .assign t v =>
    rw [Stmt.leaves, List.flatten_singleton, List.forall_mem_append] at h
    rw [Stmt.lexemes, List.flatMap_singleton, uses_assign hs h.1 h.2, Stmt.atoms]
  | .update t op v =>
    rw [Stmt.leaves, List.flatten_singleton, List.forall_mem_append] at h
    -- the operator in front of the sign keeps it from being a store
    have hupdate : Emits [.mark op.char, .mark '='] [] := by
      cases op <;>
        exact fun _ => ⟨free_mark (by decide) (by decide) _, some (.mark '='), by decide, rfl⟩
    have hspends := ((t.spends_lexemes h.1).around (v.spends_lexemes h.2) hupdate).uses_eq
    simpa [Stmt.lexemes] using hspends
  | .run e =>
    rw [Stmt.leaves, List.flatten_singleton] at h
    rw [Stmt.lexemes, List.flatMap_singleton, (e.spends_lexemes h).uses_eq, Stmt.atoms]
  | .branch arms => exact arms.uses_lexemes (emits_keyword (by decide) (by decide)) h hs
  | .loop t body =>
    simp only [Stmt.leaves, List.flatten_cons, flatten_orPassLeaves, List.forall_mem_append] at h
    rw [Stmt.lexemes, List.flatMap_cons, uses_orPassLexemes,
      uses_header (emits_keyword (by decide) (by decide)) h.1, uses_blockLexemes body h.2 hs,
      Stmt.atoms, List.map_append]

theorem uses_blockLexemes (ss : List Stmt) (h : ∀ l ∈ (blockLeaves ss).flatten, l.Named)
    (hs : BlockStorable ss) : (blockLexemes ss).flatMap uses = (blockAtoms ss).map Atom.use := by
  match ss with
  | [] => rfl
  | s :: ss =>
    rw [blockLeaves, List.flatten_append, List.forall_mem_append] at h
    rw [blockLexemes, List.flatMap_append, s.uses_lexemes h.1 hs.1, uses_blockLexemes ss h.2 hs.2,
      blockAtoms, List.map_append]

theorem Arms.uses_lexemes (arms : Arms) {word : String} (hword : Emits [.word word] [])
    (h : ∀ l ∈ arms.leaves.flatten, l.Named) (hs : arms.Storable) :
    (arms.lexemes word).flatMap uses = arms.atoms.map Atom.use := by
  match arms with
  | .done => rfl
  | .otherwise body =>
    simp only [Arms.leaves, List.flatten_cons, flatten_orPassLeaves, List.nil_append] at h
    have helse : uses [.word "else", .mark ':'] = [] := by decide +kernel
    rw [Arms.lexemes, List.flatMap_cons, uses_orPassLexemes, helse, uses_blockLexemes body h hs,
      Arms.atoms]
    rfl
  | .arm t body rest =>
    simp only [Arms.leaves, List.cons_append, List.flatten_cons, List.flatten_append,
      flatten_orPassLeaves, List.forall_mem_append] at h
    rw [Arms.lexemes, List.flatMap_append, List.flatMap_cons, uses_orPassLexemes,
      uses_header hword h.1, uses_blockLexemes body h.2.1 hs.1,
      -- further arms open with another keyword
      rest.uses_lexemes (emits_keyword (by decide) (by decide)) h.2.2 hs.2, Arms.atoms,
      List.map_append, List.map_append]

end

/-! ## Names among the atoms -/

/-- The name of an atom is neither a keyword nor a number. -/
def Atom.Named : Atom → Prop
  | name id => isNameWord id
  | place id => isNameWord id
  | _ => True

/-- The name at a leaf, if it is one. -/
def Leaf.id? : Leaf → Option String
  | text _ => none
  | name id => some id

/-- The name of a variable or temporary that an atom is about. -/
def Atom.id? : Atom → Option String
  | name id => some id
  | place id => some id
  | function _ | each | range => none

mutual

/-- The names among the leaves are those among the atoms. -/
@[simp] theorem Expr.ids_leaves (e : Expr) :
    e.leaves.filterMap Leaf.id? = e.atoms.filterMap Atom.id? := by
  match e with
  | .int _ | .str _ | .name _ => rfl
  | .neg e | .single e => exact e.ids_leaves
  | .binary _ l r | .index l r | .sliceFrom l r | .find l r | .replicate l r =>
    simp [Expr.leaves, List.filterMap_cons, Atom.id?, l.ids_leaves, r.ids_leaves]
  | .slice b lo hi => simp [Expr.leaves, b.ids_leaves, lo.ids_leaves, hi.ids_leaves]
  | .call _ args => exact ids_leavesAll args

/-- The leaves of a list of expressions are named in the order of their atoms. -/
@[simp] theorem ids_leavesAll (es : List Expr) :
    (leavesAll es).filterMap Leaf.id? = (atomsAll es).filterMap Atom.id? := by
  match es with
  | [] => rfl
  | e :: es => simp [leavesAll, e.ids_leaves, ids_leavesAll es]

end

@[simp] theorem Test.ids_leaves (t : Test) :
    t.leaves.filterMap Leaf.id? = t.atoms.filterMap Atom.id? := by
  cases t <;> simp [Test.leaves, Comparison.leaves]

/-- A target has the same names whether it is stored into or read. -/
@[simp] theorem Expr.ids_target (t : Expr) :
    t.targetAtoms.filterMap Atom.id? = t.atoms.filterMap Atom.id? := by
  cases t <;> rfl

mutual

theorem Stmt.ids_leaves (s : Stmt) :
    s.leaves.flatten.filterMap Leaf.id? = s.atoms.filterMap Atom.id? := by
  match s with
  | .assign t v | .update t _ v => simp [Stmt.leaves, -Expr.targetAtoms]
  | .run e => simp [Stmt.leaves]
  | .branch arms => exact arms.ids_leaves
  | .loop t body => simp [Stmt.leaves, ids_blockLeaves body]

/-- The names among the leaves of a block are those among its atoms. -/
theorem ids_blockLeaves (ss : List Stmt) :
    (blockLeaves ss).flatten.filterMap Leaf.id? = (blockAtoms ss).filterMap Atom.id? := by
  match ss with
  | [] => rfl
  | s :: ss => simp [blockLeaves, s.ids_leaves, ids_blockLeaves ss]

theorem Arms.ids_leaves (arms : Arms) :
    arms.leaves.flatten.filterMap Leaf.id? = arms.atoms.filterMap Atom.id? := by
  match arms with
  | .done => rfl
  | .otherwise body => simpa [Arms.leaves] using ids_blockLeaves body
  | .arm t body rest => simp [Arms.leaves, ids_blockLeaves body, rest.ids_leaves]

end

/-- What holds of the names among the atoms of a block holds of its leaves. -/
theorem forall_blockLeaves {P : Leaf → Prop} (htext : ∀ value, P (.text value)) {ss : List Stmt}
    (h : ∀ a ∈ blockAtoms ss, ∀ id ∈ a.id?, P (.name id)) :
    ∀ l ∈ (blockLeaves ss).flatten, P l := by
  intro l hl
  cases l with
  | text value => exact htext value
  | name id =>
    have hid : id ∈ (blockLeaves ss).flatten.filterMap Leaf.id? :=
      List.mem_filterMap.mpr ⟨.name id, hl, rfl⟩
    rw [ids_blockLeaves] at hid
    obtain ⟨a, ha, hid⟩ := List.mem_filterMap.mp hid
    exact h a ha id hid

theorem named_blockLeaves {ss : List Stmt} (h : ∀ a ∈ blockAtoms ss, a.Named) :
    ∀ l ∈ (blockLeaves ss).flatten, l.Named := by
  refine forall_blockLeaves (fun _ => trivial) fun a ha id hid => ?_
  cases a with
  | name id' | place id' =>
    obtain rfl := Option.some.inj hid
    exact h _ ha
  | function _ | each | range => cases hid

/-- The names that a procedure uses: its own where it is defined, those of its body, and what the
call at its end reads. -/
def Procedure.uses (p : Procedure) : List Use :=
  ⟨p.name, .defined⟩ :: (blockAtoms p.body).map Atom.use
    ++ [⟨"__name__", .read⟩, ⟨p.name, .called⟩]

/-- The header of a procedure defines its name. -/
theorem uses_header_def {name : String} (h : isNameWord name) :
    uses [.word "def", .word name, .mark '(', .mark ')', .mark ':'] = [⟨name, .defined⟩] := by
  have huse : useOf (some (.word "def")) name [.mark '(', .mark ')', .mark ':'] =
      some ⟨name, .defined⟩ := by
    rw [useOf, h, if_neg (by simp), if_pos (by decide)]
  rw [uses, usesFrom_keyword (by decide), usesFrom, huse]
  rfl

theorem uses_invocation {name : String} (h : isNameWord name) :
    uses [.word name, .mark '(', .mark ')'] = [⟨name, .called⟩] := (spends_nil.called h).uses_eq

theorem uses_main : uses [.word "if", .word "__name__", .mark '=', .mark '=', .literal "__main__",
    .mark ':'] = [⟨"__name__", .read⟩] := by decide +kernel

/-- The text of a procedure uses its atoms, and its own name. -/
theorem Procedure.uses_lexemes {p : Procedure} (hname : isNameWord p.name)
    (h : ∀ a ∈ blockAtoms p.body, a.Named) (hs : BlockStorable p.body) :
    Python.uses (textLexemes p.lexemes) = p.uses := by
  rw [uses_textLexemes, Procedure.lexemes, List.flatMap_append, List.flatMap_cons,
    uses_orPassLexemes, uses_blockLexemes p.body (named_blockLeaves h) hs,
    uses_header_def hname]
  simp only [List.flatMap_cons, uses_main, uses_invocation hname]
  rfl

end Plic.Python
