import Plic.Proofs.Lowering.Atoms
import Plic.Proofs.Python.Supply

/-!
# Which helpers generated code calls

The groups of support code that a program needs are computed on its tree, apart
from its code. The code calls a function of a group exactly when the group is
needed. It does not matter that some expressions are written as their values and
others more than once: the former are literals, which need nothing, and the
latter stand in the code at least once.

What a program needs is also told from its source: from the operands that are
used as strings, and from its statements.

Main results:

* `HasCodes.calls` — the code for statements calls what the statements need.
* `Program.Formed.has_helpers` — what a program needs is what its source asks for.
-/

namespace Plic

open Python (Atom Helpers atomsAll blockAtoms)

/-! ## Needs and calls -/

namespace Python

@[simp] theorem Helpers.has_none (g : Group) : Helpers.none.has g = false := by cases g <;> rfl

/-- What two parts need together is what one of them needs. -/
@[simp] theorem Helpers.has_union (a b : Helpers) (g : Group) :
    (a.union b).has g = (a.has g || b.has g) := by
  cases g <;> rfl

/-- Reading needs its own group and nothing else. -/
@[simp] theorem Helpers.has_get (g : Group) : ({ get := true } : Helpers).has g ↔ .get = g := by
  cases g <;> simp [Helpers.has]

/-- Files need their own group and nothing else. -/
@[simp] theorem Helpers.has_files (g : Group) :
    ({ files := true } : Helpers).has g ↔ .files = g := by
  cases g <;> simp [Helpers.has]

/-- Queries need their own group and nothing else. -/
@[simp] theorem Helpers.has_sql (g : Group) : ({ sql := true } : Helpers).has g ↔ .sql = g := by
  cases g <;> simp [Helpers.has]

/-- Some of the atoms calls a function of the group. -/
def Calls (g : Group) (as : List Atom) : Prop := ∃ f, Function.group? f = some g ∧ .function f ∈ as

section

variable {g : Group} {as bs : List Atom}

@[simp] theorem not_calls_nil : ¬ Calls g [] := by simp [Calls]

/-- Code that is put together calls what its parts call. -/
@[simp] theorem calls_append : Calls g (as ++ bs) ↔ Calls g as ∨ Calls g bs := by
  simp only [Calls, List.mem_append, and_or_left, exists_or]

/-- A function is called for its own group. -/
@[simp] theorem calls_function {f : Function} :
    Calls g (.function f :: as) ↔ f.group? = some g ∨ Calls g as := by
  simp only [Calls, List.mem_cons, Atom.function.injEq, and_or_left, exists_or, exists_eq_right]

@[simp] theorem calls_name {id : String} : Calls g (.name id :: as) ↔ Calls g as := by
  simp [Calls]

@[simp] theorem calls_place {id : String} : Calls g (.place id :: as) ↔ Calls g as := by
  simp [Calls]

/-- A list of expressions calls what one of them calls. -/
theorem calls_atomsAll {es : List Expr} : Calls g (atomsAll es) ↔ ∃ e ∈ es, Calls g e.atoms := by
  induction es with
  | nil => simp
  | cons e es ih => simp [ih]

/-- A target calls the same as if it were read. -/
theorem calls_targetAtoms (t : Expr) : Calls g t.targetAtoms ↔ Calls g t.atoms := by
  cases t <;> simp

end

end Python

open Python (Calls Group)

/-! ## Expressions -/

section

variable {scope : Scope} {g : Group}

/-- A list of expressions needs what one of them needs. -/
theorem has_helpersOfAll {es : List Expr} :
    (helpersOfAll es).has g ↔ ∃ e ∈ es, e.helpers.has g := by
  induction es with
  | nil => simp [helpersOfAll]
  | cons e es ih => simp [helpersOfAll, ih]

/-- A conversion is needed where there is no text yet. -/
theorem Expr.has_conversionHelpers (e : Expr) :
    e.conversionHelpers.has g ↔ e.isText = false ∧ .text = g := by
  cases g <;> simp [Expr.conversionHelpers, Helpers.has]

/-- An operand that is used as a string is converted unless it is one already. -/
theorem Expr.calls_asText {e : Expr} {code : Python.Expr}
    (h : Calls g code.atoms ↔ e.helpers.has g) :
    Calls g (e.asText code).atoms ↔ (e.helpers.union e.conversionHelpers).has g := by
  rw [Expr.atoms_asText, Helpers.has_union, Bool.or_eq_true, has_conversionHelpers, ← h]
  cases e.isText <;> simp [Python.Function.group?, or_comm]

/-- A literal needs nothing. -/
theorem Expr.helpers_literal {e : Expr} (h : e.literal?.isSome) : e.helpers = .none := by
  match e with
  | .number _ _ => rfl
  | .neg e _ =>
    rw [Expr.literal?] at h
    rw [Expr.helpers]
    refine e.helpers_literal ?_
    cases hvalue : e.literal? with
    | none => simp [hvalue] at h
    | some n => rfl
  | .text _ _ | .var _ _ _ | .binary _ _ _ _ | .call _ _ _ | .endfile _ _ =>
    simp [Expr.literal?] at h

/-- An operator other than the joining of texts needs nothing by itself. -/
theorem Expr.helpers_binary {op : Operator} (hop : op ≠ .concat) (l r : Expr) (loc : Location) :
    (Expr.binary op l r loc).helpers = l.helpers.union r.helpers := by
  cases op with
  | concat => exact absurd rfl hop
  | _ => rfl

/-- The code of an expression calls exactly what the expression needs, by induction along the rules.
-/
theorem Expr.HasCode.calls {e : Expr} {code : Python.Expr} (h : e.HasCode scope code) :
    Calls g code.atoms ↔ e.helpers.has g := by
  induction h with
  | number | text => simp [Expr.helpers]
  | endfile => simp [Expr.helpers, Python.Function.group?]
  | var _ hlength _ ih =>
    rw [Python.atoms_foldl_index, Python.calls_append, Python.calls_atomsAll, Expr.helpers,
      has_helpersOfAll]
    constructor
    · rintro (hname | ⟨c, hc, hcalls⟩)
      · simp at hname
      · obtain ⟨e, hpair⟩ := exists_mem_zip_right hlength hc
        exact ⟨e, (List.of_mem_zip hpair).1, (ih _ hpair).mp hcalls⟩
    · rintro ⟨e, he, hneeds⟩
      obtain ⟨c, hpair⟩ := exists_mem_zip_left hlength he
      exact .inr ⟨c, (List.of_mem_zip hpair).2, (ih _ hpair).mpr hneeds⟩
  | neg _ ih => exact ih
  | concat _ _ ihl ihr =>
    rw [Python.Expr.atoms, Python.calls_append, Expr.calls_asText ihl, Expr.calls_asText ihr,
      Expr.helpers, Helpers.has_union (Helpers.union _ _), Bool.or_eq_true]
  | binary hop _ _ ihl ihr =>
    rw [Expr.helpers_binary hop, Python.Expr.atoms, Python.calls_append, ihl, ihr,
      Helpers.has_union, Bool.or_eq_true]
  | substr _ hstart ihs ihstart =>
    rw [Python.Expr.atoms, Python.calls_append, Expr.calls_asText ihs, hstart.atoms_lowFrom,
      ihstart, Expr.helpers, Helpers.has_union _ (Expr.helpers _), Bool.or_eq_true]
  | substrLength _ hstart hlength ihs ihstart ihlength =>
    rw [Python.Expr.atoms, Python.calls_append, Python.calls_append, Expr.calls_asText ihs,
      hstart.atoms_lowFrom, hstart.atoms_highFrom hlength, Python.calls_append, ihstart, ihlength,
      Expr.helpers]
    -- the start is written in both bounds
    simp only [Helpers.has_union, Bool.or_eq_true]
    grind
  | index _ _ ihs ihpart =>
    rw [Python.Expr.atoms, Python.Expr.atoms, Python.Expr.atoms, List.append_nil,
      Python.calls_append, Expr.calls_asText ihs, Expr.calls_asText ihpart, Expr.helpers,
      Helpers.has_union (Helpers.union _ _), Bool.or_eq_true]
  | decimal _ ih => simp [Expr.helpers, helpersOfAll, Python.Function.group?, ih]
  | mod _ _ ihl ihr => simp [Expr.helpers, helpersOfAll, ihl, ihr]

end

/-! ## Statements -/

section

variable {scope : Scope} {g : Group}

theorem Reference.calls {r : Reference} {code : Python.Expr} (h : r.toExpr.HasCode scope code) :
    Calls g code.atoms ↔ r.helpers.has g := Expr.HasCode.calls h

theorem Reference.calls_target {r : Reference} {code : Python.Expr}
    (h : r.toExpr.HasCode scope code) : Calls g code.targetAtoms ↔ r.helpers.has g :=
  (Python.calls_targetAtoms code).trans (Reference.calls h)

/-- What a store does with a value is not in a group. -/
theorem calls_storedCode (target : Reference) (value : Expr) (v : Python.Expr) :
    Calls g (storedCode scope target value v).atoms ↔ Calls g v.atoms := by
  unfold storedCode
  split <;> simp [Python.Function.group?]

theorem Condition.HasCode.calls {c : Condition} {test : Python.Comparison}
    (h : c.HasCode scope test) : Calls g test.atoms ↔ c.helpers.has g := by
  cases h with
  | intro hl hr => simp [Condition.helpers, hl.calls, hr.calls]

theorem calls_forall {es : List Expr} {codes : List Python.Expr}
    (h : List.Forall₂ (Expr.HasCode scope) es codes) :
    Calls g (atomsAll codes) ↔ (helpersOfAll es).has g := by
  induction h with
  | nil => simp [helpersOfAll]
  | cons hcode _ ih => simp [helpersOfAll, hcode.calls, ih]

/-- Reading several values needs what each target needs, and the group itself. -/
theorem has_get {targets : List Reference} :
    (targets.foldr (fun t h => t.helpers.union h) ({ get := true } : Helpers)).has g ↔
      .get = g ∨ ∃ t ∈ targets, t.helpers.has g := by
  induction targets with
  | nil => simp
  | cons t ts ih =>
    simp only [List.foldr_cons, Helpers.has_union, Bool.or_eq_true, ih, List.exists_mem_cons_iff]
    grind

/-- Each variable that is read calls for input. -/
theorem calls_get {targets : List Reference} {codes : List Python.Expr}
    (h : List.Forall₂ (fun r c => r.toExpr.HasCode scope c) targets codes) :
    Calls g (blockAtoms (List.zipWith getCode targets codes)) ↔
      targets ≠ [] ∧ .get = g ∨ ∃ t ∈ targets, t.helpers.has g := by
  induction h with
  | nil => simp
  | cons hcode _ ih =>
    simp only [List.zipWith_cons_cons, blockAtoms, Python.calls_append, ih, getCode,
      Python.Stmt.atoms, Reference.calls_target hcode, List.exists_mem_cons_iff]
    simp [Python.Function.group?]
    grind

/-- What is stored ahead of a loop and what stands for it call what the value needs. -/
theorem Expr.HasHoist.calls {role : String} {n m : Nat} {e : Expr} {ahead : List Python.Stmt}
    {code : Python.Expr} (h : e.HasHoist scope role n ahead code m) :
    Calls g (blockAtoms ahead) ∨ Calls g code.atoms ↔ e.helpers.has g := by
  cases h with
  | literal _ hcode | stored _ hcode => simp [hcode.calls]

/-- A step calls what it needs: ahead of the loop, in the test or in the advance. -/
theorem HasStep.calls {var limit : Python.Expr} {n m : Nat} {step : Option Expr}
    {ahead : List Python.Stmt} {test : Python.Test} {advance : Python.Stmt}
    (h : HasStep scope var limit n step ahead test advance m) :
    Calls g (blockAtoms ahead) ∨ Calls g test.atoms ∨ Calls g advance.atoms ↔
      (Calls g var.atoms ∨ Calls g limit.atoms) ∨ ∃ e ∈ step, e.helpers.has g := by
  cases h with
  | one => simpa using Or.inl
  | up hliteral _ | down hliteral _ =>
    -- a literal step is written as its value, and needs nothing
    have hnone := Expr.helpers_literal (Option.isSome_iff_exists.mpr ⟨_, hliteral⟩)
    simpa [hnone] using Or.inl
  | computed _ hhoist =>
    simp only [Python.Test.atoms, Python.Comparison.atoms, Python.Stmt.atoms, Python.calls_append,
      Option.mem_def, Option.some.injEq, exists_eq_left', ← hhoist.calls]
    simp
    grind

/-- The needs of a loop, sorted into head, step and body. -/
theorem has_doLoop {var : Reference} {start limit : Expr} {step : Option Expr} {body : List Stmt}
    {loc : Location} : (Stmt.doLoop var start limit step body loc).helpers.has g ↔
      (var.helpers.has g ∨ start.helpers.has g ∨ limit.helpers.has g) ∨
        (∃ e ∈ step, e.helpers.has g) ∨ (blockHelpers body).has g := by
  cases step <;> simp [Stmt.helpers]

theorem calls_single {s : Python.Stmt} : Calls g (blockAtoms [s]) ↔ Calls g s.atoms := by
  rw [blockAtoms, blockAtoms, List.append_nil]

theorem calls_run {f : Python.Function} {args : List Python.Expr} :
    Calls g (blockAtoms [.run (.call f args)]) ↔ f.group? = some g ∨ Calls g (atomsAll args) := by
  rw [calls_single, Python.Stmt.atoms, Python.Expr.atoms, Python.calls_function]

/-- A call for a text whose value is stored into a reference. -/
theorem Reference.calls_assign {r : Reference} {t : Python.Expr} (h : r.toExpr.HasCode scope t)
    (f : Python.Function) (v : String) :
    Calls g (blockAtoms [.assign t (.call f [.str v])]) ↔
      r.helpers.has g ∨ f.group? = some g := by
  rw [calls_single, Python.Stmt.atoms, Python.calls_append, Reference.calls_target h,
    Python.Expr.atoms, Python.calls_function]
  simp

/-- A branch that is left out calls nothing. -/
theorem calls_elseArms (no : List Stmt) (code : List Python.Stmt) :
    Calls g (elseArms no code).atoms ↔ Calls g (blockAtoms code) := by
  unfold Plic.elseArms
  split
  · rw [calls_single, Python.Stmt.atoms]
  · rfl

/-- The first branch of a `SELECT` is a `WHEN`, and that compares with the subject. -/
theorem Branches.HasCode.calls_subject {subject : Python.Expr} {n m : Nat} {values : List Expr}
    {body : List Stmt} {loc : Location} {rest : Branches} {arms : Python.Arms}
    (h : (Branches.when values body loc rest).HasCode scope subject n arms m)
    (hsubject : Calls g subject.atoms) : Calls g arms.atoms := by
  cases h with
  | «when» _ _ _ =>
    simp only [Python.Arms.atoms, atoms_whenTest, Python.calls_append]
    exact .inl (.inl (.inl hsubject))

mutual

/-- The code of a well-formed statement calls what it needs. -/
theorem Stmt.HasCode.calls {n m : Nat} {s : Stmt} {code : List Python.Stmt}
    (h : s.HasCode scope n code m) (hformed : s.Formed) :
    Calls g (blockAtoms code) ↔ s.helpers.has g := by
  match h, hformed with
  | .assign ht hv, _ =>
    rw [calls_single, Python.Stmt.atoms, Python.calls_append, Reference.calls_target ht,
      calls_storedCode, hv.calls, Stmt.helpers, Helpers.has_union, Bool.or_eq_true]
  | .ifElse htest hyes hno, .ifElse _ hyesFormed hnoFormed =>
    rw [calls_single, Python.Stmt.atoms, Python.Arms.atoms, Python.calls_append,
      Python.calls_append, Python.Test.atoms, htest.calls, hyes.calls hyesFormed, calls_elseArms,
      hno.calls hnoFormed, Stmt.helpers]
    simp [or_assoc]
  | .doWhile htest hbody, .doWhile _ hbodyFormed =>
    rw [calls_single, Python.Stmt.atoms, Python.calls_append, Python.Test.atoms, htest.calls,
      hbody.calls hbodyFormed, Stmt.helpers, Helpers.has_union, Bool.or_eq_true]
  | .doLoop hv hs hhoist hstep hbody, .doLoop _ _ _ _ hbodyFormed =>
    -- the variable stands in the test and in the update too, where it asks for nothing new
    have hlimit : _ ∨ Calls g _ ↔ _ := hhoist.calls
    have hround : Calls g _ ∨ _ ↔ _ := hstep.calls
    rw [Reference.calls hv] at hround
    simp only [Python.blockAtoms_append, blockAtoms, Python.Stmt.atoms, List.cons_append,
      List.append_nil, Python.calls_append, Reference.calls_target hv, hs.calls,
      hbody.calls hbodyFormed, has_doLoop, ← hlimit]
    grind
  | .select hs hbranches, .select _ hbranchesFormed =>
    have hchain : _ ∨ Calls g _ ↔ _ := hbranches.calls hbranchesFormed
    rw [calls_single, Python.Stmt.atoms, Stmt.helpers, Helpers.has_union, Bool.or_eq_true,
      ← hs.calls, ← hchain]
    -- a `SELECT` has a `WHEN`, so that its subject is not lost
    exact (or_iff_right_of_imp hbranches.calls_subject).symm
  | .put hitems, _ =>
    rw [calls_run, calls_forall hitems, Stmt.helpers]
    simp [Python.Function.group?]
  | .get htargets, .get hne _ =>
    rw [calls_get htargets, Stmt.helpers, has_get]
    simp [hne]
  | .openFile, _ =>
    rw [calls_run, Stmt.helpers]
    simp [Python.Function.group?]
  | .read ht, _ =>
    rw [Reference.calls_assign ht, Stmt.helpers]
    simp [Python.Function.group?]
  | .write ht, _ =>
    rw [calls_run, Stmt.helpers]
    simp [Python.Function.group?, Reference.calls ht, or_comm]
  | .closeFile, _ =>
    rw [calls_run, Stmt.helpers]
    simp [Python.Function.group?]
  | .query ht, _ =>
    rw [Reference.calls_assign ht, Stmt.helpers]
    simp [Python.Function.group?]

/-- The code for statements calls what the statements need. -/
theorem HasCodes.calls {n m : Nat} {ss : List Stmt} {code : List Python.Stmt}
    (h : HasCodes scope n ss code m) (hformed : ∀ s ∈ ss, s.Formed) :
    Calls g (blockAtoms code) ↔ (blockHelpers ss).has g := by
  match h with
  | .nil => simp [blockHelpers]
  | .cons hs hss =>
    rw [List.forall_mem_cons] at hformed
    rw [Python.blockAtoms_append, Python.calls_append, hs.calls hformed.1, hss.calls hformed.2,
      blockHelpers, Helpers.has_union, Bool.or_eq_true]

/-- Each branch compares with the subject, so what the subject needs is left open. -/
theorem Branches.HasCode.calls {subject : Python.Expr} {n m : Nat} {b : Branches}
    {arms : Python.Arms} (h : b.HasCode scope subject n arms m) (hformed : b.Formed) :
    Calls g subject.atoms ∨ Calls g arms.atoms ↔ Calls g subject.atoms ∨ b.helpers.has g := by
  match h, hformed with
  | .done, _ => simp [Branches.helpers]
  | .other hbody, .other hbodyFormed =>
    rw [Python.Arms.atoms, hbody.calls hbodyFormed, Branches.helpers]
  | .when hvalues hbody hrest, .when _ _ hbodyFormed hrestFormed =>
    have hchain : _ ∨ Calls g _ ↔ _ := hrest.calls hrestFormed
    simp only [Python.Arms.atoms, Python.calls_append, atoms_whenTest, calls_forall hvalues,
      hbody.calls hbodyFormed, Branches.helpers, Helpers.has_union, Bool.or_eq_true]
    grind

end

end

/-! ## What a source asks for -/

/-- The operands that are used as strings: both of `||`, the first of `SUBSTR` and those of
`INDEX`. -/
def Expr.stringOperands : Expr → List Expr
  | .binary .concat l r _ => [l, r]
  | .call .substr args _ => args.take 1
  | .call .index args _ => args
  | _ => []

/-- The groups that an expression asks for, its operands aside. An operand that is used as a string
and may be none asks for its conversion. -/
def Expr.asks (g : Group) : Expr → Bool
  | .endfile _ _ => .files = g
  | e => .text = g && e.stringOperands.any fun o => !o.isText

/-- The groups that a statement asks for, its expressions and bodies aside. -/
def Stmt.asks (g : Group) : Stmt → Bool
  | .get _ _ => .get = g
  | .openFile _ _ _ | .read _ _ _ | .write _ _ _ | .closeFile _ _ => .files = g
  | .query _ _ _ => .sql = g
  | _ => false

/-- Whether some statement of the source asks for a group. -/
def Program.asks (g : Group) (p : Program) : Bool :=
  p.parts.any (Expr.asks g) || p.nested.any (Stmt.asks g)

section

variable {g : Group}

/-- What an expression needs, from what its operands need. -/
theorem Expr.Formed.has_helpers_iff {e : Expr} (h : e.Formed) :
    e.helpers.has g ↔ e.asks g ∨ ∃ o ∈ e.operands, o.helpers.has g := by
  -- an operand that is used as a string
  have htext : ∀ o : Expr, (o.helpers.union o.conversionHelpers).has g ↔
      (.text = g ∧ o.isText = false) ∨ o.helpers.has g := by
    intro o
    rw [Helpers.has_union, Bool.or_eq_true, o.has_conversionHelpers]
    grind
  cases h with
  | number _ _ | text _ => simp [Expr.helpers, Expr.asks, Expr.operands, Expr.stringOperands]
  | var _ _ =>
    simp [Expr.helpers, Expr.asks, Expr.operands, Expr.stringOperands, has_helpersOfAll]
  | neg _ => simp [Expr.helpers, Expr.asks, Expr.operands, Expr.stringOperands]
  | @binary op l r _ _ _ =>
    cases op with
    | concat =>
      rw [Expr.helpers, Helpers.has_union (Helpers.union _ _), Bool.or_eq_true, htext, htext]
      simp [Expr.asks, Expr.stringOperands, Expr.operands]
      grind
    | add | sub | mul | div =>
      simp [Expr.helpers, Expr.asks, Expr.stringOperands, Expr.operands]
  | @call f args _ htakes _ =>
    -- only the numbers of arguments that the functions take are left
    generalize hlength : args.length = n at htakes
    cases htakes with
    | substr =>
      obtain ⟨s, start, rfl⟩ := List.length_eq_two.mp hlength
      rw [Expr.helpers, Helpers.has_union (Helpers.union _ _), Bool.or_eq_true, htext]
      simp [Expr.asks, Expr.stringOperands, Expr.operands]
      grind
    | substrLength =>
      obtain ⟨s, start, length, rfl⟩ := List.length_eq_three.mp hlength
      rw [Expr.helpers, Helpers.has_union (Helpers.union _ _), Bool.or_eq_true, htext]
      simp [Expr.asks, Expr.stringOperands, Expr.operands]
      grind
    | index =>
      obtain ⟨s, part, rfl⟩ := List.length_eq_two.mp hlength
      rw [Expr.helpers, Helpers.has_union (Helpers.union _ _), Bool.or_eq_true, htext, htext]
      simp [Expr.asks, Expr.stringOperands, Expr.operands]
      grind
    | decimal | mod =>
      simp [Expr.helpers, Expr.asks, Expr.stringOperands, Expr.operands, has_helpersOfAll]
  | endfile _ => simp [Expr.helpers, Expr.asks, Expr.operands]

/-- If the operands need what their parts ask for, so does the expression. -/
theorem Expr.Formed.has_helpers_of_operands {e : Expr} (h : e.Formed)
    (hoperands : ∀ o ∈ e.operands, (o.helpers.has g ↔ ∃ x ∈ o.parts, x.asks g)) :
    e.helpers.has g ↔ ∃ x ∈ e.parts, x.asks g := by
  -- asked for by the expression itself, or below one of its operands
  rw [h.has_helpers_iff]
  constructor
  · rintro (hself | ⟨o, ho, hneeds⟩)
    · exact ⟨e, e.mem_parts_self, hself⟩
    · obtain ⟨x, hx, hasks⟩ := (hoperands o ho).mp hneeds
      exact ⟨x, Expr.mem_parts_iff.mpr (.inr ⟨o, ho, hx⟩), hasks⟩
  · rintro ⟨x, hx, hasks⟩
    rcases Expr.mem_parts_iff.mp hx with rfl | ⟨o, ho, hx⟩
    · exact .inl hasks
    · exact .inr ⟨o, ho, (hoperands o ho).mpr ⟨x, hx, hasks⟩⟩

/-- An expression needs what one of its parts asks for. -/
theorem Expr.Formed.has_helpers {e : Expr} (h : e.Formed) :
    e.helpers.has g ↔ ∃ x ∈ e.parts, x.asks g := by
  -- the induction takes the form apart, and the step needs it whole
  have hformed := h
  induction h with
  | number _ _ | text _ | endfile _ =>
    exact hformed.has_helpers_of_operands (by simp [Expr.operands])
  | var _ hsubscripts ih =>
    exact hformed.has_helpers_of_operands fun o ho => ih o ho (hsubscripts o ho)
  | neg he ih => exact hformed.has_helpers_of_operands (List.forall_mem_singleton.mpr (ih he))
  | binary hl hr ihl ihr =>
    exact hformed.has_helpers_of_operands
      (List.forall_mem_cons.mpr ⟨ihl hl, List.forall_mem_singleton.mpr (ihr hr)⟩)
  | call _ hargs ih => exact hformed.has_helpers_of_operands fun o ho => ih o ho (hargs o ho)

/-- The expressions of a list need a group if some part of them asks for it. -/
theorem exists_has_helpers {es : List Expr} (h : ∀ e ∈ es, e.Formed) :
    (∃ e ∈ es, e.helpers.has g) ↔ ∃ x ∈ partsOfAll es, x.asks g := by
  induction es with
  | nil => simp [partsOfAll]
  | cons e es ih =>
    rw [List.forall_mem_cons] at h
    rw [List.exists_mem_cons_iff, h.1.has_helpers, ih h.2, partsOfAll]
    simp only [List.mem_append, or_and_right, exists_or]

/-- The statement or an expression in it asks for the group. -/
def Stmt.Needs (g : Group) (s : Stmt) : Prop := s.asks g ∨ ∃ x ∈ s.parts, x.asks g

/-- The values of well-formed branches are well formed. -/
theorem Branches.Formed.values {b : Branches} (h : b.Formed) : ∀ e ∈ b.values, e.Formed := by
  cases h with
  | done | other _ => simp [Branches.values]
  | when _ hvalues _ hrest => exact List.forall_mem_append.mpr ⟨hvalues, hrest.values⟩

theorem Stmt.Formed.roots {s : Stmt} (h : s.Formed) : ∀ e ∈ s.roots, e.Formed := by
  have hcond : ∀ {c : Condition}, c.Formed → ∀ e ∈ [c.left, c.right], e.Formed :=
    fun h => List.forall_mem_cons.mpr ⟨h.left, List.forall_mem_singleton.mpr h.right⟩
  cases h with
  | assign htarget hvalue =>
    exact List.forall_mem_cons.mpr ⟨htarget, List.forall_mem_singleton.mpr hvalue⟩
  | ifElse hc _ _ => exact hcond hc
  | doWhile hc _ => exact hcond hc
  | doLoop hvar hstart hlimit hstep _ =>
    simp only [Stmt.roots, List.forall_mem_cons]
    exact ⟨hvar, hstart, hlimit, fun e he => hstep e (Option.mem_toList.mp he)⟩
  | select hsubject hbranches => exact List.forall_mem_cons.mpr ⟨hsubject, hbranches.values⟩
  | put hitems => exact hitems
  | get _ htargets => exact List.forall_mem_map.mpr htargets
  | openFile _ | closeFile _ => simp [Stmt.roots]
  | read _ ht | write _ ht | query _ ht => exact List.forall_mem_singleton.mpr ht

/-- A statement needs a group for itself or for one of its expressions. -/
theorem Stmt.Formed.needs_iff {s : Stmt} (h : s.Formed) :
    s.Needs g ↔ s.asks g ∨ ∃ e ∈ s.roots, e.helpers.has g := by
  rw [Stmt.Needs, Stmt.parts, exists_has_helpers h.roots]

/-- A reference needs the same as an expression. -/
theorem Reference.helpers_toExpr (r : Reference) : r.toExpr.helpers = r.helpers := rfl

mutual

/-- The needs of a statement are those of the statements nested in it. -/
theorem Stmt.Formed.has_helpers {s : Stmt} (h : s.Formed) :
    s.helpers.has g ↔ ∃ t ∈ s.nested, t.Needs g := by
  -- what the statement asks for itself; the rest is asked for by the blocks inside of it
  have hown := h.needs_iff (g := g)
  match h with
  | .ifElse hc hyes hno =>
    simp only [Stmt.nested, List.exists_mem_cons_iff, hown, List.mem_append, or_and_right,
      exists_or, ← has_blockHelpers hyes, ← has_blockHelpers hno]
    simp [Stmt.helpers, Stmt.asks, Stmt.roots, Condition.helpers]
  | .doWhile hc hbody =>
    simp only [Stmt.nested, List.exists_mem_cons_iff, hown, ← has_blockHelpers hbody]
    simp [Stmt.helpers, Stmt.asks, Stmt.roots, Condition.helpers]
  | .doLoop _ _ _ _ hbody =>
    simp only [Stmt.nested, List.exists_mem_cons_iff, hown, ← has_blockHelpers hbody, has_doLoop]
    simp [Stmt.asks, Stmt.roots, Reference.helpers_toExpr, or_assoc]
  | .select _ hbranches =>
    simp only [Stmt.nested, List.exists_mem_cons_iff, hown, Stmt.helpers, Helpers.has_union,
      Bool.or_eq_true, hbranches.has_helpers]
    simp [Stmt.asks, Stmt.roots, or_assoc]
  | .assign _ _ | .put _ | .get _ _ | .openFile _ | .read _ _ | .write _ _ | .closeFile _
  | .query _ _ =>
    simp only [Stmt.nested, List.exists_mem_cons_iff, hown]
    simp [Stmt.helpers, Stmt.asks, Stmt.roots, Reference.helpers_toExpr, has_helpersOfAll, has_get,
      or_comm]

theorem has_blockHelpers {ss : List Stmt} (h : ∀ s ∈ ss, s.Formed) :
    (blockHelpers ss).has g ↔ ∃ t ∈ nestedOfAll ss, t.Needs g := by
  match ss with
  | [] => simp [blockHelpers, nestedOfAll]
  | s :: ss =>
    rw [List.forall_mem_cons] at h
    rw [blockHelpers, Helpers.has_union, Bool.or_eq_true, h.1.has_helpers,
      has_blockHelpers h.2, nestedOfAll]
    simp only [List.mem_append, or_and_right, exists_or]

theorem Branches.Formed.has_helpers {b : Branches} (h : b.Formed) :
    b.helpers.has g ↔ (∃ e ∈ b.values, e.helpers.has g) ∨ ∃ t ∈ b.nested, t.Needs g := by
  match h with
  | .done => simp [Branches.helpers, Branches.values, Branches.nested]
  | .other hbody =>
    rw [Branches.helpers, has_blockHelpers hbody]
    simp [Branches.values, Branches.nested]
  | .when _ _ hbody hrest =>
    simp only [Branches.helpers, Branches.values, Branches.nested, Helpers.has_union,
      Bool.or_eq_true, has_helpersOfAll, has_blockHelpers hbody, hrest.has_helpers, List.mem_append,
      or_and_right, exists_or, or_assoc]
    exact or_congr_right or_left_comm

end

/-- The procedure for a program calls what the program needs. -/
theorem Program.Formed.calls {p : Program} (h : p.Formed) {code : Python.Procedure}
    (hlower : p.lower = .ok code) : Calls g (blockAtoms code.body) ↔ p.helpers.has g := by
  obtain ⟨scope, body, n, -, hbody, rfl⟩ := Program.hasCodes_of_lower hlower
  -- first values are constants
  have hinitial : ¬ Calls g (blockAtoms (scope.declared.map Variable.initialise)) := by
    rintro ⟨f, -, hmem⟩
    obtain ⟨s, hs, hmem⟩ := Python.mem_blockAtoms.mp hmem
    obtain ⟨v, -, rfl⟩ := List.mem_map.mp hs
    simpa using Variable.mem_atoms_initialise hmem
  rw [Python.blockAtoms_append, Python.calls_append, hbody.calls h.statements]
  exact or_iff_right hinitial

/-- What a program needs is what its source asks for. -/
theorem Program.Formed.has_helpers {p : Program} (h : p.Formed) : p.helpers.has g = p.asks g := by
  rw [Bool.eq_iff_iff, Program.helpers, has_blockHelpers h.statements, Program.asks]
  simp only [Program.parts, Program.nested, Stmt.Needs, Bool.or_eq_true, List.any_eq_true,
    List.mem_flatMap]
  constructor
  · rintro ⟨t, ht, hself | ⟨x, hx, hasks⟩⟩
    · exact .inr ⟨t, ht, hself⟩
    · exact .inl ⟨x, ⟨t, ht, hx⟩, hasks⟩
  · rintro (⟨x, ⟨t, ht, hx⟩, hasks⟩ | ⟨t, ht, hself⟩)
    · exact ⟨t, ht, .inr ⟨x, hx, hasks⟩⟩
    · exact ⟨t, ht, .inl hself⟩

end

end Plic
