import Plic.Proofs.Lowering.Running

/-!
# What a text evaluates to

Code is written as text, and what counts in the end is what Python makes of that
text. A text is read as a tree, the tree is an expression once its calls are told
apart by the names of the functions, and the value is that of the expression. A
negative number is read as a sign in front of a number, so the expression that is
read need not be the one that was written, but it has the same value.

Main result: `Plain.textEvaluates_iff`, a text evaluates to what its expression does.
-/

namespace Plic

namespace Python

/-! ## The expression that is read -/

/-- The functions that generated code calls. -/
def Function.all : List Function :=
  [print, int, str, text, get, openFile, read, write, close, endfile, sql]

/-- The function of a name. -/
def Function.ofName? (id : String) : Option Function := Function.all.find? fun f => f.name = id

theorem Function.ofName?_name (f : Function) : Function.ofName? f.name = some f := by
  cases f <;> decide

mutual

/-- The expression that a tree stands for. Only `find` is called as an attribute, and functions are
called by their names alone. -/
def Tree.expr? : Tree → Option Expr
  | .int n => some (.int n)
  | .str s => some (.str s)
  | .name id => some (.name id)
  | .neg t => t.expr?.map .neg
  | .binary op l r => do return .binary op (← l.expr?) (← r.expr?)
  | .index b i => do return .index (← b.expr?) (← i.expr?)
  | .sliceFrom b lo => do return .sliceFrom (← b.expr?) (← lo.expr?)
  | .slice b lo hi => do return .slice (← b.expr?) (← lo.expr?) (← hi.expr?)
  | .member _ _ => none
  | .call (.name id) args => do return .call (← Function.ofName? id) (← exprs? args)
  | .call (.member t id) args => do
    match ← exprs? args with
    | [p] => if id = "find" then return .find (← t.expr?) p else none
    | _ => none
  | .call _ _ => none

/-- The expressions that some trees stand for. -/
def exprs? : List Tree → Option (List Expr)
  | [] => some []
  | t :: ts => do return (← t.expr?) :: (← exprs? ts)

end

section

variable {φ : Type} (lib : Library φ) (env : Env φ)

/-- The text, read as one expression, has the value. -/
def TextEvaluates (text : String) (v : Value φ) : Prop :=
  ∃ t e, Reads text t ∧ t.expr? = some e ∧ e.eval lib env = .ok v

variable {lib env}

/-- The tree stands for an expression that has the same value as the given one. -/
def Tree.StandsFor (lib : Library φ) (env : Env φ) (t : Tree) (e : Expr) : Prop :=
  ∃ e', t.expr? = some e' ∧ e'.eval lib env = e.eval lib env

/-- The tree of a number stands for it, with a sign where it is negative. -/
theorem Tree.standsFor_ofInt (n : Int) : (Tree.ofInt n).StandsFor lib env (.int n) := by
  unfold Tree.ofInt
  by_cases hneg : n < 0
  · -- the sign is read apart from the number and gives it back
    rw [if_pos hneg]
    refine ⟨.neg (.int n.natAbs), rfl, ?_⟩
    have hvalue : -(n.natAbs : Int) = n := by omega
    show lib.negate (.int n.natAbs) = _
    rw [Library.negate, hvalue, Expr.eval]
  · rw [if_neg hneg]
    refine ⟨.int n.natAbs, rfl, ?_⟩
    have hvalue : (n.natAbs : Int) = n := by omega
    rw [hvalue]

/-- The trees of arguments stand for the arguments. -/
theorem exprs?_treeAll {args : List Expr}
    (h : ∀ e ∈ args, e.tree.StandsFor lib env e) :
    ∃ es, exprs? (treeAll args) = some es ∧ evalAll lib env es = evalAll lib env args := by
  induction args with
  | nil => exact ⟨[], rfl, rfl⟩
  | cons e es ih =>
    obtain ⟨he, hes⟩ := List.forall_mem_cons.mp h
    obtain ⟨e', hread, hvalue⟩ := he
    obtain ⟨es', hreads, hvalues⟩ := ih hes
    refine ⟨e' :: es', ?_, ?_⟩
    · rw [treeAll, exprs?, hread, hreads]
      rfl
    · rw [evalAll, evalAll, hvalue, hvalues]

/-- What is read for an expression has the value of the expression. -/
theorem Plain.standsFor {e : Expr} (h : Plain e) : e.tree.StandsFor lib env e := by
  induction h with
  | int n => exact Tree.standsFor_ofInt n
  | str s => exact ⟨.str s, rfl, rfl⟩
  | @name id _ => exact ⟨.name id, rfl, rfl⟩
  | neg _ ih =>
    obtain ⟨e', hread, hvalue⟩ := ih
    exact ⟨.neg e', by rw [Expr.tree, Tree.expr?, hread]; rfl, by rw [Expr.eval, Expr.eval, hvalue]⟩
  | @binary op _ _ _ _ ihl ihr =>
    obtain ⟨l', hl, hlvalue⟩ := ihl
    obtain ⟨r', hr, hrvalue⟩ := ihr
    exact ⟨.binary op l' r', by rw [Expr.tree, Tree.expr?, hl, hr]; rfl,
      by rw [Expr.eval, Expr.eval, hlvalue, hrvalue]⟩
  | index _ _ _ ihb ihi =>
    obtain ⟨b', hb, hbvalue⟩ := ihb
    obtain ⟨i', hi, hivalue⟩ := ihi
    exact ⟨.index b' i', by rw [Expr.tree, Tree.expr?, hb, hi]; rfl,
      by rw [Expr.eval, Expr.eval, hbvalue, hivalue]⟩
  | sliceFrom _ _ _ ihb ihlo =>
    obtain ⟨b', hb, hbvalue⟩ := ihb
    obtain ⟨lo', hlo, hlovalue⟩ := ihlo
    exact ⟨.sliceFrom b' lo', by rw [Expr.tree, Tree.expr?, hb, hlo]; rfl,
      by rw [Expr.eval, Expr.eval, hbvalue, hlovalue]⟩
  | slice _ _ _ _ ihb ihlo ihhi =>
    obtain ⟨b', hb, hbvalue⟩ := ihb
    obtain ⟨lo', hlo, hlovalue⟩ := ihlo
    obtain ⟨hi', hhi, hhivalue⟩ := ihhi
    exact ⟨.slice b' lo' hi', by rw [Expr.tree, Tree.expr?, hb, hlo, hhi]; rfl,
      by rw [Expr.eval, Expr.eval, hbvalue, hlovalue, hhivalue]⟩
  -- a function is told by its name, and the arguments are read one by one
  | @call f args _ ih =>
    obtain ⟨es, hreads, hvalues⟩ := exprs?_treeAll ih
    refine ⟨.call f es, ?_, by rw [Expr.eval, Expr.eval, hvalues]⟩
    rw [Expr.tree, Tree.expr?, Function.ofName?_name, hreads]
    rfl
  | @find t _ _ _ _ iht ihp =>
    obtain ⟨t', ht, htvalue⟩ := iht
    obtain ⟨p', hp, hpvalue⟩ := ihp
    refine ⟨.find t' p', ?_, by rw [Expr.eval, Expr.eval, htvalue, hpvalue]⟩
    rw [Expr.tree, Tree.expr?, exprs?, exprs?, hp]
    -- the search is the one method that is read
    show (if "find" = "find" then t.tree.expr?.bind fun t' => some (Expr.find t' p') else none) = _
    rw [if_pos rfl, ht]
    rfl

/-- The text of an expression evaluates to what the expression does, and to nothing else. -/
theorem Plain.textEvaluates_iff {e : Expr} (h : Plain e) {v : Value φ} :
    TextEvaluates lib env e.render v ↔ e.eval lib env = .ok v := by
  obtain ⟨e', hread, hvalue⟩ := @Plain.standsFor _ lib env _ h
  constructor
  · rintro ⟨t, e'', hreads, hread', hv⟩
    -- a text has one reading
    obtain rfl := (h.reads_iff t).mp hreads
    obtain rfl := Option.some.inj (hread'.symm.trans hread)
    rwa [← hvalue]
  · intro hv
    exact ⟨e.tree, e', (h.reads_iff _).mpr rfl, hread, hvalue.trans hv⟩

end

end Python

end Plic
