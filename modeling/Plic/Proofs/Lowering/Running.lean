import Plic.Proofs.Lowering.Atoms
import Plic.Proofs.Lowering.Strings
import Plic.Proofs.Python.Exec

/-!
# What code for the program reads and stores into

The code for an expression reads the variables that the expression refers to, and
no temporary. The code for statements stores into variables and into temporaries
of its own, which are numbered from where the counter stands when the code is
made, so those that were numbered before keep their values while it runs.

Main results:

* `Expr.Yields.alike`, `Expr.Yields.of_store` — states in which an expression has the same value.
* `HasCodes.value_temporary` — earlier temporaries outlast a run.
-/

namespace Plic

open Python (Cell Hoist Host Runs State Value blockTargets isTemporary safeName
  temporaryName)

variable {φ ω : Type} {scope : Scope}

/-! ## Names -/

/-- Evaluating an expression changes nothing. -/
theorem Expr.HasCode.acts_eq_false {e : Expr} {code : Python.Expr} (h : e.HasCode scope code) :
    code.acts = false := by
  cases h with
  | @var name _ _ codes _ _ _ =>
    -- the last subscript is the outermost
    cases codes using List.reverseRecOn with
    | nil => rfl
    | append_singleton cs c =>
      rw [List.foldl_append]
      rfl
  | _ => rfl

/-- The target of a reference belongs to the variable's name. -/
theorem Reference.root_eq {r : Reference} {code : Python.Expr} (h : r.toExpr.HasCode scope code) :
    code.root = some (safeName r.name) := by
  unfold Reference.toExpr at h
  cases h with
  | var => rw [Python.root_foldl_index, Python.Expr.root]

/-! ## Values -/

/-- The code for the expression has the value. -/
def Expr.Yields (h : Host φ ω) (scope : Scope) (σ : State φ ω) (e : Expr) (v : Value φ) : Prop :=
  ∃ code, e.lower scope = .ok code ∧ code.eval h.lib σ.env = .ok v

/-- The cell that a reference denotes in a state: that of its code. -/
def Reference.Denotes (h : Host φ ω) (scope : Scope) (σ : State φ ω) (r : Reference) (c : Cell) :
    Prop :=
  ∃ code, r.lower scope = .ok code ∧ code.cell h.lib σ.env = .ok c

/-- The states differ in temporaries only. -/
structure Python.State.Alike (σ τ : State φ ω) : Prop where
  value   : ∀ id, isTemporary id = false → σ.value id = τ.value id
  outside : σ.outside = τ.outside

namespace Python.State.Alike

variable {σ τ υ : State φ ω}

theorem refl (σ : State φ ω) : σ.Alike σ := ⟨fun _ _ => rfl, rfl⟩

theorem symm (hlike : σ.Alike τ) : τ.Alike σ :=
  ⟨fun id hid => (hlike.value id hid).symm, hlike.outside.symm⟩

theorem trans (hlike : σ.Alike τ) (hnext : τ.Alike υ) : σ.Alike υ :=
  ⟨fun id hid => (hlike.value id hid).trans (hnext.value id hid),
    hlike.outside.trans hnext.outside⟩

theorem bind (hlike : σ.Alike τ) (id : String) (v : Value φ) :
    (σ.bind id v).Alike (τ.bind id v) := by
  refine ⟨fun id' hid => ?_, hlike.outside⟩
  by_cases heq : id' = id
  · subst heq
    simp
  · simp [Function.update_of_ne heq, hlike.value id' hid]

/-- Alike states hold the same in every cell that is not a temporary. -/
theorem load (hlike : σ.Alike τ) {c : Cell} (hc : isTemporary c.name = false) :
    σ.load c = τ.load c := by
  rw [State.load, State.load, hlike.value c.name hc]

theorem set (hlike : σ.Alike τ) {c : Cell} (hc : isTemporary c.name = false) (v : Value φ) :
    (σ.set c v).Alike (τ.set c v) := by
  obtain ⟨name, indices⟩ := c
  cases indices with
  | nil => exact hlike.bind name v
  | cons i is =>
    have hvalue := hlike.value name hc
    unfold State.set State.store
    simp only [hvalue]
    cases Python.orFail .name (τ.value name) with
    -- a store that fails is none
    | error f => exact hlike
    | ok old =>
      simp only [Bind.bind, Except.bind]
      cases Value.put v (i :: is) old with
      | error f => exact hlike
      | ok w => exact hlike.bind name w

end Python.State.Alike

section

variable {h : Host φ ω} {σ τ : State φ ω} {e : Expr} {code : Python.Expr} {v u : Value φ}
  {r : Reference} {c d : Cell}

/-- The value of an expression is the value of its code, whichever code it has. -/
theorem Expr.HasCode.yields_iff (hcode : e.HasCode scope code) :
    e.Yields h scope σ v ↔ code.eval h.lib σ.env = .ok v := by
  constructor
  · rintro ⟨code', hlower, hv⟩
    obtain rfl := Except.ok.inj (hlower.symm.trans hcode.lower_eq)
    exact hv
  · exact fun hv => ⟨code, hcode.lower_eq, hv⟩

theorem Reference.denotes_iff (hcode : r.toExpr.HasCode scope code) :
    r.Denotes h scope σ c ↔ code.cell h.lib σ.env = .ok c := by
  constructor
  · rintro ⟨code', hlower, hc⟩
    obtain rfl := Except.ok.inj (hlower.symm.trans hcode.lower_eq)
    exact hc
  · exact fun hc => ⟨code, hcode.lower_eq, hc⟩

theorem Expr.Yields.unique (hv : e.Yields h scope σ v) (hu : e.Yields h scope σ u) : v = u := by
  obtain ⟨code, hlower, hv⟩ := hv
  rw [(Expr.lower_eq_ok_iff.mp hlower).yields_iff] at hu
  exact Except.ok.inj (hv.symm.trans hu)

/-- A reference has the value that its cell holds. -/
theorem Reference.Denotes.yields_iff (hc : r.Denotes h scope σ c) :
    r.toExpr.Yields h scope σ v ↔ σ.load c = .ok v := by
  obtain ⟨code, hlower, hc⟩ := hc
  rw [(Expr.lower_eq_ok_iff.mp hlower).yields_iff, Python.Expr.eval_eq_load hc]

/-- A reference denotes a cell of its variable. -/
theorem Reference.Denotes.name_eq (hc : r.Denotes h scope σ c) : c.name = safeName r.name := by
  obtain ⟨code, hlower, hc⟩ := hc
  have hroot := Python.Expr.root_of_cell hc
  rw [Reference.root_eq (Reference.hasCode_of_lower hlower)] at hroot
  exact (Option.some.inj hroot).symm

/-- A reference does not denote a cell of a temporary. -/
theorem Reference.Denotes.isTemporary_eq (hc : r.Denotes h scope σ c) :
    isTemporary c.name = false := by
  rw [hc.name_eq]
  exact Python.isTemporary_safeName r.name

theorem Reference.Denotes.unique (hc : r.Denotes h scope σ c) (hd : r.Denotes h scope σ d) :
    c = d := by
  obtain ⟨code, hlower, hc⟩ := hc
  rw [Reference.denotes_iff (Reference.hasCode_of_lower hlower)] at hd
  exact Except.ok.inj (hc.symm.trans hd)

/-! ## States in which values are the same -/

/-- An expression keeps its value while its references keep theirs. -/
theorem Expr.Yields.of_same (hv : e.Yields h scope σ v)
    (hnames : ∀ x ∈ e.references, σ.value (safeName x.name) = τ.value (safeName x.name))
    (houtside : σ.outside = τ.outside) : e.Yields h scope τ v := by
  obtain ⟨code, hlower, hv⟩ := hv
  refine ⟨code, hlower, ?_⟩
  rw [← hv]
  refine (Python.Expr.eval_congr h.lib code ⟨fun id hid => ?_, fun _ => ?_⟩).symm
  · obtain ⟨x, hx, rfl⟩ := (Expr.lower_eq_ok_iff.mp hlower).exists_reference hid
    exact hnames x hx
  · rw [State.env, houtside]
    rfl

/-- A reference keeps its cell while its subscripts keep their values. -/
theorem Reference.Denotes.of_same (hc : r.Denotes h scope σ c)
    (hnames : ∀ s ∈ r.subscripts, ∀ x ∈ s.references,
      σ.value (safeName x.name) = τ.value (safeName x.name))
    (houtside : σ.outside = τ.outside) : r.Denotes h scope τ c := by
  obtain ⟨code, hlower, hc⟩ := hc
  refine ⟨code, hlower, ?_⟩
  rw [← hc]
  refine (Python.Expr.cell_congr code ⟨fun id hid => ?_, fun _ => ?_⟩).symm
  -- only the names in the subscripts are read for the cell
  · unfold Reference.lower Reference.toExpr at hlower
    cases Expr.lower_eq_ok_iff.mp hlower with
    | var _ hlength hcodes =>
      simp only [Python.subscriptAtoms_foldl_index, Python.Expr.subscriptAtoms,
        List.nil_append] at hid
      obtain ⟨a, ha, hid⟩ := Python.mem_atomsAll.mp hid
      obtain ⟨s, hpair⟩ := exists_mem_zip_right hlength ha
      obtain ⟨x, hx, rfl⟩ := (hcodes _ hpair).exists_reference hid
      exact hnames s (List.of_mem_zip hpair).1 x hx
  · rw [State.env, houtside]
    rfl

/-- In alike states it has the same value, since it reads no temporaries. -/
theorem Expr.Yields.alike (hv : e.Yields h scope σ v) (hlike : σ.Alike τ) :
    e.Yields h scope τ v :=
  hv.of_same (fun x _ => hlike.value _ (Python.isTemporary_safeName x.name)) hlike.outside

theorem Reference.Denotes.alike (hc : r.Denotes h scope σ c) (hlike : σ.Alike τ) :
    r.Denotes h scope τ c :=
  hc.of_same (fun _ _ x _ => hlike.value _ (Python.isTemporary_safeName x.name)) hlike.outside

/-- Storing into a variable does not show in an expression that does not refer to it. -/
theorem Expr.Yields.of_store (hstore : σ.store c u = .ok τ) (hc : r.Denotes h scope σ c)
    (hapart : ∀ x ∈ e.references, x.name ≠ r.name) (hv : e.Yields h scope τ v) :
    e.Yields h scope σ v := by
  refine hv.of_same (fun x hx => ?_) (State.outside_of_store hstore)
  refine State.value_of_store hstore ?_
  rw [hc.name_eq]
  exact fun heq => hapart x hx (Python.safeName_injective heq)

end

/-! ## What code stores into -/

/-- The name is that of a variable, or of a temporary numbered behind `n`. -/
def IsTarget (n : Nat) (id : String) : Prop :=
  (∃ x, id = safeName x) ∨ ∃ (role : Hoist) (i : Nat), n < i ∧ id = temporaryName role.text i

/-- A target from some count on is one from every smaller count on. -/
theorem IsTarget.mono {n m : Nat} {id : String} (h : IsTarget m id) (hle : n ≤ m) :
    IsTarget n id := by
  rcases h with hvariable | ⟨role, i, hi, hid⟩
  · exact .inl hvariable
  · exact .inr ⟨role, i, by omega, hid⟩

section

variable {n m : Nat}

/-- Variables are targets at every count. -/
theorem Reference.isTarget {r : Reference} {code : Python.Expr} (h : r.toExpr.HasCode scope code) :
    ∀ id ∈ code.root.toList, IsTarget n id := by
  rw [Reference.root_eq h]
  exact List.forall_mem_singleton.mpr (.inl ⟨r.name, rfl⟩)

/-- An assignment to a reference stores into its variable. -/
theorem isTarget_assign {r : Reference} {t v : Python.Expr} (h : r.toExpr.HasCode scope t) :
    ∀ id ∈ blockTargets [.assign t v], IsTarget n id := by
  rw [blockTargets, blockTargets, List.append_nil]
  exact Reference.isTarget h

theorem isTarget_get {targets : List Reference} {codes : List Python.Expr}
    (h : List.Forall₂ (fun r c => r.toExpr.HasCode scope c) targets codes) :
    ∀ id ∈ blockTargets (List.zipWith getCode targets codes), IsTarget n id := by
  induction h with
  | nil => simp [blockTargets]
  | cons hcode _ ih =>
    rw [List.zipWith_cons_cons, blockTargets]
    exact List.forall_mem_append.mpr ⟨Reference.isTarget hcode, ih⟩

/-- A temporary is stored into with a number behind the count. -/
theorem Expr.HasHoist.isTarget {role : Hoist} {e : Expr} {ahead : List Python.Stmt}
    {code : Python.Expr} (h : e.HasHoist scope role.text n ahead code m) :
    ∀ id ∈ blockTargets ahead, IsTarget n id := by
  cases h with
  | literal => simp [blockTargets]
  | stored => exact List.forall_mem_singleton.mpr (.inr ⟨role, n + 1, by omega, rfl⟩)

/-- A step stores into its temporary ahead of the loop, and into the control variable in it. -/
theorem HasStep.isTarget {var limit : Python.Expr} {step : Option Expr}
    {ahead : List Python.Stmt} {test : Python.Test} {advance : Python.Stmt}
    (h : HasStep scope var limit n step ahead test advance m) :
    (∀ id ∈ blockTargets ahead, IsTarget n id) ∧ advance.targets = var.root.toList := by
  cases h with
  | one | up | down => exact ⟨by simp [blockTargets], rfl⟩
  | computed _ hhoist => exact ⟨@Expr.HasHoist.isTarget _ _ _ .step _ _ _ hhoist, rfl⟩

/-- An empty branch stores into nothing. -/
theorem isTarget_elseArms (no : List Stmt) {code : List Python.Stmt}
    (h : ∀ id ∈ blockTargets code, IsTarget n id) :
    ∀ id ∈ (elseArms no code).targets, IsTarget n id := by
  unfold elseArms
  split
  · simpa [blockTargets, Python.Stmt.targets] using h
  · exact h

mutual

/-- The code of a statement stores into variables and into temporaries behind the count. -/
theorem Stmt.HasCode.isTarget {n m : Nat} {s : Stmt} {code : List Python.Stmt}
    (h : s.HasCode scope n code m) : ∀ id ∈ blockTargets code, IsTarget n id := by
  match h with
  | .assign ht _ | .read ht | .query ht => exact isTarget_assign ht
  | .get htargets => exact isTarget_get htargets
  | .put _ | .openFile | .write _ | .closeFile => simp [blockTargets, Python.Stmt.targets]
  | .ifElse _ hyes hno =>
    -- the second branch counts on from the first
    have hle := hyes.counts.count
    rw [blockTargets, blockTargets, List.append_nil]
    exact List.forall_mem_append.mpr ⟨hyes.isTarget,
      isTarget_elseArms _ fun id hid => (hno.isTarget id hid).mono (by omega)⟩
  | .doWhile _ hbody =>
    rw [blockTargets, blockTargets, List.append_nil]
    exact hbody.isTarget
  | .doLoop hv _ hhoist hstep hbody =>
    have hlimit := (@Expr.HasHoist.counts _ .limit _ _ _ _ _ hhoist).count
    have hcount := hstep.counts.1.count
    obtain ⟨hahead, hadvance⟩ := hstep.isTarget
    simp only [Python.blockTargets_append, blockTargets, Python.Stmt.targets, List.cons_append,
      List.append_nil, hadvance, List.forall_mem_append]
    -- the assignment, what is stored for limit and step, the body and the end of a round
    exact ⟨Reference.isTarget hv, ⟨@Expr.HasHoist.isTarget _ _ _ .limit _ _ _ hhoist,
      fun id hid => (hahead id hid).mono (by omega)⟩,
      fun id hid => (hbody.isTarget id hid).mono (by omega), Reference.isTarget hv⟩
  | .select _ hbranches =>
    rw [blockTargets, blockTargets, List.append_nil]
    exact hbranches.isTarget

/-- The code for statements stores into variables and into temporaries of its own. -/
theorem HasCodes.isTarget {n m : Nat} {ss : List Stmt} {code : List Python.Stmt}
    (h : HasCodes scope n ss code m) : ∀ id ∈ blockTargets code, IsTarget n id := by
  match h with
  | .nil => simp [blockTargets]
  | .cons hs hss =>
    have hle := hs.counts.count
    rw [Python.blockTargets_append]
    exact List.forall_mem_append.mpr ⟨hs.isTarget,
      fun id hid => (hss.isTarget id hid).mono (by omega)⟩

theorem Branches.HasCode.isTarget {subject : Python.Expr} {n m : Nat} {b : Branches}
    {arms : Python.Arms} (h : b.HasCode scope subject n arms m) :
    ∀ id ∈ arms.targets, IsTarget n id := by
  match h with
  | .done => simp [Python.Arms.targets]
  | .other hbody => exact hbody.isTarget
  | .when _ hbody hrest =>
    have hle := hbody.counts.count
    exact List.forall_mem_append.mpr ⟨hbody.isTarget,
      fun id hid => (hrest.isTarget id hid).mono (by omega)⟩

end

/-- No code stores into a temporary that was numbered before the code was made. -/
theorem HasCodes.temporary_not_mem {ss : List Stmt} {code : List Python.Stmt}
    (hcode : HasCodes scope n ss code m) (role : Hoist) {i : Nat} (hi : i ≤ n) :
    temporaryName role.text i ∉ blockTargets code := by
  intro hmem
  -- it would be a variable, or have a later number
  rcases hcode.isTarget _ hmem with ⟨x, hx⟩ | ⟨role', k, hk, heq⟩
  · exact Python.safeName_ne_temporary x _ i hx.symm
  · obtain ⟨-, rfl⟩ := Python.temporaryName_injective heq
    omega

/-- Temporaries that were numbered before the code was made outlast its run. -/
theorem HasCodes.value_temporary {h : Host φ ω} {σ τ : State φ ω} {ss : List Stmt}
    {code : List Python.Stmt} (hcode : HasCodes scope n ss code m) (hrun : Runs h code σ τ)
    (role : Hoist) {i : Nat} (hi : i ≤ n) :
    τ.value (temporaryName role.text i) = σ.value (temporaryName role.text i) :=
  hrun.value_eq (hcode.temporary_not_mem role hi)

end

end Plic
