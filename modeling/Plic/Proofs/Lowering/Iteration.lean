import Plic.Proofs.Lowering.Running
import Plic.Proofs.Python.Counting

/-!
# Iterative `DO`

The code for an iterative `DO` is a loop that counts, whichever of its forms the
step brings about. Ahead of the loop the control variable takes its first value,
and then limit and step are read, each once.

The control variable itself is not read once. Its reference is repeated in the
first assignment, in every test and at the end of every round, and is told anew
each time. So a `DO` counts in one cell only as long as the reference denotes that
cell: it does for a variable, and for an element whose subscripts do not refer to
its own array. Storing the first value into the element `a(a(1))` may turn the
reference to another element, and then the test is made of a value that was never
counted.

Main results:

* `Stmt.exists_loop_of_lower` — the code for an iterative `DO` is a loop that counts.
* `HasLoop.of_runs`, `HasLoop.exists_runs` — what the lines ahead of the loop do.
* `HasLoop.counts` — the loop counts while its variable remains the same cell.
* `Reference.remains_of_apart` — which references remain the same cell in any case.
-/

namespace Plic

open Python (Cell Continues CountedLoop Hoist Host Iterates Runs State Steers Value
  blockTargets isTemporary safeName temporaryName)

variable {φ ω : Type} {scope : Scope}

/-! ## The code -/

/-- What is computed ahead of a loop for its step, and what stands for the step in the loop. -/
inductive StepHoist (scope : Scope) :
    Nat → Option Expr → List Python.Stmt → Python.Expr → Nat → Prop where
  | one {n : Nat} : StepHoist scope n none [] (.int 1) n
  | literal {n : Nat} {e : Expr} {k : Int} :
      e.literal? = some k → StepHoist scope n (some e) [] (.int k) n
  | computed {n m : Nat} {e : Expr} {ahead : List Python.Stmt} {code : Python.Expr} :
      e.HasHoist scope Hoist.step.text n ahead code m → StepHoist scope n (some e) ahead code m

/-- All forms of the step steer the variable to the limit. -/
theorem HasStep.exists_hoist {var limit : Python.Expr} {n m : Nat} {step : Option Expr}
    {ahead : List Python.Stmt} {test : Python.Test} {advance : Python.Stmt}
    (h : HasStep scope var limit n step ahead test advance m) :
    ∃ code, Steers var limit code test advance ∧ StepHoist scope n step ahead code m := by
  cases h with
  | one => exact ⟨_, .up (by decide), .one⟩
  | up hliteral hk => exact ⟨_, .up hk, .literal hliteral⟩
  | down hliteral hk => exact ⟨_, .down hk, .literal hliteral⟩
  | computed _ hhoist => exact ⟨_, .signed, .computed hhoist⟩

/-- The loop is the code for an iterative `DO`, its body aside. -/
inductive HasLoop (scope : Scope) (n : Nat) (var : Reference) (start limit : Expr)
    (step : Option Expr) (m : Nat) (l : CountedLoop) : Prop where
  | intro {k : Nat} {s : Python.Expr} {ahead ahead' : List Python.Stmt} :
      var.toExpr.HasCode scope l.var → start.HasCode scope s →
      limit.HasHoist scope Hoist.limit.text n ahead l.limit k →
      StepHoist scope k step ahead' l.step m →
      l.ahead = .assign l.var s :: ahead ++ ahead' → HasLoop scope n var start limit step m l

section

variable {n m : Nat} {e : Expr} {step : Option Expr} {ahead : List Python.Stmt}
  {code : Python.Expr} {id : String}

/-- What stands for a value in a loop reads nothing but what has been stored for it. -/
theorem Expr.HasHoist.hoisted {role : Hoist} (hhoist : e.HasHoist scope role.text n ahead code m) :
    ∀ a ∈ code.atoms, ∃ id ∈ blockTargets ahead, isTemporary id = true ∧ a = .name id := by
  cases hhoist with
  | literal hliteral hcode =>
    rw [hcode.atoms_literal hliteral]
    simp
  | stored _ _ =>
    rw [Python.Expr.atoms, List.forall_mem_singleton]
    exact ⟨_, List.mem_singleton.mpr rfl, Python.isTemporary_temporaryName _ _, rfl⟩

/-- The code of a step that is hoisted reads its temporary and nothing else. -/
theorem StepHoist.hoisted (hhoist : StepHoist scope n step ahead code m) :
    ∀ a ∈ code.atoms, ∃ id ∈ blockTargets ahead, isTemporary id = true ∧ a = .name id := by
  cases hhoist with
  | one | literal => simp
  | computed hhoist => exact hhoist.hoisted

/-- Hoisting stores into one temporary, the one with the last number. -/
theorem Expr.HasHoist.eq_of_mem_targets {role : Hoist}
    (hhoist : e.HasHoist scope role.text n ahead code m) (hid : id ∈ blockTargets ahead) :
    id = temporaryName role.text m := by
  cases hhoist with
  | literal => cases hid
  | stored => exact List.mem_singleton.mp hid

theorem StepHoist.eq_of_mem_targets (hhoist : StepHoist scope n step ahead code m)
    (hid : id ∈ blockTargets ahead) : id = temporaryName Hoist.step.text m := by
  cases hhoist with
  | one | literal => cases hid
  | computed hhoist => exact hhoist.eq_of_mem_targets hid

theorem StepHoist.le (hhoist : StepHoist scope n step ahead code m) : n ≤ m := by
  cases hhoist with
  | one | literal => exact le_refl n
  | computed hhoist =>
    have hcount := hhoist.counts.count
    omega

end

/-- The temporaries of a loop are numbered up to where its body counts on. -/
theorem HasLoop.exists_number {n m : Nat} {var : Reference} {start limit : Expr}
    {step : Option Expr} {l : CountedLoop} (hloop : HasLoop scope n var start limit step m l)
    {id : String} (hid : id ∈ l.temporaries) :
    ∃ (role : Hoist) (i : Nat), i ≤ m ∧ id = temporaryName role.text i := by
  cases hloop with
  | @intro k s ahead ahead' hvar _ hlimit hstep hahead =>
    obtain ⟨hmem, htemporary⟩ := List.mem_filter.mp hid
    rw [hahead, Python.blockTargets_append, blockTargets, List.append_assoc] at hmem
    simp only [List.mem_append] at hmem
    rcases hmem with hmem | hmem | hmem
    · -- the control variable is no temporary
      rw [Python.Stmt.targets, Reference.root_eq hvar] at hmem
      rw [List.mem_singleton.mp hmem, Python.isTemporary_safeName] at htemporary
      cases htemporary
    · exact ⟨.limit, k, hstep.le, hlimit.eq_of_mem_targets hmem⟩
    · exact ⟨.step, m, le_refl m, hstep.eq_of_mem_targets hmem⟩

/-- The code for an iterative `DO` is a loop that counts. -/
theorem Stmt.exists_loop_of_lower {n j : Nat} {var : Reference} {start limit : Expr}
    {step : Option Expr} {body : List Stmt} {loc : Location} {code : List Python.Stmt}
    (h : (Stmt.doLoop var start limit step body loc).lower scope n = .ok (code, j)) :
    ∃ l m, code = l.code ∧ HasLoop scope n var start limit step m l ∧
      lowerBlock scope body m = .ok (l.body, j) := by
  simp only [Stmt.lower, Lowering.lift_bind_eq_ok_iff] at h
  obtain ⟨v, hv, s, hs, h⟩ := h
  simp only [Lowering.bind_eq_ok_iff] at h
  obtain ⟨⟨ahead, l⟩, k, hhoist, ⟨ahead', test, advance⟩, m, hstep, bs, _, hbody, h⟩ := h
  obtain ⟨rfl, rfl⟩ := Lowering.pure_eq_ok_iff.mp h
  have hhoist := Expr.hasHoist_of_hoist hhoist
  obtain ⟨w, hsteers, hstep⟩ := (hasStep_of_lowerStep hstep).exists_hoist
  -- limit and step are read from temporaries, or are literals without names
  have hoisted : ∀ a ∈ l.atoms ++ w.atoms, ∃ id ∈ blockTargets (.assign v s :: ahead ++ ahead'),
      isTemporary id = true ∧ a = .name id := by
    rw [Python.blockTargets_append, Python.blockTargets]
    intro a ha
    rcases List.mem_append.mp ha with ha | ha
    · obtain ⟨id, hid, hname⟩ := @Expr.HasHoist.hoisted _ _ _ _ _ _ .limit hhoist a ha
      exact ⟨id, by simp [hid], hname⟩
    · obtain ⟨id, hid, hname⟩ := hstep.hoisted a ha
      exact ⟨id, by simp [hid], hname⟩
  exact ⟨⟨_, v, l, w, test, bs, advance, hsteers, hoisted⟩, m, rfl,
    .intro (Reference.hasCode_of_lower hv) (Expr.lower_eq_ok_iff.mp hs) hhoist hstep rfl, hbody⟩

/-! ## Ahead of the loop -/

/-- The value of a step, which is one where it is absent. -/
def StepYields (h : Host φ ω) (scope : Scope) (σ : State φ ω) (step : Option Expr) (v : Value φ) :
    Prop :=
  step.elim (v = .int 1) fun e => e.Yields h scope σ v

/-- An iterative `DO` is entered from the state `σ`: its variable is the cell `c` and takes the
value `s`, which leads to the state `entry`, where limit and step have the values `u` and `w`. -/
structure Enters (h : Host φ ω) (scope : Scope) (var : Reference) (start limit : Expr)
    (step : Option Expr) (σ : State φ ω) (c : Cell) (s u w : Value φ) (entry : State φ ω) :
    Prop where
  start  : start.Yields h scope σ s
  cell   : var.Denotes h scope σ c
  stored : σ.store c s = .ok entry
  limit  : limit.Yields h scope entry u
  step   : StepYields h scope entry step w

section

variable {h : Host φ ω} {σ τ : State φ ω} {n m : Nat} {e : Expr} {ahead : List Python.Stmt}
  {code : Python.Expr} {v : Value φ}

/-- Storing into a temporary. -/
theorem runs_temporary_iff {role : String} {i : Nat} (hcode : e.HasCode scope code) :
    Runs h [.assign (.name (temporaryName role i)) code] σ τ ↔
      ∃ v, e.Yields h scope σ v ∧ τ = σ.bind (temporaryName role i) v := by
  rw [Python.runs_assign_iff]
  simp only [Host.assign_eq_ok_iff hcode.acts_eq_false, Python.runs_nil_iff, hcode.yields_iff]
  constructor
  · rintro ⟨_, ⟨v, c, hv, hcell, hstore⟩, rfl⟩
    obtain rfl := Except.ok.inj hcell
    exact ⟨v, hv, (Except.ok.inj hstore).symm⟩
  · rintro ⟨v, hv, rfl⟩
    exact ⟨_, ⟨v, _, hv, rfl, rfl⟩, rfl⟩

/-- Storing into a temporary keeps states alike. -/
theorem Python.State.Alike.bind_temporary (σ : State φ ω) (role : String) (i : Nat) (v : Value φ) :
    σ.Alike (σ.bind (temporaryName role i) v) := by
  refine ⟨fun id hid => (Function.update_of_ne ?_ _ _).symm, rfl⟩
  rintro rfl
  rw [Python.isTemporary_temporaryName] at hid
  cases hid

/-- What is computed ahead of a loop is the value that stands in the loop. -/
theorem Expr.HasHoist.of_runs {role : Hoist} (hhoist : e.HasHoist scope role.text n ahead code m)
    (hrun : Runs h ahead σ τ) :
    σ.Alike τ ∧ ∃ v, e.Yields h scope σ v ∧ code.eval h.lib τ.env = .ok v := by
  cases hhoist with
  | literal hliteral hcode =>
    obtain rfl := Python.runs_nil_iff.mp hrun
    obtain ⟨k, hk⟩ := Option.isSome_iff_exists.mp hliteral
    exact ⟨.refl τ, .int k, hcode.yields_iff.mpr (hcode.eval_literal hk), hcode.eval_literal hk⟩
  | stored _ hcode =>
    obtain ⟨v, hv, rfl⟩ := (runs_temporary_iff hcode).mp hrun
    exact ⟨.bind_temporary σ _ _ v, v, hv, by simp [State.env, Python.orFail]⟩

/-- Hoisting an expression that has a value goes through. -/
theorem Expr.HasHoist.exists_runs {role : Hoist}
    (hhoist : e.HasHoist scope role.text n ahead code m) (hv : e.Yields h scope σ v) :
    ∃ τ, Runs h ahead σ τ := by
  cases hhoist with
  | literal => exact ⟨σ, .nil⟩
  | stored _ hcode => exact ⟨_, (runs_temporary_iff hcode).mpr ⟨v, hv, rfl⟩⟩

/-- A run of the code ahead gives the step its value, and changes temporaries only. -/
theorem StepHoist.of_runs {step : Option Expr} (hhoist : StepHoist scope n step ahead code m)
    (hrun : Runs h ahead σ τ) :
    σ.Alike τ ∧ ∃ v, StepYields h scope σ step v ∧ code.eval h.lib τ.env = .ok v := by
  cases hhoist with
  | one =>
    obtain rfl := Python.runs_nil_iff.mp hrun
    exact ⟨.refl τ, .int 1, rfl, by simp⟩
  | @literal e k hk =>
    obtain rfl := Python.runs_nil_iff.mp hrun
    -- a literal has code, though none of it is used
    obtain ⟨code, hlower⟩ := @Expr.exists_lower_of_literal? scope e k hk
    have hcode := Expr.lower_eq_ok_iff.mp hlower
    exact ⟨.refl τ, .int k, hcode.yields_iff.mpr (hcode.eval_literal hk), by simp⟩
  | computed hhoist => exact hhoist.of_runs hrun

theorem StepHoist.exists_runs {step : Option Expr} (hhoist : StepHoist scope n step ahead code m)
    (hv : StepYields h scope σ step v) : ∃ τ, Runs h ahead σ τ := by
  cases hhoist with
  | one | literal => exact ⟨σ, .nil⟩
  | computed hhoist => exact hhoist.exists_runs hv

/-- The value of a step is the same in alike states. -/
theorem StepYields.alike {step : Option Expr} (hv : StepYields h scope σ step v)
    (hlike : σ.Alike τ) : StepYields h scope τ step v := by
  cases step with
  | none => exact hv
  | some e => exact Expr.Yields.alike hv hlike

theorem StepYields.unique {step : Option Expr} {u : Value φ} (hv : StepYields h scope σ step v)
    (hu : StepYields h scope σ step u) : v = u := by
  cases step with
  | none => exact hv.trans hu.symm
  | some e => exact Expr.Yields.unique hv hu

end

section

variable {h : Host φ ω} {σ first : State φ ω} {n m : Nat} {var : Reference} {start limit : Expr}
  {step : Option Expr} {l : CountedLoop}

/-- The lines ahead of the loop read limit and step behind the first assignment. -/
theorem HasLoop.of_runs (hloop : HasLoop scope n var start limit step m l)
    (hrun : Runs h l.ahead σ first) :
    ∃ c s u w entry, Enters h scope var start limit step σ c s u w entry ∧ entry.Alike first ∧
      l.limit.eval h.lib first.env = .ok u ∧ l.step.eval h.lib first.env = .ok w := by
  cases hloop with
  | @intro k s ahead ahead' hvar hstart hlimit hstep hahead =>
    rw [hahead, Python.runs_append_iff] at hrun
    obtain ⟨μ, hrun, hrun'⟩ := hrun
    obtain ⟨entry, hassign, hrun⟩ := Python.runs_assign_iff.mp hrun
    rw [Host.assign_eq_ok_iff hstart.acts_eq_false] at hassign
    obtain ⟨v, c, hv, hcell, hstore⟩ := hassign
    obtain ⟨hlike, u, hu, hcode⟩ := hlimit.of_runs hrun
    obtain ⟨hlike', w, hw, hcode'⟩ := hstep.of_runs hrun'
    -- the step is stored under another name than the limit
    have hkept : l.limit.eval h.lib first.env = l.limit.eval h.lib μ.env := by
      refine l.limit.eval_congr h.lib ⟨fun id hid => ?_, fun hend => ?_⟩
      · obtain ⟨_, hmem, -, heq⟩ := hlimit.hoisted _ hid
        obtain rfl := Python.Atom.name.inj heq
        refine hrun'.value_eq fun hmem' => ?_
        have hname := (hlimit.eq_of_mem_targets hmem).symm.trans (hstep.eq_of_mem_targets hmem')
        cases (Python.temporaryName_injective hname).1
      · obtain ⟨_, -, -, heq⟩ := hlimit.hoisted _ hend
        cases heq
    -- the step was read behind the limit, which makes no difference to it
    exact ⟨c, v, u, w, entry, ⟨hstart.yields_iff.mpr hv, (Reference.denotes_iff hvar).mpr hcell,
      hstore, hu, hw.alike hlike.symm⟩, hlike.trans hlike', hkept.trans hcode, hcode'⟩

/-- Where the first value can be stored and limit and step have values, the loop is entered. -/
theorem HasLoop.exists_runs (hloop : HasLoop scope n var start limit step m l) {c : Cell}
    {s u w : Value φ} {entry : State φ ω}
    (henters : Enters h scope var start limit step σ c s u w entry) :
    ∃ first, Runs h l.ahead σ first := by
  cases hloop with
  | @intro k sc ahead ahead' hvar hstart hlimit hstep hahead =>
    -- the step is read after a temporary was stored into, which it does not read
    obtain ⟨μ, hrun⟩ := hlimit.exists_runs henters.limit
    obtain ⟨first, hrun'⟩ := hstep.exists_runs (henters.step.alike (hlimit.of_runs hrun).1)
    have hassign : h.assign σ l.var sc = .ok entry := by
      rw [Host.assign_eq_ok_iff hstart.acts_eq_false]
      exact ⟨s, c, hstart.yields_iff.mp henters.start,
        (Reference.denotes_iff hvar).mp henters.cell, henters.stored⟩
    rw [hahead]
    exact ⟨first, Python.runs_append_iff.mpr ⟨μ, .assign hassign hrun, hrun'⟩⟩

/-- A `DO` is entered in one way: one cell, one first value, one limit, one step. -/
theorem Enters.unique {c c' : Cell} {s s' u u' w w' : Value φ} {entry entry' : State φ ω}
    (henters : Enters h scope var start limit step σ c s u w entry)
    (hother : Enters h scope var start limit step σ c' s' u' w' entry') :
    c = c' ∧ s = s' ∧ entry = entry' ∧ u = u' ∧ w = w' := by
  obtain rfl := henters.cell.unique hother.cell
  obtain rfl := henters.start.unique hother.start
  obtain rfl := Except.ok.inj (henters.stored.symm.trans hother.stored)
  exact ⟨rfl, rfl, rfl, henters.limit.unique hother.limit, henters.step.unique hother.step⟩

/-! ## The rounds -/

/-- Wherever counting in the cell comes to ask whether to go on, the reference denotes the cell. It
need not: an element of an array that occurs in its own subscripts may become another element by
being stored into. -/
def Reference.Remains (h : Host φ ω) (scope : Scope) (r : Reference) (c : Cell) (s u k : Int)
    (body : State φ ω → State φ ω → Prop) (first : State φ ω) : Prop :=
  ∀ i τ, Iterates c s u k body first i τ → r.Denotes h scope τ c

/-- What stands for the body neither changes the control variable nor the temporaries of the
loop. -/
structure Python.CountedLoop.SparedBy (l : CountedLoop) (h : Host φ ω) (scope : Scope)
    (var : Reference) (c : Cell) (body : State φ ω → State φ ω → Prop) : Prop where
  cell : ∀ τ υ, body τ υ → var.Denotes h scope τ c → var.Denotes h scope υ c
  value : ∀ τ υ, body τ υ → υ.load c = τ.load c
  temporaries : ∀ τ υ, body τ υ → ∀ id ∈ l.temporaries, υ.value id = τ.value id

/-- What stands for the body does the same whatever the temporaries hold. -/
def Blind (body : State φ ω → State φ ω → Prop) : Prop :=
  ∀ τ τ' υ, τ.Alike τ' → body τ υ → ∃ υ', body τ' υ' ∧ υ.Alike υ'

/-- The subscripts of the reference do not refer to its own variable, so that storing into the
variable does not show in them. This is so for every variable without subscripts. -/
def Reference.Apart (r : Reference) : Prop :=
  ∀ s ∈ r.subscripts, ∀ x ∈ s.references, x.name ≠ r.name

/-- A reference apart from its own subscripts denotes the same cell after an integer has been stored
into that cell. -/
theorem Reference.Apart.denotes_set {r : Reference} {c : Cell} {τ : State φ ω} (hapart : r.Apart)
    (hc : r.Denotes h scope τ c) (x : Int) : r.Denotes h scope (τ.set c (.int x)) c := by
  refine hc.of_same (fun s hs y hy => (State.value_set τ _ ?_).symm) (State.outside_set τ c _).symm
  rw [hc.name_eq]
  exact fun heq => hapart s hs y hy (Python.safeName_injective heq)

/-- The variable of the loop is the code of the control variable. -/
theorem HasLoop.hasCode_var (hloop : HasLoop scope n var start limit step m l) :
    var.toExpr.HasCode scope l.var := by
  cases hloop with
  | intro hvar => exact hvar

variable {c : Cell} {s u k x : Int} {entry τ υ : State φ ω} {body : State φ ω → State φ ω → Prop}

theorem HasLoop.denotes_iff (hloop : HasLoop scope n var start limit step m l) :
    var.Denotes h scope σ c ↔ l.var.cell h.lib σ.env = .ok c :=
  Reference.denotes_iff hloop.hasCode_var

/-- The lines ahead of the loop lead from the state with the first value to one that differs from it
in temporaries only. -/
theorem HasLoop.alike_first (hloop : HasLoop scope n var start limit step m l)
    (henters : Enters h scope var start limit step σ c (.int s) (.int u) (.int k) entry)
    (hrun : Runs h l.ahead σ first) : entry.Alike first := by
  obtain ⟨c', s', u', w', entry', henters', hlike, -⟩ := hloop.of_runs hrun
  obtain ⟨-, -, rfl, -⟩ := henters.unique henters'
  exact hlike

/-- At the first test the variable has its first value, if it is still the same cell, and limit and
step are as they were read. -/
theorem HasLoop.at_first (hloop : HasLoop scope n var start limit step m l)
    (henters : Enters h scope var start limit step σ c (.int s) (.int u) (.int k) entry)
    (hrun : Runs h l.ahead σ first) (hcell : var.Denotes h scope first c) :
    l.At h c u k s first := by
  obtain ⟨c', s', u', w', entry', henters', hlike, hlimit, hstep⟩ := hloop.of_runs hrun
  obtain ⟨rfl, rfl, rfl, rfl, rfl⟩ := henters.unique henters'
  refine ⟨hloop.denotes_iff.mp hcell, ?_, hlimit, hstep⟩
  rw [← hlike.load hcell.isTemporary_eq]
  exact State.load_of_store henters.stored

/-- The body leaves the loop where it is. -/
theorem HasLoop.at_body (hloop : HasLoop scope n var start limit step m l)
    (hspared : l.SparedBy h scope var c body) (hbody : body τ υ) (hat : l.At h c u k x τ) :
    l.At h c u k x υ := by
  have hcell := hspared.cell τ υ hbody (hloop.denotes_iff.mpr hat.cell)
  have hvalue := (hspared.value τ υ hbody).trans hat.value
  exact hat.of_temporaries (hloop.denotes_iff.mp hcell) hvalue (hspared.temporaries τ υ hbody)

/-- Storing into the variable takes the loop there, if the variable is still the same cell. -/
theorem HasLoop.at_set (hloop : HasLoop scope n var start limit step m l) {y : Int}
    (hcell : var.Denotes h scope (τ.set c (.int y)) c) (hat : l.At h c u k x τ) :
    l.At h c u k y (τ.set c (.int y)) := by
  obtain ⟨μ, hμ⟩ := State.exists_store_of_load hat.value (.int y)
  refine hat.of_temporaries (hloop.denotes_iff.mp hcell) ?_ fun id hid => ?_
  · rw [State.set_of_store hμ]
    exact State.load_of_store hμ
  · -- a temporary is not the variable
    refine State.value_set τ _ fun heq => ?_
    have htemporary := (List.mem_filter.mp hid).2
    rw [heq, hcell.isTemporary_eq] at htemporary
    cases htemporary

/-- While counting, the loop stands at the count. The induction is on the rounds of counting: the
body leaves the loop where it is, and the end of a round stores the next count into the cell, which
the variable still denotes. -/
theorem HasLoop.at_count (hloop : HasLoop scope n var start limit step m l)
    (henters : Enters h scope var start limit step σ c (.int s) (.int u) (.int k) entry)
    (hremains : var.Remains h scope c s u k body first) (hspared : l.SparedBy h scope var c body)
    (hrun : Runs h l.ahead σ first) {i : Nat} (hiterates : Iterates c s u k body first i τ) :
    l.At h c u k (s + i * k) τ := by
  induction hiterates with
  | start => simpa using hloop.at_first henters hrun (hremains 0 first .start)
  | @next i τ υ hiterates hcontinues hbody ih =>
    have hcell := hremains (i + 1) _ (.next hiterates hcontinues hbody)
    have hat := hloop.at_set hcell (hloop.at_body hspared hbody ih)
    exact_mod_cast hat

/-- A `DO` whose body spares its loop, and whose variable remains the same cell, is a loop that
counts steadily. -/
theorem HasLoop.steady (hloop : HasLoop scope n var start limit step m l)
    (henters : Enters h scope var start limit step σ c (.int s) (.int u) (.int k) entry)
    (hremains : var.Remains h scope c s u k body first) (hspared : l.SparedBy h scope var c body)
    (hrun : Runs h l.ahead σ first) : l.Steady h c s u k body first where
  count _ _ := hloop.at_count henters hremains hspared hrun
  body _ _ _ hbody := hloop.at_body hspared hbody

/-- A variable apart from its own subscripts remains the same cell, whatever is counted: neither the
first value nor the end of a round shows in its subscripts, and the body spares it. -/
theorem Reference.remains_of_apart (hapart : var.Apart)
    (hloop : HasLoop scope n var start limit step m l)
    (henters : Enters h scope var start limit step σ c (.int s) (.int u) (.int k) entry)
    (hspared : l.SparedBy h scope var c body) (hrun : Runs h l.ahead σ first) :
    var.Remains h scope c s u k body first := by
  intro i τ hiterates
  induction hiterates with
  | start =>
    have hentry : var.Denotes h scope entry c := by
      have hset := hapart.denotes_set henters.cell s
      rwa [State.set_of_store henters.stored] at hset
    exact hentry.alike (hloop.alike_first henters hrun)
  -- neither the body nor the step moves the cell
  | next _ _ hbody ih => exact hapart.denotes_set (hspared.cell _ _ hbody ih) _

/-- Counting does not depend on temporaries. -/
theorem Python.Iterates.alike {first' : State φ ω} {i : Nat} (hblind : Blind body)
    (hc : isTemporary c.name = false) (hlike : first.Alike first')
    (hiterates : Iterates c s u k body first i τ) :
    ∃ τ', Iterates c s u k body first' i τ' ∧ τ.Alike τ' := by
  induction hiterates with
  | start => exact ⟨first', .start, hlike⟩
  | next _ hcontinues hbody ih =>
    -- both go on from like states, as the test is one on the count alone
    obtain ⟨τ', hiterates', hlike'⟩ := ih
    obtain ⟨υ', hbody', hlike'⟩ := hblind _ _ _ hlike' hbody
    exact ⟨_, .next hiterates' hcontinues hbody', hlike'.set hc _⟩

/-- Whether the variable remains the same cell does not depend on temporaries either. -/
theorem Reference.Remains.alike {first' : State φ ω} (hblind : Blind body)
    (hc : isTemporary c.name = false) (hlike : first.Alike first')
    (hremains : var.Remains h scope c s u k body first) :
    var.Remains h scope c s u k body first' := by
  intro i τ' hiterates
  obtain ⟨τ, hiterates', hlike'⟩ := hiterates.alike hblind hc hlike.symm
  exact (hremains i τ hiterates').alike hlike'.symm

end

/-! ## What an iterative `DO` does -/

/-- The loop, with the given body, counts in the cell from `s` by `k` up or down to `u`. -/
structure Python.CountedLoop.Counts (l : CountedLoop) (h : Host φ ω) (scope : Scope)
    (var : Reference) (c : Cell) (s u k : Int) (body : State φ ω → State φ ω → Prop)
    (σ first : State φ ω) : Prop where
  rounds : ∀ i τ, l.Reaches h body σ i τ ↔ Iterates c s u k body first i τ
  value  : ∀ (i : Nat) τ, l.Reaches h body σ i τ →
    var.toExpr.Yields h scope τ (.int (s + i * k))
  /-- It ends at the first value that has passed the limit. -/
  ends   : ∀ τ, l.Ends h body σ τ ↔ ∃ i : Nat, Iterates c s u k body first i τ ∧
    (∀ j < i, Continues u k (s + j * k)) ∧ ¬ Continues u k (s + i * k)

/-- Whatever the first loop does, the second one does too, temporaries aside. -/
structure Python.CountedLoop.Matched (l l' : CountedLoop) (h : Host φ ω)
    (body : State φ ω → State φ ω → Prop) (σ : State φ ω) : Prop where
  reaches : ∀ i τ, l.Reaches h body σ i τ → ∃ τ', l'.Reaches h body σ i τ' ∧ τ.Alike τ'
  ends    : ∀ τ, l.Ends h body σ τ → ∃ τ', l'.Ends h body σ τ' ∧ τ.Alike τ'

section

variable {h : Host φ ω} {σ first entry : State φ ω} {n m : Nat} {var : Reference}
  {start limit : Expr} {step : Option Expr} {l : CountedLoop} {c : Cell} {s u k : Int}
  {body : State φ ω → State φ ω → Prop}

/-- The loop of a `DO` counts, if its variable remains the same cell and its body spares it. -/
theorem HasLoop.counts (hloop : HasLoop scope n var start limit step m l)
    (henters : Enters h scope var start limit step σ c (.int s) (.int u) (.int k) entry)
    (hremains : var.Remains h scope c s u k body first) (hspared : l.SparedBy h scope var c body)
    (hrun : Runs h l.ahead σ first) : l.Counts h scope var c s u k body σ first := by
  have hsteady := hloop.steady henters hremains hspared hrun
  refine ⟨fun i τ => hsteady.reaches_iff hrun, fun i τ hreached => ?_,
    fun τ => hsteady.ends_iff hrun⟩
  have hat := hsteady.count i τ ((hsteady.reaches_iff hrun).mp hreached)
  exact (hloop.denotes_iff.mpr hat.cell).yields_iff.mpr hat.value

/-- Two loops that count alike do alike. -/
theorem Python.CountedLoop.Counts.matched {l' : CountedLoop} {first' : State φ ω}
    (hcounts : l.Counts h scope var c s u k body σ first)
    (hcounts' : l'.Counts h scope var c s u k body σ first') (hlike : first.Alike first')
    (hc : isTemporary c.name = false) (hblind : Blind body) : l.Matched l' h body σ := by
  refine ⟨fun i τ hreached => ?_, fun τ hended => ?_⟩
  · obtain ⟨τ', hiterates, hlike'⟩ := ((hcounts.rounds i τ).mp hreached).alike hblind hc hlike
    exact ⟨τ', (hcounts'.rounds i τ').mpr hiterates, hlike'⟩
  · obtain ⟨i, hiterates, hcontinues⟩ := (hcounts.ends τ).mp hended
    obtain ⟨τ', hiterates', hlike'⟩ := hiterates.alike hblind hc hlike
    exact ⟨τ', (hcounts'.ends τ').mpr ⟨i, hiterates', hcontinues⟩, hlike'⟩

/-- The body of a `DO` leaves the temporaries of its loop alone. -/
theorem HasLoop.value_of_body (hloop : HasLoop scope n var start limit step m l)
    {stmts : List Stmt} {j : Nat} (hbody : lowerBlock scope stmts m = .ok (l.body, j))
    {τ υ : State φ ω} (hrun : Runs h l.body τ υ) {id : String} (hid : id ∈ l.temporaries) :
    υ.value id = τ.value id := by
  obtain ⟨role, i, hi, rfl⟩ := hloop.exists_number hid
  exact (hasCodes_of_lowerBlock stmts hbody).value_temporary hrun role hi

end

/-- **An iterative `DO` runs its body for the values it names, while its variable is
one cell.** Let the `DO` be entered with an integer for its first value, its limit
and its step, the latter two read behind the first assignment, and let its body do
anything but change the control variable or the temporaries of the loop, which its
own body leaves alone.

If the control variable denotes the same cell wherever counting asks whether to go
on, the body runs for `s`, `s + k` and so on while the limit has not been passed,
and if the loop ends, the control variable has the first value that has passed it.
Code for the same `DO` with its step in another form then does the same, if the
step has the same value. The control variable remains the same cell whenever its
subscripts do not refer to its own array, and `doLoop_iterates_moved` has one that
does not. -/
theorem doLoop_iterates (h : Host φ ω) {n j : Nat} {var : Reference} {start limit : Expr}
    {step : Option Expr} {stmts : List Stmt} {loc : Location} {code : List Python.Stmt}
    (hcode : (Stmt.doLoop var start limit step stmts loc).lower scope n = .ok (code, j)) :
    ∃ l : CountedLoop, code = l.code ∧ (∃ m, lowerBlock scope stmts m = .ok (l.body, j)) ∧
      (∀ σ τ, Runs h code σ τ ↔ l.Ends h (Runs h l.body) σ τ) ∧
      (∀ τ υ, Runs h l.body τ υ → ∀ id ∈ l.temporaries, υ.value id = τ.value id) ∧
      ∀ σ c s u k entry,
        Enters h scope var start limit step σ c (.int s) (.int u) (.int k) entry →
        ∃ first, Runs h l.ahead σ first ∧ entry.Alike first ∧
          ∀ body, l.SparedBy h scope var c body →
            (var.Apart → var.Remains h scope c s u k body first) ∧
            (var.Remains h scope c s u k body first →
              l.Counts h scope var c s u k body σ first ∧
              ∀ step' stmts' loc' n' j' code',
                (Stmt.doLoop var start limit step' stmts' loc').lower scope n' = .ok (code', j') →
                ∃ l' : CountedLoop, code' = l'.code ∧
                  ∀ entry', Enters h scope var start limit step' σ c (.int s) (.int u) (.int k)
                    entry' → l'.SparedBy h scope var c body → Blind body →
                    l.Matched l' h body σ ∧ l'.Matched l h body σ) := by
  obtain ⟨l, m, rfl, hloop, hbody⟩ := Stmt.exists_loop_of_lower hcode
  refine ⟨l, rfl, ⟨m, hbody⟩, fun σ τ => CountedLoop.runs_code_iff,
    fun τ υ hrun id hid => hloop.value_of_body hbody hrun hid, ?_⟩
  intro σ c s u k entry henters
  obtain ⟨first, hrun⟩ := hloop.exists_runs henters
  have hlike := hloop.alike_first henters hrun
  refine ⟨first, hrun, hlike, fun body hspared =>
    ⟨fun hapart => Reference.remains_of_apart hapart hloop henters hspared hrun,
      fun hremains => ?_⟩⟩
  have hcounts := hloop.counts henters hremains hspared hrun
  refine ⟨hcounts, fun step' stmts' loc' n' j' code' hcode' => ?_⟩
  obtain ⟨l', m', rfl, hloop', -⟩ := Stmt.exists_loop_of_lower hcode'
  refine ⟨l', rfl, fun entry' henters' hspared' hblind => ?_⟩
  obtain ⟨first', hrun'⟩ := hloop'.exists_runs henters'
  -- both loops start behind the same assignment
  obtain rfl : entry = entry' := Except.ok.inj (henters.stored.symm.trans henters'.stored)
  have hfirst := hlike.symm.trans (hloop'.alike_first henters' hrun')
  have hname := henters.cell.isTemporary_eq
  have hcounts' := hloop'.counts henters' (hremains.alike hblind hname hfirst) hspared' hrun'
  exact ⟨hcounts.matched hcounts' hfirst hname hblind,
    hcounts'.matched hcounts hfirst.symm hname hblind⟩

/-- Two mentions of a variable give one object, and no other two expressions do. -/
def Python.sameVariable (_ : Python.Env φ) (a b : Python.Expr) : Bool :=
  match a, b with
  | .name x, .name y => x = y
  | _, _ => false

/-- A host that takes two expressions for one object if both are the same variable is coherent. -/
theorem Python.coherent_of_sameVariable {h : Host φ ω} (hsame : h.same = sameVariable) :
    h.Coherent := by
  intro env a b hab
  rw [hsame] at hab
  unfold sameVariable at hab
  split at hab
  · rw [of_decide_eq_true hab]
  · cases hab

/-- A host for programs without fractions, input and output. -/
def Python.Host.wholes : Host Empty Unit where
  lib := .wholes
  cmp := {
    floats := fun _ x _ => x.elim
    mixed := fun _ _ y => y.elim
    equalLists := fun _ _ => false
    orderLists := fun _ _ _ => .error .type }
  same := sameVariable
  act _ _ _ := .error .value

/-- A variable without subscripts. -/
def Reference.plain (name : String) : Reference := ⟨name, [], ⟨1, 1⟩⟩

/-- The statements `n = 7; k = 5;`. -/
def overwriting : List Stmt :=
  [.assign (.plain "n") (.number 7 ⟨1, 1⟩) ⟨1, 1⟩, .assign (.plain "k") (.number 5 ⟨1, 1⟩) ⟨1, 1⟩]

/-- The statement `DO i = 3 TO n BY step; n = 7; k = 5; END;`. -/
def countdown (step : Expr) : Stmt :=
  .doLoop (.plain "i") (.number 3 ⟨1, 1⟩) (Reference.plain "n").toExpr (some step) overwriting
    ⟨1, 1⟩

/-- The state with 0 in `n` and -2 in `k`. -/
def Python.State.bounds : State Empty Unit where
  value id := if id = "n" then some (.int 0) else if id = "k" then some (.int (-2)) else none
  outside := ⟨fun _ => false, ()⟩

/-- `BY k` and `BY -2` run the body for 3 and 1, whatever it does to `n` and `k`. -/
theorem doLoop_iterates_down : ∃ l l' : CountedLoop,
    (countdown (Reference.plain "k").toExpr).lower Scope.empty 0 = .ok (l.code, 2) ∧
    (countdown (.neg (.number 2 ⟨1, 1⟩) ⟨1, 1⟩)).lower Scope.empty 0 = .ok (l'.code, 1) ∧
    ∃ τ τ', Runs .wholes l.code .bounds τ ∧ l'.Ends .wholes (Runs .wholes l.body) .bounds τ' ∧
      τ.Alike τ' ∧ (Reference.plain "i").toExpr.Yields .wholes Scope.empty τ (.int (-1)) := by
  have hcode : (countdown (Reference.plain "k").toExpr).lower Scope.empty 0 = .ok (_, 2) := rfl
  have hcode' : (countdown (.neg (.number 2 ⟨1, 1⟩) ⟨1, 1⟩)).lower Scope.empty 0 = .ok (_, 1) := rfl
  obtain ⟨l, hl, ⟨m, hbody⟩, hruns, -, hmain⟩ := doLoop_iterates .wholes hcode
  -- the body does nothing but to give `n` and `k` new values
  have hturn : ∀ τ υ, Runs .wholes l.body τ υ ↔
      υ = (τ.bind "n" (.int 7)).bind "k" (.int 5) := by
    obtain ⟨hstmts, -⟩ := Prod.mk.inj (Except.ok.inj hbody)
    rw [← hstmts]
    intro τ υ
    constructor
    · intro hrun
      obtain ⟨_, hn, hrun⟩ := Python.runs_assign_iff.mp hrun
      obtain ⟨_, hk, hrun⟩ := Python.runs_assign_iff.mp hrun
      obtain rfl := Except.ok.inj hn
      obtain rfl := Except.ok.inj hk
      exact Python.runs_nil_iff.mp hrun
    · rintro rfl
      exact .assign rfl (.assign rfl .nil)
  have hspared : ∀ l' : CountedLoop, l'.SparedBy .wholes Scope.empty (.plain "i") ⟨"i", []⟩
      (Runs .wholes l.body) := by
    refine fun l' => ⟨fun τ υ _ _ => ⟨_, rfl, rfl⟩, fun τ υ hrun => ?_, fun τ υ hrun id hid => ?_⟩
    · rw [(hturn τ υ).mp hrun]
      rfl
    · obtain ⟨-, htemporary⟩ := List.mem_filter.mp hid
      have hn : id ≠ "n" := by
        rintro rfl
        exact absurd htemporary (by decide)
      have hk : id ≠ "k" := by
        rintro rfl
        exact absurd htemporary (by decide)
      rw [(hturn τ υ).mp hrun, State.value_bind, State.value_bind, Function.update_of_ne hk,
        Function.update_of_ne hn]
  have hblind : Blind (Runs .wholes l.body) := by
    intro τ τ' υ hlike hrun
    rw [(hturn τ υ).mp hrun]
    exact ⟨_, (hturn τ' _).mpr rfl, (hlike.bind "n" (.int 7)).bind "k" (.int 5)⟩
  have hapart : (Reference.plain "i").Apart := by simp [Reference.Apart, Reference.plain]
  obtain ⟨first, -, -, hmain⟩ := hmain .bounds ⟨"i", []⟩ 3 0 (-2) _
    ⟨⟨_, rfl, rfl⟩, ⟨_, rfl, rfl⟩, rfl, ⟨_, rfl, rfl⟩, ⟨_, rfl, rfl⟩⟩
  obtain ⟨hremains, hmain⟩ := hmain _ (hspared l)
  obtain ⟨hcounts, hmatched⟩ := hmain (hremains hapart)
  obtain ⟨l', hl', hmatched⟩ := hmatched _ _ _ _ _ _ hcode'
  obtain ⟨hmatched, -⟩ := hmatched _
    ⟨⟨_, rfl, rfl⟩, ⟨_, rfl, rfl⟩, rfl, ⟨_, rfl, rfl⟩, ⟨_, rfl, rfl⟩⟩ (hspared l') hblind
  -- two rounds, and -1 has passed 0
  have htwo : Iterates ⟨"i", []⟩ 3 0 (-2) (Runs .wholes l.body) first 2 _ :=
    .next (.next .start (by decide) ((hturn _ _).mpr rfl)) (by decide) ((hturn _ _).mpr rfl)
  have hended := (hcounts.ends _).mpr ⟨2, htwo, by decide, by decide⟩
  obtain ⟨τ', hended', hlike⟩ := hmatched.ends _ hended
  refine ⟨l, l', hl ▸ hcode, hl' ▸ hcode', _, τ', ?_, hended', hlike, ?_⟩
  · rw [← hl]
    exact (hruns _ _).mpr hended
  · exact hcounts.value 2 _ ((hcounts.rounds 2 _).mpr htwo)

/-- The declaration `DCL a(3) FIXED BIN(31);`. -/
def Scope.threeSlots : Scope := ⟨[⟨"a", .fixedBinary (some 31), .vector 3, ⟨1, 1⟩⟩]⟩

/-- The reference `a(a(1))`. -/
def Reference.indirect : Reference :=
  ⟨"a", [Reference.toExpr ⟨"a", [.number 1 ⟨1, 1⟩], ⟨1, 1⟩⟩], ⟨1, 1⟩⟩

/-- The state after `a(1) = 1; a(2) = 10;`, with `x` in the first element. -/
def Python.State.slots (x : Int) : State Empty Unit where
  value id := if id = "a" then some (.list [.int 0, .int x, .int 10, .int 0, .int 0]) else none
  outside := ⟨fun _ => false, ()⟩

/-- `DO a(a(1)) = 2 TO 3; n = 7; k = 5; END;` does not run its body for 2 and 3. Its variable is
`a(1)` and takes the value 2, which is within the limit, but with that it has become `a(2)`: the
first test reads 10 and is the last one. -/
theorem doLoop_iterates_moved : ∃ l : CountedLoop,
    (Stmt.doLoop .indirect (.number 2 ⟨1, 1⟩) (.number 3 ⟨1, 1⟩) none overwriting ⟨1, 1⟩).lower
      .threeSlots 0 = .ok (l.code, 0) ∧
    Enters .wholes .threeSlots .indirect (.number 2 ⟨1, 1⟩) (.number 3 ⟨1, 1⟩) none (.slots 1)
      ⟨"a", [1]⟩ (.int 2) (.int 3) (.int 1) (.slots 2) ∧
    Continues 3 1 2 ∧
    (∀ i τ, l.Reaches .wholes (Runs .wholes l.body) (.slots 1) i τ → i = 0) ∧
    Runs .wholes l.code (.slots 1) (.slots 2) ∧
    Reference.indirect.toExpr.Yields .wholes .threeSlots (.slots 2) (.int 10) := by
  -- the code of the loop, in which the subscript is read each time
  let moved : CountedLoop := {
    ahead := [.assign (.index (.name "a") (.index (.name "a") (.int 1))) (.int 2)]
    var := .index (.name "a") (.index (.name "a") (.int 1))
    limit := .int 3
    step := .int 1
    test := .holds ⟨.index (.name "a") (.index (.name "a") (.int 1)), .le, .int 3⟩
    body := [.assign (.name "n") (.int 7), .assign (.name "k") (.int 5)]
    advance := .update (.index (.name "a") (.index (.name "a") (.int 1))) .add (.int 1)
    steers := .up (by decide)
    hoisted := by decide }
  -- the first value goes into `a(1)`, and now `a(a(1))` is `a(2)`
  have hstored : (State.slots 1).store ⟨"a", [1]⟩ (.int 2) = .ok (.slots 2) := by
    refine congrArg Except.ok (congrArg₂ State.mk (funext fun id => ?_) rfl)
    by_cases hid : id = "a" <;> simp [State.slots, hid]
  have hahead : Runs .wholes moved.ahead (.slots 1) (.slots 2) := .assign hstored .nil
  -- which holds ten and is beyond the limit
  have htest : moved.test.eval .wholes (State.slots 2).env = .ok false := rfl
  refine ⟨moved, rfl, ⟨⟨_, rfl, rfl⟩, ⟨_, rfl, rfl⟩, hstored, ⟨_, rfl, rfl⟩, rfl⟩, by decide, ?_,
    ?_, ⟨_, rfl, rfl⟩⟩
  · rintro i τ ⟨first, hrun, hrounds⟩
    obtain rfl := hahead.unique hrun
    exact (hrounds.eq_start htest).1
  · exact Python.CountedLoop.runs_code_iff.mpr ⟨0, ⟨_, hahead, .start⟩, htest⟩

end Plic
