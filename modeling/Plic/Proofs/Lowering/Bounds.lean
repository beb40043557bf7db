import Plic.Proofs.Lowering.Iteration

/-!
# When the bounds of a `DO` are read

The limit and the step that a loop goes by are those that were read ahead of it:
they are kept in temporaries that neither the body nor the end of a round stores
into. They are read once the control variable has its first value, so a bound
that refers to the control variable is told from that value and not from the one
before the `DO`. No other bound can tell the difference.

Main result: `doLoop_reads_bounds`, and `doLoop_reads_bounds_late` for a limit
that refers to the control variable.
-/

namespace Plic

open Python (CountedLoop Host Runs State temporaryName)

variable {φ ω : Type} {scope : Scope}

section

variable {h : Host φ ω} {σ first τ : State φ ω} {n m j : Nat} {var : Reference}
  {start limit : Expr} {step : Option Expr} {l : CountedLoop} {stmts : List Stmt}

/-- The end of a round leaves the temporaries of the loop alone. -/
theorem HasLoop.value_of_advance (hloop : HasLoop scope n var start limit step m l)
    (hrun : Runs h [l.advance] σ τ) {id : String} (hid : id ∈ l.temporaries) :
    τ.value id = σ.value id := by
  refine hrun.value_eq fun hmem => ?_
  obtain ⟨role, i, -, rfl⟩ := hloop.exists_number hid
  rw [l.steers.targets_advance, Reference.root_eq hloop.hasCode_var] at hmem
  exact Python.safeName_ne_temporary var.name role.text i (List.mem_singleton.mp hmem).symm

/-- The temporaries of a loop outlast its rounds. -/
theorem HasLoop.value_of_rounds (hloop : HasLoop scope n var start limit step m l)
    (hbody : lowerBlock scope stmts m = .ok (l.body, j)) {i : Nat}
    (hrounds : Python.Rounds h l.test (l.Round h (Runs h l.body)) first i τ) {id : String}
    (hid : id ∈ l.temporaries) : τ.value id = first.value id := by
  induction hrounds with
  | start => rfl
  | next _ _ hround ih =>
    obtain ⟨μ, hμ, hadvance⟩ := hround
    rw [hloop.value_of_advance hadvance hid, hloop.value_of_body hbody hμ hid, ih]

end

/-- **The bounds of a `DO` are read behind its first assignment.** Limit and step
of the loop have the same values at all of its tests. They are the values of the
expressions in the state `entry`, in which the control variable has its first
value, and so those in the state before the `DO` for an expression that does not
refer to the control variable. -/
theorem doLoop_reads_bounds (h : Host φ ω) {n j : Nat} {var : Reference} {start limit : Expr}
    {step : Option Expr} {stmts : List Stmt} {loc : Location} {code : List Python.Stmt}
    (hcode : (Stmt.doLoop var start limit step stmts loc).lower scope n = .ok (code, j)) :
    ∃ l : CountedLoop, code = l.code ∧ ∀ σ first, Runs h l.ahead σ first →
      ∃ c s u w entry, Enters h scope var start limit step σ c s u w entry ∧
        (∀ i τ, l.Reaches h (Runs h l.body) σ i τ →
          l.limit.eval h.lib τ.env = .ok u ∧ l.step.eval h.lib τ.env = .ok w) ∧
        ((∀ r ∈ limit.references, r.name ≠ var.name) → limit.Yields h scope σ u) ∧
        ((∀ e ∈ step, ∀ r ∈ e.references, r.name ≠ var.name) →
          StepYields h scope σ step w) := by
  obtain ⟨l, m, rfl, hloop, hbody⟩ := Stmt.exists_loop_of_lower hcode
  refine ⟨l, rfl, fun σ first hrun => ?_⟩
  obtain ⟨c, s, u, w, entry, henters, -, hlimit, hstep⟩ := hloop.of_runs hrun
  refine ⟨c, s, u, w, entry, henters, ?_, fun hapart => ?_, fun hapart => ?_⟩
  -- nothing in the rounds stores into a temporary
  · rintro i τ ⟨first', hrun', hrounds⟩
    obtain rfl := hrun.unique hrun'
    obtain ⟨hlimit', hstep'⟩ := CountedLoop.eval_of_temporaries (h := h) fun id hid =>
      hloop.value_of_rounds hbody hrounds hid
    exact ⟨hlimit'.trans hlimit, hstep'.trans hstep⟩
  -- a limit without the variable has the value that it had before the start was stored
  · exact henters.limit.of_store henters.stored henters.cell hapart
  · cases step with
    | none => exact henters.step
    | some e => exact Expr.Yields.of_store henters.stored henters.cell (hapart e rfl) henters.step

/-- `DO i = 3 TO n BY k; n = 7; k = 5; END;` goes by the limit and the step from before. -/
theorem doLoop_reads_bounds_apart : ∃ (l : CountedLoop) (first : State Empty Unit),
    (countdown (Reference.plain "k").toExpr).lower Scope.empty 0 = .ok (l.code, 2) ∧
    l.Reaches .wholes (Runs .wholes l.body) .bounds 0 first ∧
    l.limit.eval .wholes first.env = .ok (.int 0) ∧
    l.step.eval .wholes first.env = .ok (.int (-2)) := by
  have hcode : (countdown (Reference.plain "k").toExpr).lower Scope.empty 0 = .ok (_, 2) := rfl
  obtain ⟨l, hl, hmain⟩ := doLoop_reads_bounds .wholes hcode
  obtain ⟨hahead, -⟩ := List.append_inj' (hl : _ = l.ahead ++ [_]) rfl
  obtain ⟨first, hrun⟩ : ∃ first, Runs .wholes l.ahead .bounds first := by
    rw [← hahead]
    exact ⟨_, .assign rfl (.assign rfl (.assign rfl .nil))⟩
  obtain ⟨c, s, u, w, entry, -, hbounds, hlimit, hstep⟩ := hmain _ _ hrun
  obtain ⟨hu, hw⟩ := hbounds 0 first ⟨first, hrun, .start⟩
  -- neither of the bounds refers to `i`
  obtain rfl : u = .int 0 := (hlimit (by decide)).unique ⟨_, rfl, rfl⟩
  obtain rfl : w = .int (-2) := (hstep (by decide)).unique ⟨_, rfl, rfl⟩
  exact ⟨l, first, hl ▸ hcode, ⟨first, hrun, .start⟩, hu, hw⟩

def Python.State.five : State Empty Unit where
  value id := if id = "i" then some (.int 5) else none
  outside := ⟨fun _ => false, ()⟩

/-- `DO i = 1 TO i + 2; END;` goes by the limit 3, where `i + 2` was 7 before. -/
theorem doLoop_reads_bounds_late : ∃ (limit : Expr) (l : CountedLoop) (first : State Empty Unit),
    limit = .binary .add (Reference.plain "i").toExpr (.number 2 ⟨1, 1⟩) ⟨1, 1⟩ ∧
    (Stmt.doLoop (.plain "i") (.number 1 ⟨1, 1⟩) limit none [] ⟨1, 1⟩).lower Scope.empty 0 =
      .ok (l.code, 1) ∧
    limit.Yields .wholes Scope.empty .five (.int 7) ∧
    l.Reaches .wholes (Runs .wholes l.body) .five 0 first ∧
    l.limit.eval .wholes first.env = .ok (.int 3) := by
  -- `do i = 1 to i + 2` with five in `i`: the limit is three and not seven
  let late : CountedLoop := {
    ahead := [.assign (.name "i") (.int 1),
      .assign (.name (temporaryName "to" 1)) (.binary .add (.name "i") (.int 2))]
    var := .name "i"
    limit := .name (temporaryName "to" 1)
    step := .int 1
    test := .holds ⟨.name "i", .le, .name (temporaryName "to" 1)⟩
    body := []
    advance := .update (.name "i") .add (.int 1)
    steers := .up (by decide)
    hoisted := by decide }
  exact ⟨_, late, _, rfl, rfl, ⟨_, rfl, rfl⟩, ⟨_, .assign rfl (.assign rfl .nil), .start⟩, rfl⟩

end Plic
