import Plic.Proofs.Python.Exec
import Plic.Proofs.Python.Naming

/-!
# Loops that count

A loop that counts has a variable, a limit and a step. Its test compares the
variable with the limit, in the direction that the sign of the step gives, and
each round ends by adding the step. The sign may be known when the code is
written or be asked for at each test; a step that is known to be negative is
taken off instead.

Limit and step are read from temporaries that lines ahead of the loop have stored
into, or are numbers. So they keep their values as long as those temporaries do,
whatever else the body changes.

Main results:

* `CountedLoop.At.eval_test`, `CountedLoop.At.runs_advance_iff` — one test and one
  end of a round, for all forms of the code.
* `CountedLoop.Steady.reaches_iff`, `CountedLoop.Steady.ends_iff` — the loop as a whole counts.
-/

namespace Plic.Python

variable {φ ω : Type}

/-! ## Counting -/

/-- Counting by `step` goes on at `x`: the limit has not been passed. -/
def Continues (limit step x : Int) : Prop := 0 ≤ step ∧ x ≤ limit ∨ step < 0 ∧ limit ≤ x

instance (limit step x : Int) : Decidable (Continues limit step x) :=
  inferInstanceAs (Decidable (_ ∨ _))

/-- Upwards, a loop goes on up to its limit. -/
theorem continues_of_nonneg {limit step x : Int} (h : 0 ≤ step) :
    Continues limit step x ↔ x ≤ limit := by
  unfold Continues
  omega

/-- Downwards, it goes on down to its limit. -/
theorem continues_of_neg {limit step x : Int} (h : step < 0) :
    Continues limit step x ↔ limit ≤ x := by
  unfold Continues
  omega

/-- The states in which counting from `s` by `k` comes to ask whether to go on, by how often the
body has run: it has run with the cell at `s`, `s + k` and so on, each time within the limit. -/
inductive Iterates (c : Cell) (s limit k : Int) (body : State φ ω → State φ ω → Prop)
    (first : State φ ω) : Nat → State φ ω → Prop where
  | start : Iterates c s limit k body first 0 first
  | next {n : Nat} {τ υ : State φ ω} :
      Iterates c s limit k body first n τ → Continues limit k (s + n * k) → body τ υ →
      Iterates c s limit k body first (n + 1) (υ.set c (.int (s + (n + 1) * k)))

/-- The body has run only within the limit. -/
theorem Iterates.continues {c : Cell} {s limit k : Int} {body : State φ ω → State φ ω → Prop}
    {first τ : State φ ω} {n : Nat} (h : Iterates c s limit k body first n τ) {i : Nat}
    (hi : i < n) : Continues limit k (s + i * k) := by
  induction h with
  | start => omega
  | @next n _ _ _ hcontinues _ ih =>
    rcases Nat.lt_succ_iff_lt_or_eq.mp hi with hlt | rfl
    · exact ih hlt
    · exact hcontinues

/-! ## The code for it -/

/-- The test and the end of a round that take the variable `v` to the limit `l` in steps of `k`. -/
inductive Steers (v l : Expr) : Expr → Test → Stmt → Prop where
  | up {k : Int} :
      0 ≤ k → Steers v l (.int k) (.holds ⟨v, .le, l⟩) (.update v .add (.int k))
  | down {k : Int} :
      k < 0 → Steers v l (.int k) (.holds ⟨v, .ge, l⟩) (.update v .sub (.int k.natAbs))
  | signed {k : Expr} :
      Steers v l k (.choice ⟨v, .le, l⟩ ⟨k, .ge, .int 0⟩ ⟨v, .ge, l⟩) (.update v .add k)

/-- The advance stores into the control variable only. -/
theorem Steers.targets_advance {v l k : Expr} {test : Test} {advance : Stmt}
    (hsteers : Steers v l k test advance) : blockTargets [advance] = v.root.toList := by
  cases hsteers <;> exact List.append_nil _

/-- A loop that counts, with the lines ahead of it. -/
structure CountedLoop where
  ahead : List Stmt
  var : Expr
  limit : Expr
  step : Expr
  test : Test
  body : List Stmt
  /-- What ends a round. -/
  advance : Stmt
  steers : Steers var limit step test advance
  /-- Limit and step read nothing but temporaries that are stored into ahead. -/
  hoisted : ∀ a ∈ limit.atoms ++ step.atoms,
    ∃ id ∈ blockTargets ahead, isTemporary id = true ∧ a = .name id

namespace CountedLoop

variable (l : CountedLoop)

/-- The statements of the loop. -/
def code : List Stmt := l.ahead ++ [.loop l.test (l.body ++ [l.advance])]

/-- The temporaries that are stored into ahead of the loop. -/
def temporaries : List String := (blockTargets l.ahead).filter isTemporary

/-- One round, with anything for the body of the loop. -/
def Round (h : Host φ ω) (body : State φ ω → State φ ω → Prop) (τ υ : State φ ω) : Prop :=
  ∃ μ, body τ μ ∧ Runs h [l.advance] μ υ

/-- The loop, with anything for its body, comes to its test after so many rounds. -/
def Reaches (h : Host φ ω) (body : State φ ω → State φ ω → Prop) (σ : State φ ω) (n : Nat)
    (τ : State φ ω) : Prop :=
  ∃ first, Runs h l.ahead σ first ∧ Rounds h l.test (l.Round h body) first n τ

/-- The loop, with anything for its body, ends. -/
def Ends (h : Host φ ω) (body : State φ ω → State φ ω → Prop) (σ τ : State φ ω) : Prop :=
  ∃ n, l.Reaches h body σ n τ ∧ l.test.eval h τ.env = .ok false

variable {l} {h : Host φ ω} {σ τ υ : State φ ω}

/-- The code of the loop does what the loop does with its own body. -/
theorem runs_code_iff : Runs h l.code σ τ ↔ l.Ends h (Runs h l.body) σ τ := by
  have hround : Runs h (l.body ++ [l.advance]) = l.Round h (Runs h l.body) :=
    funext fun _ => funext fun _ => propext runs_append_iff
  rw [code, runs_append_iff]
  simp only [runs_loop_iff, runs_nil_iff, hround]
  constructor
  · rintro ⟨first, hahead, n, _, hrounds, hlast, rfl⟩
    exact ⟨n, ⟨first, hahead, hrounds⟩, hlast⟩
  · rintro ⟨n, ⟨first, hahead, hrounds⟩, hlast⟩
    exact ⟨first, hahead, n, τ, hrounds, hlast, rfl⟩

/-- Limit and step keep their values while the temporaries do. -/
theorem eval_of_temporaries (htemporaries : ∀ id ∈ l.temporaries, τ.value id = σ.value id) :
    l.limit.eval h.lib τ.env = l.limit.eval h.lib σ.env ∧
      l.step.eval h.lib τ.env = l.step.eval h.lib σ.env := by
  have hagree : τ.env.AgreeOn (l.limit.atoms ++ l.step.atoms) σ.env := by
    refine ⟨fun id hid => ?_, fun hend => ?_⟩
    · obtain ⟨id', hmem, htemporary, heq⟩ := l.hoisted _ hid
      obtain rfl := Atom.name.inj heq
      exact htemporaries id (List.mem_filter.mpr ⟨hmem, htemporary⟩)
    · obtain ⟨_, -, -, heq⟩ := l.hoisted _ hend
      cases heq
  exact ⟨l.limit.eval_congr h.lib hagree.append.1, l.step.eval_congr h.lib hagree.append.2⟩

/-! ## One round -/

/-- The variable of the loop is the cell and stands at `x`, and limit and step have their values. -/
structure At (l : CountedLoop) (h : Host φ ω) (c : Cell) (limit k x : Int) (σ : State φ ω) :
    Prop where
  cell  : l.var.cell h.lib σ.env = .ok c
  value : σ.load c = .ok (.int x)
  limit : l.limit.eval h.lib σ.env = .ok (.int limit)
  step  : l.step.eval h.lib σ.env = .ok (.int k)

variable {c : Cell} {limit k x y : Int}

/-- The control variable has the value that the loop stands at. -/
theorem At.eval_var (hat : l.At h c limit k x σ) : l.var.eval h.lib σ.env = .ok (.int x) := by
  rw [Expr.eval_eq_load hat.cell, hat.value]

/-- A loop stands at another value if the cell has it and the temporaries are kept. -/
theorem At.of_temporaries (hat : l.At h c limit k x σ)
    (hcell : l.var.cell h.lib τ.env = .ok c) (hvalue : τ.load c = .ok (.int y))
    (htemporaries : ∀ id ∈ l.temporaries, τ.value id = σ.value id) : l.At h c limit k y τ := by
  obtain ⟨hlimit, hstep⟩ := eval_of_temporaries (h := h) htemporaries
  exact ⟨hcell, hvalue, hlimit.trans hat.limit, hstep.trans hat.step⟩

/-- The test asks whether counting goes on. -/
theorem At.eval_test (hat : l.At h c limit k x σ) :
    l.test.eval h σ.env = .ok (decide (Continues limit k x)) := by
  have hvar := hat.eval_var
  have hlimit := hat.limit
  have hstep := hat.step
  have hup : 0 ≤ k → (Comparison.mk l.var .le l.limit).eval h σ.env =
      .ok (decide (Continues limit k x)) := fun hk => by
    rw [Comparison.eval_int .le hvar hlimit, decide_eq_decide.mpr (continues_of_nonneg hk)]
    rfl
  have hdown : k < 0 → (Comparison.mk l.var .ge l.limit).eval h σ.env =
      .ok (decide (Continues limit k x)) := fun hk => by
    rw [Comparison.eval_int .ge hvar hlimit, decide_eq_decide.mpr (continues_of_neg hk)]
    rfl
  have hsteers := l.steers
  generalize l.test = test, l.step = step, l.advance = advance at hsteers hstep ⊢
  -- the sign of the step is known for a number and asked for otherwise
  cases hsteers with
  | @up n hn =>
    obtain rfl : n = k := by simpa using hstep
    exact hup hn
  | @down n hn =>
    obtain rfl : n = k := by simpa using hstep
    exact hdown hn
  | signed =>
    have hsign := Comparison.eval_int .ge hstep (b := .int 0) (y := 0) (by simp)
    rw [Test.eval, hsign]
    by_cases hk : 0 ≤ k
    · rw [show Relation.ge.holds k 0 = true from decide_eq_true hk]
      exact hup hk
    · rw [show Relation.ge.holds k 0 = false from decide_eq_false hk]
      exact hdown (by omega)

/-- A round ends with the variable one step further, and never fails to. -/
theorem At.runs_advance_iff (hat : l.At h c limit k x σ) :
    Runs h [l.advance] σ υ ↔ υ = σ.set c (.int (x + k)) := by
  obtain ⟨μ, hμ⟩ := State.exists_store_of_load hat.value (.int (x + k))
  have hstep := hat.step
  -- an update with this outcome is what all forms of the end of a round come to
  have hupdate : ∀ (op : Operator) (e : Expr) (n : Int), e.eval h.lib σ.env = .ok (.int n) →
      h.lib.operate op (.int x) (.int n) = .ok (.int (x + k)) →
      (Runs h [.update l.var op e] σ υ ↔ υ = σ.set c (.int (x + k))) := by
    intro op e n he hoperate
    have hvalue : h.update σ l.var op e = .ok μ := by
      rw [Host.update, hat.cell]
      show (σ.load c >>= _) = _
      rw [hat.value]
      show (e.eval h.lib σ.env >>= _) = _
      rw [he]
      show (h.lib.operate op (.int x) (.int n) >>= _) = _
      rw [hoperate]
      exact hμ
    rw [runs_update_iff, hvalue, State.set_of_store hμ]
    simp
  have hsteers := l.steers
  generalize l.test = test, l.step = step, l.advance = advance at hsteers hstep ⊢
  cases hsteers with
  | @up n hn =>
    obtain rfl : n = k := by simpa using hstep
    exact hupdate .add _ n (by simp) rfl
  | @down n hn =>
    obtain rfl : n = k := by simpa using hstep
    refine hupdate .sub _ n.natAbs (by simp) ?_
    -- taking off the amount of a negative step adds the step
    have hamount : x - (n.natAbs : Int) = x + n := by omega
    rw [← hamount]
    rfl
  | signed => exact hupdate .add _ k hstep rfl

/-! ## All rounds -/

/-- Wherever counting from `s` comes to ask whether to go on, the loop stands at the count, and its
body leaves it where it is. Nothing is asked of states that counting does not come to. -/
structure Steady (l : CountedLoop) (h : Host φ ω) (c : Cell) (s limit k : Int)
    (body : State φ ω → State φ ω → Prop) (first : State φ ω) : Prop where
  count : ∀ (n : Nat) τ, Iterates c s limit k body first n τ → l.At h c limit k (s + n * k) τ
  body  : ∀ x τ υ, body τ υ → l.At h c limit k x τ → l.At h c limit k x υ

namespace Steady

variable {body : State φ ω → State φ ω → Prop} {first : State φ ω} {s : Int} {n : Nat}

/-- The rounds of the loop are those of counting. The induction is on their number: as long as both
have done the same, the loop stands at the count, which settles its next test and where the round
ends. -/
theorem rounds_iff (hsteady : l.Steady h c s limit k body first) :
    Rounds h l.test (l.Round h body) first n τ ↔ Iterates c s limit k body first n τ := by
  -- the value of the variable at the end of a round is the one that starts the next
  have hnext : ∀ n : Nat, s + n * k + k = s + (n + 1) * k := fun n => by ring
  induction n generalizing τ with
  | zero =>
    constructor
    · intro hrounds
      cases hrounds
      exact .start
    · intro hiterates
      cases hiterates
      exact .start
  | succ n ih =>
    rw [rounds_succ_iff]
    constructor
    · rintro ⟨μ, hrounds, htest, υ, hυ, hadvance⟩
      have hiterates := ih.mp hrounds
      have hat := hsteady.count n μ hiterates
      rw [hat.eval_test] at htest
      -- the body left the variable as it was, so the step is added to that value
      obtain rfl := (hsteady.body _ _ _ hυ hat).runs_advance_iff.mp hadvance
      rw [hnext]
      exact .next hiterates (of_decide_eq_true (Except.ok.inj htest)) hυ
    · intro hiterates
      cases hiterates with
      | @next _ μ υ hiterates hcontinues hυ =>
        have hat := hsteady.count n μ hiterates
        refine ⟨μ, ih.mpr hiterates, ?_, υ, hυ, (hsteady.body _ _ _ hυ hat).runs_advance_iff.mpr ?_⟩
        · rw [hat.eval_test, decide_eq_true hcontinues]
        · rw [hnext]

variable (hsteady : l.Steady h c s limit k body first) (hrun : Runs h l.ahead σ first)

include hsteady hrun

/-- The loop comes to its tests as counting does. -/
theorem reaches_iff : l.Reaches h body σ n τ ↔ Iterates c s limit k body first n τ := by
  rw [← hsteady.rounds_iff]
  constructor
  · rintro ⟨first', hrun', hrounds⟩
    obtain rfl := hrun.unique hrun'
    exact hrounds
  · exact fun hrounds => ⟨first, hrun, hrounds⟩

/-- The loop ends where counting has passed the limit for the first time. -/
theorem ends_iff :
    l.Ends h body σ τ ↔ ∃ i : Nat, Iterates c s limit k body first i τ ∧
      (∀ j < i, Continues limit k (s + j * k)) ∧ ¬ Continues limit k (s + i * k) := by
  refine exists_congr fun i => ?_
  rw [hsteady.reaches_iff hrun]
  refine and_congr_right fun hiterates => ?_
  rw [(hsteady.count i τ hiterates).eval_test, and_iff_right fun j hj => hiterates.continues hj]
  simp

end Steady

end CountedLoop

end Plic.Python
