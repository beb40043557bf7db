import Plic.Proofs.Python.State

/-!
# How Python runs statements

A run leads from one state to another. It may also fail, or go on for ever, and
then leads nowhere. A loop is told by its rounds: how many are over when its test
is made, and in which state, whether or not the loop ever ends.

A `Host` is any choice of what is left open: the arithmetic of fractions and how
they are compared, which expressions give one and the same object, what lies
outside of the program, and what the functions that act on it do. They cannot
reach the names of the program.

Equality is asked of values, identity of objects, and the two do not imply each
other. In particular there is a fraction that is not equal to itself, so an object
need not be equal to itself either: `==` asks for equality alone, while `in` is
content with either.

Main results:

* `runs_append_iff`, `runs_loop_iff` — runs of statements in a row and of a loop.
* `Runs.value_eq` — a run changes only the names that its code stores into.
-/

namespace Plic.Python

variable {φ ω : Type}

/-! ## Comparisons -/

/-- A relation between things that are in order. -/
def Relation.holds {α : Type} [LinearOrder α] (op : Relation) (a b : α) : Bool :=
  match op with
  | eq => a = b
  | ne => a ≠ b
  | lt => a < b
  | le => a ≤ b
  | gt => a > b
  | ge => a ≥ b

/-- The relation read from the right. -/
def Relation.mirror : Relation → Relation
  | lt => gt
  | le => ge
  | gt => lt
  | ge => le
  | eq => eq
  | ne => ne

/-- How values are compared, as far as it is left to Python's own library. -/
structure Comparer (φ : Type) where
  floats : Relation → φ → φ → Bool
  /-- An integer in front of a fraction. -/
  mixed : Relation → Int → φ → Bool
  equalLists : List (Value φ) → List (Value φ) → Bool
  orderLists : Relation → List (Value φ) → List (Value φ) → Except Failure Bool

namespace Comparer

variable (cmp : Comparer φ)

/-- Whether two values are equal, which can be asked of any two. -/
def equal : Value φ → Value φ → Bool
  | .int a, .int b => a = b
  | .int a, .float y => cmp.mixed .eq a y
  | .float x, .int b => cmp.mixed .eq b x
  | .float x, .float y => cmp.floats .eq x y
  | .str a, .str b => a = b
  | .none, .none => true
  | .list as, .list bs => cmp.equalLists as bs
  | _, _ => false

/-- Which of two values is the larger one, which can be asked of numbers, strings and lists. -/
def order (op : Relation) : Value φ → Value φ → Except Failure Bool
  | .int a, .int b => .ok (op.holds a b)
  | .int a, .float y => .ok (cmp.mixed op a y)
  | .float x, .int b => .ok (cmp.mixed op.mirror b x)
  | .float x, .float y => .ok (cmp.floats op x y)
  | .str a, .str b => .ok (op.holds a b)
  | .list as, .list bs => cmp.orderLists op as bs
  | _, _ => .error .type

/-- Whether the relation holds of two values. -/
def relate (op : Relation) (u v : Value φ) : Except Failure Bool :=
  match op with
  | .eq => .ok (cmp.equal u v)
  | .ne => .ok (!cmp.equal u v)
  | op => cmp.order op u v

/-- Numbers are compared by their order. -/
@[simp] theorem relate_int (op : Relation) (a b : Int) :
    cmp.relate op (.int a) (.int b) = .ok (op.holds a b) := by
  cases op <;> simp [relate, equal, order, Relation.holds]

end Comparer

/-! ## Hosts -/

/-- What a program runs on. -/
structure Host (φ ω : Type) where
  lib : Library φ
  cmp : Comparer φ
  /-- Whether two expressions give one and the same object. This is not a matter of their values
  alone: a variable gives the object that it is bound to, an operation gives a new one. -/
  same : Env φ → Expr → Expr → Bool
  /-- What a function that acts gives back, and what it leaves behind outside. -/
  act : Function → List (Value φ) → Outside ω → Except Failure (Value φ × Outside ω)

/-- What any Python keeps to: one object has one value. Whether it is equal to itself is another
matter. -/
def Host.Coherent (h : Host φ ω) : Prop :=
  ∀ env a b, h.same env a b = true → a.eval h.lib env = b.eval h.lib env

/-- The functions that act on what lies outside of the program. -/
def Function.acts : Function → Bool
  | print | get | openFile | read | write | close | sql => true
  | int | str | text | endfile => false

/-! ## Tests -/

/-- Whether a comparison holds. -/
def Comparison.eval (h : Host φ ω) (env : Env φ) (c : Comparison) : Except Failure Bool := do
  let u ← c.left.eval h.lib env
  let v ← c.right.eval h.lib env
  h.cmp.relate c.op u v

/-- The value of a test. It may fail, as the values in it may. -/
def Test.eval (h : Host φ ω) (env : Env φ) : Test → Except Failure Bool
  | .holds c => c.eval h env
  | .oneOf e es => do
    let u ← e.eval h.lib env
    let vs ← evalAll h.lib env es
    -- an object is found without being asked whether it is equal to itself
    return (es.zip vs).any fun (e', v) => h.same env e e' || h.cmp.equal u v
  | .choice yes condition no => do
    if ← condition.eval h env then yes.eval h env else no.eval h env

/-- The body that a chain of branches comes to, which is empty if there is none. -/
def Arms.pick (h : Host φ ω) (env : Env φ) : Arms → Except Failure (List Stmt)
  | .done => .ok []
  | .otherwise body => .ok body
  | .arm test body rest => do if ← test.eval h env then return body else rest.pick h env

/-- A comparison of two expressions that are integers. -/
theorem Comparison.eval_int {h : Host φ ω} {env : Env φ} {a b : Expr} {x y : Int} (op : Relation)
    (ha : a.eval h.lib env = .ok (.int x)) (hb : b.eval h.lib env = .ok (.int y)) :
    (Comparison.mk a op b).eval h env = .ok (op.holds x y) := by
  rw [Comparison.eval, ha, hb]
  exact h.cmp.relate_int op x y

/-! ## Statements -/

namespace Host

variable (h : Host φ ω) (σ : State φ ω)

/-- The value of an expression that a statement is about, which alone may be the call of a function
that acts. -/
def result : Expr → Except Failure (Value φ × Outside ω)
  | .call f args =>
    if f.acts then do h.act f (← evalAll h.lib σ.env args) σ.outside
    else do return (← (Expr.call f args).eval h.lib σ.env, σ.outside)
  | e => do return (← e.eval h.lib σ.env, σ.outside)

/-- The state after an assignment. The value comes before the cell. -/
def assign (target value : Expr) : Except Failure (State φ ω) := do
  let (v, outside) ← h.result σ value
  let τ : State φ ω := { σ with outside }
  τ.store (← target.cell h.lib τ.env) v

/-- What `+=` and its kin do: the target is read, combined with the value, and stored into. -/
def update (target : Expr) (op : Operator) (value : Expr) : Except Failure (State φ ω) := do
  let c ← target.cell h.lib σ.env
  let u ← σ.load c
  let v ← value.eval h.lib σ.env
  σ.store c (← h.lib.operate op u v)

/-- The state after an expression for the sake of its effect. -/
def perform (call : Expr) : Except Failure (State φ ω) := do
  let (_, outside) ← h.result σ call
  return { σ with outside }

end Host

/-- Whether an expression is a call that does something outside. -/
def Expr.acts : Expr → Bool
  | .call f _ => f.acts
  | _ => false

/-- To assign a value that is only computed leaves what lies outside as it is. -/
theorem Host.assign_eq_ok_iff {h : Host φ ω} {σ τ : State φ ω} {t e : Expr}
    (he : e.acts = false) :
    h.assign σ t e = .ok τ ↔ ∃ v c, e.eval h.lib σ.env = .ok v ∧
      t.cell h.lib σ.env = .ok c ∧ σ.store c v = .ok τ := by
  -- a value that does not act leaves what is outside of the program as it is
  have hresult : h.result σ e = do return (← e.eval h.lib σ.env, σ.outside) := by
    cases e with
    | call f args => exact if_neg (by simpa [Expr.acts] using he)
    | _ => rfl
  simp only [Host.assign, hresult, bind_eq_ok_iff]
  constructor
  · rintro ⟨⟨v, outside⟩, ⟨u, hu, hpair⟩, c, hcell, hstore⟩
    injection hpair with hpair
    obtain ⟨rfl, rfl⟩ := Prod.mk.inj hpair
    exact ⟨u, c, hu, hcell, hstore⟩
  · rintro ⟨v, c, hv, hcell, hstore⟩
    exact ⟨(v, σ.outside), ⟨v, hv, rfl⟩, c, hcell, hstore⟩

/-- The statements in a row lead from one state to another. -/
inductive Runs (h : Host φ ω) : List Stmt → State φ ω → State φ ω → Prop where
  | nil {σ : State φ ω} : Runs h [] σ σ
  | assign {target value : Expr} {rest : List Stmt} {σ τ υ : State φ ω} :
      h.assign σ target value = .ok τ → Runs h rest τ υ → Runs h (.assign target value :: rest) σ υ
  | update {target value : Expr} {op : Operator} {rest : List Stmt} {σ τ υ : State φ ω} :
      h.update σ target op value = .ok τ → Runs h rest τ υ →
      Runs h (.update target op value :: rest) σ υ
  | run {call : Expr} {rest : List Stmt} {σ τ υ : State φ ω} :
      h.perform σ call = .ok τ → Runs h rest τ υ → Runs h (.run call :: rest) σ υ
  | branch {arms : Arms} {body rest : List Stmt} {σ τ υ : State φ ω} :
      arms.pick h σ.env = .ok body → Runs h body σ τ → Runs h rest τ υ →
      Runs h (.branch arms :: rest) σ υ
  /-- A round of a loop, and the loop again. -/
  | again {test : Test} {body rest : List Stmt} {σ τ υ : State φ ω} :
      test.eval h σ.env = .ok true → Runs h body σ τ → Runs h (.loop test body :: rest) τ υ →
      Runs h (.loop test body :: rest) σ υ
  | leave {test : Test} {body rest : List Stmt} {σ υ : State φ ω} :
      test.eval h σ.env = .ok false → Runs h rest σ υ → Runs h (.loop test body :: rest) σ υ

/-- So many rounds of a loop lead to a state in which its test is made again. -/
inductive Rounds (h : Host φ ω) (test : Test) (round : State φ ω → State φ ω → Prop)
    (σ : State φ ω) : Nat → State φ ω → Prop where
  | start : Rounds h test round σ 0 σ
  | next {n : Nat} {τ υ : State φ ω} :
      Rounds h test round σ n τ → test.eval h τ.env = .ok true → round τ υ →
      Rounds h test round σ (n + 1) υ

section

variable {h : Host φ ω} {σ τ υ : State φ ω} {ss ts rest : List Stmt}

@[simp] theorem runs_nil_iff : Runs h [] σ υ ↔ υ = σ := by
  constructor
  · intro hrun
    cases hrun
    rfl
  · rintro rfl
    exact .nil

/-- A run of an assignment and what is behind it. -/
theorem runs_assign_iff {t e : Expr} :
    Runs h (.assign t e :: rest) σ υ ↔ ∃ τ, h.assign σ t e = .ok τ ∧ Runs h rest τ υ := by
  constructor
  · intro hrun
    cases hrun with
    | assign hτ hrest => exact ⟨_, hτ, hrest⟩
  · rintro ⟨τ, hτ, hrest⟩
    exact .assign hτ hrest

/-- A run of an update and what is behind it. -/
theorem runs_update_iff {t e : Expr} {op : Operator} :
    Runs h (.update t op e :: rest) σ υ ↔ ∃ τ, h.update σ t op e = .ok τ ∧ Runs h rest τ υ := by
  constructor
  · intro hrun
    cases hrun with
    | update hτ hrest => exact ⟨_, hτ, hrest⟩
  · rintro ⟨τ, hτ, hrest⟩
    exact .update hτ hrest

/-- A chain of branches does what the body that it comes to does. -/
theorem runs_branch_iff {arms : Arms} :
    Runs h [.branch arms] σ υ ↔ ∃ body, arms.pick h σ.env = .ok body ∧ Runs h body σ υ := by
  constructor
  · intro hrun
    cases hrun with
    | branch hpick hbody hrest =>
      obtain rfl := runs_nil_iff.mp hrest
      exact ⟨_, hpick, hbody⟩
  · rintro ⟨body, hpick, hbody⟩
    exact .branch hpick hbody .nil

/-- A run of statements goes through the state behind the first of them. -/
theorem runs_cons_iff {s : Stmt} :
    Runs h (s :: rest) σ υ ↔ ∃ τ, Runs h [s] σ τ ∧ Runs h rest τ υ := by
  constructor
  · intro hrun
    -- by induction on the run, since after a round its loop is still in front
    generalize hcode : s :: rest = code at hrun
    induction hrun with
    | nil => cases hcode
    | assign hτ hrest _ =>
      cases hcode
      exact ⟨_, .assign hτ .nil, hrest⟩
    | update hτ hrest _ =>
      cases hcode
      exact ⟨_, .update hτ .nil, hrest⟩
    | run hτ hrest _ =>
      cases hcode
      exact ⟨_, .run hτ .nil, hrest⟩
    | branch hpick hbody hrest _ _ =>
      cases hcode
      exact ⟨_, .branch hpick hbody .nil, hrest⟩
    | again htest hbody _ _ ih =>
      cases hcode
      obtain ⟨τ, hloop, hrest⟩ := ih rfl
      exact ⟨τ, .again htest hbody hloop, hrest⟩
    | leave htest hrest _ =>
      cases hcode
      exact ⟨_, .leave htest .nil, hrest⟩
  · rintro ⟨τ, hs, hrest⟩
    generalize hcode : [s] = code at hs
    induction hs with
    | nil => cases hcode
    | assign hτ hnil _ =>
      cases hcode
      obtain rfl := runs_nil_iff.mp hnil
      exact .assign hτ hrest
    | update hτ hnil _ =>
      cases hcode
      obtain rfl := runs_nil_iff.mp hnil
      exact .update hτ hrest
    | run hτ hnil _ =>
      cases hcode
      obtain rfl := runs_nil_iff.mp hnil
      exact .run hτ hrest
    | branch hpick hbody hnil _ _ =>
      cases hcode
      obtain rfl := runs_nil_iff.mp hnil
      exact .branch hpick hbody hrest
    | again htest hbody _ _ ih =>
      cases hcode
      exact .again htest hbody (ih hrest rfl)
    | leave htest hnil _ =>
      cases hcode
      obtain rfl := runs_nil_iff.mp hnil
      exact .leave htest hrest

theorem runs_append_iff :
    Runs h (ss ++ ts) σ υ ↔ ∃ τ, Runs h ss σ τ ∧ Runs h ts τ υ := by
  induction ss generalizing σ with
  | nil => simp
  | cons s ss ih =>
    rw [List.cons_append, runs_cons_iff]
    constructor
    · rintro ⟨τ, hs, hrest⟩
      obtain ⟨μ, hss, hts⟩ := ih.mp hrest
      exact ⟨μ, runs_cons_iff.mpr ⟨τ, hs, hss⟩, hts⟩
    · rintro ⟨μ, hrun, hts⟩
      obtain ⟨τ, hs, hss⟩ := runs_cons_iff.mp hrun
      exact ⟨τ, hs, ih.mpr ⟨μ, hss, hts⟩⟩

/-- Where a run leads is settled by where it starts. -/
theorem Runs.unique (hrun : Runs h ss σ τ) (hother : Runs h ss σ υ) : τ = υ := by
  induction hrun generalizing υ with
  | nil => exact (runs_nil_iff.mp hother).symm
  | assign hτ _ ih =>
    obtain ⟨τ', hτ', hrest⟩ := runs_assign_iff.mp hother
    obtain rfl := Except.ok.inj (hτ.symm.trans hτ')
    exact ih hrest
  | update hτ _ ih =>
    obtain ⟨τ', hτ', hrest⟩ := runs_update_iff.mp hother
    obtain rfl := Except.ok.inj (hτ.symm.trans hτ')
    exact ih hrest
  | run hτ _ ih =>
    cases hother with
    | run hτ' hrest =>
      obtain rfl := Except.ok.inj (hτ.symm.trans hτ')
      exact ih hrest
  | branch hpick _ _ ihbody ihrest =>
    cases hother with
    | branch hpick' hbody hrest =>
      obtain rfl := Except.ok.inj (hpick.symm.trans hpick')
      obtain rfl := ihbody hbody
      exact ihrest hrest
  | again htest _ _ ihbody ihloop =>
    cases hother with
    | again _ hbody hloop =>
      obtain rfl := ihbody hbody
      exact ihloop hloop
    | leave htest' _ =>
      -- a test has one outcome
      cases htest.symm.trans htest'
  | leave htest _ ih =>
    cases hother with
    | again htest' _ _ => cases htest.symm.trans htest'
    | leave _ hrest => exact ih hrest

/-! ## Loops -/

section

variable {test : Test} {round : State φ ω → State φ ω → Prop} {n : Nat}

/-- A round may be put in front of others. Rounds are built at their end, which is why this needs a
proof. -/
theorem Rounds.ahead (htest : test.eval h σ.env = .ok true) (hround : round σ τ)
    (hrounds : Rounds h test round τ n υ) : Rounds h test round σ (n + 1) υ := by
  induction hrounds with
  | start => exact .next .start htest hround
  | next _ htest' hround' ih => exact .next ih htest' hround'

/-- A loop whose test fails at once has no rounds. -/
theorem Rounds.eq_start (htest : test.eval h σ.env = .ok false)
    (hrounds : Rounds h test round σ n τ) : n = 0 ∧ τ = σ := by
  induction hrounds with
  | start => exact ⟨rfl, rfl⟩
  | next _ hholds _ ih =>
    -- the round before was none either, so this test is the first one
    obtain ⟨-, rfl⟩ := ih
    cases htest.symm.trans hholds

/-- The last round starts with a test that holds. -/
theorem rounds_succ_iff : Rounds h test round σ (n + 1) υ ↔
    ∃ τ, Rounds h test round σ n τ ∧ test.eval h τ.env = .ok true ∧ round τ υ := by
  constructor
  · intro hrounds
    cases hrounds with
    | next hrounds htest hround => exact ⟨_, hrounds, htest, hround⟩
  · rintro ⟨τ, hrounds, htest, hround⟩
    exact .next hrounds htest hround

/-- A loop ends when its test fails after some number of rounds. -/
theorem runs_loop_iff {body : List Stmt} :
    Runs h (.loop test body :: rest) σ υ ↔ ∃ n τ, Rounds h test (Runs h body) σ n τ ∧
      test.eval h τ.env = .ok false ∧ Runs h rest τ υ := by
  constructor
  · intro hrun
    generalize hcode : Stmt.loop test body :: rest = code at hrun
    induction hrun with
    | again htest hbody hloop _ ih =>
      cases hcode
      obtain ⟨n, τ, hrounds, hlast, hrest⟩ := ih rfl
      exact ⟨n + 1, τ, hrounds.ahead htest hbody, hlast, hrest⟩
    | leave htest hrest _ =>
      cases hcode
      exact ⟨0, _, .start, htest, hrest⟩
    | _ => cases hcode
  · rintro ⟨n, τ, hrounds, hlast, hrest⟩
    -- from the last round back to the first
    have hloop : Runs h (.loop test body :: rest) τ υ := .leave hlast hrest
    clear hlast hrest
    induction hrounds with
    | start => exact hloop
    | next _ htest hround ih => exact ih (.again htest hround hloop)

end

end

/-! ## What a run changes -/

mutual

/-- The names that a statement stores into. -/
def Stmt.targets : Stmt → List String
  | .assign t _ => t.root.toList
  | .update t _ _ => t.root.toList
  | .run _ => []
  | .branch arms => arms.targets
  | .loop _ body => blockTargets body

/-- The names that statements in a row store into. -/
def blockTargets : List Stmt → List String
  | [] => []
  | s :: ss => s.targets ++ blockTargets ss

/-- The names that the branches of a chain store into. -/
def Arms.targets : Arms → List String
  | .done => []
  | .otherwise body => blockTargets body
  | .arm _ body rest => blockTargets body ++ rest.targets

end

/-- Blocks that are put together have their targets one after the other. -/
theorem blockTargets_append (ss ts : List Stmt) :
    blockTargets (ss ++ ts) = blockTargets ss ++ blockTargets ts := by
  induction ss with
  | nil => rfl
  | cons s ss ih => rw [List.cons_append, blockTargets, blockTargets, ih, List.append_assoc]

section

variable {h : Host φ ω} {σ τ υ : State φ ω} {id : String}

/-- The arm that is picked stores into nothing but targets of the arms. -/
theorem Arms.targets_of_pick {env : Env φ} {arms : Arms} {body : List Stmt}
    (hpick : arms.pick h env = .ok body) : blockTargets body ⊆ arms.targets := by
  induction arms using Arms.pick.induct with
  | case1 =>
    injection hpick with hbody
    rw [← hbody]
    exact List.nil_subset _
  | case2 =>
    injection hpick with hbody
    rw [← hbody]
    exact List.Subset.refl _
  -- the arm whose test holds, or one behind it
  | case3 test own rest ih =>
    simp only [Arms.pick, bind_eq_ok_iff] at hpick
    obtain ⟨b, -, hpick⟩ := hpick
    cases b with
    | true =>
      injection hpick with hbody
      rw [← hbody]
      exact List.subset_append_left _ _
    | false => exact List.subset_append_of_subset_right _ (ih hpick)

/-- Storing into a target leaves all names but its own as they are. -/
theorem value_of_cell_store {t : Expr} {c : Cell} {env : Env φ} {v : Value φ}
    (hcell : t.cell h.lib env = .ok c) (hstore : σ.store c v = .ok τ) (hid : id ∉ t.root.toList) :
    τ.value id = σ.value id := by
  refine State.value_of_store hstore fun hname => hid ?_
  rw [Expr.root_of_cell hcell, hname]
  exact List.mem_singleton.mpr rfl

/-- An assignment leaves every other name. -/
theorem Host.value_of_assign {t e : Expr} (hassign : h.assign σ t e = .ok τ)
    (hid : id ∉ t.root.toList) : τ.value id = σ.value id := by
  simp only [Host.assign, bind_eq_ok_iff] at hassign
  obtain ⟨⟨v, outside⟩, -, c, hcell, hstore⟩ := hassign
  -- what has changed outside does not show in the names
  have hkept := value_of_cell_store hcell hstore hid
  exact hkept

theorem Host.value_of_update {t e : Expr} {op : Operator} (hupdate : h.update σ t op e = .ok τ)
    (hid : id ∉ t.root.toList) : τ.value id = σ.value id := by
  simp only [Host.update, bind_eq_ok_iff] at hupdate
  obtain ⟨c, hcell, _, -, _, -, _, -, hstore⟩ := hupdate
  exact value_of_cell_store hcell hstore hid

/-- What acts outside cannot reach names at all. -/
theorem Host.value_of_perform {e : Expr} (hperform : h.perform σ e = .ok τ) :
    τ.value = σ.value := by
  simp only [Host.perform, bind_eq_ok_iff] at hperform
  obtain ⟨⟨v, outside⟩, -, hτ⟩ := hperform
  injection hτ with hτ
  rw [← hτ]

/-- A run changes only the names that its code stores into. -/
theorem Runs.value_eq {ss : List Stmt} (hrun : Runs h ss σ υ) (hid : id ∉ blockTargets ss) :
    υ.value id = σ.value id := by
  induction hrun with
  | nil => rfl
  | assign hτ _ ih =>
    obtain ⟨ht, hrest⟩ := not_or.mp (mt List.mem_append.mpr hid)
    rw [ih hrest, Host.value_of_assign hτ ht]
  | update hτ _ ih =>
    obtain ⟨ht, hrest⟩ := not_or.mp (mt List.mem_append.mpr hid)
    rw [ih hrest, Host.value_of_update hτ ht]
  | run hτ _ ih => rw [ih hid, Host.value_of_perform hτ]
  | branch hpick _ _ ihbody ihrest =>
    obtain ⟨harms, hrest⟩ := not_or.mp (mt List.mem_append.mpr hid)
    rw [ihrest hrest, ihbody fun hmem => harms (Arms.targets_of_pick hpick hmem)]
  -- the loop is run again as it stands, so only its body is taken apart
  | again _ _ _ ihbody ihloop =>
    obtain ⟨hbody, -⟩ := not_or.mp (mt List.mem_append.mpr hid)
    rw [ihloop hid, ihbody hbody]
  | leave _ _ ih =>
    obtain ⟨-, hrest⟩ := not_or.mp (mt List.mem_append.mpr hid)
    exact ih hrest

end

end Plic.Python
