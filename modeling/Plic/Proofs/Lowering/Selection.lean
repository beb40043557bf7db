import Plic.Proofs.Lowering.Iteration

/-!
# `SELECT`

The code for a `SELECT` is a chain of branches, one for each `WHEN`, that repeats
the subject in every test. A `WHEN` with one value compares it with `==`, one with
several asks with `in` whether the subject is among them. Both hold if one of the
values is equal to the subject. The second also holds if one of the values is the
same object as the subject, which makes a difference for a subject that is not
equal to itself: there is one fraction of this kind, and it is what `x - x` gives
for an infinite `x`.

Subject and values are read in the state before the `SELECT`, since no branch has
run while the chain is still testing. The values behind the first match are not
read at all.

Main results: `select_takes_first_match`, with `Expr.finds_iff_equals` for where the
two tests agree, and `select_takes_first_match_undefined` for where they do not.
-/

namespace Plic

open Python (Arms Env Host Runs State Value)

variable {φ ω : Type} {scope : Scope}

/-! ## Chains -/

namespace Python

/-- The bodies of the branches that have a test. -/
def Arms.bodies : Arms → List (List Stmt)
  | .done => []
  | .otherwise _ => []
  | .arm _ body rest => body :: rest.bodies

/-- The body of the branch without test, which is empty if there is none. -/
def Arms.last : Arms → List Stmt
  | .done => []
  | .otherwise body => body
  | .arm _ _ rest => rest.last

end Python

/-! ## Matches -/

/-- The two expressions give one and the same object. -/
def Expr.Identical (h : Host φ ω) (scope : Scope) (σ : State φ ω) (e e' : Expr) : Prop :=
  ∃ code code', e.lower scope = .ok code ∧ e'.lower scope = .ok code' ∧
    h.same σ.env code code' = true

/-- Whether one of the values is equal to the subject. -/
def Expr.Equals (h : Host φ ω) (scope : Scope) (σ : State φ ω) (subject : Expr)
    (values : List Expr) (b : Bool) : Prop :=
  ∃ u vs, subject.Yields h scope σ u ∧ List.Forall₂ (Expr.Yields h scope σ) values vs ∧
    (b = true ↔ ∃ p ∈ values.zip vs, h.cmp.equal u p.2 = true)

/-- Whether the subject is found among the values: one of them is equal to it or, where there are
several, is the same object. -/
def Expr.Finds (h : Host φ ω) (scope : Scope) (σ : State φ ω) (subject : Expr)
    (values : List Expr) (b : Bool) : Prop :=
  ∃ u vs, subject.Yields h scope σ u ∧ List.Forall₂ (Expr.Yields h scope σ) values vs ∧
    (b = true ↔ ∃ p ∈ values.zip vs, h.cmp.equal u p.2 = true ∨
      values.length ≠ 1 ∧ subject.Identical h scope σ p.1)

/-- The value of the expression is equal to itself. There is one fraction that is not. -/
def Expr.EqualsItself (h : Host φ ω) (scope : Scope) (σ : State φ ω) (e : Expr) : Prop :=
  ∀ u, e.Yields h scope σ u → h.cmp.equal u u = true

/-- The values and the body of each `WHEN`. -/
def Branches.clauses : Branches → List (List Expr × List Stmt)
  | .done => []
  | .other _ => []
  | .when values body _ rest => (values, body) :: rest.clauses

/-- The body of the last branch, if there is one. -/
def Branches.other? : Branches → Option (List Stmt)
  | .done => none
  | .other body => some body
  | .when _ _ _ rest => rest.other?

/-- The clause at the place is the first one that matches, where `reads` tells whether the values of
a clause match. -/
structure FirstMatch (reads : List Expr → Bool → Prop) (clauses : List (List Expr × List Stmt))
    (i : Nat) : Prop where
  meets  : ∃ w, clauses[i]? = some w ∧ reads w.1 true
  misses : ∀ j < i, ∀ w, clauses[j]? = some w → reads w.1 false

section

variable {h : Host φ ω} {σ : State φ ω} {subject e : Expr} {s c : Python.Expr}
  {values : List Expr} {codes : List Python.Expr} {u : Value φ} {vs : List (Value φ)} {b b' : Bool}

/-- The codes have values exactly if the expressions have. -/
theorem evalAll_eq_ok_iff (hcodes : List.Forall₂ (Expr.HasCode scope) values codes) :
    Python.evalAll h.lib σ.env codes = .ok vs ↔
      List.Forall₂ (Expr.Yields h scope σ) values vs := by
  induction hcodes generalizing vs with
  | nil =>
    rw [Python.evalAll, List.forall₂_nil_left_iff]
    exact ⟨fun hvs => (Except.ok.inj hvs).symm, fun hvs => hvs ▸ rfl⟩
  | cons hcode _ ih =>
    simp only [Python.evalAll, bind_eq_ok_iff, List.forall₂_cons_left_iff, hcode.yields_iff, ← ih]
    constructor
    · rintro ⟨v, hv, rest, hrest, hvs⟩
      exact ⟨v, rest, hv, hrest, (Except.ok.inj hvs).symm⟩
    · rintro ⟨v, rest, hv, hrest, rfl⟩
      exact ⟨v, hv, rest, hrest, rfl⟩

theorem Expr.HasCode.identical_iff (hs : subject.HasCode scope s) (hc : e.HasCode scope c) :
    subject.Identical h scope σ e ↔ h.same σ.env s c = true := by
  constructor
  · rintro ⟨code, code', hcode, hcode', hsame⟩
    obtain rfl := Except.ok.inj (hcode.symm.trans hs.lower_eq)
    obtain rfl := Except.ok.inj (hcode'.symm.trans hc.lower_eq)
    exact hsame
  · exact fun hsame => ⟨s, c, hs.lower_eq, hc.lower_eq, hsame⟩

/-- What `in` asks of the code, said of the expressions that it is the code for. -/
theorem any_found_iff (hs : subject.HasCode scope s)
    (hcodes : List.Forall₂ (Expr.HasCode scope) values codes) :
    ((codes.zip vs).any fun (c, v) => h.same σ.env s c || h.cmp.equal u v) = true ↔
      ∃ p ∈ values.zip vs, h.cmp.equal u p.2 = true ∨ subject.Identical h scope σ p.1 := by
  induction hcodes generalizing vs with
  | nil => simp
  | cons hcode _ ih =>
    cases vs with
    | nil => simp
    | cons v vs =>
      -- a value is found if it is the subject itself, or equal to it
      simp only [List.zip_cons_cons, List.any_cons, List.exists_mem_cons_iff, Bool.or_eq_true, ih,
        hs.identical_iff hcode]
      exact or_congr_left or_comm

/-- The test of a `WHEN` asks whether the subject is found among its values. With one value it
compares, with any other number of them it asks for membership. -/
theorem eval_whenTest_eq_ok_iff (hs : subject.HasCode scope s)
    (hcodes : List.Forall₂ (Expr.HasCode scope) values codes) :
    (whenTest s codes).eval h σ.env = .ok b ↔ subject.Finds h scope σ values b := by
  have hlength := hcodes.length_eq
  unfold whenTest
  split
  -- one value is compared, and identity has no part in it
  · rename_i c
    obtain ⟨e, _, hc, hnil, rfl⟩ := List.forall₂_cons_right_iff.mp hcodes
    obtain rfl := List.forall₂_nil_right_iff.mp hnil
    simp only [Python.Test.eval, Python.Comparison.eval, bind_eq_ok_iff, Expr.Finds,
      hs.yields_iff, List.forall₂_cons_left_iff, List.forall₂_nil_left_iff, hc.yields_iff]
    constructor
    · rintro ⟨u, hu, v, hv, hb⟩
      obtain rfl := Except.ok.inj hb
      exact ⟨u, [v], hu, ⟨v, [], hv, rfl, rfl⟩, by simp⟩
    · rintro ⟨u, _, hu, ⟨v, _, hv, rfl, rfl⟩, hb⟩
      refine ⟨u, hu, v, hv, congrArg Except.ok (Bool.eq_iff_iff.mpr ?_)⟩
      rw [hb]
      simp
  -- several are searched, and an identical one is found without being compared
  · rename_i hseveral
    have hvalues : values.length ≠ 1 := by
      intro hone
      obtain ⟨c, hc⟩ := List.length_eq_one_iff.mp (hlength.symm.trans hone)
      exact hseveral c hc
    simp only [Python.Test.eval, bind_eq_ok_iff, Expr.Finds, hs.yields_iff,
      evalAll_eq_ok_iff hcodes, hvalues, ne_eq, not_false_eq_true, true_and]
    constructor
    · rintro ⟨u, hu, vs, hvs, hb⟩
      obtain rfl := Except.ok.inj hb
      exact ⟨u, vs, hu, hvs, any_found_iff hs hcodes⟩
    · rintro ⟨u, vs, hu, hvs, hb⟩
      refine ⟨u, hu, vs, hvs, congrArg Except.ok (Bool.eq_iff_iff.mpr ?_)⟩
      rw [hb]
      exact any_found_iff hs hcodes

/-- The values of a clause are settled. -/
theorem forall₂_yields_unique {vs' : List (Value φ)}
    (hvs : List.Forall₂ (Expr.Yields h scope σ) values vs)
    (hvs' : List.Forall₂ (Expr.Yields h scope σ) values vs') : vs = vs' := by
  have hunique : Relator.RightUnique (Expr.Yields h scope σ) := fun _ _ _ => Expr.Yields.unique
  exact List.right_unique_forall₂' hunique hvs hvs'

/-- A `WHEN` is read in one way at most. -/
theorem Expr.Finds.unique (hb : subject.Finds h scope σ values b)
    (hb' : subject.Finds h scope σ values b') : b = b' := by
  obtain ⟨u, vs, hu, hvs, hb⟩ := hb
  obtain ⟨u', vs', hu', hvs', hb'⟩ := hb'
  obtain rfl := hu.unique hu'
  obtain rfl := forall₂_yields_unique hvs hvs'
  exact Bool.eq_iff_iff.mpr (hb.trans hb'.symm)

/-- **Where `in` and `==` agree.** To be found is to be equal to one of the values, if there is one
value, or if the subject is equal to itself: what is found for being the same object then has the
value that is looked for. -/
theorem Expr.finds_iff_equals
    (hagree : values.length = 1 ∨ h.Coherent ∧ subject.EqualsItself h scope σ) :
    subject.Finds h scope σ values b ↔ subject.Equals h scope σ values b := by
  unfold Expr.Finds Expr.Equals
  refine exists_congr fun u => exists_congr fun vs => and_congr_right fun hu =>
    and_congr_right fun hvs => iff_congr Iff.rfl (exists_congr fun p => and_congr_right fun hp => ?_)
  refine or_iff_left_of_imp ?_
  rintro ⟨hseveral, code, code', hcode, hcode', hsame⟩
  obtain ⟨hcoherent, hself⟩ := hagree.resolve_left hseveral
  -- the value and the subject are one object, so they have one value
  have hv : p.1.Yields h scope σ p.2 := List.forall₂_iff_zip.mp hvs |>.2 hp
  have hvalue := hcoherent _ _ _ hsame
  rw [(Expr.lower_eq_ok_iff.mp hcode).yields_iff.mp hu,
    (Expr.lower_eq_ok_iff.mp hcode').yields_iff.mp hv] at hvalue
  rw [← Except.ok.inj hvalue]
  exact hself u hu

end

section

variable {reads reads' : List Expr → Bool → Prop} {clauses : List (List Expr × List Stmt)}
  {w : List Expr × List Stmt} {i j : Nat}

/-- The first branch is taken if it matches. -/
theorem firstMatch_zero_iff : FirstMatch reads (w :: clauses) 0 ↔ reads w.1 true := by
  constructor
  · rintro ⟨⟨_, hw, hmeets⟩, -⟩
    obtain rfl := Option.some.inj hw
    exact hmeets
  · exact fun hmeets => ⟨⟨w, rfl, hmeets⟩, by omega⟩

/-- A later one is taken if the first is read and does not match. -/
theorem firstMatch_succ_iff :
    FirstMatch reads (w :: clauses) (i + 1) ↔ reads w.1 false ∧ FirstMatch reads clauses i := by
  constructor
  · rintro ⟨hmeets, hmisses⟩
    refine ⟨hmisses 0 (by omega) w rfl, hmeets, fun j hj w' hw' => ?_⟩
    exact hmisses (j + 1) (by omega) w' hw'
  · rintro ⟨hfirst, hmeets, hmisses⟩
    refine ⟨hmeets, fun j hj w' hw' => ?_⟩
    -- the first clause misses, and so does every one of the others in front
    cases j with
    | zero =>
      obtain rfl := Option.some.inj hw'
      exact hfirst
    | succ j => exact hmisses j (by omega) w' hw'

/-- There is one first match at most, and none if no clause matches, as long as a clause does not
both match and miss. -/
theorem FirstMatch.unique (hreads : ∀ values, reads values true → ¬ reads values false)
    (hi : FirstMatch reads clauses i) :
    (¬ ∀ w ∈ clauses, reads w.1 false) ∧ ∀ j, FirstMatch reads clauses j → i = j := by
  obtain ⟨w, hw, hmeets⟩ := hi.meets
  refine ⟨fun hall => hreads _ hmeets (hall w (List.mem_of_getElem? hw)), fun j hj => ?_⟩
  obtain ⟨w', hw', hmeets'⟩ := hj.meets
  rcases lt_trichotomy i j with hlt | heq | hlt
  · exact absurd (hj.misses i hlt w hw) (hreads _ hmeets)
  · exact heq
  · exact absurd (hi.misses j hlt w' hw') (hreads _ hmeets')

/-- Where two ways to tell a match agree on all clauses, they have the same first match. -/
theorem firstMatch_congr (hiff : ∀ w ∈ clauses, ∀ b, reads w.1 b ↔ reads' w.1 b) :
    FirstMatch reads clauses i ↔ FirstMatch reads' clauses i := by
  have hclause {j : Nat} {w} {b : Bool} (hw : clauses[j]? = some w) :
      reads w.1 b ↔ reads' w.1 b :=
    hiff w (List.mem_of_getElem? hw) b
  constructor
  · rintro ⟨⟨w, hw, hmeets⟩, hmisses⟩
    exact ⟨⟨w, hw, (hclause hw).mp hmeets⟩, fun j hj w hw => (hclause hw).mp (hmisses j hj w hw)⟩
  · rintro ⟨⟨w, hw, hmeets⟩, hmisses⟩
    exact ⟨⟨w, hw, (hclause hw).mpr hmeets⟩, fun j hj w hw => (hclause hw).mpr (hmisses j hj w hw)⟩

end

/-! ## The chain for the branches -/

section

variable {h : Host φ ω} {σ : State φ ω} {s : Python.Expr} {n m : Nat} {arms : Arms}

/-- A `WHEN` becomes an arm with its test and its body, in front of the others. -/
theorem Branches.exists_arm_of_lower {values : List Expr} {body : List Stmt} {loc : Location}
    {rest : Branches} (hlower : (Branches.when values body loc rest).lower scope s n =
      .ok (arms, m)) :
    ∃ codes bs k arms', List.Forall₂ (Expr.HasCode scope) values codes ∧
      lowerBlock scope body n = .ok (bs, k) ∧ rest.lower scope s k = .ok (arms', m) ∧
      arms = .arm (whenTest s codes) bs arms' := by
  obtain ⟨codes, hcodes, hlower⟩ := Lowering.lift_bind_eq_ok_iff.mp hlower
  simp only [Lowering.bind_eq_ok_iff] at hlower
  obtain ⟨bs, k, hbody, arms', _, hrest, hlower⟩ := hlower
  obtain ⟨rfl, rfl⟩ := Lowering.pure_eq_ok_iff.mp hlower
  exact ⟨codes, bs, k, arms', hasCode_of_lowerAll values hcodes, hbody, hrest, rfl⟩

/-- The statements have the code, from some count of temporaries on. -/
def LowersTo (scope : Scope) (stmts : List Stmt) (code : List Python.Stmt) : Prop :=
  ∃ k j, lowerBlock scope stmts k = .ok (code, j)

/-- The bodies of the chain are those of the branches. -/
theorem Branches.lowersTo_bodies (b : Branches) (hlower : b.lower scope s n = .ok (arms, m)) :
    List.Forall₂ (fun w code => LowersTo scope w.2 code) b.clauses arms.bodies ∧
      LowersTo scope (b.other?.getD []) arms.last ∧ (b.other? = none → arms.last = []) := by
  induction b using Branches.clauses.induct generalizing n arms with
  -- without a last branch nothing is done there
  | case1 =>
    obtain ⟨rfl, rfl⟩ := Lowering.pure_eq_ok_iff.mp hlower
    exact ⟨.nil, ⟨0, 0, rfl⟩, fun _ => rfl⟩
  | case2 body =>
    obtain ⟨bs, k, hbody, hlower⟩ := Lowering.bind_eq_ok_iff.mp hlower
    obtain ⟨rfl, rfl⟩ := Lowering.pure_eq_ok_iff.mp hlower
    exact ⟨.nil, ⟨n, m, hbody⟩, nofun⟩
  | case3 values body loc rest ih =>
    obtain ⟨codes, bs, k, arms', -, hbody, hrest, rfl⟩ := Branches.exists_arm_of_lower hlower
    obtain ⟨hbodies, hlast⟩ := ih hrest
    exact ⟨.cons ⟨n, k, hbody⟩ hbodies, hlast⟩

/-- The chain comes to the body of the first match, and to the last one if there is none. -/
theorem Branches.pick_eq_ok_iff (b : Branches) {subject : Expr} (hs : subject.HasCode scope s)
    (hlower : b.lower scope s n = .ok (arms, m)) {body : List Python.Stmt} :
    arms.pick h σ.env = .ok body ↔
      (∃ i, FirstMatch (subject.Finds h scope σ) b.clauses i ∧ arms.bodies[i]? = some body) ∨
        (∀ w ∈ b.clauses, subject.Finds h scope σ w.1 false) ∧ body = arms.last := by
  -- without a clause there is nothing to match
  have hnone : ∀ i, ¬ FirstMatch (subject.Finds h scope σ) [] i := fun i hi => by
    obtain ⟨w, hw, -⟩ := hi.meets
    cases hw
  induction b using Branches.clauses.induct generalizing n arms with
  | case1 =>
    obtain ⟨rfl, rfl⟩ := Lowering.pure_eq_ok_iff.mp hlower
    simp [Branches.clauses, hnone, Arms.pick, Arms.last, eq_comm]
  | case2 stmts =>
    obtain ⟨bs, k, -, hlower⟩ := Lowering.bind_eq_ok_iff.mp hlower
    obtain ⟨rfl, rfl⟩ := Lowering.pure_eq_ok_iff.mp hlower
    simp [Branches.clauses, hnone, Arms.pick, Arms.last, eq_comm]
  | case3 values stmts loc rest ih =>
    obtain ⟨codes, bs, k, arms', hcodes, -, hrest, rfl⟩ := Branches.exists_arm_of_lower hlower
    have ih := ih hrest
    simp only [Arms.pick, bind_eq_ok_iff, eval_whenTest_eq_ok_iff hs hcodes, Branches.clauses,
      List.forall_mem_cons]
    constructor
    · rintro ⟨t, htest, hpick⟩
      cases t with
      | true =>
        obtain rfl := Except.ok.inj hpick
        exact .inl ⟨0, firstMatch_zero_iff.mpr htest, rfl⟩
      | false =>
        rcases ih.mp hpick with ⟨i, hfirst, hbody⟩ | ⟨hall, hbody⟩
        · exact .inl ⟨i + 1, firstMatch_succ_iff.mpr ⟨htest, hfirst⟩, hbody⟩
        · exact .inr ⟨⟨htest, hall⟩, hbody⟩
    · rintro (⟨i, hfirst, hbody⟩ | ⟨⟨hmiss, hall⟩, hbody⟩)
      · cases i with
        | zero =>
          obtain rfl := Option.some.inj hbody
          exact ⟨true, firstMatch_zero_iff.mp hfirst, rfl⟩
        | succ i =>
          obtain ⟨hmiss, hfirst⟩ := firstMatch_succ_iff.mp hfirst
          exact ⟨false, hmiss, ih.mpr (.inl ⟨i, hfirst, hbody⟩)⟩
      · exact ⟨false, hmiss, ih.mpr (.inr ⟨hall, hbody⟩)⟩

end

/-! ## What a `SELECT` does -/

/-- From the state, the chain does what the body of the first match does, and what its last body
does if there is no match. One body runs at most: no two clauses are both the first, and the last
body is not taken beside one. -/
structure TakesFirst (h : Host φ ω) (arms : Arms)
    (reads : List Expr → Bool → Prop) (clauses : List (List Expr × List Stmt)) (σ : State φ ω) :
    Prop where
  runs : ∀ τ, Runs h [.branch arms] σ τ ↔
    (∃ i body, FirstMatch reads clauses i ∧ arms.bodies[i]? = some body ∧ Runs h body σ τ) ∨
      (∀ w ∈ clauses, reads w.1 false) ∧ Runs h arms.last σ τ
  one  : ∀ i, FirstMatch reads clauses i →
    (¬ ∀ w ∈ clauses, reads w.1 false) ∧ ∀ j, FirstMatch reads clauses j → i = j

/-- What is taken depends on how the branches of the selection are read, and on nothing else. -/
theorem TakesFirst.congr {arms : Arms} {h : Host φ ω} {σ : State φ ω}
    {reads reads' : List Expr → Bool → Prop} {clauses : List (List Expr × List Stmt)}
    (hiff : ∀ w ∈ clauses, ∀ b, reads w.1 b ↔ reads' w.1 b)
    (htakes : TakesFirst h arms reads clauses σ) : TakesFirst h arms reads' clauses σ := by
  have hfirst : ∀ i, FirstMatch reads' clauses i ↔ FirstMatch reads clauses i :=
    fun i => (firstMatch_congr hiff).symm
  have hall : (∀ w ∈ clauses, reads' w.1 false) ↔ ∀ w ∈ clauses, reads w.1 false :=
    forall₂_congr fun w hw => (hiff w hw false).symm
  constructor
  · simpa only [hfirst, hall] using htakes.runs
  · simpa only [hfirst, hall] using htakes.one

/-- **A `SELECT` takes the first match, and `in` may match without equality.** The code is one
chain, whose bodies are those of the `WHEN` clauses and the `OTHER`. From every state it does what
the body of the first clause does among whose values the subject is found, all read in that state;
if there is no such clause, what the `OTHER` does, and nothing without an `OTHER`.

The subject is found where it is equal to one of the values. Among several values it is also found
where one of them is the same object, as the clause is written with `in`. So the first match is the
first clause with a value equal to the subject, if all clauses have one value or if the subject is
equal to itself, and `select_takes_first_match_undefined` has a case in which neither is so. -/
theorem select_takes_first_match (h : Host φ ω) {n m : Nat} {subject : Expr}
    {branches : Branches} {loc : Location} {code : List Python.Stmt}
    (hcode : (Stmt.select subject branches loc).lower scope n = .ok (code, m)) :
    ∃ arms : Arms, code = [.branch arms] ∧
      List.Forall₂ (fun w body => LowersTo scope w.2 body) branches.clauses arms.bodies ∧
      LowersTo scope (branches.other?.getD []) arms.last ∧
      (branches.other? = none → arms.last = []) ∧
      ∀ σ : State φ ω,
        TakesFirst h arms (subject.Finds h scope σ) branches.clauses σ ∧
        ((∀ w ∈ branches.clauses, w.1.length = 1) ∨
            h.Coherent ∧ subject.EqualsItself h scope σ →
          TakesFirst h arms (subject.Equals h scope σ) branches.clauses σ) := by
  obtain ⟨s, hs, hcode⟩ := Lowering.lift_bind_eq_ok_iff.mp hcode
  obtain ⟨arms, k, hlower, hcode⟩ := Lowering.bind_eq_ok_iff.mp hcode
  obtain ⟨rfl, rfl⟩ := Lowering.pure_eq_ok_iff.mp hcode
  obtain ⟨hbodies, hlast, hnothing⟩ := branches.lowersTo_bodies hlower
  refine ⟨arms, rfl, hbodies, hlast, hnothing, fun σ => ?_⟩
  -- in terms of what is found, which is what the test asks, there is nothing to assume
  have htakes : TakesFirst h arms (subject.Finds h scope σ) branches.clauses σ := by
    refine ⟨fun τ => ?_, fun i hi => hi.unique fun values htrue hfalse => ?_⟩
    · simp only [Python.runs_branch_iff,
        branches.pick_eq_ok_iff (Expr.lower_eq_ok_iff.mp hs) hlower]
      constructor
      · rintro ⟨body, ⟨i, hfirst, hbody⟩ | ⟨hall, rfl⟩, hrun⟩
        · exact .inl ⟨i, body, hfirst, hbody, hrun⟩
        · exact .inr ⟨hall, hrun⟩
      · rintro (⟨i, body, hfirst, hbody, hrun⟩ | ⟨hall, hrun⟩)
        · exact ⟨body, .inl ⟨i, hfirst, hbody⟩, hrun⟩
        · exact ⟨arms.last, .inr ⟨hall, rfl⟩, hrun⟩
    · cases htrue.unique hfalse
  -- in terms of equality, the two have to agree for the branches at hand
  refine ⟨htakes, fun hagree => htakes.congr fun w hw b => Expr.finds_iff_equals ?_⟩
  exact hagree.imp_left fun hone => hone w hw

/-- The branches `WHEN (1) x = 1; WHEN (k, 0) x = 2; WHEN (0) x = 3;`. -/
def choices : Branches :=
  .when [.number 1 ⟨1, 1⟩] [.assign (.plain "x") (.number 1 ⟨1, 1⟩) ⟨1, 1⟩] ⟨1, 1⟩ <|
  .when [(Reference.plain "k").toExpr, .number 0 ⟨1, 1⟩]
    [.assign (.plain "x") (.number 2 ⟨1, 1⟩) ⟨1, 1⟩] ⟨1, 1⟩ <|
  .when [.number 0 ⟨1, 1⟩] [.assign (.plain "x") (.number 3 ⟨1, 1⟩) ⟨1, 1⟩] ⟨1, 1⟩ .done

/-- The statement `SELECT (n);` with these branches. -/
def choosing : Stmt := .select (Reference.plain "n").toExpr choices ⟨1, 1⟩

/-- With 0 in `n` and -2 in `k`, the second clause runs, though the third has 0 as well. -/
theorem select_takes_first_match_second : ∃ code, choosing.lower Scope.empty 0 = .ok (code, 0) ∧
    ∀ τ : State Empty Unit, Runs .wholes code .bounds τ ↔ τ = State.bounds.bind "x" (.int 2) := by
  have hcode : choosing.lower Scope.empty 0 = .ok (_, 0) := rfl
  refine ⟨_, hcode, fun τ => ?_⟩
  obtain ⟨arms, harms, -, -, -, htakes⟩ := select_takes_first_match .wholes hcode
  have hself : Expr.EqualsItself .wholes Scope.empty .bounds (Reference.plain "n").toExpr := by
    intro u hu
    obtain rfl : .int 0 = u := Expr.Yields.unique ⟨_, rfl, rfl⟩ hu
    rfl
  obtain ⟨hruns, hone⟩ := (htakes .bounds).2 (.inr ⟨Python.coherent_of_sameVariable rfl, hself⟩)
  -- 1 is not 0, and of -2 and 0 the second is
  have hmiss : Expr.Equals .wholes Scope.empty .bounds (Reference.plain "n").toExpr
      [.number 1 ⟨1, 1⟩] false :=
    ⟨.int 0, [.int 1], ⟨_, rfl, rfl⟩, .cons ⟨_, rfl, rfl⟩ .nil, by decide⟩
  have hmeet : Expr.Equals .wholes Scope.empty .bounds (Reference.plain "n").toExpr
      [(Reference.plain "k").toExpr, .number 0 ⟨1, 1⟩] true :=
    ⟨.int 0, [.int (-2), .int 0], ⟨_, rfl, rfl⟩,
      .cons ⟨_, rfl, rfl⟩ (.cons ⟨_, rfl, rfl⟩ .nil), by decide⟩
  have hfirst : FirstMatch (Expr.Equals .wholes Scope.empty .bounds (Reference.plain "n").toExpr)
      choices.clauses 1 := firstMatch_succ_iff.mpr ⟨hmiss, firstMatch_zero_iff.mpr hmeet⟩
  obtain ⟨hnot, hunique⟩ := hone 1 hfirst
  cases harms
  rw [hruns]
  constructor
  · rintro (⟨i, body, hi, hbody, hrun⟩ | ⟨hall, -⟩)
    · obtain rfl := hunique i hi
      obtain rfl := Option.some.inj hbody
      obtain ⟨υ, hυ, hrun⟩ := Python.runs_assign_iff.mp hrun
      obtain rfl := Except.ok.inj hυ
      exact Python.runs_nil_iff.mp hrun
    · exact absurd hall hnot
  · rintro rfl
    exact .inl ⟨1, _, hfirst, rfl, .assign rfl .nil⟩

/-- A host whose one fraction is equal to nothing. -/
def Python.Host.undefined : Host Unit Unit where
  lib := {
    ofInt := fun _ => some ()
    neg := id
    add := fun _ _ => ()
    sub := fun _ _ => ()
    mul := fun _ _ => ()
    div := fun _ _ => some ()
    mod := fun _ _ => some ()
    quotient := fun _ _ => some ()
    truncate := fun _ => none
    floatText := fun _ => "nan"
    listText := fun _ => ""
    parse := fun _ => none
    format := fun _ _ => none }
  cmp := {
    -- the one fraction is not equal to anything, itself included
    floats := fun op _ _ => op = .ne
    mixed := fun op _ _ => op = .ne
    equalLists := fun _ _ => false
    orderLists := fun _ _ _ => .error .type }
  same := sameVariable
  act _ _ _ := .error .value

/-- The state with that fraction in `x`. -/
def Python.State.undefined : State Unit Unit where
  value id := if id = "x" then some (.float ()) else none
  outside := ⟨fun _ => false, ()⟩

/-- The branches `WHEN (x, 1) y = 1; OTHER y = 2;`. -/
def lookingUp : Branches :=
  .when [(Reference.plain "x").toExpr, .number 1 ⟨1, 1⟩]
    [.assign (.plain "y") (.number 1 ⟨1, 1⟩) ⟨1, 1⟩] ⟨1, 1⟩ <|
  .other [.assign (.plain "y") (.number 2 ⟨1, 1⟩) ⟨1, 1⟩]

/-- `SELECT (x); WHEN (x, 1) y = 1; OTHER y = 2; END;` takes the first clause where `x` is the
fraction that is not equal to itself, so that no value of any clause is equal to the subject. -/
theorem select_takes_first_match_undefined :
    ∃ code, (Stmt.select (Reference.plain "x").toExpr lookingUp ⟨1, 1⟩).lower Scope.empty 0 =
        .ok (code, 0) ∧
      Python.Host.undefined.Coherent ∧
      (∀ w ∈ lookingUp.clauses, (Reference.plain "x").toExpr.Equals .undefined Scope.empty
        .undefined w.1 false) ∧
      ∀ τ : State Unit Unit, Runs .undefined code .undefined τ ↔
        τ = State.undefined.bind "y" (.int 1) := by
  have hcode : (Stmt.select (Reference.plain "x").toExpr lookingUp ⟨1, 1⟩).lower Scope.empty 0 =
      .ok (_, 0) := rfl
  refine ⟨_, hcode, Python.coherent_of_sameVariable rfl, List.forall_mem_singleton.mpr ?_,
    fun τ => ?_⟩
  -- no value is equal to the subject, not even the subject's own
  · exact ⟨.float (), [.float (), .int 1], ⟨_, rfl, rfl⟩,
      .cons ⟨_, rfl, rfl⟩ (.cons ⟨_, rfl, rfl⟩ .nil), by decide⟩
  -- and yet the search finds the variable that is the subject
  · rw [Python.runs_branch_iff]
    constructor
    · rintro ⟨body, hpick, hrun⟩
      obtain rfl := Except.ok.inj hpick
      obtain ⟨υ, hυ, hrun⟩ := Python.runs_assign_iff.mp hrun
      obtain rfl := Except.ok.inj hυ
      exact Python.runs_nil_iff.mp hrun
    · rintro rfl
      exact ⟨_, rfl, .assign rfl .nil⟩

end Plic
