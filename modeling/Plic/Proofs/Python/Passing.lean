import Plic.Proofs.Python.Exec

/-!
# The states that code comes through

A run that never ends, or that fails half way, comes through states all the same.
They are the states in front of statements at any depth, and the one at the end.
What is to hold at all times has to hold in them.

`Keeps h I P code Q` says that code which starts with `P` stays within `I`, and
that it ends with `Q` if it ends. There is one rule for each form of a statement,
so that an invariant is shown statement by statement. What is known of a name
that the code does not store into can be carried along (`Keeps.frame`).

Main results: `Keeps.append`, `Keeps.basic`, `Keeps.assign`, `Keeps.branch`,
`Keeps.loop`.
-/

namespace Plic.Python

variable {φ ω : Type} {h : Host φ ω}

/-- The statements, started in `σ`, come through the state. -/
inductive Passes (h : Host φ ω) : List Stmt → State φ ω → State φ ω → Prop where
  | start {ss : List Stmt} {σ : State φ ω} : Passes h ss σ σ
  | behind {s : Stmt} {ss : List Stmt} {σ μ τ : State φ ω} :
      Runs h [s] σ μ → Passes h ss μ τ → Passes h (s :: ss) σ τ
  | branch {arms : Arms} {body ss : List Stmt} {σ τ : State φ ω} :
      arms.pick h σ.env = .ok body → Passes h body σ τ → Passes h (.branch arms :: ss) σ τ
  /-- In some round of a loop. -/
  | loop {test : Test} {body ss : List Stmt} {n : Nat} {σ μ τ : State φ ω} :
      Rounds h test (Runs h body) σ n μ → test.eval h μ.env = .ok true → Passes h body μ τ →
      Passes h (.loop test body :: ss) σ τ

/-- The code comes through the state that it ends in. -/
theorem Runs.passes {ss : List Stmt} {σ τ : State φ ω} (hrun : Runs h ss σ τ) :
    Passes h ss σ τ := by
  induction ss generalizing σ with
  | nil =>
    obtain rfl := runs_nil_iff.mp hrun
    exact .start
  | cons s ss ih =>
    obtain ⟨μ, hs, hrest⟩ := runs_cons_iff.mp hrun
    exact .behind hs (ih hrest)

/-- A state that is passed is in the first part or in the second, behind a run of the first. -/
theorem Passes.of_append {ss ts : List Stmt} {σ τ : State φ ω} (hpasses : Passes h (ss ++ ts) σ τ) :
    Passes h ss σ τ ∨ ∃ μ, Runs h ss σ μ ∧ Passes h ts μ τ := by
  induction ss generalizing σ with
  | nil => exact .inr ⟨σ, .nil, hpasses⟩
  | cons s ss ih =>
    rw [List.cons_append] at hpasses
    cases hpasses with
    | start => exact .inl .start
    -- either the run is still in the first part, or that part is over
    | behind hs hrest =>
      rcases ih hrest with hpasses | ⟨μ, hrun, hpasses⟩
      · exact .inl (.behind hs hpasses)
      · exact .inr ⟨μ, runs_cons_iff.mpr ⟨_, hs, hrun⟩, hpasses⟩
    | branch hpick hpasses => exact .inl (.branch hpick hpasses)
    | loop hrounds htest hpasses => exact .inl (.loop hrounds htest hpasses)

/-- Code that starts with `P` stays within `I`, and if it ends, it ends with `Q`. -/
structure Keeps (h : Host φ ω) (I P : State φ ω → Prop) (code : List Stmt)
    (Q : State φ ω → Prop) : Prop where
  within : ∀ σ τ, P σ → Passes h code σ τ → I τ
  ends : ∀ σ τ, P σ → Runs h code σ τ → Q τ

/-- The same of a chain of branches, whichever body it comes to. -/
def KeepsArms (h : Host φ ω) (I P : State φ ω → Prop) (arms : Arms) (Q : State φ ω → Prop) : Prop :=
  ∀ σ, P σ → ∀ body, arms.pick h σ.env = .ok body →
    (∀ τ, Passes h body σ τ → I τ) ∧ ∀ τ, Runs h body σ τ → Q τ

/-- The statement has no other statements in it. -/
def Stmt.isBasic : Stmt → Bool
  | .assign _ _ | .update _ _ _ | .run _ => true
  | .branch _ | .loop _ _ => false

namespace Keeps

variable {I P Q R : State φ ω → Prop} {ss ts body : List Stmt}

/-- Nothing is done, so the state stays. -/
theorem nil (hPI : ∀ σ, P σ → I σ) : Keeps h I P [] P := by
  refine ⟨fun σ τ hP hpasses => ?_, fun σ τ hP hrun => ?_⟩
  · cases hpasses
    exact hPI σ hP
  · obtain rfl := runs_nil_iff.mp hrun
    exact hP

/-- What is kept by two parts is kept by both in a row. -/
theorem append (hss : Keeps h I P ss Q) (hts : Keeps h I Q ts R) : Keeps h I P (ss ++ ts) R := by
  refine ⟨fun σ τ hP hpasses => ?_, fun σ τ hP hrun => ?_⟩
  · rcases hpasses.of_append with hpasses | ⟨μ, hrun, hpasses⟩
    · exact hss.within σ τ hP hpasses
    · exact hts.within μ τ (hss.ends σ μ hP hrun) hpasses
  · obtain ⟨μ, hrun, hrest⟩ := runs_append_iff.mp hrun
    exact hts.ends μ τ (hss.ends σ μ hP hrun) hrest

theorem weaken (hcode : Keeps h I P ss Q) (hQR : ∀ σ, Q σ → R σ) : Keeps h I P ss R :=
  ⟨hcode.within, fun σ τ hP hrun => hQR τ (hcode.ends σ τ hP hrun)⟩

theorem strengthen (hcode : Keeps h I P ss Q) (hRP : ∀ σ, R σ → P σ) : Keeps h I R ss Q :=
  ⟨fun σ τ hR => hcode.within σ τ (hRP σ hR), fun σ τ hR => hcode.ends σ τ (hRP σ hR)⟩

/-- A statement without others in it is in front of its state or behind it. -/
theorem basic {s : Stmt} (hs : s.isBasic) (hPI : ∀ σ, P σ → I σ) (hQI : ∀ σ, Q σ → I σ)
    (hstep : ∀ σ τ, P σ → Runs h [s] σ τ → Q τ) : Keeps h I P [s] Q := by
  refine ⟨fun σ τ hP hpasses => ?_, hstep⟩
  cases hpasses with
  | start => exact hPI σ hP
  | behind hrun hpasses =>
    cases hpasses
    exact hQI τ (hstep σ τ hP hrun)
  | branch | loop => cases hs

/-- An assignment of a value that is computed without acting on the outside. -/
theorem assign {t e : Expr} (he : e.acts = false) (hPI : ∀ σ, P σ → I σ) (hQI : ∀ σ, Q σ → I σ)
    (hstep : ∀ σ τ v c, P σ → e.eval h.lib σ.env = .ok v → t.cell h.lib σ.env = .ok c →
      σ.store c v = .ok τ → Q τ) : Keeps h I P [.assign t e] Q := by
  refine basic rfl hPI hQI fun σ τ hP hrun => ?_
  obtain ⟨_, hassign, hrest⟩ := runs_assign_iff.mp hrun
  obtain rfl := runs_nil_iff.mp hrest
  obtain ⟨v, c, heval, hc, hstore⟩ := (Host.assign_eq_ok_iff he).mp hassign
  exact hstep σ τ v c hP heval hc hstore

/-- A branching keeps what its arms keep. -/
theorem branch {arms : Arms} (hPI : ∀ σ, P σ → I σ) (harms : KeepsArms h I P arms Q) :
    Keeps h I P [.branch arms] Q := by
  refine ⟨fun σ τ hP hpasses => ?_, fun σ τ hP hrun => ?_⟩
  · cases hpasses with
    | start => exact hPI σ hP
    | behind hrun hpasses =>
      cases hpasses
      -- the state behind the chain is the one that the body ends in
      obtain ⟨body, hpick, hrun⟩ := runs_branch_iff.mp hrun
      exact (harms σ hP body hpick).1 τ hrun.passes
    | branch hpick hpasses => exact (harms σ hP _ hpick).1 τ hpasses
  · obtain ⟨body, hpick, hrun⟩ := runs_branch_iff.mp hrun
    exact (harms σ hP body hpick).2 τ hrun

theorem arms {arms : Arms} (hcode : Keeps h I P [.branch arms] Q) : KeepsArms h I P arms Q := by
  intro σ hP body hpick
  exact ⟨fun τ hpasses => hcode.within σ τ hP (.branch hpick hpasses),
    fun τ hrun => hcode.ends σ τ hP (runs_branch_iff.mpr ⟨body, hpick, hrun⟩)⟩

/-- What a round starts and ends with, the loop does. -/
theorem loop {test : Test} (hbody : Keeps h I P body P) : Keeps h I P [.loop test body] P := by
  have hPI : ∀ σ, P σ → I σ := fun σ hP => hbody.within σ σ hP .start
  -- by induction on the number of rounds, with the condition at the head of the loop
  have hrounds : ∀ {n σ τ}, P σ → Rounds h test (Runs h body) σ n τ → P τ := by
    intro n σ τ hP hrounds
    induction hrounds with
    | start => exact hP
    | next _ _ hround ih => exact hbody.ends _ _ ih hround
  have hends : ∀ σ τ, P σ → Runs h [.loop test body] σ τ → P τ := by
    intro σ τ hP hrun
    obtain ⟨n, μ, hturns, -, hrest⟩ := runs_loop_iff.mp hrun
    obtain rfl := runs_nil_iff.mp hrest
    exact hrounds hP hturns
  refine ⟨fun σ τ hP hpasses => ?_, hends⟩
  -- at the head, behind the loop, or inside of the body in one of its rounds
  cases hpasses with
  | start => exact hPI σ hP
  | behind hrun hpasses =>
    cases hpasses
    exact hPI τ (hends σ τ hP hrun)
  | loop hturns _ hpasses => exact hbody.within _ τ (hrounds hP hturns) hpasses

/-- A name that the code does not store into keeps its value. -/
theorem frame (hcode : Keeps h I P ss Q) {id : String} (hid : id ∉ blockTargets ss)
    (J : Option (Value φ) → Prop) :
    Keeps h I (fun σ => P σ ∧ J (σ.value id)) ss (fun σ => Q σ ∧ J (σ.value id)) := by
  refine ⟨fun σ τ hP => hcode.within σ τ hP.1, fun σ τ hP hrun => ?_⟩
  refine ⟨hcode.ends σ τ hP.1 hrun, ?_⟩
  rw [hrun.value_eq hid]
  exact hP.2

end Keeps

section

variable {I P Q : State φ ω → Prop} {body : List Stmt}

/-- A chain may come to no branch at all. -/
theorem KeepsArms.done (hPI : ∀ σ, P σ → I σ) : KeepsArms h I P .done P := by
  intro σ hP body hpick
  obtain rfl := Except.ok.inj hpick
  exact ⟨fun τ => (Keeps.nil hPI).within σ τ hP, fun τ => (Keeps.nil hPI).ends σ τ hP⟩

/-- The last arm keeps what its body keeps. -/
theorem KeepsArms.otherwise (hbody : Keeps h I P body Q) :
    KeepsArms h I P (.otherwise body) Q := by
  intro σ hP body' hpick
  obtain rfl := Except.ok.inj hpick
  exact ⟨fun τ => hbody.within σ τ hP, fun τ => hbody.ends σ τ hP⟩

/-- An arm keeps what its body and the arms behind it keep. -/
theorem KeepsArms.arm {test : Test} {rest : Arms} (hbody : Keeps h I P body Q)
    (hrest : KeepsArms h I P rest Q) : KeepsArms h I P (.arm test body rest) Q := by
  intro σ hP body' hpick
  obtain ⟨b, -, hpick⟩ := bind_eq_ok_iff.mp hpick
  cases b with
  | true =>
    obtain rfl := Except.ok.inj hpick
    exact ⟨fun τ => hbody.within σ τ hP, fun τ => hbody.ends σ τ hP⟩
  | false => exact hrest σ hP body' hpick

end

end Plic.Python
