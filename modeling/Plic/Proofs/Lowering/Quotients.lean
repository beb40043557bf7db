import Plic.Proofs.Lowering.Iteration
import Plic.Proofs.Lowering.Kinds
import Plic.Proofs.Lowering.Stores
import Plic.Proofs.Python.Passing

/-!
# Where quotients are cut

A quotient that is assigned to an integer variable is cut to an integer. This is
enough to keep fractions out of integer variables at all times, provided that
nothing else lets them in: no input, and no `DO` over an integer variable whose
start or step may be a fraction, since these are not cut.

Texts can still be assigned to numeric variables, so the declared types are not
what holds throughout a run. What does is a weaker sense of the kinds
(`KindSense.loose`): where an integer was declared there is an integer or a text,
and no fraction.

Main result: `quotients_are_cut`.
-/

namespace Plic

open Python (Cell Hoist Host Keeps KeepsArms Library Passes Runs State Tag Value safeName
  temporaryName)

variable {φ ω : Type} {scope : Scope}

/-! ## Values without fractions -/

/-- The types by kind, if texts may be where numbers were declared. -/
def looselyHas (k : ValueKind) (t : Tag) : Bool :=
  match k with
  | .integer => t = .int ∨ t = .str
  | .decimal => t = .int ∨ t = .float ∨ t = .str
  | .text => t = .str
  | .unknown => t = .str

/-- What holds of values by their kinds, if texts may be where numbers were declared. -/
def KindSense.loose : KindSense where
  has := looselyHas
  int := rfl
  str := rfl
  negated := by decide
  arithmetic := by decide +kernel
  quotient := by decide +kernel

/-- A numeric variable takes values of every kind, but for fractions in an integer variable. -/
theorem KindSense.loose_of_numeric : ∀ target k t, target.isNumeric →
    ¬(target = .integer ∧ k = .decimal) → loose.has k t → loose.has target t := by
  decide

/-- A numeric variable stays one when it is counted up or down. -/
theorem KindSense.loose_of_counted : ∀ k op s t, k.isNumeric → (op = .add ∨ op = .sub) →
    loose.has k s → (k = .integer → loose.has .integer t) →
    ∀ r ∈ Python.Operator.tag op s t, loose.has k r := by
  decide +kernel

/-- All variables hold values of their kinds in the loose sense. -/
def Scope.Clean (scope : Scope) (σ : State φ ω) : Prop :=
  ∀ name, scope.Sound KindSense.loose σ.env name

section

variable {h : Host φ ω} {σ τ : State φ ω} {r : Reference} {t e : Python.Expr} {c : Cell}

/-- A reference stands for a cell of its variable, with as many indices as were declared. -/
theorem Reference.cell_eq {lib : Library φ} {env : Python.Env φ} (ht : r.toExpr.HasCode scope t)
    (hc : t.cell lib env = .ok c) :
    c.name = safeName r.name ∧ c.indices.length = scope.rank r.name := by
  have hroot := Python.Expr.root_of_cell hc
  rw [Reference.root_eq ht] at hroot
  refine ⟨(Option.some.inj hroot).symm, ?_⟩
  unfold Reference.toExpr at ht
  cases ht with
  | var hrank hlength _ =>
    have hindices := Python.length_indices_of_cell rfl hc
    simp only [List.length_nil] at hindices
    omega

/-- Only the value of the variable counts. -/
theorem Scope.Sound.of_value {sense : KindSense} {name : String}
    (hσ : scope.Sound sense σ.env name)
    (hvalue : τ.value (safeName name) = σ.value (safeName name)) : scope.Sound sense τ.env name :=
  fun v hv => hσ v (hvalue.symm.trans hv)

/-- Storing a value of the variable's kind keeps the state clean. -/
theorem Scope.Clean.store (hσ : scope.Clean σ) (ht : r.toExpr.HasCode scope t)
    (hc : t.cell h.lib σ.env = .ok c) {v : Value φ}
    (hv : KindSense.loose.has (scope.kindOf r.name) v.tag) (hstore : σ.store c v = .ok τ) :
    scope.Clean τ := by
  obtain ⟨hname, hlength⟩ := Reference.cell_eq ht hc
  intro name
  by_cases hsame : name = r.name
  · subst hsame
    intro w hw
    rw [← hlength]
    refine State.filled_of_store (fun u hu => ?_) hv hstore (hname ▸ hw)
    rw [hlength]
    exact hσ r.name u (hname ▸ hu)
  · -- another variable is left alone
    have hother : safeName name ≠ c.name := by
      rw [hname]
      exact fun heq => hsame (Python.safeName_injective heq)
    exact (hσ name).of_value (State.value_of_store hstore hother)

/-- A temporary is no variable. -/
theorem Scope.Clean.bind_temporary (hσ : scope.Clean σ) (role : String) (i : Nat) (v : Value φ) :
    scope.Clean (σ.bind (temporaryName role i) v) := by
  intro name
  exact (hσ name).of_value (Function.update_of_ne (Python.safeName_ne_temporary name role i) _ _)

/-! ## Statements that keep fractions out -/

/-- So does an assignment whose value has this kind in every clean state. -/
theorem Scope.keeps_assign (ht : r.toExpr.HasCode scope t) (he : e.acts = false)
    (hv : ∀ σ : State φ ω, scope.Clean σ → ∀ v, e.eval h.lib σ.env = .ok v →
      KindSense.loose.has (scope.kindOf r.name) v.tag) :
    Keeps h scope.Clean scope.Clean [.assign t e] scope.Clean := by
  refine .assign he (fun _ => id) (fun _ => id) fun σ τ v c hσ heval hc hstore => ?_
  exact hσ.store ht hc (hv σ hσ v heval) hstore

/-- What was computed ahead of a loop is known in front of it. -/
theorem Scope.keeps_hoist {role : String} {i : Nat} (he : e.acts = false) {J : Value φ → Prop}
    (hv : ∀ σ : State φ ω, scope.Clean σ → ∀ v, e.eval h.lib σ.env = .ok v → J v) :
    Keeps h scope.Clean scope.Clean [.assign (.name (temporaryName role i)) e]
      (fun σ => scope.Clean σ ∧ ∀ v, σ.value (temporaryName role i) = some v → J v) := by
  refine .assign he (fun _ => id) (fun _ hσ => hσ.1) fun σ τ v c hσ heval hc hstore => ?_
  obtain rfl := Except.ok.inj hc
  obtain rfl := Except.ok.inj hstore
  refine ⟨hσ.bind_temporary role i v, fun w hw => ?_⟩
  obtain rfl : v = w := by simpa using hw
  exact hv σ hσ v heval

/-- What acts outside cannot reach variables. -/
theorem Scope.keeps_run (e : Python.Expr) :
    Keeps h scope.Clean scope.Clean [.run e] scope.Clean := by
  refine .basic rfl (fun _ => id) (fun _ => id) fun σ τ hσ hrun => ?_
  cases hrun with
  | run hperform hrest =>
    obtain rfl := Python.runs_nil_iff.mp hrest
    exact fun name => (hσ name).of_value (congrFun (Host.value_of_perform hperform) _)

/-- Counting a variable up or down by what may be added to it. -/
theorem Scope.keeps_update {P : State φ ω → Prop} {op : Python.Operator}
    (hop : op = .add ∨ op = .sub) (ht : r.toExpr.HasCode scope t)
    (hnumeric : (scope.kindOf r.name).isNumeric) (hP : ∀ σ, P σ → scope.Clean σ)
    (hstep : ∀ σ, P σ → ∀ v, e.eval h.lib σ.env = .ok v →
      scope.kindOf r.name = .integer → KindSense.loose.has .integer v.tag) :
    Keeps h scope.Clean P [.update t op e] scope.Clean := by
  refine .basic rfl hP (fun _ => id) fun σ τ hσ hrun => ?_
  obtain ⟨μ, hupdate, hrest⟩ := Python.runs_update_iff.mp hrun
  obtain rfl := Python.runs_nil_iff.mp hrest
  simp only [Host.update, bind_eq_ok_iff] at hupdate
  obtain ⟨c, hc, u, hu, v, hv, w, hw, hstore⟩ := hupdate
  -- what the cell held before is of the variable's kind, as the state is clean
  have hkind : KindSense.loose.has (scope.kindOf r.name) u.tag := by
    obtain ⟨hname, hlength⟩ := Reference.cell_eq ht hc
    simp only [State.load, bind_eq_ok_iff, Python.orFail_eq_ok_iff] at hu
    obtain ⟨a, ha, hget⟩ := hu
    have hfilled := hP σ hσ r.name a (hname ▸ ha)
    rw [← hlength] at hfilled
    exact hfilled.get hget
  refine (hP σ hσ).store ht hc ?_ hstore
  -- sums and differences of whole numbers are whole
  exact KindSense.loose_of_counted _ op _ _ hnumeric hop hkind (hstep σ hσ v hv) _
    (Library.tag_of_operate hw)

variable {value : Expr} {code : Python.Expr}

/-- In a clean state an expression has a value of its kind. -/
theorem Expr.HasCode.loose_tag (hcode : value.HasCode scope code) (hσ : scope.Clean σ) {v : Value φ}
    (hv : code.eval h.lib σ.env = .ok v) : KindSense.loose.has (value.valueKind scope) v.tag :=
  hcode.has_tag (fun r _ => hσ r.name) hv

/-- A value that is no fraction, or goes to a variable for fractions, may be stored as it is. -/
theorem Scope.keeps_uncut (ht : r.toExpr.HasCode scope t)
    (hcode : value.HasCode scope code) (hnumeric : (scope.kindOf r.name).isNumeric)
    (hwhole : ¬(scope.kindOf r.name = .integer ∧ value.valueKind scope = .decimal)) :
    Keeps h scope.Clean scope.Clean [.assign t code] scope.Clean := by
  refine Scope.keeps_assign ht hcode.acts_eq_false fun σ hσ v hv => ?_
  exact KindSense.loose_of_numeric _ _ _ hnumeric hwhole (hcode.loose_tag hσ hv)

/-- An assignment cuts what it has to. -/
theorem Scope.keeps_stored (ht : r.toExpr.HasCode scope t)
    (hcode : value.HasCode scope code) (hnumeric : (scope.kindOf r.name).isNumeric) :
    Keeps h scope.Clean scope.Clean [.assign t (storedCode scope r value code)] scope.Clean := by
  unfold storedCode
  -- a fraction for a whole number is cut, and the cut value is an integer
  by_cases hcut : scope.kindOf r.name = .integer ∧ value.valueKind scope = .decimal
  · rw [if_pos hcut]
    refine Scope.keeps_assign ht rfl fun σ hσ v hv => ?_
    simp only [Python.Expr.eval, Python.evalAll, bind_eq_ok_iff] at hv
    obtain ⟨_, ⟨u, -, _, ⟨⟩, hargs⟩, hv⟩ := hv
    obtain rfl := Except.ok.inj hargs
    rw [hcut.1, Library.tag_of_toInt hv]
    rfl
  · rw [if_neg hcut]
    exact Scope.keeps_uncut ht hcode hnumeric hcut

end

/-! ## Statements of the source -/

/-- The statement takes a value from outside of the program. -/
def Stmt.takesInput : Stmt → Bool
  | .get _ _ | .read _ _ _ | .query _ _ _ => true
  | _ => false

/-- The statement is a `DO` over an integer variable with a start or a step that may be a
fraction. -/
def Stmt.CountsInFractions (scope : Scope) : Stmt → Prop
  | .doLoop var start _ step _ _ => scope.kindOf var.name = .integer ∧
      (start.valueKind scope = .decimal ∨ ∃ e ∈ step, e.valueKind scope = .decimal)
  | _ => False

/-- The statement itself, its bodies aside, lets no fraction into an integer variable. -/
structure Stmt.Tame (scope : Scope) (s : Stmt) : Prop where
  numeric : ∀ x ∈ s.store?, (scope.kindOf x.target.name).isNumeric
  inner   : s.takesInput = false
  whole   : ¬s.CountsInFractions scope

section

variable {h : Host φ ω} {n m k : Nat}

theorem Scope.keepsArms_elseArms (no : List Stmt) {code : List Python.Stmt}
    (hcode : Keeps h scope.Clean scope.Clean code scope.Clean) :
    KeepsArms h scope.Clean scope.Clean (elseArms no code) scope.Clean := by
  unfold elseArms
  split
  · exact hcode.arms
  · exact .otherwise hcode

/-- Temporaries are not variables, so hoisting keeps the state clean. -/
theorem Expr.HasHoist.keeps {role : String} {e : Expr} {ahead : List Python.Stmt}
    {code : Python.Expr} (hhoist : e.HasHoist scope role n ahead code m) :
    Keeps h scope.Clean scope.Clean ahead scope.Clean := by
  cases hhoist with
  | literal => exact .nil fun _ => id
  | stored _ hcode =>
    exact (Scope.keeps_hoist (J := fun _ => True) hcode.acts_eq_false fun _ _ _ _ => trivial).weaken
      fun _ hσ => hσ.1

/-- The rounds of a loop. A step that is computed ahead stays what it was, since the body does not
store into its temporary. -/
theorem HasStep.keeps {var : Reference} {v l : Python.Expr} {step : Option Expr}
    {ahead : List Python.Stmt} {test : Python.Test} {advance : Python.Stmt}
    (hstep : HasStep scope v l n step ahead test advance m) (hv : var.toExpr.HasCode scope v)
    (hnumeric : (scope.kindOf var.name).isNumeric)
    (hwhole : scope.kindOf var.name = .integer → ∀ e ∈ step, e.valueKind scope ≠ .decimal)
    {body : List Stmt} {bs : List Python.Stmt} (hcodes : HasCodes scope m body bs k)
    (hbody : Keeps h scope.Clean scope.Clean bs scope.Clean) :
    Keeps h scope.Clean scope.Clean (ahead ++ [.loop test (bs ++ [advance])]) scope.Clean := by
  -- a number in the code is an integer
  have hliteral : ∀ {op} (i : Int), op = .add ∨ op = .sub →
      Keeps h scope.Clean scope.Clean [.update v op (.int i)] scope.Clean := by
    intro op i hop
    refine Scope.keeps_update hop hv hnumeric (fun _ => id) fun σ _ w hw _ => ?_
    obtain rfl := Except.ok.inj hw
    rfl
  cases hstep with
  | one => exact .loop (hbody.append (hliteral 1 (.inl rfl)))
  | up => exact .loop (hbody.append (hliteral _ (.inl rfl)))
  | down => exact .loop (hbody.append (hliteral _ (.inr rfl)))
  | computed hnone hhoist =>
    cases hhoist with
    | literal hsome _ =>
      rw [hnone] at hsome
      exact absurd hsome (by simp)
    | stored _ hcode =>
      let step := temporaryName Hoist.step.text (n + 1)
      let Fits (w : Value φ) : Prop :=
        scope.kindOf var.name = .integer → KindSense.loose.has .integer w.tag
      let Known (o : Option (Value φ)) : Prop := ∀ w, o = some w → Fits w
      have hahead : Keeps h scope.Clean scope.Clean _
          (fun σ => scope.Clean σ ∧ Known (σ.value step)) :=
        Scope.keeps_hoist (J := Fits) hcode.acts_eq_false fun σ hσ w hw hinteger => by
          refine KindSense.loose_of_numeric .integer _ _ rfl ?_ (hcode.loose_tag hσ hw)
          exact fun hboth => hwhole hinteger _ rfl hboth.2
      have hround := hbody.frame (hcodes.temporary_not_mem .step le_rfl) Known
      have hadvance : Keeps h scope.Clean (fun σ => scope.Clean σ ∧ Known (σ.value step))
          [.update v .add (.name step)] scope.Clean := by
        refine Scope.keeps_update (.inl rfl) hv hnumeric (fun _ hσ => hσ.1) fun σ hσ w hw => ?_
        rw [Python.Expr.eval, Python.orFail_eq_ok_iff] at hw
        exact hσ.2 w hw
      have hapart : step ∉ Python.blockTargets [.update v .add (.name step)] := by
        simp only [Python.blockTargets, Python.Stmt.targets, Reference.root_eq hv]
        simpa using fun heq => Python.safeName_ne_temporary var.name _ _ heq.symm
      have hboth := (hadvance.frame hapart Known).strengthen fun σ hσ => ⟨hσ, hσ.2⟩
      exact (hahead.append (.loop (hround.append hboth))).weaken fun _ hσ => hσ.1

mutual

/-- A run of tame statements keeps the state clean, also while it lasts. -/
theorem Stmt.HasCode.keeps {n m : Nat} {s : Stmt} {code : List Python.Stmt}
    (hcode : s.HasCode scope n code m) (htame : ∀ x ∈ s.nested, x.Tame scope) :
    Keeps h scope.Clean scope.Clean code scope.Clean := by
  match hcode with
  | .assign ht hv =>
    have hself := htame _ List.mem_cons_self
    exact Scope.keeps_stored ht hv (hself.numeric _ rfl)
  | .ifElse _ hyes hno =>
    obtain ⟨-, hbodies⟩ := List.forall_mem_cons.mp htame
    obtain ⟨hyestame, hnotame⟩ := List.forall_mem_append.mp hbodies
    exact .branch (fun _ => id)
      (.arm (hyes.keeps hyestame) (Scope.keepsArms_elseArms _ (hno.keeps hnotame)))
  | .doWhile _ hbody =>
    obtain ⟨-, hbodytame⟩ := List.forall_mem_cons.mp htame
    exact .loop (hbody.keeps hbodytame)
  | .doLoop hv hs hlimit hstep hbody =>
    obtain ⟨hself, hbodytame⟩ := List.forall_mem_cons.mp htame
    have hnumeric := hself.numeric _ rfl
    have hstart : Keeps h scope.Clean scope.Clean [.assign _ _] scope.Clean :=
      Scope.keeps_uncut hv hs hnumeric fun hboth => hself.whole ⟨hboth.1, .inl hboth.2⟩
    have hrounds := hstep.keeps hv hnumeric
      (fun hinteger e he hdecimal => hself.whole ⟨hinteger, .inr ⟨e, he, hdecimal⟩⟩) hbody
      (hbody.keeps hbodytame)
    rw [List.append_assoc]
    exact (hstart.append hlimit.keeps).append hrounds
  | .select _ hbranches =>
    obtain ⟨-, hbodies⟩ := List.forall_mem_cons.mp htame
    exact .branch (fun _ => id) (hbranches.keeps hbodies)
  | .put _ | .openFile | .write _ | .closeFile => exact Scope.keeps_run _
  -- nothing comes from outside
  | .get _ | .read _ | .query _ => exact nomatch (htame _ List.mem_cons_self).inner

/-- Tame statements keep fractions out of integer variables. -/
theorem HasCodes.keeps {n m : Nat} {ss : List Stmt} {code : List Python.Stmt}
    (hcode : HasCodes scope n ss code m) (htame : ∀ x ∈ nestedOfAll ss, x.Tame scope) :
    Keeps h scope.Clean scope.Clean code scope.Clean := by
  match hcode with
  | .nil => exact .nil fun _ => id
  | .cons hs hss =>
    obtain ⟨hstame, hsstame⟩ := List.forall_mem_append.mp htame
    exact (hs.keeps hstame).append (hss.keeps hsstame)

theorem Branches.HasCode.keeps {subject : Python.Expr} {n m : Nat} {b : Branches}
    {arms : Python.Arms} (hcode : b.HasCode scope subject n arms m)
    (htame : ∀ x ∈ b.nested, x.Tame scope) :
    KeepsArms h scope.Clean scope.Clean arms scope.Clean := by
  match hcode with
  | .done => exact .done fun _ => id
  | .other hbody => exact .otherwise (hbody.keeps htame)
  | .when _ hbody hrest =>
    obtain ⟨hbodytame, hresttame⟩ := List.forall_mem_append.mp htame
    exact .arm (hbody.keeps hbodytame) (hrest.keeps hresttame)

end

end

/-! ## First values -/

section

variable {lib : Library φ} {env : Python.Env φ} {v : Variable} {w : Value φ}

/-- A list of one item, repeated, has no other items. -/
theorem filled_row {P : Value φ → Prop} {e : Python.Expr} {k : Int}
    (hP : ∀ x, e.eval lib env = .ok x → P x)
    (hw : (Python.Expr.binary .mul (.single e) (.int k)).eval lib env = .ok w) :
    w.Filled P 1 := by
  simp only [Python.Expr.eval, bind_eq_ok_iff] at hw
  obtain ⟨_, ⟨x, hx, hlist⟩, _, hk, hw⟩ := hw
  obtain rfl := Except.ok.inj hlist
  obtain rfl := Except.ok.inj hk
  obtain rfl := Except.ok.inj hw
  intro y hy
  obtain ⟨xs, hxs, hy⟩ := List.mem_flatten.mp hy
  obtain rfl := List.eq_of_mem_replicate hxs
  obtain rfl := List.mem_singleton.mp hy
  exact hP y hx

/-- An item that is computed anew for each place has the same value at all of them. -/
theorem filled_replicate {P : Value φ → Prop} {d : Nat} {e : Python.Expr} {k : Int}
    (hP : ∀ x, e.eval lib env = .ok x → x.Filled P d)
    (hw : (Python.Expr.replicate e (.int k)).eval lib env = .ok w) : w.Filled P (d + 1) := by
  change (if k ≤ 0 then .ok (Value.list []) else
    e.eval lib env >>= fun x => .ok (Value.list (List.replicate k.toNat x))) = _ at hw
  -- a list without items is filled with anything
  by_cases hk : k ≤ 0
  · rw [if_pos hk] at hw
    obtain rfl := Except.ok.inj hw
    intro y hy
    cases hy
  · rw [if_neg hk, bind_eq_ok_iff] at hw
    obtain ⟨x, hx, hw⟩ := hw
    obtain rfl := Except.ok.inj hw
    intro y hy
    obtain rfl := List.eq_of_mem_replicate hy
    exact hP y hx

/-- Every slot of a variable holds its first element. -/
theorem Variable.filled_initialValue {P : Value φ → Prop}
    (hP : ∀ x, v.initialElement.eval lib env = .ok x → P x)
    (hw : v.initialValue.eval lib env = .ok w) : w.Filled P v.shape.rank := by
  unfold Variable.initialValue at hw
  cases hshape : v.shape with
  | scalar =>
    rw [hshape] at hw
    exact hP w hw
  | vector k =>
    rw [hshape] at hw
    exact filled_row hP hw
  | matrix k l =>
    rw [hshape] at hw
    exact filled_replicate (fun x hx => filled_row hP hx) hw

/-- The first element of a variable is of the kind of the variable. -/
theorem Variable.loose_initialElement (hw : v.initialElement.eval lib env = .ok w) :
    KindSense.loose.has (.ofType v.type) w.tag := by
  unfold Variable.initialElement at hw
  cases htype : v.type with
  | character | fixedBinary =>
    rw [htype] at hw
    obtain rfl := Except.ok.inj hw
    rfl
  | fixedDecimal _ scale =>
    rw [htype] at hw
    obtain rfl := Except.ok.inj hw
    -- an integer will do whether or not there are digits behind the point
    rcases scale with _ | _ | _ <;> rfl

theorem Variable.acts_initialValue (v : Variable) : v.initialValue.acts = false := by
  unfold Variable.initialValue Variable.initialElement
  split
  · split <;> rfl
  · rfl
  · rfl

end

variable {h : Host φ ω}

/-- A variable starts with a value of its kind. -/
theorem Variable.keeps_initialise {v : Variable} (hfind : scope.find? v.name = some v) :
    Keeps h scope.Clean scope.Clean [v.initialise] scope.Clean := by
  refine .assign v.acts_initialValue (fun _ => id) (fun _ => id)
    fun σ τ w c hσ hw hc hstore => ?_
  obtain rfl := Except.ok.inj hc
  obtain rfl := Except.ok.inj hstore
  have hfilled := Variable.filled_initialValue (fun x hx => v.loose_initialElement hx) hw
  intro name
  -- names stay different when they are made safe, so other variables are not touched
  by_cases hsame : name = v.name
  · subst hsame
    intro u hu
    obtain rfl : w = u := by simpa [State.env] using hu
    rw [Scope.rank, hfind, Scope.kindOf, hfind]
    exact hfilled
  · have hother : safeName name ≠ safeName v.name :=
      fun heq => hsame (Python.safeName_injective heq)
    exact (hσ name).of_value (Function.update_of_ne hother _ _)

theorem Scope.keeps_initialise {ds : List Declaration}
    (hscope : Scope.ofDeclarations ds = .ok scope) :
    Keeps h scope.Clean scope.Clean (scope.declared.map Variable.initialise) scope.Clean := by
  have hall : ∀ v ∈ scope.declared, scope.find? v.name = some v :=
    fun v hv => Scope.find?_of_mem hscope hv
  generalize scope.declared = vs at hall ⊢
  induction vs with
  | nil => exact .nil fun _ => id
  | cons v vs ih =>
    rw [List.forall_mem_cons] at hall
    exact (Variable.keeps_initialise hall.1).append (ih hall.2)

/-! ## Programs -/

/-- No cell of an integer variable holds a fraction. -/
theorem Scope.Clean.load_ne_float {σ : State φ ω} (hσ : scope.Clean σ) {name : String}
    (hinteger : scope.kindOf name = .integer) (indices : List Int) (x : φ) :
    σ.load ⟨safeName name, indices⟩ ≠ .ok (.float x) := by
  intro hload
  simp only [State.load, bind_eq_ok_iff, Python.orFail_eq_ok_iff] at hload
  obtain ⟨v, hv, hget⟩ := hload
  refine (hσ name v hv).get_ne_float (fun y hy => ?_) indices x hget
  rw [hinteger] at hy
  simpa [KindSense.loose, looselyHas] using hy

/-- A program without texts, inputs and loops that count in fractions is tame. -/
theorem Program.tame {p : Program} (hnumeric : ∀ r ∈ p.references, (scope.kindOf r.name).isNumeric)
    (hinner : ∀ s ∈ p.nested, s.takesInput = false)
    (hwhole : ∀ s ∈ p.nested, ¬s.CountsInFractions scope) : ∀ s ∈ p.nested, s.Tame scope := by
  intro s hs
  refine ⟨fun x hx => ?_, hinner s hs, hwhole s hs⟩
  -- what is stored into is referred to
  have htarget : x.target.toExpr ∈ s.roots := by
    cases s with
    | assign | doLoop =>
      obtain rfl := Option.some.inj hx
      exact List.mem_cons_self
    | _ => cases hx
  have hpart := mem_partsOfAll.mpr ⟨x.target.toExpr, htarget, Expr.mem_parts_self _⟩
  exact hnumeric x.target (Program.mem_references.mpr (List.mem_flatMap.mpr ⟨s, hs, hpart⟩))

/-- **Quotients are cut where they are assigned, and nowhere else.** Every value that a program
stores by an assignment, or starts a `DO` with, has a line of its own, in the order of the source. A
value that may be a fraction is cut in the line of an assignment to an integer variable; where a
`DO` starts with it, it is not.

In a program with numeric variables only and without input, no integer variable holds a fraction at
any time, unless a `DO` over an integer variable has a start or a step that may be one. -/
theorem quotients_are_cut {p : Program} {code : Python.Procedure} (hlower : p.lower = .ok code) :
    ∃ scope, Scope.ofDeclarations p.declarations = .ok scope ∧
      (∃ lines, List.Forall₂ (Store.HasLine scope) p.stores lines ∧
        lines.Sublist (code.outline.lines.map Python.Line.text)) ∧
      ((∀ r ∈ p.references, (scope.kindOf r.name).isNumeric) →
        (∀ s ∈ p.nested, s.takesInput = false) →
        (∀ s ∈ p.nested, ¬s.CountsInFractions scope) →
        ∀ {φ ω : Type} (h : Host φ ω) (σ τ : State φ ω), (∀ id, σ.value id = none) →
          Passes h code.body σ τ → ∀ name, scope.kindOf name = .integer →
            ∀ indices x, τ.load ⟨safeName name, indices⟩ ≠ .ok (.float x)) := by
  obtain ⟨scope, body, n, hscope, hbody, rfl⟩ := Program.hasCodes_of_lower hlower
  refine ⟨scope, hscope, StoresAmong.exists_lines ?_, ?_⟩
  · refine hbody.storesAmong.mono ?_
    rw [Python.blockAssignments_append]
    exact List.sublist_append_right _ _
  · intro hnumeric hinner hwhole φ ω h σ τ hσ hpasses name hinteger
    have htame := Program.tame hnumeric hinner hwhole
    have hkeeps := (Scope.keeps_initialise hscope).append (hbody.keeps (h := h) htame)
    -- at the start there is nothing in any variable
    have hclean : scope.Clean σ := by
      intro name v hv
      cases (hσ (safeName name)).symm.trans hv
    exact (hkeeps.within σ τ hclean hpasses).load_ne_float hinteger

/-- The program `p: PROC OPTIONS(MAIN); DCL i FIXED BINARY(31); ...; END p;` with the given
statements. -/
def Program.overInteger (statements : List Stmt) : Program :=
  ⟨"p", [⟨[⟨"i", [], ⟨1, 1⟩⟩], .fixedBinary (some 31), ⟨1, 1⟩⟩], statements, ⟨1, 1⟩⟩

/-- The quotient `7 / 2`. -/
def Expr.sevenHalves : Expr := .binary .div (.number 7 ⟨1, 1⟩) (.number 2 ⟨1, 1⟩) ⟨1, 1⟩

/-- In `i = 7 / 2;` the quotient is cut, and `i` never holds a fraction. -/
theorem quotients_are_cut_assigned : ∃ code,
    (Program.overInteger [.assign (.plain "i") .sevenHalves ⟨1, 1⟩]).lower = .ok code ∧
    code.outline.lines.map Python.Line.text =
      ["def p():", "i = 0", "i = int(7 / 2)", "", "", "if __name__ == '__main__':", "p()"] ∧
    ∀ (h : Host ℚ Unit) (σ τ : State ℚ Unit), (∀ id, σ.value id = none) →
      Passes h code.body σ τ → ∀ x, τ.load ⟨"i", []⟩ ≠ .ok (.float x) := by
  obtain ⟨code, hlower, hlines⟩ : ∃ code,
      (Program.overInteger [.assign (.plain "i") .sevenHalves ⟨1, 1⟩]).lower = .ok code ∧
      code.outline.lines.map Python.Line.text =
        ["def p():", "i = 0", "i = int(7 / 2)", "", "", "if __name__ == '__main__':", "p()"] := by
    refine ⟨_, rfl, ?_⟩
    decide +kernel
  obtain ⟨scope, hscope, -, hkeeps⟩ := quotients_are_cut hlower
  obtain rfl : ⟨[⟨"i", .fixedBinary (some 31), .scalar, ⟨1, 1⟩⟩]⟩ = scope := Except.ok.inj hscope
  refine ⟨code, hlower, hlines, fun h σ τ hσ hpasses => ?_⟩
  -- there is no `DO` at all
  exact hkeeps (by decide) (by decide) (List.forall_mem_singleton.mpr id) h σ τ hσ hpasses
    "i" rfl []

/-- A host with exact fractions, and without input and output. -/
def Python.Host.exact : Host ℚ Unit where
  lib := .exact
  cmp := {
    floats := fun op x y => op.holds x y
    mixed := fun op a y => op.holds (a : ℚ) y
    equalLists := fun _ _ => false
    orderLists := fun _ _ _ => .error .type }
  same _ _ _ := false
  act _ _ _ := .error .value

/-- `DO i = 7 / 2 TO 5; END;` puts a fraction into `i`. -/
theorem doStart_not_cut : ∃ code,
    (Program.overInteger [.doLoop (.plain "i") .sevenHalves (.number 5 ⟨1, 1⟩) none []
      ⟨1, 1⟩]).lower = .ok code ∧
    code.outline.lines.map Python.Line.text =
      ["def p():", "i = 0", "i = 7 / 2", "while i <= 5:", "i += 1", "", "",
        "if __name__ == '__main__':", "p()"] ∧
    ∀ σ, ∃ τ, Passes .exact code.body σ τ ∧ τ.load ⟨"i", []⟩ = .ok (.float (7 / 2)) := by
  refine ⟨_, rfl, ?_, fun σ => ?_⟩
  · decide +kernel
  · exact ⟨_, .behind (.assign rfl .nil) (.behind (.assign rfl .nil) .start), rfl⟩

end Plic
