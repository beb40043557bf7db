import Plic.Proofs.Grammar.Relocate
import Plic.Proofs.Lowering.Rules

/-!
# Code does not depend on places

The places in a program go into faults only. So a program with other places has
the same procedure, or is refused at the same stage of the work; where and in
which words may differ, since a fault holds a place and may cite a line.

Main results:

* `Expr.relocate_lower`, `Stmt.relocate_lower` — the code for expressions and
  statements.
* `Program.relocate_lower` — the procedure for a program.
-/

namespace Plic

variable {α β γ δ : Type}

/-! ## Work with the same outcome -/

/-- Both give a value, or both are refused at the same stage of the work. -/
inductive Agrees (R : α → β → Prop) : Except Fault α → Except Fault β → Prop where
  | ok {a : α} {b : β} : R a b → Agrees R (.ok a) (.ok b)
  | error {f g : Fault} : f.kind = g.kind → Agrees R (.error f) (.error g)

namespace Agrees

theorem refl (x : Except Fault α) : Agrees (· = ·) x x := by
  cases x with
  | ok a => exact .ok rfl
  | error g => exact .error rfl

/-- A sequence agrees if its parts do, for all related values between them. -/
theorem bind {R : α → β → Prop} {S : γ → δ → Prop} {x : Except Fault α} {y : Except Fault β}
    {f : α → Except Fault γ} {g : β → Except Fault δ} (h : Agrees R x y)
    (hf : ∀ a b, R a b → Agrees S (f a) (g b)) : Agrees S (x >>= f) (y >>= g) := by
  cases h with
  | ok hab => exact hf _ _ hab
  | error hkind => exact .error hkind

/-- A sequence whose first part gives the same value. -/
theorem bind_eq {S : γ → δ → Prop} {x y : Except Fault α} {f : α → Except Fault γ}
    {g : α → Except Fault δ} (h : Agrees (· = ·) x y) (hf : ∀ a, Agrees S (f a) (g a)) :
    Agrees S (x >>= f) (y >>= g) :=
  h.bind fun a _ hab => hab ▸ hf a

/-- What is made of equal values is equal. -/
theorem map {x y : Except Fault α} (h : Agrees (· = ·) x y) (f : α → β) :
    Agrees (· = ·) (x.map f) (y.map f) := by
  cases h with
  | ok hab => exact .ok (hab ▸ rfl)
  | error hkind => exact .error hkind

/-- Work along a list agrees if each step keeps the states related. -/
theorem foldlM {R : β → γ → Prop} {f : β → α → Except Fault β} {g : γ → δ → Except Fault γ}
    {m : α → δ} (h : ∀ a b c, R b c → Agrees R (f b a) (g c (m a))) (as : List α) {b : β} {c : γ}
    (hbc : R b c) : Agrees R (as.foldlM f b) ((as.map m).foldlM g c) := by
  induction as generalizing b c with
  | nil => exact .ok hbc
  | cons a as ih =>
    rw [List.map_cons, List.foldlM_cons, List.foldlM_cons]
    exact (h a b c hbc).bind fun b' c' hbc' => ih hbc'

/-- Work on every item of a list agrees if it does for each item. -/
theorem mapM {f : α → Except Fault β} {g : γ → Except Fault β} {m : α → γ}
    (h : ∀ a, Agrees (· = ·) (f a) (g (m a))) (as : List α) :
    Agrees (· = ·) (as.mapM f) ((as.map m).mapM g) := by
  induction as with
  | nil => exact .ok rfl
  | cons a as ih =>
    rw [List.map_cons, List.mapM_cons, List.mapM_cons]
    exact (h a).bind_eq fun _ => ih.bind_eq fun _ => .ok rfl

end Agrees

/-- Work that counts temporaries has the same outcome from every count on. -/
def Lowering.Agrees (x y : Lowering α) : Prop := ∀ n, Plic.Agrees (· = ·) (x n) (y n)

namespace Lowering.Agrees

theorem pure (a : α) : Lowering.Agrees (pure a) (pure a) := fun _ => .ok rfl

theorem bind {x y : Lowering α} {f g : α → Lowering β} (h : Lowering.Agrees x y)
    (hf : ∀ a, Lowering.Agrees (f a) (g a)) : Lowering.Agrees (x >>= f) (y >>= g) :=
  fun n => (h n).bind_eq fun p => hf p.1 p.2

/-- Work without temporaries agrees for every count. -/
theorem lift {x y : Except Fault α} (h : Plic.Agrees (· = ·) x y) :
    Lowering.Agrees (liftM x) (liftM y) :=
  fun _ => h.bind_eq fun _ => .ok rfl

theorem lift_bind {x y : Except Fault α} {f g : α → Lowering β} (h : Plic.Agrees (· = ·) x y)
    (hf : ∀ a, Lowering.Agrees (f a) (g a)) :
    Lowering.Agrees (liftM x >>= f) (liftM y >>= g) :=
  (lift h).bind hf

end Lowering.Agrees

/-! ## Scopes -/

variable (f : Location → Location)

/-- The variable at another place. -/
def Variable.relocate (v : Variable) : Variable := { v with loc := f v.loc }

/-- The variables at other places. -/
def Scope.relocate (s : Scope) : Scope := ⟨s.declared.map (Variable.relocate f)⟩

/-- A variable is looked up by its name, so it is found with another place only. -/
theorem Scope.relocate_find? (s : Scope) (name : String) :
    (s.relocate f).find? name = (s.find? name).map (Variable.relocate f) := by
  rw [Scope.find?, Scope.relocate, List.find?_map]
  rfl

/-- The number of dimensions has no place. -/
theorem Scope.relocate_rank (s : Scope) (name : String) : (s.relocate f).rank name = s.rank name := by
  rw [Scope.rank, Scope.relocate_find?, Scope.rank]
  cases s.find? name with
  | none => rfl
  | some v => rfl

theorem Scope.relocate_kindOf (s : Scope) (name : String) :
    (s.relocate f).kindOf name = s.kindOf name := by
  rw [Scope.kindOf, Scope.relocate_find?, Scope.kindOf]
  cases s.find? name with
  | none => rfl
  | some v => rfl

/-- Subscripts are counted, and only the refusal says where. -/
theorem Scope.relocate_checkSubscripts (s : Scope) (name : String) (count : Nat) (l m : Location) :
    Agrees (· = ·) (s.checkSubscripts name count l)
      ((s.relocate f).checkSubscripts name count m) := by
  rw [Scope.checkSubscripts, Scope.checkSubscripts, Scope.relocate_rank, Scope.relocate_find?]
  split
  · exact .ok rfl
  · cases s.find? name with
    | none => exact .error rfl
    -- both faults are told at the place of the reference, which is not compared
    | some v =>
      show Agrees (· = ·) (if v.shape.rank = 0 then _ else _) (if v.shape.rank = 0 then _ else _)
      split
      · exact .error rfl
      · exact .error rfl

/-- The scopes hold the same variables at other places. -/
def Scope.Moved (s s' : Scope) : Prop := s' = s.relocate f

/-- A declared item gives the same variable at another place. -/
theorem Variable.relocate_ofItem (type : DataType) (item : Item) :
    Agrees (fun v v' => v' = v.relocate f) (Variable.ofItem type item)
      (Variable.ofItem type (item.relocate f)) := by
  unfold Variable.ofItem Item.relocate
  cases Shape.ofExtents item.dims with
  | ok shape => exact .ok rfl
  | error cause => exact .error rfl

/-- Whether a name is taken is decided by names. -/
theorem Scope.relocate_declare {s s' : Scope} (h : s.Moved f s') (type : DataType) (item : Item) :
    Agrees (Scope.Moved f) (s.declare type item) (s'.declare type (item.relocate f)) := by
  subst h
  refine (Variable.relocate_ofItem f type item).bind fun v v' hv => ?_
  subst hv
  rw [show (item.relocate f).name = item.name from rfl, Scope.relocate_find?]
  cases s.find? item.name with
  | some earlier => exact .error rfl
  | none =>
    refine .ok ?_
    rw [Scope.Moved, Scope.relocate, Scope.relocate, List.map_append, List.map_singleton]

theorem Scope.relocate_ofDeclarations (ds : List Declaration) :
    Agrees (Scope.Moved f) (Scope.ofDeclarations ds)
      (Scope.ofDeclarations (ds.map (Declaration.relocate f))) := by
  refine Agrees.foldlM (fun d s s' hs => ?_) ds rfl
  exact Agrees.foldlM (fun i s s' hs => Scope.relocate_declare f hs d.type i) d.items hs

/-- The first values of variables have no places. -/
theorem Scope.relocate_initialise (s : Scope) :
    (s.relocate f).declared.map Variable.initialise = s.declared.map Variable.initialise := by
  rw [Scope.relocate, List.map_map]
  rfl

/-! ## Expressions -/

/-- Whether an expression is a text is told from its form. -/
theorem Expr.relocate_isText (e : Expr) : (e.relocate f).isText = e.isText := by
  cases e with
  | binary op l r loc => cases op <;> rfl
  | call function args loc => cases function <;> rfl
  | _ => rfl

theorem Expr.relocate_asText (e : Expr) (code : Python.Expr) :
    (e.relocate f).asText code = e.asText code := by
  rw [Expr.asText, Expr.relocate_isText, Expr.asText]

/-- A literal has its value at every place. -/
theorem Expr.relocate_literal? (e : Expr) : (e.relocate f).literal? = e.literal? := by
  match e with
  | .number _ _ | .text _ _ | .var _ _ _ | .binary _ _ _ _ | .call _ _ _ | .endfile _ _ => rfl
  | .neg e _ => rw [Expr.relocate, Expr.literal?, e.relocate_literal?, Expr.literal?]

theorem Expr.relocate_literalLow? (e : Expr) : (e.relocate f).literalLow? = e.literalLow? := by
  rw [Expr.literalLow?, Expr.relocate_literal?, Expr.literalLow?]

/-- And the other bound, which is written out if both parts are literals. -/
theorem Expr.relocate_literalHigh? (e length : Expr) :
    (e.relocate f).literalHigh? (length.relocate f) = e.literalHigh? length := by
  rw [Expr.literalHigh?, Expr.relocate_literalLow?, Expr.relocate_literal?, Expr.literalHigh?]

/-- The kind of an expression is told from its form and the scope. -/
theorem Expr.relocate_valueKind (scope : Scope) (e : Expr) :
    (e.relocate f).valueKind (scope.relocate f) = e.valueKind scope := by
  match e with
  | .number _ _ | .text _ _ | .endfile _ _ => rfl
  | .var name _ _ => exact Scope.relocate_kindOf f scope name
  | .neg e _ => rw [Expr.relocate, Expr.valueKind, e.relocate_valueKind scope, Expr.valueKind]
  | .binary op l r _ =>
    cases op <;> simp only [Expr.relocate, Expr.valueKind, l.relocate_valueKind scope,
      r.relocate_valueKind scope]
  | .call .substr _ _ | .call .decimal _ _ | .call .index _ _ => rfl
  | .call .mod [] _ | .call .mod [_] _ | .call .mod (_ :: _ :: _ :: _) _ => rfl
  | .call .mod [a, b] _ =>
    simp only [Expr.relocate, relocateAll, Expr.valueKind, a.relocate_valueKind scope,
      b.relocate_valueKind scope]

/-- The lower bound of a slice, if the code of its start agrees. -/
theorem Expr.relocate_lowCode {scope : Scope} {start : Expr}
    (h : Agrees (· = ·) (start.lower scope) ((start.relocate f).lower (scope.relocate f))) :
    Agrees (· = ·) (start.lowCode scope) ((start.relocate f).lowCode (scope.relocate f)) := by
  rw [Expr.lowCode, Expr.lowCode, Expr.relocate_literalLow?]
  cases start.literalLow? with
  | some n => exact .ok rfl
  | none => exact h.map _

/-- The upper bound of a slice, if the code of its length agrees. -/
theorem Expr.relocate_highCode {scope : Scope} (start : Expr) {length : Expr}
    (h : Agrees (· = ·) (length.lower scope) ((length.relocate f).lower (scope.relocate f)))
    (low : Python.Expr) :
    Agrees (· = ·) (start.highCode scope length low)
      ((start.relocate f).highCode (scope.relocate f) (length.relocate f) low) := by
  rw [Expr.highCode, Expr.highCode, Expr.relocate_literalHigh?]
  cases start.literalHigh? length with
  | some n => exact .ok rfl
  | none => exact h.map _

mutual

/-- The code of an expression is the same at other places, by induction on the expression. -/
theorem Expr.relocate_lower (scope : Scope) (e : Expr) :
    Agrees (· = ·) (e.lower scope) ((e.relocate f).lower (scope.relocate f)) := by
  match e with
  | .number _ _ | .text _ _ | .endfile _ _ => exact .ok rfl
  | .var name subscripts loc =>
    rw [Expr.relocate, Expr.lower, Expr.lower, relocateAll_eq_map, List.length_map,
      ← relocateAll_eq_map]
    exact (Scope.relocate_checkSubscripts f scope name _ _ _).bind_eq fun _ =>
      (relocate_lowerAll scope subscripts).bind_eq fun _ => .ok rfl
  | .neg e _ => exact (e.relocate_lower scope).bind_eq fun _ => .ok rfl
  | .binary op l r _ =>
    cases op with
    | concat =>
      rw [Expr.relocate, Expr.lower, Expr.lower]
      simp only [Expr.relocate_asText]
      exact (l.relocate_lower scope).bind_eq fun _ => (r.relocate_lower scope).bind_eq fun _ =>
        .ok rfl
    | _ =>
      exact (l.relocate_lower scope).bind_eq fun _ => (r.relocate_lower scope).bind_eq fun _ =>
        .ok rfl
  | .call .substr [s, start] _ =>
    rw [Expr.relocate, relocateAll, relocateAll, relocateAll, Expr.lower_substr_two,
      Expr.lower_substr_two]
    simp only [Expr.relocate_asText]
    exact (s.relocate_lower scope).bind_eq fun _ =>
      (Expr.relocate_lowCode f (start.relocate_lower scope)).bind_eq fun _ => .ok rfl
  | .call .substr (s :: start :: length :: rest) _ =>
    rw [Expr.relocate, relocateAll, relocateAll, relocateAll, Expr.lower_substr_more,
      Expr.lower_substr_more]
    simp only [Expr.relocate_asText]
    exact (s.relocate_lower scope).bind_eq fun _ =>
      (Expr.relocate_lowCode f (start.relocate_lower scope)).bind_eq fun low =>
        (Expr.relocate_highCode f start (length.relocate_lower scope) low).bind_eq fun _ => .ok rfl
  | .call .index [s, part] _ =>
    rw [Expr.relocate, relocateAll, relocateAll, relocateAll, Expr.lower, Expr.lower]
    simp only [Expr.relocate_asText]
    exact (s.relocate_lower scope).bind_eq fun _ => (part.relocate_lower scope).bind_eq fun _ =>
      .ok rfl
  | .call .decimal [e] _ => exact (e.relocate_lower scope).bind_eq fun _ => .ok rfl
  | .call .mod [l, r] _ =>
    exact (l.relocate_lower scope).bind_eq fun _ => (r.relocate_lower scope).bind_eq fun _ => .ok rfl
  -- calls with other numbers of arguments are refused wherever they stand
  | .call .substr [] _ | .call .substr [_] _ => exact .error rfl
  | .call .index [] _ | .call .index [_] _ | .call .index (_ :: _ :: _ :: _) _ => exact .error rfl
  | .call .decimal [] _ | .call .decimal (_ :: _ :: _) _ => exact .error rfl
  | .call .mod [] _ | .call .mod [_] _ | .call .mod (_ :: _ :: _ :: _) _ => exact .error rfl

theorem relocate_lowerAll (scope : Scope) (es : List Expr) :
    Agrees (· = ·) (lowerAll scope es) (lowerAll (scope.relocate f) (relocateAll f es)) := by
  match es with
  | [] => exact .ok rfl
  | e :: es =>
    exact (e.relocate_lower scope).bind_eq fun _ => (relocate_lowerAll scope es).bind_eq fun _ =>
      .ok rfl

end

theorem Reference.relocate_lower (scope : Scope) (r : Reference) :
    Agrees (· = ·) (r.lower scope) ((r.relocate f).lower (scope.relocate f)) := by
  rw [Reference.lower, Reference.lower, Reference.relocate_toExpr]
  exact r.toExpr.relocate_lower f scope

theorem Condition.relocate_lower (scope : Scope) (c : Condition) :
    Agrees (· = ·) (c.lower scope) ((c.relocate f).lower (scope.relocate f)) :=
  (c.left.relocate_lower f scope).bind_eq fun _ =>
    (c.right.relocate_lower f scope).bind_eq fun _ => .ok rfl

/-! ## Statements -/

/-- Whether an expression is put in a temporary does not depend on its place. -/
theorem Expr.relocate_hoist (scope : Scope) (role : String) (e : Expr) :
    Lowering.Agrees (e.hoist scope role) ((e.relocate f).hoist (scope.relocate f) role) := by
  rw [Expr.hoist, Expr.hoist, Expr.relocate_literal?]
  refine .lift_bind (e.relocate_lower f scope) fun code => ?_
  split
  · exact .pure _
  · exact fun _ => .ok rfl

theorem relocate_lowerStep (scope : Scope) (var limit : Python.Expr) (step : Option Expr) :
    Lowering.Agrees (lowerStep scope var limit step)
      (lowerStep (scope.relocate f) var limit (step.map (Expr.relocate f))) := by
  cases step with
  | none => exact .pure _
  | some step =>
    rw [Option.map_some, lowerStep, lowerStep, Expr.relocate_literal?]
    cases step.literal? with
    | some k => exact fun _ => .refl _
    | none => exact (step.relocate_hoist f scope "by").bind fun _ => .pure _

theorem relocate_lowerAssign (scope : Scope) (target : Reference) (value : Expr) :
    Agrees (· = ·) (lowerAssign scope target value)
      (lowerAssign (scope.relocate f) (target.relocate f) (value.relocate f)) := by
  refine (target.relocate_lower f scope).bind_eq fun t => (value.relocate_lower f scope).bind_eq
    fun v => ?_
  rw [Expr.relocate_valueKind, Scope.relocate_kindOf]
  exact .refl _

theorem relocate_lowerGet (scope : Scope) (target : Reference) :
    Agrees (· = ·) (lowerGet scope target) (lowerGet (scope.relocate f) (target.relocate f)) :=
  (target.relocate_lower f scope).bind_eq fun _ => .ok rfl

/-- Whether a branch is empty is the same for moved statements. -/
theorem relocate_elseArms (no : List Stmt) (code : List Python.Stmt) :
    elseArms (relocateBlock f no) code = elseArms no code := by
  cases no with
  | nil => rfl
  | cons s ss =>
    cases s with
    | ifElse c yes no loc =>
      cases ss with
      | nil =>
        -- the chain goes on where the code is one branch
        cases code with
        | nil => rfl
        | cons c cs => cases c <;> cases cs <;> rfl
      | cons _ _ => rfl
    | _ => rfl

mutual

/-- The code of a statement, by induction along statements, blocks and branches together. -/
theorem Stmt.relocate_lower (scope : Scope) (s : Stmt) :
    Lowering.Agrees (s.lower scope) ((s.relocate f).lower (scope.relocate f)) := by
  match s with
  | .assign target value _ =>
    exact .lift_bind (relocate_lowerAssign f scope target value) fun _ => .pure _
  | .ifElse c yes no _ =>
    rw [Stmt.relocate, Stmt.lower, Stmt.lower]
    simp only [relocate_elseArms]
    exact .lift_bind (c.relocate_lower f scope) fun _ => (relocate_lowerBlock scope yes).bind fun _ =>
      (relocate_lowerBlock scope no).bind fun _ => .pure _
  | .doWhile c body _ =>
    exact .lift_bind (c.relocate_lower f scope) fun _ =>
      (relocate_lowerBlock scope body).bind fun _ => .pure _
  | .doLoop var start limit step body _ =>
    -- the parts of a loop are made in the order of the source, with one count through all
    exact .lift_bind (var.relocate_lower f scope) fun v =>
      .lift_bind (start.relocate_lower f scope) fun _ => (limit.relocate_hoist f scope "to").bind
        fun l => (relocate_lowerStep f scope v l.2 step).bind fun _ =>
          (relocate_lowerBlock scope body).bind fun _ => .pure _
  | .select subject branches _ =>
    exact .lift_bind (subject.relocate_lower f scope) fun s =>
      (branches.relocate_lower scope s).bind fun _ => .pure _
  | .put items _ => exact .lift_bind (relocate_lowerAll f scope items) fun _ => .pure _
  | .get targets _ => exact .lift (Agrees.mapM (relocate_lowerGet f scope) targets)
  | .openFile _ _ _ | .closeFile _ _ => exact .pure _
  | .read _ target _ => exact .lift_bind (target.relocate_lower f scope) fun _ => .pure _
  | .write _ source _ => exact .lift_bind (source.relocate_lower f scope) fun _ => .pure _
  | .query _ target _ => exact .lift_bind (target.relocate_lower f scope) fun _ => .pure _

theorem relocate_lowerBlock (scope : Scope) (ss : List Stmt) :
    Lowering.Agrees (lowerBlock scope ss) (lowerBlock (scope.relocate f) (relocateBlock f ss)) := by
  match ss with
  | [] => exact .pure _
  | s :: ss =>
    exact (s.relocate_lower scope).bind fun _ => (relocate_lowerBlock scope ss).bind fun _ => .pure _

/-- The code of the branches of a selection. -/
theorem Branches.relocate_lower (scope : Scope) (subject : Python.Expr) (b : Branches) :
    Lowering.Agrees (b.lower scope subject)
      ((b.relocate f).lower (scope.relocate f) subject) := by
  match b with
  | .done => exact .pure _
  | .other body => exact (relocate_lowerBlock scope body).bind fun _ => .pure _
  | .when values body _ rest =>
    exact .lift_bind (relocate_lowerAll f scope values) fun _ =>
      (relocate_lowerBlock scope body).bind fun _ =>
        (rest.relocate_lower scope subject).bind fun _ => .pure _

end

/-! ## Support code -/

/-- The helpers for a conversion are told from the form of what is converted. -/
theorem Expr.relocate_conversionHelpers (e : Expr) :
    (e.relocate f).conversionHelpers = e.conversionHelpers := by
  rw [Expr.conversionHelpers, Expr.relocate_isText, Expr.conversionHelpers]

mutual

theorem Expr.relocate_helpers (e : Expr) : (e.relocate f).helpers = e.helpers := by
  match e with
  | .number _ _ | .text _ _ | .endfile _ _ => rfl
  | .var _ subscripts _ => exact relocate_helpersOfAll subscripts
  | .neg e _ => exact e.relocate_helpers
  | .binary op l r _ =>
    cases op <;> simp only [Expr.relocate, Expr.helpers, l.relocate_helpers, r.relocate_helpers,
      Expr.relocate_conversionHelpers]
  | .call .substr [] _ | .call .index [] _ => rfl
  | .call .substr [e] _ | .call .index [e] _ =>
    simp only [Expr.relocate, relocateAll, Expr.helpers, helpersOfAll, e.relocate_helpers]
  | .call .substr [s, start] _ =>
    simp only [Expr.relocate, relocateAll, Expr.helpers, s.relocate_helpers,
      start.relocate_helpers, Expr.relocate_conversionHelpers]
  | .call .substr (s :: start :: length :: _) _ =>
    simp only [Expr.relocate, relocateAll, Expr.helpers, s.relocate_helpers,
      start.relocate_helpers, length.relocate_helpers, Expr.relocate_conversionHelpers]
  | .call .index [s, part] _ =>
    simp only [Expr.relocate, relocateAll, Expr.helpers, s.relocate_helpers, part.relocate_helpers,
      Expr.relocate_conversionHelpers]
  | .call .index (e :: e' :: e'' :: es) _ => exact relocate_helpersOfAll (e :: e' :: e'' :: es)
  | .call .decimal args _ => exact relocate_helpersOfAll args
  | .call .mod args _ => exact relocate_helpersOfAll args

theorem relocate_helpersOfAll (es : List Expr) :
    helpersOfAll (relocateAll f es) = helpersOfAll es := by
  match es with
  | [] => rfl
  | e :: es => rw [relocateAll, helpersOfAll, helpersOfAll, e.relocate_helpers, relocate_helpersOfAll es]

end

theorem Reference.relocate_helpers (r : Reference) : (r.relocate f).helpers = r.helpers :=
  relocate_helpersOfAll f r.subscripts

theorem Condition.relocate_helpers (c : Condition) : (c.relocate f).helpers = c.helpers := by
  rw [Condition.helpers, Condition.relocate, Expr.relocate_helpers, Expr.relocate_helpers]
  rfl

mutual

/-- The helpers that a statement needs have no places either. -/
theorem Stmt.relocate_helpers (s : Stmt) : (s.relocate f).helpers = s.helpers := by
  match s with
  | .assign target value _ =>
    simp only [Stmt.relocate, Stmt.helpers, Reference.relocate_helpers, Expr.relocate_helpers]
  | .ifElse c yes no _ =>
    simp only [Stmt.relocate, Stmt.helpers, Condition.relocate_helpers,
      relocate_blockHelpers yes, relocate_blockHelpers no]
  | .doWhile c body _ =>
    simp only [Stmt.relocate, Stmt.helpers, Condition.relocate_helpers, relocate_blockHelpers body]
  | .doLoop var start limit step body _ =>
    cases step <;> simp only [Stmt.relocate, Stmt.helpers, Reference.relocate_helpers,
      Expr.relocate_helpers, relocate_blockHelpers body, Option.map_none, Option.map_some]
  | .select subject branches _ =>
    simp only [Stmt.relocate, Stmt.helpers, Expr.relocate_helpers, branches.relocate_helpers]
  | .put items _ => exact relocate_helpersOfAll f items
  | .get targets _ =>
    simp only [Stmt.relocate, Stmt.helpers, List.foldr_map, Reference.relocate_helpers]
  | .openFile _ _ _ | .closeFile _ _ => rfl
  | .read _ target _ | .write _ source _ | .query _ target _ =>
    simp only [Stmt.relocate, Stmt.helpers, Reference.relocate_helpers]

theorem relocate_blockHelpers (ss : List Stmt) :
    blockHelpers (relocateBlock f ss) = blockHelpers ss := by
  match ss with
  | [] => rfl
  | s :: ss =>
    rw [relocateBlock, blockHelpers, blockHelpers, s.relocate_helpers, relocate_blockHelpers ss]

theorem Branches.relocate_helpers (b : Branches) : (b.relocate f).helpers = b.helpers := by
  match b with
  | .done => rfl
  | .other body => exact relocate_blockHelpers body
  | .when values body _ rest =>
    rw [Branches.relocate, Branches.helpers, Branches.helpers, relocate_helpersOfAll,
      relocate_blockHelpers body, rest.relocate_helpers]

end

/-! ## Programs -/

/-- A program with other places has the same procedure or is refused at the same stage. -/
theorem Program.relocate_lower (p : Program) :
    Agrees (· = ·) p.lower (p.relocate f).lower := by
  refine (Scope.relocate_ofDeclarations f p.declarations).bind fun scope scope' hscope => ?_
  rw [hscope, Scope.relocate_initialise]
  exact (relocate_lowerBlock f scope p.statements 0).bind_eq fun _ => .ok rfl

theorem Program.relocate_generate (config : Config) (p : Program) :
    Agrees (· = ·) (p.generate config) ((p.relocate f).generate config) := by
  rw [Program.generate, Program.generate, Program.helpers, Program.helpers]
  rw [show (p.relocate f).statements = relocateBlock f p.statements from rfl,
    relocate_blockHelpers f p.statements]
  exact (p.relocate_lower f).bind_eq fun _ => .ok rfl

end Plic
