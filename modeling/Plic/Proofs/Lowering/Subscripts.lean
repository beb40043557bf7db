import Plic.Proofs.Lowering.Quoting

/-!
# Subscripts are checked from left to right

A reference is checked when code for it is made, so the check is complete only
if code is made for every reference, also where a literal is folded away, and it
reports the leftmost mismatch only if the code is made in the order of the
source. Both are said at once by `Checks`: the work goes through if all listed
references match, and otherwise is refused at the first that does not. The list
for a sequence is the list of its parts, one behind the other, so each form of
an expression or a statement has to make its code in the order of its list.

Main results:

* `Expr.checks_lower`, `Stmt.checks_lower` — the code for well-formed trees
  checks their references in the order of the source.
* `Scope.rank_of_ofDeclarations` — a name has as many subscripts as extents were
  declared for it, and none if it was not declared.
* `generate_checks_subscripts` — code is made for a program exactly if all its
  references match; otherwise the one with the smallest place is reported.
-/

namespace Plic

variable {α β : Type} {scope : Scope}

/-! ## Work that checks references -/

/-- The reference has as many subscripts as its name asks for. -/
def Scope.Matches (scope : Scope) (r : Reference) : Prop :=
  r.subscripts.length = scope.rank r.name

/-- The work goes through if all references match, and is refused at the first that does not. -/
inductive Checks (scope : Scope) (rs : List Reference) : Except Fault α → Prop where
  | ok {a : α} : (∀ r ∈ rs, scope.Matches r) → Checks scope rs (.ok a)
  | error {before behind : List Reference} {r : Reference} {f : Fault} :
      rs = before ++ r :: behind → (∀ x ∈ before, scope.Matches x) → ¬scope.Matches r →
      f.kind = .subscript → f.loc = r.loc → Checks scope rs (.error f)

namespace Checks

variable {rs ss : List Reference}

theorem pure (a : α) : Checks scope [] (pure a) := .ok (by simp)

/-- A refusal at a reference that does not match. -/
theorem refuse {r : Reference} {f : Fault} (hr : ¬scope.Matches r) (hkind : f.kind = .subscript)
    (hloc : f.loc = r.loc) : Checks scope [r] (.error f : Except Fault α) :=
  .error (List.nil_append _).symm (by simp) hr hkind hloc

variable {x : Except Fault α}

/-- A sequence checks the references of its parts one after the other. If the first part is refused,
the second is not run, so the first mismatch is reported. -/
theorem bind {f : α → Except Fault β} (h : Checks scope rs x)
    (hf : ∀ a, Checks scope ss (f a)) : Checks scope (rs ++ ss) (x >>= f) := by
  cases h with
  | @ok a hrs =>
    show Checks scope (rs ++ ss) (f a)
    have hnext := hf a
    generalize f a = y at hnext ⊢
    cases hnext with
    | ok hss =>
      refine .ok ?_
      rw [List.forall_mem_append]
      exact ⟨hrs, hss⟩
    | error hsplit hbefore hr hkind hloc =>
      refine .error (by rw [hsplit, ← List.append_assoc]) ?_ hr hkind hloc
      rw [List.forall_mem_append]
      exact ⟨hrs, hbefore⟩
  -- nothing behind the fault is looked at
  | error hsplit hbefore hr hkind hloc =>
    exact .error (by rw [hsplit, List.append_assoc]; rfl) hbefore hr hkind hloc

/-- Work behind which nothing is checked. -/
theorem bind_ok {f : α → Except Fault β} (h : Checks scope rs x)
    (hf : ∀ a, ∃ b, f a = .ok b) : Checks scope rs (x >>= f) := by
  have hnothing : ∀ a, Checks scope [] (f a) := by
    intro a
    obtain ⟨b, hb⟩ := hf a
    rw [hb]
    exact .pure b
  simpa using h.bind hnothing

/-- What is made of the result checks nothing. -/
theorem map (h : Checks scope rs x) (f : α → β) :
    Checks scope rs (x >>= fun a => Pure.pure (f a)) :=
  h.bind_ok fun a => ⟨f a, rfl⟩

/-- The list may be written in another way. -/
theorem of_eq (h : Checks scope rs x) (heq : ss = rs) : Checks scope ss x :=
  heq ▸ h

end Checks

/-- Work that counts temporaries checks the references from every count on. -/
def Lowering.Checks (scope : Scope) (rs : List Reference) (x : Lowering α) : Prop :=
  ∀ n, Plic.Checks scope rs (x n)

namespace Lowering.Checks

variable {rs ss : List Reference}

theorem pure (a : α) : Lowering.Checks scope [] (pure a) := fun n => .pure (a, n)

theorem bind {x : Lowering α} {f : α → Lowering β} (h : Lowering.Checks scope rs x)
    (hf : ∀ a, Lowering.Checks scope ss (f a)) : Lowering.Checks scope (rs ++ ss) (x >>= f) :=
  fun n => (h n).bind fun p => hf p.1 p.2

/-- What cannot be refused checks nothing. -/
theorem bind_ok {x : Lowering α} {f : α → Lowering β} (h : Lowering.Checks scope rs x)
    (hf : ∀ a n, ∃ b, f a n = .ok b) : Lowering.Checks scope rs (x >>= f) :=
  fun n => (h n).bind_ok fun p => hf p.1 p.2

theorem map {x : Lowering α} (h : Lowering.Checks scope rs x) (f : α → β) :
    Lowering.Checks scope rs (x >>= fun a => Pure.pure (f a)) :=
  h.bind_ok fun a n => ⟨(f a, n), rfl⟩

/-- Work without temporaries checks the same. -/
theorem lift {x : Except Fault α} (h : Plic.Checks scope rs x) :
    Lowering.Checks scope rs (liftM x) :=
  fun n => h.map fun a => (a, n)

theorem of_eq {x : Lowering α} (h : Lowering.Checks scope rs x) (heq : ss = rs) :
    Lowering.Checks scope ss x := heq ▸ h

end Lowering.Checks

/-! ## Expressions -/

/-- The check itself: the number of subscripts against the number of extents. -/
theorem Scope.checks_checkSubscripts (r : Reference) :
    Checks scope [r] (scope.checkSubscripts r.name r.subscripts.length r.loc) := by
  unfold Scope.checkSubscripts
  by_cases hrank : scope.rank r.name = r.subscripts.length
  · rw [if_pos hrank]
    exact .ok (by simp [Scope.Matches, hrank])
  · have hr : ¬scope.Matches r := fun h => hrank h.symm
    rw [if_neg hrank]
    -- the three faults differ in their cause only
    cases hfind : scope.find? r.name with
    | none => exact .refuse hr rfl rfl
    | some v =>
      by_cases hzero : v.shape.rank = 0
      · simp only [hzero, if_true]
        exact .refuse hr rfl rfl
      · simp only [hzero, if_false]
        exact .refuse hr rfl rfl

/-- The references of a call are those of its arguments. -/
theorem Expr.references_call (function : Builtin) (args : List Expr) (loc : Location) :
    (Expr.call function args loc).references = referencesOfAll args := rfl

/-- A literal has no references, so it may be folded away. -/
theorem Expr.references_of_literal? {e : Expr} {n : Int} (h : e.literal? = some n) :
    e.references = [] := by
  induction e using Expr.literal?.induct generalizing n with
  | case1 k loc => rfl
  | case2 e loc ih =>
    rw [Expr.literal?] at h
    obtain ⟨k, hk, -⟩ := Option.bind_eq_some_iff.mp h
    exact ih hk
  | case3 e hnumber hneg =>
    rw [Expr.literal?] at h
    · exact absurd h (by simp)
    · exact hnumber
    · exact hneg

/-- The lower bound is checked also where a literal is folded away. -/
theorem Expr.checks_lowCode {start : Expr}
    (h : Checks scope start.references (start.lower scope)) :
    Checks scope start.references (start.lowCode scope) := by
  unfold Expr.lowCode
  cases hlow : start.literalLow? with
  | some n =>
    obtain ⟨k, hk, -⟩ := Option.bind_eq_some_iff.mp hlow
    rw [Expr.references_of_literal? hk]
    exact .pure _
  | none => exact h.map _

theorem Expr.checks_highCode (start : Expr) {length : Expr} (low : Python.Expr)
    (h : Checks scope length.references (length.lower scope)) :
    Checks scope length.references (start.highCode scope length low) := by
  unfold Expr.highCode
  cases hhigh : start.literalHigh? length with
  | some n =>
    obtain ⟨_, -, hhigh⟩ := Option.bind_eq_some_iff.mp hhigh
    obtain ⟨k, hk, -⟩ := Option.bind_eq_some_iff.mp hhigh
    rw [Expr.references_of_literal? hk]
    exact .pure _
  | none => exact h.map _

mutual

/-- The code for an expression checks its references from left to right. -/
theorem Expr.checks_lower (e : Expr) (h : e.Formed) :
    Checks scope e.references (e.lower scope) := by
  match e, h with
  | .number _ _, _ | .text _ _, _ | .endfile _ _, _ => exact .pure _
  | .var name subscripts loc, .var _ hsubscripts =>
    have hcheck : Checks scope [_] _ := Scope.checks_checkSubscripts ⟨name, subscripts, loc⟩
    exact hcheck.bind fun _ => (checks_lowerAll subscripts hsubscripts).map _
  | .neg e _, .neg he => exact (e.checks_lower he).map _
  | .binary .concat l r _, .binary hl hr =>
    rw [Expr.references_binary]
    exact (l.checks_lower hl).bind fun _ => (r.checks_lower hr).map _
  | .binary .add l r _, .binary hl hr | .binary .sub l r _, .binary hl hr
  | .binary .mul l r _, .binary hl hr | .binary .div l r _, .binary hl hr =>
    rw [Expr.references_binary]
    exact (l.checks_lower hl).bind fun _ => (r.checks_lower hr).map _
  | .call .substr [s, start] _, .call _ hargs =>
    have hs := s.checks_lower (hargs s (by simp))
    have hstart := start.checks_lower (hargs start (by simp))
    rw [Expr.lower_substr_two]
    refine .of_eq (hs.bind fun _ => (Expr.checks_lowCode hstart).map _) ?_
    simp [Expr.references_call]
  | .call .substr [s, start, length] _, .call _ hargs =>
    have hs := s.checks_lower (hargs s (by simp))
    have hstart := start.checks_lower (hargs start (by simp))
    have hlength := length.checks_lower (hargs length (by simp))
    rw [Expr.lower_substr_more]
    refine .of_eq (hs.bind fun _ => (Expr.checks_lowCode hstart).bind fun low =>
      (Expr.checks_highCode start low hlength).map _) ?_
    simp [Expr.references_call]
  | .call .index [s, part] _, .call _ hargs =>
    have hs := s.checks_lower (hargs s (by simp))
    have hpart := part.checks_lower (hargs part (by simp))
    refine .of_eq (hs.bind fun _ => hpart.map _) ?_
    simp [Expr.references_call]
  | .call .decimal [e] _, .call _ hargs =>
    refine .of_eq ((e.checks_lower (hargs e (by simp))).map _) ?_
    simp [Expr.references_call]
  | .call .mod [l, r] _, .call _ hargs =>
    have hl := l.checks_lower (hargs l (by simp))
    have hr := r.checks_lower (hargs r (by simp))
    refine .of_eq (hl.bind fun _ => hr.map _) ?_
    simp [Expr.references_call]
  -- no other number of arguments is taken
  | .call .substr (_ :: _ :: _ :: _ :: _) _, .call htakes _ => nomatch htakes
  | .call .substr [] _, .call htakes _ => nomatch htakes
  | .call .substr [_] _, .call htakes _ => nomatch htakes
  | .call .index [] _, .call htakes _ => nomatch htakes
  | .call .index [_] _, .call htakes _ => nomatch htakes
  | .call .index (_ :: _ :: _ :: _) _, .call htakes _ => nomatch htakes
  | .call .decimal [] _, .call htakes _ => nomatch htakes
  | .call .decimal (_ :: _ :: _) _, .call htakes _ => nomatch htakes
  | .call .mod [] _, .call htakes _ => nomatch htakes
  | .call .mod [_] _, .call htakes _ => nomatch htakes
  | .call .mod (_ :: _ :: _ :: _) _, .call htakes _ => nomatch htakes

/-- The expressions of a list are checked in order. -/
theorem checks_lowerAll (es : List Expr) (h : ∀ e ∈ es, e.Formed) :
    Checks scope (referencesOfAll es) (lowerAll scope es) := by
  match es with
  | [] => exact .pure _
  | e :: es =>
    rw [List.forall_mem_cons] at h
    rw [referencesOfAll_cons]
    exact (e.checks_lower h.1).bind fun _ => (checks_lowerAll es h.2).map _

end

/-- A reference is checked before its subscripts. -/
theorem Reference.checks_lower (r : Reference) (h : r.Formed) :
    Checks scope r.toExpr.references (r.lower scope) :=
  r.toExpr.checks_lower h

/-- The left operand of a condition is checked before the right one. -/
theorem Condition.checks_lower (c : Condition) (h : c.Formed) :
    Checks scope (referencesOfAll [c.left, c.right]) (c.lower scope) := by
  refine .of_eq ((c.left.checks_lower h.left).bind fun _ => (c.right.checks_lower h.right).map _) ?_
  simp

/-! ## Statements -/

/-- The target of an assignment is checked before its value. -/
theorem checks_lowerAssign (target : Reference) (value : Expr) (ht : target.Formed)
    (hv : value.Formed) :
    Checks scope (referencesOfAll [target.toExpr, value]) (lowerAssign scope target value) := by
  refine .of_eq ((target.checks_lower ht).bind fun t =>
    (value.checks_lower hv).bind_ok fun v => ?_) ?_
  · split
    · exact ⟨_, rfl⟩
    · exact ⟨_, rfl⟩
  · simp

/-- The targets of `GET` are checked in order. -/
theorem checks_mapM_lowerGet (targets : List Reference) (h : ∀ r ∈ targets, r.Formed) :
    Checks scope (referencesOfAll (targets.map Reference.toExpr))
      (targets.mapM (lowerGet scope)) := by
  induction targets with
  | nil => exact .pure _
  | cons r rs ih =>
    rw [List.forall_mem_cons] at h
    rw [List.mapM_cons, List.map_cons, referencesOfAll_cons]
    exact ((r.checks_lower h.1).map _).bind fun _ => (ih h.2).map _

/-- An expression is checked also where it is put in a temporary. -/
theorem Expr.checks_hoist (role : String) (e : Expr) (h : e.Formed) :
    Lowering.Checks scope e.references (e.hoist scope role) := by
  refine (Lowering.Checks.lift (e.checks_lower h)).bind_ok fun code n => ?_
  -- a new temporary refers to nothing
  split
  · exact ⟨_, rfl⟩
  · exact ⟨_, rfl⟩

/-- The step of a loop is checked in each of its forms. -/
theorem checks_lowerStep (v limit : Python.Expr) (step : Option Expr) (h : ∀ e ∈ step, e.Formed) :
    Lowering.Checks scope (referencesOfAll step.toList) (lowerStep scope v limit step) := by
  cases step with
  | none => exact .pure _
  | some e =>
    rw [lowerStep, Option.toList_some, referencesOfAll_cons, referencesOfAll_nil, List.append_nil]
    cases hliteral : e.literal? with
    | some k =>
      -- a literal has no references, so nothing is left to be checked
      rw [Expr.references_of_literal? hliteral]
      simp only
      split
      · exact .pure _
      · exact .pure _
    | none => exact (e.checks_hoist "by" (h e rfl)).map _

/-- The parts of a well-formed selection are well formed. -/
theorem Stmt.Formed.of_select {subject : Expr} {branches : Branches} {loc : Location}
    (h : (Stmt.select subject branches loc).Formed) : subject.Formed ∧ branches.Formed := by
  cases h with
  | select hs hbranches => exact ⟨hs, hbranches⟩

mutual

/-- The code for a statement checks its references in the order of the source. -/
theorem Stmt.checks_lower (s : Stmt) (h : s.Formed) :
    Lowering.Checks scope s.references (s.lower scope) := by
  match s, h with
  | .assign target value _, .assign ht hv =>
    exact (Lowering.Checks.lift (checks_lowerAssign target value ht hv)).map _
  | .ifElse c yes no _, .ifElse hc hyes hno =>
    exact (Lowering.Checks.lift (c.checks_lower hc)).bind fun _ =>
      (checks_lowerBlock yes hyes).bind fun _ => (checks_lowerBlock no hno).map _
  | .doWhile c body _, .doWhile hc hbody =>
    exact (Lowering.Checks.lift (c.checks_lower hc)).bind fun _ =>
      (checks_lowerBlock body hbody).map _
  | .doLoop var start limit step body _, .doLoop hv hs hl hk hbody =>
    -- the order of the work is the order of the head: variable, start, limit, step
    refine .of_eq ((Lowering.Checks.lift (var.checks_lower hv)).bind fun v =>
      (Lowering.Checks.lift (start.checks_lower hs)).bind fun _ =>
        (limit.checks_hoist "to" hl).bind fun l => (checks_lowerStep v l.2 step hk).bind fun _ =>
          (checks_lowerBlock body hbody).map _) ?_
    simp [Stmt.references]
  | .select subject branches _, h =>
    exact (Lowering.Checks.lift (subject.checks_lower h.of_select.1)).bind fun s =>
      (branches.checks_lower s h.of_select.2).map _
  | .put items _, .put hitems => exact (Lowering.Checks.lift (checks_lowerAll items hitems)).map _
  | .get targets _, .get _ htargets => exact .lift (checks_mapM_lowerGet targets htargets)
  | .openFile _ _ _, _ => exact .pure _
  | .closeFile _ _, _ => exact .pure _
  | .read _ target _, .read _ ht =>
    refine .of_eq ((Lowering.Checks.lift (target.checks_lower ht)).map _) ?_
    simp [Stmt.references, Stmt.roots]
  | .write _ source _, .write _ hs =>
    refine .of_eq ((Lowering.Checks.lift (source.checks_lower hs)).map _) ?_
    simp [Stmt.references, Stmt.roots]
  | .query _ target _, .query _ ht =>
    refine .of_eq ((Lowering.Checks.lift (target.checks_lower ht)).map _) ?_
    simp [Stmt.references, Stmt.roots]

/-- The statements of a block are checked in order. -/
theorem checks_lowerBlock (ss : List Stmt) (h : ∀ s ∈ ss, s.Formed) :
    Lowering.Checks scope (blockReferences ss) (lowerBlock scope ss) := by
  match ss with
  | [] => exact .pure _
  | s :: ss =>
    rw [List.forall_mem_cons] at h
    exact (s.checks_lower h.1).bind fun _ => (checks_lowerBlock ss h.2).map _

/-- The values of a branch are checked before its body, and this before the next branch. -/
theorem Branches.checks_lower (b : Branches) (subject : Python.Expr) (h : b.Formed) :
    Lowering.Checks scope b.references (b.lower scope subject) := by
  match b, h with
  | .done, _ => exact .pure _
  | .other body, .other hbody => exact (checks_lowerBlock body hbody).map _
  | .when values body _ rest, .when _ hvalues hbody hrest =>
    exact (Lowering.Checks.lift (checks_lowerAll values hvalues)).bind fun _ =>
      (checks_lowerBlock body hbody).bind fun _ => (rest.checks_lower subject hrest).map _

end

/-! ## Declarations -/

/-- The number of extents declared for a name; none for a name that is not declared. -/
def declaredRank (items : List Item) (name : String) : Nat :=
  match items.find? fun i => i.name = name with
  | some item => item.dims.length
  | none => 0

/-- The number of extents that a program declares for a name. -/
def Program.rankOf (p : Program) (name : String) : Nat :=
  declaredRank (p.declarations.flatMap Declaration.items) name

/-- The variables are those of the items, in their order. -/
def Scope.Lists (s : Scope) (items : List Item) : Prop :=
  List.Forall₂ (fun v i => v.name = i.name ∧ v.shape.rank = i.dims.length) s.declared items

/-- The rank of a name is the one of its declared item. -/
theorem Scope.Lists.rank_eq {s : Scope} {items : List Item} (h : s.Lists items) (name : String) :
    s.rank name = declaredRank items name := by
  obtain ⟨vs⟩ := s
  unfold Scope.rank Scope.find? declaredRank
  unfold Scope.Lists at h
  simp only at h ⊢
  induction h with
  | nil => rfl
  | @cons v i vs is hvi _ ih =>
    rw [List.find?_cons, List.find?_cons, hvi.1]
    -- the first that has the name decides, on both sides
    by_cases hname : i.name = name
    · simp [hname, hvi.2]
    · simpa [hname] using ih

/-- A name asks for as many subscripts as extents were declared for it. -/
theorem Scope.rank_of_ofDeclarations {p : Program}
    (h : Scope.ofDeclarations p.declarations = .ok scope) (name : String) :
    scope.rank name = p.rankOf name := by
  have hlists : scope.Lists (p.declarations.flatMap Declaration.items) := by
    rw [← map_snd_declaredItems, Scope.Lists, List.forall₂_map_right_iff]
    exact (Scope.records_ofDeclarations h).1.imp fun v p hv => ⟨hv.name, hv.rank_eq⟩
  exact hlists.rank_eq name

/-! ## Programs -/

/-- The generation of a module checks the references of the program in order and nothing else. -/
theorem Program.Formed.checks_generate {p : Program} (h : p.Formed)
    (hscope : Scope.ofDeclarations p.declarations = .ok scope) (config : Config) :
    Checks scope p.references (p.generate config) := by
  have hbody : Checks scope p.references _ := checks_lowerBlock p.statements h.statements 0
  rw [Program.generate, Program.lower, hscope]
  exact (hbody.map _).map _

/-- **Subscript checking is complete and reports the leftmost error.** Code is generated for a
program whose declarations are accepted exactly if every reference in it, wherever it stands, has as
many subscripts as extents were declared for its name. Otherwise the program is refused for a
subscript, at the one with the smallest place among the references that do not. -/
theorem generate_checks_subscripts {source : String} {r : Reader} (hr : Reader.Reached source r)
    {p : Program} (hp : r.program.1 = .ok p)
    (hscope : Scope.ofDeclarations p.declarations = .ok scope) (config : Config) :
    ((∃ text, p.generate config = .ok text) ↔
      ∀ x : Reference, x.toExpr ∈ p.parts → x.subscripts.length = p.rankOf x.name) ∧
    ∀ f, p.generate config = .error f → f.kind = .subscript ∧
      ∃ x : Reference, x.toExpr ∈ p.parts ∧ x.subscripts.length ≠ p.rankOf x.name ∧
        f.loc = x.loc ∧
        ∀ y : Reference, y.toExpr ∈ p.parts → y.subscripts.length ≠ p.rankOf y.name →
          y = x ∨ x.loc.Before y.loc := by
  have hmatches : ∀ x, scope.Matches x ↔ x.subscripts.length = p.rankOf x.name := by
    intro x
    rw [Scope.Matches, Scope.rank_of_ofDeclarations hscope]
  have hplaces := hr.pairwise_references hp
  have hchecks := (hr.program_formed hp).checks_generate hscope config
  simp only [← Program.mem_references, ← hmatches, ne_eq]
  generalize p.generate config = text at hchecks ⊢
  cases hchecks with
  | @ok code hall =>
    refine ⟨⟨fun _ => hall, fun _ => ⟨code, rfl⟩⟩, ?_⟩
    intro f hf
    cases hf
  | @error before behind x f hsplit hbefore hx hkind hloc =>
    rw [hsplit] at hplaces ⊢
    have hmem : x ∈ before ++ x :: behind := by simp
    refine ⟨⟨fun ⟨_, htext⟩ => (by cases htext), fun hall => absurd (hall x hmem) hx⟩, ?_⟩
    intro f' hf'
    injection hf' with hf'
    subst hf'
    refine ⟨hkind, x, hmem, hx, hloc, ?_⟩
    intro y hy hmismatch
    -- in front of the first mismatch there is none, and behind it the places are larger
    rcases List.mem_append.mp hy with hy | hy
    · exact absurd (hbefore y hy) hmismatch
    · rcases List.mem_cons.mp hy with rfl | hy
      · exact .inl rfl
      · have hbehind := (List.pairwise_append.mp hplaces).2.1
        exact .inr ((List.pairwise_cons.mp hbehind).1 y hy)

/-- Of three mismatches, one of them in a subscript and one with a name that is not declared, the
first is reported. -/
theorem generate_checks_subscripts_nested :
    ∃ source p scope f,
      source = "p: proc options(main); dcl (a(3), b(2, 2)) fixed bin; " ++
        "if a(b(1)) = y(2) then put skip; else put list(a); end p;" ∧
      (Reader.ofSource source).program.1 = .ok p ∧
      Scope.ofDeclarations p.declarations = .ok scope ∧ p.generate {} = .error f ∧
      f.loc = ⟨1, 60⟩ ∧ f.kind = .subscript ∧
      ∃ x : Reference, x.toExpr ∈ p.parts ∧ x.subscripts.length ≠ p.rankOf x.name ∧
        f.loc = x.loc ∧
        ∀ y : Reference, y.toExpr ∈ p.parts → y.subscripts.length ≠ p.rankOf y.name →
          y = x ∨ x.loc.Before y.loc := by
  -- `b(1)`, `y(2)` and the last `a` are wrong; the first stands inside of a reference that is right
  have hrun : (match (Reader.ofSource ("p: proc options(main); dcl (a(3), b(2, 2)) fixed bin; " ++
      "if a(b(1)) = y(2) then put skip; else put list(a); end p;")).program.1 with
      | .error _ => false
      | .ok p => (Scope.ofDeclarations p.declarations).isOk && match p.generate {} with
        | .error f => decide (f.loc = ⟨1, 60⟩)
        | .ok _ => false) = true := by
    decide +kernel
  cases hp : (Reader.ofSource ("p: proc options(main); dcl (a(3), b(2, 2)) fixed bin; " ++
      "if a(b(1)) = y(2) then put skip; else put list(a); end p;")).program.1 with
  | error f =>
    rw [hp] at hrun
    cases hrun
  | ok p =>
    rw [hp] at hrun
    obtain ⟨hok, hfault⟩ := Bool.and_eq_true_iff.mp hrun
    obtain ⟨scope, hscope⟩ := exists_of_isOk hok
    cases hf : p.generate {} with
    | ok text =>
      rw [hf] at hfault
      cases hfault
    | error f =>
      rw [hf] at hfault
      obtain ⟨hkind, hfirst⟩ := (generate_checks_subscripts .start hp hscope {}).2 f hf
      exact ⟨_, p, scope, f, rfl, hp, hscope, hf, of_decide_eq_true hfault, hkind, hfirst⟩

end Plic
