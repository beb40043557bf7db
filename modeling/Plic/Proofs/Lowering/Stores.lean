import Plic.Proofs.Grammar.Parts
import Plic.Proofs.Lowering.Rules

/-!
# What is stored, and how it is written

A value of the source gets into a variable in two ways: an assignment stores it,
or a `DO` starts with it. For each such store there is one line in the code, and
these lines stand in the order of the source. An assignment of a value that may
be a fraction to an integer variable is written with the value cut. The start of
a `DO` is always written as it is.

Main result: `StoresAmong.exists_lines`, for the code of any statements by
`HasCodes.storesAmong`.
-/

namespace Plic

variable {scope : Scope} {n m : Nat}

/-! ## Lines of assignments -/

namespace Python

mutual

/-- The assignments of a statement, those in its bodies included, as targets and values. -/
def Stmt.assignments : Stmt → List (Expr × Expr)
  | .assign t v => [(t, v)]
  | .update _ _ _ => []
  | .run _ => []
  | .branch arms => arms.assignments
  | .loop _ body => blockAssignments body

/-- The assignments of statements in a row. -/
def blockAssignments : List Stmt → List (Expr × Expr)
  | [] => []
  | s :: ss => s.assignments ++ blockAssignments ss

/-- The assignments of a chain of branches. -/
def Arms.assignments : Arms → List (Expr × Expr)
  | .done => []
  | .otherwise body => blockAssignments body
  | .arm _ body rest => blockAssignments body ++ rest.assignments

end

/-- Blocks that are put together have their assignments one after the other. -/
theorem blockAssignments_append (ss ts : List Stmt) :
    blockAssignments (ss ++ ts) = blockAssignments ss ++ blockAssignments ts := by
  induction ss with
  | nil => rfl
  | cons s ss ih => rw [List.cons_append, blockAssignments, blockAssignments, ih, List.append_assoc]

/-- The line of an assignment. -/
def assignmentText (a : Expr × Expr) : String := a.1.render ++ " = " ++ a.2.render

/-- The texts of the lines, without how deep they are. -/
def Outline.texts (o : Outline) : List String := o.lines.map Line.text

@[simp] theorem Outline.texts_append (o p : Outline) : (o.append p).texts = o.texts ++ p.texts :=
  List.map_append

/-- What a body has lines for, it has lines for below a header. -/
theorem Outline.sublist_nest {texts : List String} {body : Outline} (h : texts.Sublist body.texts)
    (header : String) : texts.Sublist (Outline.empty.nest header body).texts := by
  have hblock : body.texts.Sublist ((Outline.block body).map Line.text) := by
    unfold Outline.block Outline.texts
    split
    next hempty => simp [hempty]
    next => simp [Function.comp_def, Line.deeper]
  have htexts : (Outline.empty.nest header body).texts =
      header :: (Outline.block body).map Line.text := by
    simp [Outline.texts]
  rw [htexts]
  exact h.trans (hblock.cons _)

mutual

/-- The assignments of a statement stand among its lines in order. -/
theorem Stmt.sublist_texts (s : Stmt) :
    (s.assignments.map assignmentText).Sublist s.outline.texts := by
  match s with
  | .assign t v => exact .refl _
  | .update .. | .run _ => exact List.nil_sublist _
  | .branch arms => exact arms.sublist_texts "if "
  | .loop t body => exact Outline.sublist_nest (sublist_texts_block body) _

/-- Every assignment has a line of its own, in the order of the code. -/
theorem sublist_texts_block (ss : List Stmt) :
    ((blockAssignments ss).map assignmentText).Sublist (outlineAll ss).texts := by
  match ss with
  | [] => exact List.nil_sublist _
  | s :: ss =>
    rw [blockAssignments, List.map_append, outlineAll, Outline.texts_append]
    exact s.sublist_texts.append (sublist_texts_block ss)

theorem Arms.sublist_texts (word : String) (arms : Arms) :
    (arms.assignments.map assignmentText).Sublist (arms.outline word).texts := by
  match arms with
  | .done => exact List.nil_sublist _
  | .otherwise body => exact Outline.sublist_nest (sublist_texts_block body) _
  | .arm t body rest =>
    rw [Arms.assignments, List.map_append, Arms.outline, Outline.texts_append]
    exact (Outline.sublist_nest (sublist_texts_block body) _).append (rest.sublist_texts "elif ")

end

theorem Procedure.sublist_texts (p : Procedure) :
    ((blockAssignments p.body).map assignmentText).Sublist p.outline.texts := by
  have hbody := Outline.sublist_nest (sublist_texts_block p.body) ("def " ++ p.name ++ "():")
  -- the call of the procedure stands behind it
  refine hbody.trans ?_
  unfold Procedure.outline
  simp [Outline.texts]

end Python

/-! ## Stores -/

/-- A value that is stored into a variable: by an assignment, or by a `DO` that starts with it. -/
structure Store where
  target : Reference
  value : Expr
  /-- Whether a `DO` starts with the value. -/
  starts : Bool

/-- What a statement stores, its bodies aside. -/
def Stmt.store? : Stmt → Option Store
  | .assign target value _ => some ⟨target, value, false⟩
  | .doLoop var start _ _ _ _ => some ⟨var, start, true⟩
  | _ => none

/-- The stores of a program in the order of its source. -/
def Program.stores (p : Program) : List Store := p.nested.filterMap Stmt.store?

/-- A value that may be a fraction is stored into an integer variable. -/
def Store.IsFractional (scope : Scope) (s : Store) : Prop :=
  scope.kindOf s.target.name = .integer ∧ s.value.valueKind scope = .decimal

instance (s : Store) : Decidable (s.IsFractional scope) := inferInstanceAs (Decidable (_ ∧ _))

/-- The assignment for a store. A value that may be a fraction is cut, but not where a `DO` starts
with it. -/
inductive Store.HasCode (scope : Scope) : Store → Python.Expr × Python.Expr → Prop where
  | assigned {target : Reference} {value : Expr} {t c : Python.Expr} :
      target.toExpr.HasCode scope t → value.HasCode scope c →
      HasCode scope ⟨target, value, false⟩ (t, storedCode scope target value c)
  | started {var : Reference} {start : Expr} {t c : Python.Expr} :
      var.toExpr.HasCode scope t → start.HasCode scope c → HasCode scope ⟨var, start, true⟩ (t, c)

/-- The stores have assignments among the given ones, in the same order. -/
def StoresAmong (scope : Scope) (stores : List Store) (as : List (Python.Expr × Python.Expr)) :
    Prop :=
  ∃ bs, List.Forall₂ (Store.HasCode scope) stores bs ∧ bs.Sublist as

namespace StoresAmong

variable {ss ts : List Store} {as bs : List (Python.Expr × Python.Expr)}

theorem nil (as : List (Python.Expr × Python.Expr)) : StoresAmong scope [] as :=
  ⟨[], .nil, List.nil_sublist _⟩

/-- Parts that are put together have their stores one after the other, among their assignments. -/
theorem append (hss : StoresAmong scope ss as) (hts : StoresAmong scope ts bs) :
    StoresAmong scope (ss ++ ts) (as ++ bs) := by
  obtain ⟨cs, hcs, hsub⟩ := hss
  obtain ⟨ds, hds, hsub'⟩ := hts
  exact ⟨cs ++ ds, List.rel_append hcs hds, hsub.append hsub'⟩

theorem single {s : Store} {a : Python.Expr × Python.Expr} (h : s.HasCode scope a) :
    StoresAmong scope [s] [a] := ⟨[a], .cons h .nil, .refl _⟩

/-- Further assignments do no harm. -/
theorem mono (hss : StoresAmong scope ss as) (hsub : as.Sublist bs) : StoresAmong scope ss bs := by
  obtain ⟨cs, hcs, hsub'⟩ := hss
  exact ⟨cs, hcs, hsub'.trans hsub⟩

end StoresAmong

theorem assignments_elseArms (no : List Stmt) (code : List Python.Stmt) :
    (elseArms no code).assignments = Python.blockAssignments code := by
  unfold elseArms
  split
  · simp [Python.blockAssignments, Python.Stmt.assignments]
  · rfl

/-- What is computed ahead of a loop, and the end of a round, come between and behind the stores. -/
theorem StoresAmong.doLoop {first : Store} {stores : List Store} {v s : Python.Expr}
    {ahead ahead' body : List Python.Stmt} {test : Python.Test} {advance : Python.Stmt}
    (hfirst : first.HasCode scope (v, s))
    (hbody : StoresAmong scope stores (Python.blockAssignments body)) :
    StoresAmong scope (first :: stores) (Python.blockAssignments
      (.assign v s :: ahead ++ ahead' ++ [.loop test (body ++ [advance])])) := by
  refine ((StoresAmong.single hfirst).append hbody).mono ?_
  simp only [List.cons_append, Python.blockAssignments, Python.blockAssignments_append,
    Python.Stmt.assignments, List.append_nil, List.nil_append]
  refine List.Sublist.cons_cons _ ?_
  exact (List.sublist_append_left _ _).trans (List.sublist_append_right _ _)

mutual

/-- The stores of a statement are among the assignments of its code, in order. There are others,
those of temporaries. -/
theorem Stmt.HasCode.storesAmong {n m : Nat} {s : Stmt} {code : List Python.Stmt}
    (h : s.HasCode scope n code m) :
    StoresAmong scope (s.nested.filterMap Stmt.store?) (Python.blockAssignments code) := by
  match h with
  | .assign ht hv => exact .single (.assigned ht hv)
  | .ifElse _ hyes hno =>
    rw [Stmt.nested, List.filterMap_cons_none rfl, List.filterMap_append, Python.blockAssignments,
      Python.blockAssignments, List.append_nil, Python.Stmt.assignments, Python.Arms.assignments,
      assignments_elseArms]
    exact hyes.storesAmong.append hno.storesAmong
  | .doWhile _ hbody =>
    rw [Stmt.nested, List.filterMap_cons_none rfl, Python.blockAssignments,
      Python.blockAssignments, List.append_nil]
    exact hbody.storesAmong
  | .doLoop hv hs _ _ hbody =>
    rw [Stmt.nested]
    exact .doLoop (.started hv hs) hbody.storesAmong
  | .select _ hbranches =>
    rw [Stmt.nested, List.filterMap_cons_none rfl, Python.blockAssignments,
      Python.blockAssignments, List.append_nil]
    exact hbranches.storesAmong
  -- the other statements store nothing of the source
  | .put _ | .get _ | .openFile | .read _ | .write _ | .closeFile | .query _ => exact .nil _

theorem HasCodes.storesAmong {n m : Nat} {ss : List Stmt} {code : List Python.Stmt}
    (h : HasCodes scope n ss code m) :
    StoresAmong scope ((nestedOfAll ss).filterMap Stmt.store?) (Python.blockAssignments code) := by
  match h with
  | .nil => exact .nil _
  | .cons hs hss =>
    rw [nestedOfAll, List.filterMap_append, Python.blockAssignments_append]
    exact hs.storesAmong.append hss.storesAmong

theorem Branches.HasCode.storesAmong {subject : Python.Expr} {n m : Nat} {b : Branches}
    {arms : Python.Arms} (h : b.HasCode scope subject n arms m) :
    StoresAmong scope (b.nested.filterMap Stmt.store?) arms.assignments := by
  match h with
  | .done => exact .nil _
  | .other hbody => exact hbody.storesAmong
  | .when _ hbody hrest =>
    rw [Branches.nested, List.filterMap_append]
    exact hbody.storesAmong.append hrest.storesAmong

end

/-- The line for a store. -/
def Store.HasLine (scope : Scope) (s : Store) (line : String) : Prop :=
  ∃ t c, s.target.lower scope = .ok t ∧ s.value.lower scope = .ok c ∧
    line = t.render ++ " = " ++
      if s.IsFractional scope ∧ s.starts = false then "int(" ++ c.render ++ ")" else c.render

/-- The line of a store shows its target and its value, cut if need be. -/
theorem Store.HasCode.hasLine {s : Store} {a : Python.Expr × Python.Expr}
    (h : s.HasCode scope a) : s.HasLine scope (Python.assignmentText a) := by
  cases h with
  | @assigned target value t c ht hc =>
    refine ⟨t, c, ht.lower_eq, hc.lower_eq, ?_⟩
    rw [Python.assignmentText, storedCode]
    by_cases hcut : scope.kindOf target.name = .integer ∧ value.valueKind scope = .decimal
    · rw [if_pos hcut, if_pos ⟨hcut, rfl⟩]
      rfl
    · rw [if_neg hcut, if_neg fun hboth => hcut hboth.1]
  -- the start of a loop is never cut
  | @started var start t c ht hc =>
    refine ⟨t, c, ht.lower_eq, hc.lower_eq, ?_⟩
    rw [Python.assignmentText, if_neg fun hboth => Bool.noConfusion hboth.2]

/-- The stores have lines among those of a procedure, in the same order. -/
theorem StoresAmong.exists_lines {stores : List Store} {code : Python.Procedure}
    (h : StoresAmong scope stores (Python.blockAssignments code.body)) :
    ∃ lines, List.Forall₂ (Store.HasLine scope) stores lines ∧
      lines.Sublist (code.outline.lines.map Python.Line.text) := by
  obtain ⟨as, has, hsub⟩ := h
  refine ⟨as.map Python.assignmentText, ?_, (hsub.map _).trans code.sublist_texts⟩
  rw [List.forall₂_map_right_iff]
  exact has.imp fun _ _ => Store.HasCode.hasLine

end Plic
