import Mathlib
import Plic.Tree

/-!
# Places in a tree

Every node of a tree holds the place it was read from. `relocate` changes all
places of a tree and nothing else, so trees with equal images under it are equal
up to the places that it makes equal.
-/

namespace Plic

variable (f : Location → Location)

/-- The item at another place. -/
def Item.relocate (i : Item) : Item := { i with loc := f i.loc }

/-- The declaration with all its places changed. -/
def Declaration.relocate (d : Declaration) : Declaration :=
  ⟨d.items.map (Item.relocate f), d.type, f d.loc⟩

mutual

/-- The expression with all its places changed. -/
def Expr.relocate : Expr → Expr
  | .number n loc => .number n (f loc)
  | .text s loc => .text s (f loc)
  | .var name subscripts loc => .var name (relocateAll subscripts) (f loc)
  | .neg e loc => .neg e.relocate (f loc)
  | .binary op l r loc => .binary op l.relocate r.relocate (f loc)
  | .call function args loc => .call function (relocateAll args) (f loc)
  | .endfile file loc => .endfile file (f loc)

/-- The expressions with all their places changed. -/
def relocateAll : List Expr → List Expr
  | [] => []
  | e :: es => e.relocate :: relocateAll es

end

/-- The reference with all its places changed. -/
def Reference.relocate (r : Reference) : Reference :=
  ⟨r.name, relocateAll f r.subscripts, f r.loc⟩

/-- The condition with all its places changed. -/
def Condition.relocate (c : Condition) : Condition :=
  ⟨c.left.relocate f, c.op, c.right.relocate f, f c.loc⟩

mutual

/-- The statement with all its places changed. -/
def Stmt.relocate : Stmt → Stmt
  | .assign target value loc => .assign (target.relocate f) (value.relocate f) (f loc)
  | .ifElse c yes no loc => .ifElse (c.relocate f) (relocateBlock yes) (relocateBlock no) (f loc)
  | .doWhile c body loc => .doWhile (c.relocate f) (relocateBlock body) (f loc)
  | .doLoop var start limit step body loc =>
    .doLoop (var.relocate f) (start.relocate f) (limit.relocate f) (step.map (Expr.relocate f))
      (relocateBlock body) (f loc)
  | .select subject branches loc => .select (subject.relocate f) branches.relocate (f loc)
  | .put items loc => .put (relocateAll f items) (f loc)
  | .get targets loc => .get (targets.map (Reference.relocate f)) (f loc)
  | .openFile file mode loc => .openFile file mode (f loc)
  | .read file target loc => .read file (target.relocate f) (f loc)
  | .write file source loc => .write file (source.relocate f) (f loc)
  | .closeFile file loc => .closeFile file (f loc)
  | .query sql target loc => .query sql (target.relocate f) (f loc)

/-- The statements with all their places changed. -/
def relocateBlock : List Stmt → List Stmt
  | [] => []
  | s :: ss => s.relocate :: relocateBlock ss

/-- The branches with all their places changed. -/
def Branches.relocate : Branches → Branches
  | .done => .done
  | .other body => .other (relocateBlock body)
  | .when values body loc rest =>
    .when (relocateAll f values) (relocateBlock body) (f loc) rest.relocate

end

/-- The program with all its places changed. -/
def Program.relocate (p : Program) : Program :=
  ⟨p.name, p.declarations.map (Declaration.relocate f), relocateBlock f p.statements, f p.loc⟩

/-- The expressions of a list are moved one by one. -/
theorem relocateAll_eq_map (es : List Expr) : relocateAll f es = es.map (Expr.relocate f) := by
  induction es with
  | nil => rfl
  | cons e es ih => rw [relocateAll, ih, List.map_cons]

theorem relocateBlock_eq_map (ss : List Stmt) :
    relocateBlock f ss = ss.map (Stmt.relocate f) := by
  induction ss with
  | nil => rfl
  | cons s ss ih => rw [relocateBlock, ih, List.map_cons]

/-- A reference is moved as the expression that it is. -/
theorem Reference.relocate_toExpr (r : Reference) :
    (r.relocate f).toExpr = r.toExpr.relocate f := by
  rw [Reference.toExpr, Reference.toExpr, Expr.relocate]
  rfl

/-! ## Places that stay -/

mutual

theorem Expr.relocate_id (e : Expr) : e.relocate id = e := by
  match e with
  | .number _ _ | .text _ _ | .endfile _ _ => rfl
  | .var _ subscripts _ => rw [Expr.relocate, relocateAll_id subscripts, id]
  | .neg e _ => rw [Expr.relocate, e.relocate_id, id]
  | .binary _ l r _ => rw [Expr.relocate, l.relocate_id, r.relocate_id, id]
  | .call _ args _ => rw [Expr.relocate, relocateAll_id args, id]

theorem relocateAll_id (es : List Expr) : relocateAll id es = es := by
  match es with
  | [] => rfl
  | e :: es => rw [relocateAll, e.relocate_id, relocateAll_id es]

end

theorem Reference.relocate_id (r : Reference) : r.relocate id = r := by
  rw [Reference.relocate, relocateAll_id, id]

theorem Condition.relocate_id (c : Condition) : c.relocate id = c := by
  rw [Condition.relocate, Expr.relocate_id, Expr.relocate_id, id]

mutual

theorem Stmt.relocate_id (s : Stmt) : s.relocate id = s := by
  match s with
  | .assign target value _ =>
    rw [Stmt.relocate, target.relocate_id, value.relocate_id, id]
  | .ifElse c yes no _ =>
    rw [Stmt.relocate, c.relocate_id, relocateBlock_id yes, relocateBlock_id no, id]
  | .doWhile c body _ => rw [Stmt.relocate, c.relocate_id, relocateBlock_id body, id]
  | .doLoop var start limit step body _ =>
    have hstep : step.map (Expr.relocate id) = step := by
      cases step with
      | none => rfl
      | some k => rw [Option.map_some, k.relocate_id]
    rw [Stmt.relocate, var.relocate_id, start.relocate_id, limit.relocate_id, hstep,
      relocateBlock_id body, id]
  | .select subject branches _ =>
    rw [Stmt.relocate, subject.relocate_id, branches.relocate_id, id]
  | .put items _ => rw [Stmt.relocate, relocateAll_id items, id]
  | .get targets _ =>
    have htargets : targets.map (Reference.relocate id) = targets := by
      rw [funext Reference.relocate_id, List.map_id']
    rw [Stmt.relocate, htargets, id]
  | .openFile _ _ _ | .closeFile _ _ => rfl
  | .read _ target _ => rw [Stmt.relocate, target.relocate_id, id]
  | .write _ source _ => rw [Stmt.relocate, source.relocate_id, id]
  | .query _ target _ => rw [Stmt.relocate, target.relocate_id, id]

theorem relocateBlock_id (ss : List Stmt) : relocateBlock id ss = ss := by
  match ss with
  | [] => rfl
  | s :: ss => rw [relocateBlock, s.relocate_id, relocateBlock_id ss]

theorem Branches.relocate_id (b : Branches) : b.relocate id = b := by
  match b with
  | .done => rfl
  | .other body => rw [Branches.relocate, relocateBlock_id body]
  | .when values body _ rest =>
    rw [Branches.relocate, relocateAll_id values, relocateBlock_id body, rest.relocate_id, id]

end

theorem Declaration.relocate_id (d : Declaration) : d.relocate id = d := by
  have hitem : ∀ i : Item, i.relocate id = i := fun _ => rfl
  rw [Declaration.relocate, funext hitem, List.map_id', id]

theorem Program.relocate_id (p : Program) : p.relocate id = p := by
  rw [Program.relocate, funext Declaration.relocate_id, List.map_id', relocateBlock_id, id]

end Plic
