import Plic.Proofs.Lowering.Expr
import Plic.Proofs.Python.Eval

/-!
# Expressions that have no value but strings

The parts of an expression, and the forms whose values are strings as soon as
their operands are: sums, slices, and both conversions.

Main results:

* `Expr.yieldsText_call` — a conversion gives a string whatever is converted.
* `Expr.yieldsText_add`, `Expr.yieldsText_sliceFrom`, `Expr.yieldsText_slice` —
  sums and slices of strings are strings.
-/

namespace Plic.Python

/-! ## Parts -/

mutual

/-- An expression and everything it is made of. -/
@[simp] def Expr.parts : Expr → List Expr
  | .int n => [.int n]
  | .str s => [.str s]
  | .name id => [.name id]
  | .neg e => .neg e :: e.parts
  | .binary op l r => .binary op l r :: (l.parts ++ r.parts)
  | .index b i => .index b i :: (b.parts ++ i.parts)
  | .sliceFrom b lo => .sliceFrom b lo :: (b.parts ++ lo.parts)
  | .slice b lo hi => .slice b lo hi :: (b.parts ++ lo.parts ++ hi.parts)
  | .call f args => .call f args :: partsOfAll args
  | .find t p => .find t p :: (t.parts ++ p.parts)
  | .single e => .single e :: e.parts
  | .replicate e n => .replicate e n :: (e.parts ++ n.parts)

/-- The parts of the expressions of a list. -/
@[simp] def partsOfAll : List Expr → List Expr
  | [] => []
  | e :: es => e.parts ++ partsOfAll es

end

theorem Expr.mem_parts_self (e : Expr) : e ∈ e.parts := by
  cases e <;> exact List.mem_cons_self

/-- The parts of a list are those of its expressions. -/
theorem mem_partsOfAll {x : Expr} {es : List Expr} :
    x ∈ partsOfAll es ↔ ∃ e ∈ es, x ∈ e.parts := by
  induction es with
  | nil => simp [partsOfAll]
  | cons e es ih => simp [partsOfAll, ih]

/-- The parts of an element of an array: the array, the subscripts, and the
elements on the way to it. -/
theorem mem_parts_foldl_index {x base : Expr} {codes : List Expr} :
    x ∈ (codes.foldl .index base).parts → x ∈ base.parts ∨ (∃ b i, x = .index b i) ∨
      ∃ c ∈ codes, x ∈ c.parts := by
  induction codes generalizing base with
  | nil => exact .inl
  | cons c cs ih =>
    intro hx
    rcases ih hx with hbase | hindex | ⟨d, hd, hx⟩
    · rw [Expr.parts, List.mem_cons, List.mem_append] at hbase
      -- the innermost subscript has been put on the base
      rcases hbase with rfl | hbase | hc
      · exact .inr (.inl ⟨_, _, rfl⟩)
      · exact .inl hbase
      · exact .inr (.inr ⟨c, List.mem_cons_self, hc⟩)
    · exact .inr (.inl hindex)
    · exact .inr (.inr ⟨d, List.mem_cons_of_mem _ hd, hx⟩)

/-- An element has the parts of its array and of its subscripts. -/
theorem parts_subset_foldl_index {codes : List Expr} (base : Expr) :
    base.parts ⊆ (codes.foldl .index base).parts ∧
      ∀ c ∈ codes, c.parts ⊆ (codes.foldl .index base).parts := by
  induction codes generalizing base with
  | nil => exact ⟨fun _ hx => hx, by simp⟩
  | cons c cs ih =>
    obtain ⟨hbase, hcodes⟩ := ih (.index base c)
    rw [List.forall_mem_cons]
    -- the element at the first subscript is the base for the others
    refine ⟨fun x hx => hbase ?_, fun x hx => hbase ?_, hcodes⟩
    · simp [Expr.parts, hx]
    · simp [Expr.parts, hx]

/-! ## Strings -/

section

variable {φ : Type} (lib : Library φ) (env : Env φ)

/-- Every value that the expression may have is a string. -/
def Expr.YieldsText (e : Expr) : Prop := ∀ v, e.eval lib env = .ok v → ∃ s, v = .str s

/-- What is cut out of or searched in is a string, and so is what is searched for. -/
def Expr.TextSafe : Expr → Prop
  | .sliceFrom b _ => b.YieldsText lib env
  | .slice b _ _ => b.YieldsText lib env
  | .find t p => t.YieldsText lib env ∧ p.YieldsText lib env
  | _ => True

variable {lib env}

theorem Expr.yieldsText_str (s : String) : (Expr.str s).YieldsText lib env := by
  intro v hv
  rw [Expr.eval] at hv
  injection hv with hv
  exact ⟨s, hv.symm⟩

/-- Both conversions give a string for every value. -/
theorem Expr.yieldsText_call {f : Function} (hf : f = .str ∨ f = .text) (e : Expr) :
    (Expr.call f [e]).YieldsText lib env := by
  intro v hv
  simp only [Expr.eval, evalAll, bind_eq_ok_iff] at hv
  obtain ⟨vs, ⟨u, -, ws, hws, hvs⟩, hv⟩ := hv
  injection hws with hws
  injection hvs with hvs
  subst hws hvs
  rcases hf with rfl | rfl <;>
  · injection hv with hv
    exact ⟨_, hv.symm⟩

theorem Expr.yieldsText_add {a b : Expr} (ha : a.YieldsText lib env) (hb : b.YieldsText lib env) :
    (Expr.binary .add a b).YieldsText lib env := by
  intro v hv
  simp only [Expr.eval, bind_eq_ok_iff] at hv
  obtain ⟨u, hu, w, hw, hv⟩ := hv
  obtain ⟨s, rfl⟩ := ha u hu
  obtain ⟨t, rfl⟩ := hb w hw
  injection hv with hv
  exact ⟨_, hv.symm⟩

theorem Expr.yieldsText_sliceFrom {b : Expr} (hb : b.YieldsText lib env) (low : Expr) :
    (Expr.sliceFrom b low).YieldsText lib env := by
  intro v hv
  simp only [Expr.eval, bind_eq_ok_iff] at hv
  obtain ⟨u, hu, _, -, _, -, hv⟩ := hv
  obtain ⟨s, rfl⟩ := hb u hu
  injection hv with hv
  exact ⟨_, hv.symm⟩

theorem Expr.yieldsText_slice {b : Expr} (hb : b.YieldsText lib env) (low high : Expr) :
    (Expr.slice b low high).YieldsText lib env := by
  intro v hv
  simp only [Expr.eval, bind_eq_ok_iff] at hv
  obtain ⟨u, hu, _, -, _, -, _, -, _, -, hv⟩ := hv
  obtain ⟨s, rfl⟩ := hb u hu
  injection hv with hv
  exact ⟨_, hv.symm⟩

end

end Plic.Python
