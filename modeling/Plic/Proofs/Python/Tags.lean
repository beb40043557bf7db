import Plic.Proofs.Python.State

/-!
# The types of values

What an operator gives for two values is of a type that their types settle, and
whether it gives anything at all often shows from the types alone: `+` takes two
numbers, two strings or two lists, and nothing else. `Operator.tag` says this once
for all operators, so that later proofs never look at the values.

An array is a list, or a list of lists, whose slots all hold values of some sort.
Whatever is read from it is of that sort, and it stays so if only such values are
stored into it.

Main results:

* `Library.tag_of_operate`, `Library.tag_of_negate` — the type of a result.
* `Value.Filled.eval_foldl_index`, `State.filled_of_store` — reading from an array
  and storing into it.
-/

namespace Plic.Python

variable {φ ω : Type}

/-! ## Types -/

/-- The types of values. -/
inductive Tag where
  | int | float | str | none | list
deriving DecidableEq

instance : Fintype Tag := ⟨{.int, .float, .str, .none, .list}, fun t => by cases t <;> decide⟩

instance : Fintype Operator := ⟨{.add, .sub, .mul, .div, .mod}, fun op => by cases op <;> decide⟩

/-- The type of a value. -/
def Value.tag : Value φ → Tag
  | .int _ => .int
  | .float _ => .float
  | .str _ => .str
  | .none => .none
  | .list _ => .list

/-- The type of what an operator gives for operands of two types, unless it takes none of these. A
quotient is a fraction also where both operands are integers. -/
def Operator.tag : Operator → Tag → Tag → Option Tag
  | .add, .str, .str => some .str
  | .add, .list, .list => some .list
  | .mul, .str, .int => some .str
  | .mul, .int, .str => some .str
  | .mul, .list, .int => some .list
  | .mul, .int, .list => some .list
  | .mod, .str, _ => some .str
  | .div, .int, .int => some .float
  | _, .int, .int => some .int
  | _, .float, .float => some .float
  | _, .int, .float => some .float
  | _, .float, .int => some .float
  | _, _, _ => none

/-- A value of the type of numbers is a number. -/
theorem Value.exists_int {v : Value φ} (h : v.tag = .int) : ∃ n, v = .int n := by
  cases v with
  | int n => exact ⟨n, rfl⟩
  | _ => cases h

/-- A value of the type of texts is a text. -/
theorem Value.exists_str {v : Value φ} (h : v.tag = .str) : ∃ s, v = .str s := by
  cases v with
  | str s => exact ⟨s, rfl⟩
  | _ => cases h

section

variable {lib : Library φ} {op : Operator} {u v w : Value φ}

/-- There is a value exactly if one was given. -/
theorem orFail_eq_ok_iff {f : Failure} {o : Option (Value φ)} :
    orFail f o = .ok v ↔ o = some v := by
  cases o <;> simp [orFail]

/-- Numbers give numbers, but division always gives a fraction. -/
theorem Library.tag_of_integers {a b : Int} (h : lib.integers op a b = .ok w) :
    w.tag = if op = .div then .float else .int := by
  cases op with
  | div =>
    rw [Library.integers] at h
    -- division by zero has no value, so nothing is to be shown
    by_cases hzero : b = 0
    · simp [hzero] at h
    · rw [if_neg hzero, orFail_eq_ok_iff, Option.map_eq_some_iff] at h
      obtain ⟨x, -, rfl⟩ := h
      rfl
  | mod =>
    rw [Library.integers] at h
    by_cases hzero : b = 0
    · simp [hzero] at h
    · rw [if_neg hzero] at h
      injection h with h
      rw [← h]
      rfl
  | _ =>
    injection h with h
    rw [← h]
    rfl

theorem Library.tag_of_fractions {x y : φ} (h : lib.fractions op x y = .ok w) :
    w.tag = .float := by
  cases op with
  | div | mod =>
    rw [Library.fractions, orFail_eq_ok_iff, Option.map_eq_some_iff] at h
    obtain ⟨z, -, rfl⟩ := h
    rfl
  | _ =>
    injection h with h
    rw [← h]
    rfl

/-- The types of the operands settle the type of the result. -/
theorem Library.tag_of_operate (h : lib.operate op u v = .ok w) :
    op.tag u.tag v.tag = some w.tag := by
  unfold Library.operate at h
  split at h
  case h_7 =>
    -- a text with its marks filled in
    rw [orFail_eq_ok_iff, Option.map_eq_some_iff] at h
    obtain ⟨s, -, rfl⟩ := h
    rfl
  case h_8 =>
    rw [Library.tag_of_integers h]
    cases op <;> rfl
  case h_9 =>
    rw [Library.tag_of_fractions h]
    cases op <;> rfl
  case h_10 | h_11 =>
    -- an integer beside a fraction is made one
    split at h
    · rw [Library.tag_of_fractions h]
      cases op <;> rfl
    · cases h
  case h_12 => cases h
  all_goals
    injection h with h
    rw [← h]
    rfl

/-- Only numbers have a sign, and it does not show in their type. -/
theorem Library.tag_of_negate (h : lib.negate v = .ok w) :
    (v.tag = .int ∨ v.tag = .float) ∧ w.tag = v.tag := by
  cases v with
  | int n =>
    injection h with h
    rw [← h]
    exact ⟨.inl rfl, rfl⟩
  | float x =>
    injection h with h
    rw [← h]
    exact ⟨.inr rfl, rfl⟩
  | _ => cases h

/-- A conversion to a number gives one or fails. -/
theorem Library.tag_of_toInt (h : lib.toInt v = .ok w) : w.tag = .int := by
  cases v with
  | int n =>
    injection h with h
    rw [← h]
    rfl
  | float _ | str _ =>
    rw [Library.toInt, orFail_eq_ok_iff, Option.map_eq_some_iff] at h
    obtain ⟨n, -, rfl⟩ := h
    rfl
  | _ => cases h

/-- The place of a part in a text is an integer. -/
theorem Expr.tag_of_find {env : Env φ} {t p : Expr} (h : (Expr.find t p).eval lib env = .ok w) :
    w.tag = .int := by
  simp only [Expr.eval, bind_eq_ok_iff] at h
  obtain ⟨x, -, h⟩ := h
  cases x with
  | str s =>
    obtain ⟨part, -, h⟩ := bind_eq_ok_iff.mp h
    cases part with
    | str part =>
      injection h with h
      rw [← h]
      rfl
    | _ => cases h
  | _ => cases h

end

/-- A string has strings for items, so no fraction is found in it. -/
theorem Value.get_str_ne_float (s : String) (is : List Int) (x : φ) :
    (Value.str s : Value φ).get is ≠ .ok (.float x) := by
  induction is generalizing s with
  | nil =>
    intro hfloat
    cases hfloat
  | cons i is ih =>
    rw [Value.get_cons, Value.item]
    cases itemAt s.toList i with
    | none =>
      intro hfloat
      cases hfloat
    -- a character is a text again
    | some c => exact ih _

/-! ## Arrays -/

/-- A value that satisfies `P`, or nested lists of such values of the given depth. -/
def Value.Filled (P : Value φ → Prop) : Nat → Value φ → Prop
  | 0, v => P v
  | n + 1, .list items => ∀ x ∈ items, Value.Filled P n x
  | _ + 1, _ => False

namespace Value.Filled

variable {P : Value φ → Prop} {n : Nat} {u v w : Value φ}

/-- An array with one dimension more is a list of arrays. -/
theorem exists_list (h : v.Filled P (n + 1)) :
    ∃ items, v = .list items ∧ ∀ x ∈ items, x.Filled P n := by
  cases v with
  | list items => exact ⟨items, rfl, h⟩
  | _ => exact h.elim

theorem mono {Q : Value φ → Prop} (hPQ : ∀ x, P x → Q x) (h : v.Filled P n) : v.Filled Q n := by
  induction n generalizing v with
  | zero => exact hPQ v h
  | succ n ih =>
    obtain ⟨items, rfl, hitems⟩ := h.exists_list
    exact fun x hx => ih (hitems x hx)

/-- An item of an array is an array of one dimension less. -/
theorem item (h : u.Filled P (n + 1)) (hitem : u.item v = .ok w) : w.Filled P n := by
  obtain ⟨items, rfl, hitems⟩ := h.exists_list
  cases v with
  | int i =>
    rw [Value.item, orFail_eq_ok_iff, itemAt_eq_position, Option.bind_eq_some_iff] at hitem
    obtain ⟨k, -, hk⟩ := hitem
    exact hitems w (List.mem_of_getElem? hk)
  | _ => cases hitem

/-- What all subscripts together select satisfies `P`. -/
theorem eval_foldl_index {lib : Library φ} {env : Env φ} {base : Expr} {codes : List Expr}
    (h : ∀ u, base.eval lib env = .ok u → u.Filled P codes.length)
    (hv : (codes.foldl .index base).eval lib env = .ok v) : P v := by
  induction codes generalizing base with
  | nil => exact h v hv
  | cons c cs ih =>
    refine ih (fun w hw => ?_) hv
    -- the element at the first subscript is the base for the others
    simp only [Expr.eval, bind_eq_ok_iff] at hw
    obtain ⟨u, hu, i, -, hitem⟩ := hw
    exact (h u hu).item hitem

/-- An array stays one when a value that satisfies `P` is put into a slot. -/
theorem put {new old : Value φ} {is : List Int} (hnew : P new) (hold : old.Filled P is.length)
    (hput : Value.put new is old = .ok v) : v.Filled P is.length := by
  induction is generalizing old v with
  | nil =>
    injection hput with hput
    rwa [← hput]
  | cons i is ih =>
    obtain ⟨items, k, item, rfl, hk, hitem, rfl⟩ := Value.put_cons_eq_ok_iff.mp hput
    have hitems : ∀ x ∈ items, x.Filled P is.length := hold
    have hslot : items.getD k .none ∈ items := by
      rw [List.getD_eq_getElem _ _ (lt_of_position hk)]
      exact List.getElem_mem _
    intro x hx
    -- an old item, or the one that was put in its place
    rcases List.mem_or_eq_of_mem_set hx with hx | rfl
    · exact hitems x hx
    · exact ih (hitems _ hslot) hitem

/-- What is found at as many indices as there are dimensions satisfies `P`. -/
theorem get {is : List Int} (h : u.Filled P is.length) (hget : u.get is = .ok v) : P v := by
  induction is generalizing u with
  | nil =>
    injection hget with hget
    rwa [← hget]
  | cons i is ih =>
    rw [Value.get_cons, bind_eq_ok_iff] at hget
    obtain ⟨w, hw, hget⟩ := hget
    exact ih (h.item hw) hget

/-- Where there are no fractions, none is found, whatever the indices are: with fewer of them there
are lists, and with more of them there is nothing or a part of a string. -/
theorem get_ne_float (hP : ∀ x, P x → x.tag = .int ∨ x.tag = .str) (h : u.Filled P n)
    (is : List Int) (x : φ) : u.get is ≠ .ok (.float x) := by
  induction is generalizing u n with
  | nil =>
    cases n with
    | zero =>
      intro hu
      obtain rfl : u = .float x := Except.ok.inj hu
      rcases hP _ h with hint | hstr
      · cases hint
      · cases hstr
    | succ n =>
      obtain ⟨items, rfl, -⟩ := h.exists_list
      intro hu
      cases hu
  | cons i is ih =>
    intro hget
    rw [Value.get_cons, bind_eq_ok_iff] at hget
    obtain ⟨w, hw, hget⟩ := hget
    cases n with
    | succ n => exact ih (h.item hw) hget
    | zero =>
      -- an integer has no items, and those of a string are strings
      rcases hP _ h with hint | hstr
      · obtain ⟨k, rfl⟩ := Value.exists_int hint
        cases hw
      · obtain ⟨s, rfl⟩ := Value.exists_str hstr
        rw [Value.item, orFail_eq_ok_iff, Option.map_eq_some_iff] at hw
        obtain ⟨c, -, rfl⟩ := hw
        exact Value.get_str_ne_float _ _ _ hget

end Value.Filled

/-- An array stays one when a value that satisfies `P` is stored into one of its cells. -/
theorem State.filled_of_store {σ τ : State φ ω} {c : Cell} {P : Value φ → Prop} {v w : Value φ}
    (hold : ∀ u, σ.value c.name = some u → u.Filled P c.indices.length) (hv : P v)
    (hstore : σ.store c v = .ok τ) (hw : τ.value c.name = some w) :
    w.Filled P c.indices.length := by
  obtain ⟨name, indices⟩ := c
  unfold State.store at hstore
  -- a name by itself takes the value; an element puts it into the array that was there
  cases indices with
  | nil =>
    injection hstore with hstore
    rw [← hstore, State.value_bind, Function.update_self] at hw
    obtain rfl := Option.some.inj hw
    exact hv
  | cons i is =>
    simp only [bind_eq_ok_iff, orFail_eq_ok_iff] at hstore
    obtain ⟨old, hvalue, new, hput, hτ⟩ := hstore
    injection hτ with hτ
    rw [← hτ, State.value_bind, Function.update_self] at hw
    obtain rfl := Option.some.inj hw
    exact Value.Filled.put hv (hold old hvalue) hput

/-- Each subscript of a target adds an index to its cell. -/
theorem length_indices_of_cell {lib : Library φ} {env : Env φ} {base : Expr} {codes : List Expr}
    {c d : Cell} (hbase : base.cell lib env = .ok d)
    (hc : (codes.foldl .index base).cell lib env = .ok c) :
    c.indices.length = d.indices.length + codes.length := by
  -- the last subscript is the outermost
  induction codes using List.reverseRecOn generalizing c with
  | nil =>
    obtain rfl := Except.ok.inj (hbase.symm.trans hc)
    rfl
  | append_singleton es e ih =>
    rw [List.foldl_append] at hc
    obtain ⟨d', n, hd', -, rfl⟩ := Expr.cell_index_eq_ok_iff.mp hc
    have hlength := ih hd'
    simp only [List.length_append, List.length_singleton]
    omega

end Plic.Python
