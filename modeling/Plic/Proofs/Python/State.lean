import Plic.Proofs.Lowering.Expr
import Plic.Proofs.Python.Eval
import Plic.Proofs.Python.Uses

/-!
# The state that code reads and stores into

A state holds the values of the names and what lies outside of the program. A
target denotes a cell: a name, or a place in the list that a name holds, told by
its indices. Generated code never gives one list to two names or to two places, as
only an element of an array can be read or stored into, so to store into an
element is to bind its name to another list.

An expression reads the names that occur in it. Two states that agree on these
give it the same value, and a target the same cell.

Main results:

* `Expr.eval_congr` — what the value of an expression depends on.
* `Expr.eval_eq_load` — a target has the value that its cell holds.
* `State.load_of_store`, `State.value_of_store` — storing changes one cell.
-/

namespace Plic.Python

variable {φ ω : Type}

/-! ## What evaluation depends on -/

/-- The environments agree on what the atoms read. -/
structure Env.AgreeOn (as : List Atom) (env env' : Env φ) : Prop where
  value : ∀ id, .name id ∈ as → env.value id = env'.value id
  atEnd : .function .endfile ∈ as → env.atEnd = env'.atEnd

/-- Environments that agree on more agree on less. -/
theorem Env.AgreeOn.mono {as bs : List Atom} {env env' : Env φ} (h : env.AgreeOn bs env')
    (hsub : as ⊆ bs) : env.AgreeOn as env' :=
  ⟨fun id hid => h.value id (hsub hid), fun hend => h.atEnd (hsub hend)⟩

theorem Env.AgreeOn.append {as bs : List Atom} {env env' : Env φ}
    (h : env.AgreeOn (as ++ bs) env') : env.AgreeOn as env' ∧ env.AgreeOn bs env' :=
  ⟨h.mono (List.subset_append_left as bs), h.mono (List.subset_append_right as bs)⟩

/-- Of all functions, only the test for the end of a file looks outside. -/
theorem Library.call_congr (lib : Library φ) {env env' : Env φ} {f : Function}
    (h : f = .endfile → env.atEnd = env'.atEnd) (vs : List (Value φ)) :
    lib.call env f vs = lib.call env' f vs := by
  cases f with
  | endfile =>
    obtain ⟨_, _⟩ := env
    obtain ⟨_, _⟩ := env'
    -- only the files at their end are asked for
    obtain rfl := h rfl
    match vs with
    | [] | [.int _] | [.float _] | [.str _] | [.none] | [.list _] | _ :: _ :: _ => rfl
  | _ =>
    match vs with
    | [] | [_] | _ :: _ :: _ => rfl

mutual

/-- An expression has the same value where what it reads is the same. -/
theorem Expr.eval_congr (lib : Library φ) (e : Expr) {env env' : Env φ}
    (h : env.AgreeOn e.atoms env') : e.eval lib env = e.eval lib env' := by
  match e with
  | .int _ | .str _ => simp
  | .name id =>
    have hid : env.value id = env'.value id := h.value id (by simp)
    rw [Expr.eval, Expr.eval, hid]
  | .neg e | .single e => rw [Expr.eval, Expr.eval, e.eval_congr lib h]
  | .binary _ l r | .index l r | .sliceFrom l r | .find l r =>
    obtain ⟨hl, hr⟩ := Env.AgreeOn.append h
    rw [Expr.eval, Expr.eval, l.eval_congr lib hl, r.eval_congr lib hr]
  | .slice b lo hi =>
    obtain ⟨hb, hhi⟩ := Env.AgreeOn.append h
    obtain ⟨hb, hlo⟩ := Env.AgreeOn.append hb
    rw [Expr.eval, Expr.eval, b.eval_congr lib hb, lo.eval_congr lib hlo, hi.eval_congr lib hhi]
  | .call f args =>
    obtain ⟨hf, hargs⟩ := @Env.AgreeOn.append _ [.function f] _ _ _ h
    -- a call may ask for the end of a file, which its atom covers
    have hcall : lib.call env f = lib.call env' f :=
      funext (lib.call_congr fun hend => hf.atEnd (by simp [hend]))
    rw [Expr.eval, Expr.eval, evalAll_congr lib args hargs, hcall]
  | .replicate e n =>
    obtain ⟨he, hn⟩ := Env.AgreeOn.append h
    rw [Expr.eval, Expr.eval, e.eval_congr lib he.append.1, n.eval_congr lib hn]

/-- Expressions of a list depend on what they read. -/
theorem evalAll_congr (lib : Library φ) (es : List Expr) {env env' : Env φ}
    (h : env.AgreeOn (atomsAll es) env') : evalAll lib env es = evalAll lib env' es := by
  match es with
  | [] => simp
  | e :: es =>
    obtain ⟨he, hes⟩ := Env.AgreeOn.append h
    rw [evalAll, evalAll, e.eval_congr lib he, evalAll_congr lib es hes]

end

/-! ## Cells -/

/-- A name, or a place in the list that a name holds. -/
structure Cell where
  name : String
  indices : List Int

/-- The cell that a target denotes. -/
def Expr.cell (lib : Library φ) (env : Env φ) : Expr → Except Failure Cell
  | .name id => .ok ⟨id, []⟩
  | .index b i => do
    let c ← b.cell lib env
    match ← i.eval lib env with
    | .int n => .ok ⟨c.name, c.indices ++ [n]⟩
    | _ => .error .type
  | _ => .error .type

/-- The name that a target stores into. -/
def Expr.root : Expr → Option String
  | .name id => some id
  | .index b _ => b.root
  | _ => none

/-- What is read to find the cell of a target. -/
def Expr.subscriptAtoms : Expr → List Atom
  | .index b i => b.subscriptAtoms ++ i.atoms
  | _ => []

/-- The subscripts of an element, from left to right. -/
theorem subscriptAtoms_foldl_index (base : Expr) (codes : List Expr) :
    (codes.foldl .index base).subscriptAtoms = base.subscriptAtoms ++ atomsAll codes := by
  induction codes generalizing base with
  | nil => simp
  | cons c cs ih => rw [List.foldl_cons, ih, Expr.subscriptAtoms, atomsAll, List.append_assoc]

/-- An element belongs to the name at its root. -/
theorem root_foldl_index (base : Expr) (codes : List Expr) :
    (codes.foldl .index base).root = base.root := by
  induction codes generalizing base with
  | nil => rfl
  | cons c cs ih => rw [List.foldl_cons, ih, Expr.root]

section

variable {lib : Library φ} {env env' : Env φ}

/-- The cell of an element is that of what it is an element of, with one index more. -/
theorem Expr.cell_index_eq_ok_iff {b i : Expr} {c : Cell} :
    (Expr.index b i).cell lib env = .ok c ↔
      ∃ d n, b.cell lib env = .ok d ∧ i.eval lib env = .ok (.int n) ∧
        c = ⟨d.name, d.indices ++ [n]⟩ := by
  rw [Expr.cell]
  simp only [bind_eq_ok_iff]
  constructor
  · rintro ⟨d, hd, v, hv, hc⟩
    cases v with
    | int n =>
      injection hc with hc
      exact ⟨d, n, hd, hv, hc.symm⟩
    | _ => injection hc
  · rintro ⟨d, n, hd, hn, rfl⟩
    exact ⟨d, hd, .int n, hn, rfl⟩

theorem Expr.root_of_cell {t : Expr} {c : Cell} (h : t.cell lib env = .ok c) :
    t.root = some c.name := by
  induction t using Expr.root.induct generalizing c with
  | case1 id =>
    injection h with h
    rw [← h]
    rfl
  | case2 b i ih =>
    obtain ⟨d, n, hd, -, rfl⟩ := Expr.cell_index_eq_ok_iff.mp h
    rw [Expr.root, ih hd]
  -- nothing but a name and an element has a cell
  | case3 t hname hindex =>
    rw [Expr.cell] at h
    · injection h
    · exact hname
    · exact hindex

/-- Which cell a target denotes depends on its subscripts, not on what the cell holds. -/
theorem Expr.cell_congr (t : Expr) (h : env.AgreeOn t.subscriptAtoms env') :
    t.cell lib env = t.cell lib env' := by
  induction t using Expr.root.induct with
  | case1 id => rfl
  | case2 b i ih =>
    obtain ⟨hb, hi⟩ := Env.AgreeOn.append h
    rw [Expr.cell, Expr.cell, ih hb, i.eval_congr lib hi]
  | case3 t hname hindex =>
    rw [Expr.cell, Expr.cell]
    all_goals assumption

end

/-! ## Lists -/

/-- The place in a list that an index means; a negative one counts from the end. -/
def position (length : Nat) (i : Int) : Option Nat :=
  let k := if 0 ≤ i then i else i + length
  if 0 ≤ k ∧ k < length then some k.toNat else none

/-- A position lies inside of the list. -/
theorem lt_of_position {length k : Nat} {i : Int} (h : position length i = some k) :
    k < length := by
  simp only [position] at h
  generalize (if 0 ≤ i then i else i + length) = j at h
  by_cases hrange : 0 ≤ j ∧ j < length
  · rw [if_pos hrange] at h
    injection h with h
    omega
  · rw [if_neg hrange] at h
    injection h

/-- An item is what stands at the position of its index, which may be counted from the end. -/
theorem itemAt_eq_position {α : Type} (items : List α) (i : Int) :
    itemAt items i = (position items.length i).bind (items[·]?) := by
  unfold itemAt position
  by_cases hi : 0 ≤ i
  · by_cases hlt : i < items.length
    · simp [hi, hlt]
    · have hnone : items[i.toNat]? = none := by
        rw [List.getElem?_eq_none_iff]
        omega
      rw [if_pos hi, hnone]
      simp [hi, hlt]
  -- a negative index counts from the end
  · by_cases hk : 0 ≤ i + items.length
    · have hlt : i + items.length < items.length := by omega
      simp [hi, hk, hlt]
    · simp [hi, hk]

/-- A value with another one at the place that the indices say. -/
def Value.put (new : Value φ) : List Int → Value φ → Except Failure (Value φ)
  | [], _ => .ok new
  | i :: is, .list items =>
    match position items.length i with
    | some k => do
      let item ← Value.put new is (items.getD k .none)
      return .list (items.set k item)
    | Option.none => .error .index
  | _ :: _, _ => .error .type

/-- To put something into a list is to put it into one of its items. -/
theorem Value.put_cons_eq_ok_iff {new old v : Value φ} {i : Int} {is : List Int} :
    Value.put new (i :: is) old = .ok v ↔
      ∃ items k item, old = .list items ∧ position items.length i = some k ∧
        Value.put new is (items.getD k .none) = .ok item ∧ .list (items.set k item) = v := by
  constructor
  · intro h
    -- only a list has items
    cases old with
    | list items =>
      rw [Value.put] at h
      cases hk : position items.length i with
      | none => simp [hk] at h
      | some k =>
        simp only [hk, bind_eq_ok_iff] at h
        obtain ⟨item, hitem, hv⟩ := h
        exact ⟨items, k, item, rfl, hk, hitem, Except.ok.inj hv⟩
    | _ => injection h
  · rintro ⟨items, k, item, rfl, hk, hitem, rfl⟩
    simp only [Value.put, hk, hitem]
    rfl

/-- The value at the place that the indices say. -/
def Value.get (v : Value φ) (indices : List Int) : Except Failure (Value φ) :=
  indices.foldlM (fun v i => v.item (.int i)) v

theorem Value.get_cons (v : Value φ) (i : Int) (is : List Int) :
    v.get (i :: is) = v.item (.int i) >>= fun u => u.get is := rfl

theorem Value.get_single {i : Int} (v : Value φ) : v.get [i] = v.item (.int i) :=
  bind_pure (v.item (.int i))

/-- Indices can be followed in two stretches. -/
theorem Value.get_append (v : Value φ) (is js : List Int) :
    v.get (is ++ js) = v.get is >>= fun u => u.get js := List.foldlM_append

theorem Value.item_list {items : List (Value φ)} {i : Int} {k : Nat}
    (hk : position items.length i = some k) :
    (Value.list items).item (.int i) = .ok (items.getD k .none) := by
  have hlt := lt_of_position hk
  rw [Value.item, itemAt_eq_position, hk, Option.bind_some, List.getElem?_eq_getElem hlt,
    List.getD_eq_getElem _ _ hlt]
  rfl

/-- What has been put in is found at its place. -/
theorem Value.get_of_put {new : Value φ} {is : List Int} {old v : Value φ}
    (h : Value.put new is old = .ok v) : v.get is = .ok new := by
  induction is generalizing old v with
  | nil =>
    injection h with h
    rw [← h]
    rfl
  | cons i is ih =>
    obtain ⟨items, k, item, rfl, hk, hitem, rfl⟩ := Value.put_cons_eq_ok_iff.mp h
    -- the list has kept its length, so the index means the same place
    have hplace : position (items.set k item).length i = some k := by
      rw [List.length_set, hk]
    have hlt := lt_of_position hplace
    rw [Value.get_cons, Value.item_list hplace, List.getD_eq_getElem _ _ hlt,
      List.getElem_set_self]
    exact ih hitem

/-- A string has strings for items, so no integer is found in it. -/
theorem Value.get_str_ne_int (s : String) (is : List Int) (n : Int) :
    (Value.str s : Value φ).get is ≠ .ok (.int n) := by
  induction is generalizing s with
  | nil => exact nofun
  | cons i is ih =>
    rw [Value.get_cons, Value.item]
    cases itemAt s.toList i with
    | none => exact nofun
    | some c => exact ih _

/-- Where an integer is, another value can be put. -/
theorem Value.exists_put_of_get {is : List Int} {old : Value φ} {n : Int}
    (h : old.get is = .ok (.int n)) (new : Value φ) : ∃ v, Value.put new is old = .ok v := by
  induction is generalizing old with
  | nil => exact ⟨new, rfl⟩
  | cons i is ih =>
    -- what has a number at the place is a list on the way there; an item of a text is a text
    cases old with
    | str s => exact absurd h (Value.get_str_ne_int s _ n)
    | list items =>
      rw [Value.get_cons] at h
      cases hk : position items.length i with
      | none =>
        rw [Value.item, itemAt_eq_position, hk] at h
        injection h
      | some k =>
        rw [Value.item_list hk] at h
        obtain ⟨item, hitem⟩ := ih h
        exact ⟨_, Value.put_cons_eq_ok_iff.mpr ⟨items, k, item, rfl, hk, hitem, rfl⟩⟩
    | _ => injection h

/-! ## States -/

/-- What lies outside of the program: the files of which a `READ` has met the end, and all else. -/
structure Outside (ω : Type) where
  atEnd : String → Bool
  world : ω

/-- The values of the names, and what lies outside. -/
structure State (φ ω : Type) where
  value : String → Option (Value φ)
  outside : Outside ω

namespace State

variable {σ τ : State φ ω} {c : Cell} {v : Value φ}

/-- What evaluation depends on. -/
def env (σ : State φ ω) : Env φ := ⟨σ.value, σ.outside.atEnd⟩

/-- A name gets another value. -/
def bind (σ : State φ ω) (id : String) (v : Value φ) : State φ ω :=
  { σ with value := Function.update σ.value id (some v) }

/-- The value that a cell holds. -/
def load (σ : State φ ω) (c : Cell) : Except Failure (Value φ) := do
  (← orFail .name (σ.value c.name)).get c.indices

/-- The state with a value stored into a cell. A name may be new, an element may not. -/
def store (σ : State φ ω) (c : Cell) (v : Value φ) : Except Failure (State φ ω) :=
  match c.indices with
  | [] => .ok (σ.bind c.name v)
  | i :: is => do
    let old ← orFail .name (σ.value c.name)
    return σ.bind c.name (← Value.put v (i :: is) old)

/-- The state with a value in a cell, which is left as it is where there is no such cell. -/
def set (σ : State φ ω) (c : Cell) (v : Value φ) : State φ ω :=
  match σ.store c v with
  | .ok τ => τ
  | .error _ => σ

@[simp] theorem value_bind (σ : State φ ω) (id : String) (v : Value φ) :
    (σ.bind id v).value = Function.update σ.value id (some v) := rfl

/-- Storing gives the name of the cell another value, in which the new one is found. -/
theorem store_eq_ok (h : σ.store c v = .ok τ) :
    ∃ w : Value φ, τ = σ.bind c.name w ∧ w.get c.indices = .ok v := by
  obtain ⟨name, indices⟩ := c
  unfold store at h
  cases indices with
  | nil =>
    injection h with h
    exact ⟨v, h.symm, rfl⟩
  -- the list is copied with the new element, and then bound to the name
  | cons i is =>
    simp only [bind_eq_ok_iff] at h
    obtain ⟨old, -, w, hw, hτ⟩ := h
    injection hτ with hτ
    exact ⟨w, hτ.symm, Value.get_of_put hw⟩

/-- A cell holds what was stored into it last. -/
theorem load_of_store (h : σ.store c v = .ok τ) : τ.load c = .ok v := by
  obtain ⟨w, rfl, hw⟩ := store_eq_ok h
  rw [load, value_bind, Function.update_self]
  exact hw

theorem value_of_store (h : σ.store c v = .ok τ) {id : String} (hid : id ≠ c.name) :
    τ.value id = σ.value id := by
  obtain ⟨w, rfl, -⟩ := store_eq_ok h
  exact Function.update_of_ne hid _ _

/-- Nothing outside of the program changes. -/
theorem outside_of_store (h : σ.store c v = .ok τ) : τ.outside = σ.outside := by
  obtain ⟨w, rfl, -⟩ := store_eq_ok h
  rfl

/-- Where storing goes through, it is the total one. -/
theorem set_of_store (h : σ.store c v = .ok τ) : σ.set c v = τ := by
  rw [set, h]

/-- The total store keeps the other names. -/
theorem value_set (σ : State φ ω) (v : Value φ) {id : String} (hid : id ≠ c.name) :
    (σ.set c v).value id = σ.value id := by
  unfold set
  cases h : σ.store c v with
  | ok τ => exact value_of_store h hid
  | error f => rfl

theorem outside_set (σ : State φ ω) (c : Cell) (v : Value φ) :
    (σ.set c v).outside = σ.outside := by
  unfold set
  cases h : σ.store c v with
  | ok τ => exact outside_of_store h
  | error f => rfl

/-- A cell that holds an integer can be stored into. -/
theorem exists_store_of_load {n : Int} (h : σ.load c = .ok (.int n)) (v : Value φ) :
    ∃ τ, σ.store c v = .ok τ := by
  obtain ⟨name, indices⟩ := c
  unfold load at h
  cases indices with
  | nil => exact ⟨σ.bind name v, rfl⟩
  | cons i is =>
    simp only [bind_eq_ok_iff] at h
    obtain ⟨old, hold, h⟩ := h
    obtain ⟨w, hw⟩ := Value.exists_put_of_get h v
    exact ⟨σ.bind name w, bind_eq_ok_iff.mpr ⟨old, hold, bind_eq_ok_iff.mpr ⟨w, hw, rfl⟩⟩⟩

end State

/-- A target has the value that its cell holds. -/
theorem Expr.eval_eq_load {lib : Library φ} {σ : State φ ω} {t : Expr} {c : Cell}
    (h : t.cell lib σ.env = .ok c) : t.eval lib σ.env = σ.load c := by
  -- along the indices of the target, from the name on
  induction t using Expr.root.induct generalizing c with
  | case1 id =>
    injection h with h
    subst h
    rw [Expr.eval, State.load]
    show orFail .name (σ.value id) = _
    cases orFail .name (σ.value id) <;> rfl
  | case2 b i ih =>
    obtain ⟨d, n, hd, hn, rfl⟩ := Expr.cell_index_eq_ok_iff.mp h
    rw [Expr.eval, ih hd, hn, State.load, State.load]
    cases orFail .name (σ.value d.name) with
    | error f => rfl
    | ok v =>
      -- following one index more is following all of them in one go
      show v.get d.indices >>= _ = v.get (d.indices ++ [n])
      rw [Value.get_append, funext (Value.get_single (i := n))]
      rfl
  | case3 t hname hindex =>
    rw [Expr.cell] at h
    · injection h
    · exact hname
    · exact hindex

end Plic.Python
