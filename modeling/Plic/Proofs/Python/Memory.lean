import Plic.Proofs.Python.State

/-!
# Lists in memory

A list of Python is an object with an address. A name or a slot holds the address,
so two of them can hold the same list, and then what is stored through one is seen
through the other. An array is a list, or a list of arrays, of given numbers of
slots; it is stored properly if no list is met twice in it. The addresses of its
lists are its footprint.

What is stored into one element of an array changes no other element, and nothing
outside of its footprint. This is an induction over the dimensions: a store into a
row changes the footprint of this row, and the other rows have other footprints.

Main results:

* `Heap.Holds.load` — the elements of an array can be read.
* `Heap.Holds.store` — storing changes one element.
-/

namespace Plic.Python

variable {φ : Type}

/-- What a name or a slot of a list holds. -/
inductive Slot (φ : Type) where
  | int (n : Int)
  | float (x : φ)
  | str (s : String)
  | none
  /-- A list, by its address. -/
  | list (address : Nat)
deriving DecidableEq

/-- The lists that there are, by address. -/
abbrev Heap (φ : Type) := List (List (Slot φ))

namespace Heap

/-- The slots of the list at an address. -/
def slots (h : Heap φ) (p : Nat) : List (Slot φ) := h.getD p []

/-- A new list at the next free address. -/
def alloc (h : Heap φ) (slots : List (Slot φ)) : Slot φ × Heap φ := (.list h.length, h ++ [slots])

/-- What an index selects from a list or a string. -/
def item (h : Heap φ) : Slot φ → Int → Except Failure (Slot φ)
  | .list p, i =>
    match position (h.slots p).length i with
    | some k => .ok ((h.slots p).getD k .none)
    | Option.none => .error .index
  | .str s, i =>
    match itemAt s.toList i with
    | some c => .ok (.str (String.singleton c))
    | Option.none => .error .index
  | _, _ => .error .type

/-- What indices select one after another. -/
def load (h : Heap φ) (x : Slot φ) (indices : List Int) : Except Failure (Slot φ) :=
  indices.foldlM h.item x

/-- A slot of a list is replaced. All indices but the last are followed to another list. -/
def store (h : Heap φ) (new : Slot φ) : Slot φ → List Int → Except Failure (Heap φ)
  | x, i :: j :: is => do
    let y ← h.item x i
    h.store new y (j :: is)
  | .list p, [i] =>
    match position (h.slots p).length i with
    | some k => .ok (h.set p ((h.slots p).set k new))
    | Option.none => .error .index
  | _, _ => .error .type

theorem load_nil (h : Heap φ) (x : Slot φ) : h.load x [] = .ok x := rfl

/-- An index is followed to an item, and the others from there. -/
theorem load_cons (h : Heap φ) (x : Slot φ) (i : Int) (is : List Int) :
    h.load x (i :: is) = h.item x i >>= fun y => h.load y is := rfl

/-- Replacing a list changes the list at this address only. -/
theorem slots_set {h : Heap φ} {p : Nat} (hp : p < h.length) (row : List (Slot φ)) (q : Nat) :
    Heap.slots (h.set p row) q = if q = p then row else h.slots q := by
  unfold slots
  by_cases hq : q = p
  · subst hq
    rw [if_pos rfl, List.getD_eq_getElem _ _ (by simpa using hp), List.getElem_set_self]
  · rw [if_neg hq, List.getD_eq_getElem?_getD, List.getD_eq_getElem?_getD,
      List.getElem?_set_ne (Ne.symm hq)]

/-! ## Arrays -/

/-- The list at an address has `n` slots, and each holds a row of which the footprint is known. No
list is met twice. -/
structure Rows (h : Heap φ) (row : Slot φ → List Nat → Prop) (n p : Nat)
    (parts : List (List Nat)) : Prop where
  lt     : p < h.length
  length : (h.slots p).length = n
  count  : parts.length = n
  nodup  : (p :: parts.flatten).Nodup
  row    : ∀ k < n, row ((h.slots p).getD k .none) (parts.getD k [])

/-- The slot holds an array with these numbers of slots in its dimensions. Its elements are as told,
and its lists are at the addresses of the footprint. -/
def Holds (h : Heap φ) (P : Slot φ → Prop) : List Nat → Slot φ → List Nat → Prop
  | [], x, footprint => P x ∧ footprint = []
  | n :: ns, x, footprint =>
    ∃ p parts, x = .list p ∧ footprint = p :: parts.flatten ∧ h.Rows (h.Holds P ns) n p parts

/-- The indices select the places in the dimensions. -/
inductive Resolves : List Nat → List Int → List Nat → Prop where
  | nil : Resolves [] [] []
  | cons {n k : Nat} {i : Int} {ns ks : List Nat} {is : List Int} :
      position n i = some k → Resolves ns is ks → Resolves (n :: ns) (i :: is) (k :: ks)

/-- What is in one part is in all of them together. -/
theorem mem_flatten_of_getD {parts : List (List Nat)} {k q : Nat} (h : q ∈ parts.getD k []) :
    q ∈ parts.flatten := by
  by_cases hk : k < parts.length
  · rw [List.getD_eq_getElem _ _ hk] at h
    exact List.mem_flatten.mpr ⟨_, List.getElem_mem hk, h⟩
  · rw [List.getD_eq_default _ _ (by omega)] at h
    cases h

/-- The footprints of two rows have nothing in common. -/
theorem not_mem_of_getD {parts : List (List Nat)} (hparts : parts.flatten.Nodup) {k l q : Nat}
    (hne : k ≠ l) (h : q ∈ parts.getD k []) : q ∉ parts.getD l [] := by
  -- a part that is out of range is empty
  by_cases hk : k < parts.length
  · by_cases hl : l < parts.length
    · have hdisjoint := List.pairwise_iff_getElem.mp (List.nodup_flatten.mp hparts).2
      rw [List.getD_eq_getElem _ _ hk] at h
      rw [List.getD_eq_getElem _ _ hl]
      rcases Nat.lt_or_gt_of_ne hne with hlt | hgt
      · exact fun h' => hdisjoint k l hk hl hlt h h'
      · exact fun h' => hdisjoint l k hl hk hgt h' h
    · rw [List.getD_eq_default _ _ (by omega)]
      exact List.not_mem_nil
  · rw [List.getD_eq_default _ _ (by omega)] at h
    cases h

section

variable {h h' : Heap φ} {P : Slot φ → Prop} {n : Nat} {ns : List Nat} {x : Slot φ}
  {footprint : List Nat}

theorem Holds.nodup (hx : h.Holds P ns x footprint) : footprint.Nodup := by
  cases ns with
  | nil =>
    obtain ⟨-, rfl⟩ := hx
    exact List.nodup_nil
  | cons n ns =>
    obtain ⟨p, parts, -, rfl, hrows⟩ := hx
    exact hrows.nodup

/-- The lists of an array exist. -/
theorem Holds.lt (hx : h.Holds P ns x footprint) : ∀ q ∈ footprint, q < h.length := by
  induction ns generalizing x footprint with
  | nil =>
    obtain ⟨-, rfl⟩ := hx
    exact List.forall_mem_nil _
  | cons n ns ih =>
    obtain ⟨p, parts, rfl, rfl, hrows⟩ := hx
    rw [List.forall_mem_cons]
    refine ⟨hrows.lt, fun q hq => ?_⟩
    -- the list itself, or one that is below one of its slots
    obtain ⟨part, hpart, hmem⟩ := List.mem_flatten.mp hq
    obtain ⟨k, hk, rfl⟩ := List.getElem_of_mem hpart
    refine ih (hrows.row k (hrows.count ▸ hk)) q ?_
    rwa [List.getD_eq_getElem _ _ hk]

/-- An array stays as it is where its lists do. -/
theorem Holds.congr (hx : h.Holds P ns x footprint) (hlength : h.length ≤ h'.length)
    (hsame : ∀ q ∈ footprint, h'.slots q = h.slots q) : h'.Holds P ns x footprint := by
  induction ns generalizing x footprint with
  | nil => exact hx
  | cons n ns ih =>
    obtain ⟨p, parts, rfl, rfl, hrows⟩ := hx
    rw [List.forall_mem_cons] at hsame
    have hp : p < h'.length := Nat.lt_of_lt_of_le hrows.lt hlength
    refine ⟨p, parts, rfl, rfl, hp, by rw [hsame.1, hrows.length], hrows.count, hrows.nodup,
      fun k hk => ?_⟩
    rw [hsame.1]
    exact ih (hrows.row k hk) fun q hq => hsame.2 q (mem_flatten_of_getD hq)

theorem Holds.imp {Q : Slot φ → Prop} (hx : h.Holds P ns x footprint) (hPQ : ∀ y, P y → Q y) :
    h.Holds Q ns x footprint := by
  induction ns generalizing x footprint with
  | nil => exact ⟨hPQ x hx.1, hx.2⟩
  | cons n ns ih =>
    obtain ⟨p, parts, rfl, rfl, hrows⟩ := hx
    exact ⟨p, parts, rfl, rfl, hrows.lt, hrows.length, hrows.count, hrows.nodup,
      fun k hk => ih (hrows.row k hk)⟩

/-- New lists do not touch those that were there. -/
theorem Holds.append (hx : h.Holds P ns x footprint) (more : Heap φ) :
    Heap.Holds (h ++ more) P ns x footprint := by
  refine hx.congr (by simp) fun q hq => ?_
  have hlt := hx.lt q hq
  rw [slots, slots, List.getD_append _ _ _ _ hlt]

theorem item_list {p k : Nat} {i : Int} (hk : position (h.slots p).length i = some k) :
    h.item (.list p) i = .ok ((h.slots p).getD k .none) := by
  rw [item, hk]

/-- To read from an array is to read from a row of it. -/
theorem Rows.load {row : Slot φ → List Nat → Prop} {p k : Nat} {parts : List (List Nat)} {i : Int}
    (hrows : h.Rows row n p parts) (hk : position n i = some k) (is : List Int) :
    h.load (.list p) (i :: is) = h.load ((h.slots p).getD k .none) is := by
  rw [← hrows.length] at hk
  rw [load_cons, item_list hk]
  rfl

/-- Every element of an array can be read. -/
theorem Holds.load {is : List Int} {ks : List Nat} (hx : h.Holds P ns x footprint)
    (his : Resolves ns is ks) : ∃ y, h.load x is = .ok y ∧ P y := by
  induction his generalizing x footprint with
  | nil => exact ⟨x, rfl, hx.1⟩
  | cons hk _ ih =>
    obtain ⟨p, parts, rfl, -, hrows⟩ := hx
    rw [hrows.load hk]
    exact ih (hrows.row _ (lt_of_position hk))

/-- What is read from an array depends on its lists only. -/
theorem Holds.load_congr {is : List Int} {ks : List Nat} (hx : h.Holds P ns x footprint)
    (his : Resolves ns is ks) (hlength : h.length ≤ h'.length)
    (hsame : ∀ q ∈ footprint, h'.slots q = h.slots q) : h'.load x is = h.load x is := by
  induction his generalizing x footprint with
  | nil => rfl
  | @cons n k i ns ks is hk _ ih =>
    have hx' := hx.congr hlength hsame
    obtain ⟨p, parts, rfl, rfl, hrows⟩ := hx
    obtain ⟨_, _, ⟨⟩, -, hrows'⟩ := hx'
    rw [List.forall_mem_cons] at hsame
    rw [hrows.load hk, hrows'.load hk, hsame.1]
    exact ih (hrows.row k (lt_of_position hk)) fun q hq => hsame.2 q (mem_flatten_of_getD hq)

end

/-! ## Storing -/

/-- One element of an array has been changed: the array is still stored properly, nothing outside of
it has changed, and what is read is the new element at its place and what was there before
elsewhere. -/
structure Changed (h h' : Heap φ) (P : Slot φ → Prop) (ns : List Nat) (x : Slot φ)
    (footprint ks : List Nat) (new : Slot φ) : Prop where
  length  : h'.length = h.length
  holds   : h'.Holds P ns x footprint
  outside : ∀ q, q ∉ footprint → h'.slots q = h.slots q
  read    : ∀ js ls, Resolves ns js ls →
    h'.load x js = if ls = ks then .ok new else h.load x js

section

variable {h h' : Heap φ} {P : Slot φ → Prop} {n p k : Nat} {i : Int} {ns ks : List Nat}
  {parts : List (List Nat)} {new : Slot φ}

/-- A store into a list of elements. -/
theorem Rows.store_element (hrows : h.Rows (h.Holds P []) n p parts) (hk : position n i = some k)
    (hnew : P new) :
    ∃ h', h.store new (.list p) [i] = .ok h' ∧
      Changed h h' P [n] (.list p) (p :: parts.flatten) [k] new := by
  have hslots := slots_set hrows.lt ((h.slots p).set k new)
  have hself : Heap.slots (h.set p ((h.slots p).set k new)) p = (h.slots p).set k new := by
    rw [hslots, if_pos rfl]
  -- the slot at the position is new, and all others are as before
  have hget : ∀ l < n, ((h.slots p).set k new).getD l .none =
      if l = k then new else (h.slots p).getD l .none := by
    intro l hl
    rw [← hrows.length] at hl
    rw [List.getD_eq_getElem _ _ (by simpa using hl), List.getElem_set,
      List.getD_eq_getElem _ _ hl]
    simp only [eq_comm]
  -- the list has its length still, and an element in each of its slots
  have hrows' : Heap.Rows (h.set p ((h.slots p).set k new))
      (Heap.Holds (h.set p ((h.slots p).set k new)) P []) n p parts := by
    refine ⟨by simpa using hrows.lt, by rw [hself, List.length_set, hrows.length], hrows.count,
      hrows.nodup, fun l hl => ?_⟩
    rw [hself, hget l hl]
    have hold := hrows.row l hl
    by_cases hlk : l = k
    · rw [if_pos hlk]
      exact ⟨hnew, hold.2⟩
    · rw [if_neg hlk]
      exact hold
  refine ⟨h.set p ((h.slots p).set k new), by rw [Heap.store, hrows.length, hk], List.length_set,
    ⟨p, parts, rfl, rfl, hrows'⟩, fun q hq => ?_, ?_⟩
  -- nothing outside of the footprint was written
  · have hne : q ≠ p := fun heq => hq (heq ▸ List.mem_cons_self)
    rw [hslots, if_neg hne]
  -- one element has changed, the others have not
  · rintro js ls (_ | ⟨hl, ⟨⟩⟩)
    rename_i l j
    rw [hrows.load hl, hrows'.load hl, hself, hget l (lt_of_position hl), load_nil, load_nil]
    by_cases hlk : l = k
    · rw [if_pos hlk, if_pos (by rw [hlk])]
    · rw [if_neg hlk, if_neg (by simpa using hlk)]

/-- A store into one row of an array. -/
theorem Rows.changed (hrows : h.Rows (h.Holds P ns) n p parts)
    (hrow : Changed h h' P ns ((h.slots p).getD k .none) (parts.getD k []) ks new) :
    Changed h h' P (n :: ns) (.list p) (p :: parts.flatten) (k :: ks) new := by
  obtain ⟨hnot, hparts⟩ := List.nodup_cons.mp hrows.nodup
  have hlength : h.length ≤ h'.length := Nat.le_of_eq hrow.length.symm
  -- the list of the rows is none of the lists of the row
  have hself : h'.slots p = h.slots p := hrow.outside p fun hp => hnot (mem_flatten_of_getD hp)
  have hother : ∀ l, l ≠ k → ∀ q ∈ parts.getD l [], h'.slots q = h.slots q := fun l hl q hq =>
    hrow.outside q (not_mem_of_getD hparts hl hq)
  have hrows' : h'.Rows (h'.Holds P ns) n p parts := by
    refine ⟨hrow.length ▸ hrows.lt, by rw [hself, hrows.length], hrows.count, hrows.nodup,
      fun l hl => ?_⟩
    rw [hself]
    by_cases hlk : l = k
    · rw [hlk]
      exact hrow.holds
    · exact (hrows.row l hl).congr hlength (hother l hlk)
  refine ⟨hrow.length, ⟨p, parts, rfl, rfl, hrows'⟩, fun q hq => ?_, ?_⟩
  · rw [List.mem_cons, not_or] at hq
    exact hrow.outside q fun hmem => hq.2 (mem_flatten_of_getD hmem)
  · rintro _ _ (_ | @⟨_, l, j, _, ls, js, hl, hjs⟩)
    rw [hrows.load hl, hrows'.load hl, hself]
    by_cases hlk : l = k
    · rw [hlk, hrow.read js ls hjs]
      simp only [List.cons.injEq, true_and]
    · rw [if_neg (by simp [hlk])]
      exact (hrows.row l (lt_of_position hl)).load_congr hjs hlength (hother l hlk)

/-- A store into an element of an array changes this element. -/
theorem Holds.store {x : Slot φ} {footprint : List Nat} {is : List Int}
    (hx : h.Holds P (n :: ns) x footprint) (his : Resolves (n :: ns) is ks) (hnew : P new) :
    ∃ h', h.store new x is = .ok h' ∧ Changed h h' P (n :: ns) x footprint ks new := by
  -- the last index stores, and those before it select a row
  induction ns generalizing n x footprint is ks with
  | nil =>
    obtain ⟨p, parts, rfl, rfl, hrows⟩ := hx
    obtain _ | ⟨hk, ⟨⟩⟩ := his
    exact hrows.store_element hk hnew
  | cons m ns ih =>
    obtain ⟨p, parts, rfl, rfl, hrows⟩ := hx
    obtain _ | @⟨_, k, i, _, ks, is, hk, his⟩ := his
    have hlt := lt_of_position hk
    obtain ⟨h', hstore, hchanged⟩ := ih (hrows.row k hlt) his
    refine ⟨h', ?_, hrows.changed hchanged⟩
    obtain _ | @⟨_, _, j, _, _, is, _, _⟩ := his
    rw [← hrows.length] at hk
    rw [Heap.store, item_list hk]
    exact hstore

end

end Heap

/-! ## Names -/

/-- What the names hold, and the lists. -/
structure Memory (φ : Type) where
  value : String → Option (Slot φ)
  heap : Heap φ

namespace Memory

/-- The slot that a cell of the memory denotes. -/
def load (m : Memory φ) (c : Cell) : Except Failure (Slot φ) :=
  match m.value c.name with
  | some x => m.heap.load x c.indices
  | none => .error .name

/-- Binds a name, or stores into a slot of the list that it holds. -/
def store (m : Memory φ) (c : Cell) (new : Slot φ) : Except Failure (Memory φ) :=
  match c.indices, m.value c.name with
  | [], _ => .ok { m with value := Function.update m.value c.name (some new) }
  | _ :: _, none => .error .name
  | i :: is, some x => (m.heap.store new x (i :: is)).map fun h => { m with heap := h }

/-- The name holds an array with these numbers of slots, whose elements are as told. -/
def Stores (m : Memory φ) (P : Slot φ → Prop) (name : String) (ns : List Nat) : Prop :=
  ∃ x footprint, m.value name = some x ∧ m.heap.Holds P ns x footprint

variable {m : Memory φ} {P : Slot φ → Prop} {name : String} {ns ks : List Nat} {is : List Int}

theorem Stores.imp {Q : Slot φ → Prop} (hm : m.Stores P name ns) (hPQ : ∀ y, P y → Q y) :
    m.Stores Q name ns := by
  obtain ⟨x, footprint, hvalue, hx⟩ := hm
  exact ⟨x, footprint, hvalue, hx.imp hPQ⟩

/-- Every element of a stored array can be read. -/
theorem Stores.load (hm : m.Stores P name ns) (his : Heap.Resolves ns is ks) :
    ∃ y, m.load ⟨name, is⟩ = .ok y ∧ P y := by
  obtain ⟨x, footprint, hvalue, hx⟩ := hm
  obtain ⟨y, hy, hP⟩ := hx.load his
  exact ⟨y, by simp only [Memory.load, hvalue, hy], hP⟩

/-- A store into an element of the array that a name holds changes this element. -/
theorem Stores.store (hm : m.Stores P name ns) (hns : ns ≠ []) (his : Heap.Resolves ns is ks)
    {new : Slot φ} (hnew : P new) :
    ∃ m', m.store ⟨name, is⟩ new = .ok m' ∧ m'.Stores P name ns ∧
      ∀ js ls, Heap.Resolves ns js ls →
        m'.load ⟨name, js⟩ = if ls = ks then .ok new else m.load ⟨name, js⟩ := by
  obtain ⟨x, footprint, hvalue, hx⟩ := hm
  cases his with
  | nil => exact absurd rfl hns
  | cons hk his =>
    -- the variable holds the same list as before; only the heap is another
    obtain ⟨h', hstore, hchanged⟩ := hx.store (.cons hk his) hnew
    refine ⟨{ m with heap := h' }, ?_, ⟨x, footprint, hvalue, hchanged.holds⟩, fun js ls hjs => ?_⟩
    · simp only [Memory.store, hvalue, hstore, Except.map]
    · simp only [Memory.load, hvalue]
      exact hchanged.read js ls hjs

end Memory

end Plic.Python
