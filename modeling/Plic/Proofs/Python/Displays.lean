import Plic.Proofs.Python.Memory

/-!
# Lists that are written out

A list is written out with its one item in brackets, as a multiple of another list,
or as a comprehension. The texts for these are told apart by their lexemes, which
group in one way only, and each stands for steps that make new lists in memory.

A multiple of a list holds the items of that list again and again, so if an item is
a list, it is the same list each time. A comprehension computes its item anew for
each slot. This is all the difference between `[[0] * 3] * 2` and
`[[0] * 3 for _ in range(2)]`: both have two rows of three slots, but only the rows
of the second one are two lists.

Main results:

* `TextDisplays.unique` — a text stands for one display.
* `Display.Makes.row`, `Display.Makes.rows` — what is made is an array whose lists
  are new and different.
-/

namespace Plic.Python

/-! ## Grouping -/

/-- Numbers, strings and lists as they are written out. -/
inductive Display where
  | int (n : Nat)
  | str (s : String)
  /-- A list of one item. -/
  | single (item : Display)
  | times (left right : Display)
  /-- A list whose item is computed for one slot after another. -/
  | replicate (item count : Display)
deriving DecidableEq

/-- What is to be read. -/
inductive Part where
  | factor
  | product
  /-- What follows the factors that have been read. -/
  | after (read : Display)

/-- Lexemes group as a display. -/
inductive Displays : Part → List Lexeme → Display → Prop where
  | number {w : String} : w.toList ≠ [] → (∀ c ∈ w.toList, c.isDigit) →
      (w.toList.head? = some '0' → w = "0") →
      Displays .factor [.word w] (.int (Nat.ofDigitChars 10 w.toList 0))
  | literal (s : String) : Displays .factor [.literal s] (.str s)
  | list {ls : List Lexeme} {d : Display} :
      Displays .product ls d → Displays .factor (.mark '[' :: ls ++ [.mark ']']) (.single d)
  | comprehension {ls ms : List Lexeme} {d n : Display} :
      Displays .product ls d → Displays .product ms n →
      Displays .factor
        (.mark '[' :: (ls ++ .word "for" :: .word "_" :: .word "in" :: .word "range" :: .mark '(' ::
          (ms ++ [.mark ')', .mark ']'])))
        (.replicate d n)
  | first {ls ms : List Lexeme} {a d : Display} :
      Displays .factor ls a → Displays (.after a) ms d → Displays .product (ls ++ ms) d
  | last (a : Display) : Displays (.after a) [] a
  /-- Factors group to the left. -/
  | further {ls ms : List Lexeme} {a b d : Display} :
      Displays .factor ls b → Displays (.after (.times a b)) ms d →
      Displays (.after a) (.mark '*' :: ls ++ ms) d

/-- What follows does not belong to the part. -/
def Part.Ends : Part → List Lexeme → Prop
  | .factor, _ => True
  | _, rest => rest.head? ≠ some (.mark '*')

/-- Lexemes group in one way, up to where the part ends. -/
theorem Displays.unique {q : Part} {ls ls' r r' : List Lexeme} {d d' : Display}
    (h : Displays q ls d) (h' : Displays q ls' d') (hr : q.Ends r) (hr' : q.Ends r')
    (heq : ls ++ r = ls' ++ r') : d = d' ∧ r = r' := by
  induction h generalizing ls' r r' d' with
  | number =>
    cases h' with
    | number =>
      injection heq with hword hrest
      injection hword with hw
      exact ⟨by rw [hw], hrest⟩
    | _ => simp at heq
  | literal =>
    cases h' with
    | literal =>
      injection heq with hword hrest
      injection hword with hs
      exact ⟨by rw [hs], hrest⟩
    | _ => simp at heq
  | list _ ih =>
    cases h' with
    | number => simp at heq
    | literal => simp at heq
    | list h' =>
      simp only [List.cons_append, List.append_assoc, List.nil_append, List.cons.injEq,
        true_and] at heq
      obtain ⟨rfl, hrest⟩ := ih h' (by simp [Part.Ends]) (by simp [Part.Ends]) heq
      injection hrest with _ hrest
      exact ⟨rfl, hrest⟩
    | comprehension h' _ =>
      -- the two begin alike, and differ in what follows the item
      simp only [List.cons_append, List.append_assoc, List.nil_append, List.cons.injEq,
        true_and] at heq
      obtain ⟨-, hrest⟩ := ih h' (by simp [Part.Ends]) (by simp [Part.Ends]) heq
      simp at hrest
  | comprehension _ _ ih ihn =>
    cases h' with
    | number => simp at heq
    | literal => simp at heq
    | list h' =>
      simp only [List.cons_append, List.append_assoc, List.nil_append, List.cons.injEq,
        true_and] at heq
      obtain ⟨-, hrest⟩ := ih h' (by simp [Part.Ends]) (by simp [Part.Ends]) heq
      simp at hrest
    | comprehension h' hn' =>
      simp only [List.cons_append, List.append_assoc, List.nil_append, List.cons.injEq,
        true_and] at heq
      obtain ⟨rfl, hrest⟩ := ih h' (by simp [Part.Ends]) (by simp [Part.Ends]) heq
      simp only [List.cons.injEq, true_and] at hrest
      obtain ⟨rfl, hrest⟩ := ihn hn' (by simp [Part.Ends]) (by simp [Part.Ends]) hrest
      simp only [List.cons.injEq, true_and] at hrest
      exact ⟨rfl, hrest⟩
  | first _ _ ih ihmore =>
    cases h' with
    | first h' hmore' =>
      rw [List.append_assoc, List.append_assoc] at heq
      obtain ⟨rfl, hrest⟩ := ih h' trivial trivial heq
      exact ihmore hmore' hr hr' hrest
  | last a =>
    cases h' with
    | last => exact ⟨rfl, heq⟩
    | further =>
      -- one ends where the other goes on with a factor
      rw [List.nil_append] at heq
      subst heq
      exact absurd rfl hr
  | further _ _ ih ihmore =>
    cases h' with
    | last =>
      rw [List.nil_append] at heq
      subst heq
      exact absurd rfl hr'
    | further h' hmore' =>
      simp only [List.cons_append, List.append_assoc, List.cons.injEq, true_and] at heq
      obtain ⟨rfl, hrest⟩ := ih h' trivial trivial heq
      exact ihmore hmore' hr hr' hrest

/-- The text is that of the display. -/
def TextDisplays (text : String) (d : Display) : Prop :=
  ∃ ls, Lexed text ls ∧ Displays .product ls d

theorem TextDisplays.unique {text : String} {d d' : Display} (h : TextDisplays text d)
    (h' : TextDisplays text d') : d = d' := by
  obtain ⟨ls, hls, hd⟩ := h
  obtain ⟨ls', hls', hd'⟩ := h'
  obtain rfl : ls = ls' := Option.some.inj (hls.symm.trans hls')
  have hends : Part.product.Ends [] := by simp [Part.Ends]
  exact (hd.unique hd' hends hends rfl).1

/-- The digits of a number. -/
theorem displays_nat (n : Nat) : Displays .factor [.word (toString n)] (.int n) := by
  have hlist : (toString n).toList = Nat.toDigits 10 n := by
    rw [Nat.toString_eq_ofList_toDigits, String.toList_ofList]
  have hvalue : Nat.ofDigitChars 10 (toString n).toList 0 = n := by
    rw [hlist]
    exact Nat.ofDigitChars_ten_toDigits
  have hnumber : Displays .factor [.word (toString n)]
      (.int (Nat.ofDigitChars 10 (toString n).toList 0)) := by
    refine .number ?_ ?_ ?_
    · rw [hlist]
      exact Nat.toDigits_ne_nil
    · intro c hc
      rw [hlist] at hc
      exact Nat.isDigit_of_mem_toDigits (by decide) (by decide) hc
    · -- only the number zero is written with a zero in front
      intro hzero
      rw [hlist] at hzero
      obtain ⟨cs, hcs⟩ := List.head?_eq_some_iff.mp hzero
      rw [Nat.toString_eq_ofList_toDigits, hcs, eq_nil_of_toDigits_eq_zero_cons hcs]
  rwa [hvalue] at hnumber

theorem Expr.lexemes_natCast (n : Nat) : (Expr.int n).lexemes = [.word (toString n)] := by
  have hsign : ¬ (n : Int) < 0 := by omega
  rw [Expr.lexemes, intLexemes, if_neg hsign, Int.natAbs_natCast]

/-! ## What is made -/

section

variable {φ : Type}

/-- The product of two values. A multiple of a list is a new list with the same items. -/
def Heap.times (h : Heap φ) : Slot φ → Slot φ → Except Failure (Slot φ × Heap φ)
  | .int a, .int b => .ok (.int (a * b), h)
  | .str s, .int n | .int n, .str s => .ok (.str (String.join (List.replicate n.toNat s)), h)
  | .list p, .int n | .int n, .list p =>
    .ok (h.alloc (List.replicate n.toNat (h.slots p)).flatten)
  | _, _ => .error .type

/-- What is made again and again, one after another. -/
def repeatedly (make : Heap φ → Except Failure (Slot φ × Heap φ)) :
    Nat → Heap φ → Except Failure (List (Slot φ) × Heap φ)
  | 0, h => .ok ([], h)
  | k + 1, h => do
    let (x, h) ← make h
    let (xs, h) ← repeatedly make k h
    return (x :: xs, h)

/-- The value of a display, and the lists that there are then. -/
def Display.build : Display → Heap φ → Except Failure (Slot φ × Heap φ)
  | .int n, h => .ok (.int n, h)
  | .str s, h => .ok (.str s, h)
  | .single d, h => do
    let (x, h) ← d.build h
    return h.alloc [x]
  | .times a b, h => do
    let (x, h) ← a.build h
    let (y, h) ← b.build h
    h.times x y
  | .replicate d n, h => do
    match ← n.build h with
    | (.int k, h) => do
      let (xs, h) ← repeatedly d.build k.toNat h
      return h.alloc xs
    | _ => .error .type

/-- The display makes an array with these numbers of slots, whose elements are as told. All of its
lists are new, and the lists that there were are left as they are. -/
def Display.Makes (d : Display) (P : Slot φ → Prop) (ns : List Nat) : Prop :=
  ∀ h : Heap φ, ∃ x more footprint, d.build h = .ok (x, h ++ more) ∧
    Heap.Holds (h ++ more) P ns x footprint ∧ ∀ q ∈ footprint, h.length ≤ q

theorem Display.makes_int (n : Nat) :
    (Display.int n).Makes (fun x : Slot φ => x = .int n) [] := by
  intro h
  exact ⟨.int n, [], [], by rw [List.append_nil]; rfl, ⟨rfl, rfl⟩, by simp⟩

theorem Display.makes_str (s : String) :
    (Display.str s).Makes (fun x : Slot φ => x = .str s) [] := by
  intro h
  exact ⟨.str s, [], [], by rw [List.append_nil]; rfl, ⟨rfl, rfl⟩, by simp⟩

/-- A new list has the slots that it was made with. -/
theorem Heap.slots_append (h : Heap φ) (slots : List (Slot φ)) :
    Heap.slots (h ++ [slots]) h.length = slots := by
  simp [Heap.slots]

/-- A multiple of a list of one element is a list of elements. -/
theorem Display.Makes.row {d : Display} {P : Slot φ → Prop} (hd : d.Makes P []) (n : Nat) :
    (Display.times (.single d) (.int n)).Makes P [n] := by
  intro h
  obtain ⟨x, more, _, hbuild, ⟨hx, rfl⟩, -⟩ := hd h
  let one : Heap φ := h ++ more ++ [[x]]
  -- the list of one is made first, and then the row that repeats its slot
  have hsingle : (Display.single d).build h = .ok (.list (h ++ more).length, one) := by
    rw [Display.build, hbuild]
    rfl
  have hitems : (List.replicate n (Heap.slots one (h ++ more).length)).flatten =
      List.replicate n x := by
    rw [Heap.slots_append]
    simp
  have hrun : (Display.times (.single d) (.int n)).build h =
      .ok (.list one.length, one ++ [List.replicate n x]) := by
    rw [Display.build, hsingle]
    show Heap.times one (.list (h ++ more).length) (.int n) = _
    rw [Heap.times, Int.toNat_natCast, hitems]
    rfl
  have hslots : Heap.slots (one ++ [List.replicate n x]) one.length = List.replicate n x :=
    Heap.slots_append _ _
  refine ⟨.list one.length, more ++ [[x]] ++ [List.replicate n x], [one.length], ?_, ?_, ?_⟩
  · rw [hrun]
    simp [one]
  -- the slot holds no list, so that nothing is shared between the elements
  · rw [← List.append_assoc, ← List.append_assoc]
    refine ⟨one.length, List.replicate n [], rfl, by simp, by simp [one], ?_,
      List.length_replicate, by simp, fun k hk => ?_⟩
    · rw [hslots, List.length_replicate]
    · rw [hslots, List.getD_replicate _ hk, List.getD_replicate _ hk]
      exact ⟨hx, rfl⟩
  · simp [one]

/-- Rows that are made one after another have nothing in common. -/
theorem Display.Makes.repeatedly {d : Display} {P : Slot φ → Prop} {ns : List Nat}
    (hd : d.Makes P ns) (n : Nat) (h : Heap φ) :
    ∃ xs more, ∃ parts : List (List Nat), repeatedly d.build n h = .ok (xs, h ++ more) ∧
      xs.length = n ∧ parts.length = n ∧ parts.flatten.Nodup ∧ (∀ q ∈ parts.flatten, h.length ≤ q) ∧
      ∀ k < n, Heap.Holds (h ++ more) P ns (xs.getD k .none) (parts.getD k []) := by
  induction n generalizing h with
  | zero => exact ⟨[], [], [], by rw [List.append_nil]; rfl, rfl, rfl, by simp, by simp, by simp⟩
  | succ n ih =>
    obtain ⟨x, more, footprint, hbuild, hx, hnew⟩ := hd h
    obtain ⟨xs, others, parts, hrest, hxs, hparts, hnodup, hlater, hrows⟩ := ih (h ++ more)
    refine ⟨x :: xs, more ++ others, footprint :: parts, ?_, by simp [hxs], by simp [hparts], ?_,
      ?_, ?_⟩
    · rw [Python.repeatedly, hbuild]
      show (Python.repeatedly d.build n (h ++ more) >>= _) = _
      rw [hrest, ← List.append_assoc]
      rfl
    · -- the lists of the first row were there before those of the others
      rw [List.flatten_cons]
      refine hx.nodup.append hnodup fun q hq hq' => ?_
      have hlt := hx.lt q hq
      have hle := hlater q hq'
      omega
    · rw [List.flatten_cons, List.forall_mem_append]
      refine ⟨hnew, fun q hq => ?_⟩
      have hle := hlater q hq
      rw [List.length_append] at hle
      omega
    · rw [← List.append_assoc]
      intro k hk
      cases k with
      | zero => exact hx.append others
      | succ k => exact hrows k (Nat.lt_of_succ_lt_succ hk)

/-- A comprehension makes an array of rows. -/
theorem Display.Makes.rows {d : Display} {P : Slot φ → Prop} {ns : List Nat} (hd : d.Makes P ns)
    (n : Nat) : (Display.replicate d (.int n)).Makes P (n :: ns) := by
  intro h
  obtain ⟨xs, more, parts, hrun, hxs, hparts, hnodup, hnew, hrows⟩ := hd.repeatedly n h
  have hslots : Heap.slots (h ++ more ++ [xs]) (h ++ more).length = xs := Heap.slots_append _ _
  refine ⟨.list (h ++ more).length, more ++ [xs], (h ++ more).length :: parts.flatten, ?_, ?_, ?_⟩
  · show (Python.repeatedly d.build (n : Int).toNat h >>= _) = _
    rw [Int.toNat_natCast, hrun, ← List.append_assoc]
    rfl
  · rw [← List.append_assoc]
    refine ⟨(h ++ more).length, parts, rfl, rfl, by simp, by rw [hslots, hxs], hparts, ?_,
      fun k hk => ?_⟩
    · refine List.nodup_cons.mpr ⟨fun hmem => ?_, hnodup⟩
      -- the rows were there before the list of them
      obtain ⟨part, hpart, hmem⟩ := List.mem_flatten.mp hmem
      obtain ⟨k, hk, rfl⟩ := List.getElem_of_mem hpart
      have hrow := hrows k (hparts ▸ hk)
      rw [List.getD_eq_getElem _ _ hk] at hrow
      exact absurd (hrow.lt _ hmem) (Nat.lt_irrefl _)
    · rw [hslots]
      exact (hrows k hk).append [xs]
  · rw [List.forall_mem_cons]
    exact ⟨by simp, hnew⟩

/-- Makes what is written and binds a name to it. -/
def Memory.make (m : Memory φ) (name : String) (d : Display) : Except Failure (Memory φ) := do
  let (x, h) ← d.build m.heap
  return ⟨Function.update m.value name (some x), h⟩

/-- A name that is given what a display makes stores an array. -/
theorem Display.Makes.stores {d : Display} {P : Slot φ → Prop} {ns : List Nat}
    (hd : d.Makes P ns) (m : Memory φ) (name : String) :
    ∃ m', m.make name d = .ok m' ∧ m'.Stores P name ns := by
  obtain ⟨x, more, footprint, hbuild, hx, -⟩ := hd m.heap
  refine ⟨⟨Function.update m.value name (some x), m.heap ++ more⟩, ?_, x, footprint, ?_, hx⟩
  · rw [Memory.make, hbuild]
    rfl
  · exact Function.update_self name (some x) m.value

def Display.storeRead (d : Display) : Except Failure (Slot Empty) := do
  let (x, h) ← d.build []
  let h ← h.store (.int 7) x [0, 2]
  h.load x [1, 2]

-- the rows of `[[0] * 3] * 2` are one list, and those of `[[0] * 3 for _ in range(2)]` are two
example : (Display.times (.single (.times (.single (.int 0)) (.int 3))) (.int 2)).storeRead =
    .ok (.int 7) := rfl

example : (Display.replicate (.times (.single (.int 0)) (.int 3)) (.int 2)).storeRead =
    .ok (.int 0) := rfl

end

end Plic.Python
