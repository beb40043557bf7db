import Plic.Proofs.Python.Render

/-!
# The parentheses that a tree needs

Parentheses leave no trace in a tree, but where they stand can be told by the other tokens: the
place of an opening parenthesis is how many tokens that are no parentheses stand before it. A tree
needs one in front of each operand that holds together less tightly than its position asks for, and
in front of the arguments of each call. Nothing else can take its part, whoever writes the tree.

Main result: `Groups.needs_le_opens` — tokens that group as a tree have opening parentheses in all
places where the tree needs them, at least as many as it needs there.
-/

namespace Plic.Python

/-! ## Places of parentheses -/

/-- How many of the tokens are no parentheses. -/
def width : List Tok → Nat
  | [] => 0
  | .lparen :: xs => width xs
  | .rparen :: xs => width xs
  | _ :: xs => 1 + width xs

/-- The places of the opening parentheses: for each of them, how many tokens that are no parentheses
stand before it. -/
def opens : List Tok → Multiset Nat
  | [] => 0
  | .lparen :: xs => 0 ::ₘ opens xs
  | .rparen :: xs => opens xs
  | _ :: xs => (opens xs).map (1 + ·)

/-- The places in things that stand one behind the other, from the width of each and the places in
it. -/
def inRow : List (Nat × Multiset Nat) → Multiset Nat
  | [] => 0
  | (w, s) :: row => s + (inRow row).map (w + ·)

/-- A place in front of all others if one is needed. -/
def raise (needed : Bool) (s : Multiset Nat) : Multiset Nat := if needed then 0 ::ₘ s else s

/-- Rows that are put together have their widths added. -/
theorem width_append (xs ys : List Tok) : width (xs ++ ys) = width xs + width ys := by
  induction xs with
  | nil => simp [width]
  | cons k xs ih => cases k <;> simp [width, ih, Nat.add_assoc]

/-- Places that are moved twice are moved by the sum. -/
theorem map_add_map_add (s : Multiset Nat) (m n : Nat) :
    (s.map (n + ·)).map (m + ·) = s.map (m + n + ·) := by
  rw [Multiset.map_map]
  exact Multiset.map_congr rfl fun k _ => (Nat.add_assoc m n k).symm

/-- Parentheses of the second row are moved by the width of the first. -/
theorem opens_append (xs ys : List Tok) :
    opens (xs ++ ys) = opens xs + (opens ys).map (width xs + ·) := by
  induction xs with
  | nil => simp [opens, width]
  | cons k xs ih =>
    cases k with
    | lparen | rparen => simp [opens, ih, width]
    | _ => simp only [List.cons_append, opens, ih, Multiset.map_add, map_add_map_add, width]

/-- Those of the first row stay where they are. -/
theorem opens_le_append (xs ys : List Tok) : opens xs ≤ opens (xs ++ ys) := by
  rw [opens_append]
  exact Multiset.le_add_right _ _

/-! ## What a tree needs -/

/-- How tightly a tree holds together. -/
def Tree.level : Tree → Level
  | .neg _ => .sign
  | .binary op _ _ => op.level
  | _ => .atom

mutual

/-- How many tokens of a tree are no parentheses. -/
def Tree.width : Tree → Nat
  | .int _ | .str _ | .name _ => 1
  | .neg t => 1 + t.width
  | .binary _ a b => a.width + 1 + b.width
  | .index b i => b.width + 1 + i.width + 1
  | .sliceFrom b low => b.width + 1 + low.width + 2
  | .slice b low high => b.width + 1 + low.width + 1 + high.width + 1
  | .member b _ => b.width + 2
  | .call f args => f.width + widthAll args

/-- How many tokens of arguments are no parentheses. -/
def widthAll : List Tree → Nat
  | [] => 0
  | [t] => t.width
  | t :: u :: ts => t.width + 1 + widthAll (u :: ts)

end

mutual

/-- The places of the parentheses inside a tree: one in front of each operand that holds together
less tightly than its place asks for, and one in front of the arguments of each call. -/
def Tree.places : Tree → Multiset Nat
  | .int _ | .str _ | .name _ => 0
  | .neg t => inRow [(1, 0), (t.width, raise (t.level.rank < Level.sign.rank) t.places)]
  | .binary op a b =>
    inRow [(a.width, raise (a.level.rank < op.level.rank) a.places), (1, 0),
      (b.width, raise (b.level.rank < op.level.tighter.rank) b.places)]
  | .index b i =>
    inRow [(b.width, raise (b.level.rank < Level.atom.rank) b.places), (1, 0), (i.width, i.places)]
  | .sliceFrom b low =>
    inRow [(b.width, raise (b.level.rank < Level.atom.rank) b.places), (1, 0),
      (low.width, low.places)]
  | .slice b low high =>
    inRow [(b.width, raise (b.level.rank < Level.atom.rank) b.places), (1, 0),
      (low.width, low.places), (1, 0), (high.width, high.places)]
  | .member b _ => raise (b.level.rank < Level.atom.rank) b.places
  | .call f args =>
    inRow ((f.width, raise (f.level.rank < Level.atom.rank) f.places) :: (0, {0}) :: argumentRow args)

/-- The widths of arguments and of the commas between them, with the places in them. -/
def argumentRow : List Tree → List (Nat × Multiset Nat)
  | [] => []
  | [t] => [(t.width, t.places)]
  | t :: u :: ts => (t.width, t.places) :: (1, 0) :: argumentRow (u :: ts)

end

/-- The places of parentheses that a tree needs as an operand of a level. -/
def Tree.needs (l : Level) (t : Tree) : Multiset Nat := raise (t.level.rank < l.rank) t.places

/-- More parentheses are at least as many. -/
theorem raise_mono {b c : Bool} {s : Multiset Nat} (h : b = true → c = true) :
    raise b s ≤ raise c s := by
  cases b with
  | false =>
    cases c with
    | false => exact le_rfl
    | true => exact Multiset.le_cons_self s 0
  | true => rw [h rfl]

/-- A tighter level needs at least as many. -/
theorem Tree.needs_mono {l m : Level} (h : l.rank ≤ m.rank) (t : Tree) : t.needs l ≤ t.needs m :=
  raise_mono fun hl => decide_eq_true (Nat.lt_of_lt_of_le (of_decide_eq_true hl) h)

/-- A tree that holds together tightly enough needs no parentheses around it. -/
theorem Tree.needs_eq_places {l : Level} {t : Tree} (h : l.rank ≤ t.level.rank) :
    t.needs l = t.places := by
  rw [needs, decide_eq_false (by omega)]
  rfl

/-- At most one pair is around the whole. -/
theorem Tree.needs_le_cons_places (l : Level) (t : Tree) : t.needs l ≤ 0 ::ₘ t.places :=
  raise_mono (c := true) fun _ => rfl

section Row

variable {w : Nat} {s : Multiset Nat} {row : List (Nat × Multiset Nat)} {xs ys : List Tok}

theorem inRow_singleton (w : Nat) (s : Multiset Nat) : inRow [(w, s)] = s := by simp [inRow]

/-- A row has what its parts have, each moved to where it stands. -/
theorem inRow_le_opens_append (hw : width xs = w) (hs : s ≤ opens xs) (hrow : inRow row ≤ opens ys) :
    inRow ((w, s) :: row) ≤ opens (xs ++ ys) := by
  rw [opens_append, hw]
  exact add_le_add hs (Multiset.map_le_map hrow)

/-- A token that is no parenthesis takes a place. -/
theorem inRow_le_opens_cons {k : Tok} (hk : width [k] = 1) (hrow : inRow row ≤ opens ys) :
    inRow ((1, 0) :: row) ≤ opens (k :: ys) :=
  @inRow_le_opens_append 1 0 row [k] ys hk zero_le hrow

end Row

/-- However a tree is written, at least the parentheses that it needs stand in their places. -/
theorem Groups.needs_le_opens {l : Level} {xs : List Tok} {t : Tree} (h : Groups l xs t) :
    width xs = t.width ∧ t.needs l ≤ opens xs := by
  refine @Groups.rec (fun l xs t _ => width xs = t.width ∧ t.needs l ≤ opens xs)
    (fun xs ts _ => width xs = widthAll ts ∧ inRow (argumentRow ts) ≤ opens xs)
    ?product ?sign ?atom ?binary ?neg ?int ?str ?name ?enclosed ?index ?sliceFrom ?slice ?member
    ?call ?none ?one ?more l xs t h
  case product | sign | atom =>
    intro xs t _ ih
    exact ⟨ih.1, (Tree.needs_mono (by decide) t).trans ih.2⟩
  case int | str | name =>
    intro _
    exact ⟨rfl, zero_le⟩
  case binary =>
    rintro op l xs ys a b rfl _ _ ⟨hxs, iha⟩ ⟨hys, ihb⟩
    refine ⟨?_, (Tree.needs_eq_places le_rfl).trans_le
      (inRow_le_opens_append hxs iha (inRow_le_opens_cons rfl ?_))⟩
    · simp only [width_append, width, Tree.width, hxs, hys]
      omega
    · rwa [inRow_singleton]
  case neg =>
    rintro xs t _ ⟨hxs, ih⟩
    refine ⟨congrArg (1 + ·) hxs,
      (Tree.needs_eq_places le_rfl).trans_le (inRow_le_opens_cons rfl ?_)⟩
    rwa [inRow_singleton]
  case enclosed =>
    rintro xs t _ ⟨hxs, ih⟩
    refine ⟨?_, (Tree.needs_le_cons_places _ t).trans ?_⟩
    · simp [width_append, width, hxs]
    · rw [Tree.needs_eq_places (Nat.zero_le _)] at ih
      exact Multiset.cons_le_cons 0 (ih.trans (opens_le_append xs _))
  case index | sliceFrom =>
    rintro bs xs b i _ _ ⟨hbs, ihb⟩ ⟨hxs, ihi⟩
    rw [Tree.needs_eq_places (Nat.zero_le _)] at ihi
    simp only [List.append_assoc, List.cons_append]
    refine ⟨?_, (Tree.needs_eq_places le_rfl).trans_le
      (inRow_le_opens_append hbs ihb (inRow_le_opens_cons rfl
        (inRow_le_opens_append hxs ihi zero_le)))⟩
    simp only [width_append, width, Tree.width, hbs, hxs]
    omega
  case slice =>
    rintro bs xs ys b low high _ _ _ ⟨hbs, ihb⟩ ⟨hxs, ihlow⟩ ⟨hys, ihhigh⟩
    rw [Tree.needs_eq_places (Nat.zero_le _)] at ihlow ihhigh
    simp only [List.append_assoc, List.cons_append]
    refine ⟨?_, (Tree.needs_eq_places le_rfl).trans_le
      (inRow_le_opens_append hbs ihb (inRow_le_opens_cons rfl
        (inRow_le_opens_append hxs ihlow (inRow_le_opens_cons rfl
          (inRow_le_opens_append hys ihhigh zero_le)))))⟩
    simp only [width_append, width, Tree.width, hbs, hxs, hys]
    omega
  case member =>
    rintro bs b id _ ⟨hbs, ihb⟩
    refine ⟨?_, (Tree.needs_eq_places le_rfl).trans_le (ihb.trans (opens_le_append bs _))⟩
    simp only [width_append, width, Tree.width, hbs]
  case call =>
    rintro fs xs f args _ _ ⟨hfs, ihf⟩ ⟨hxs, ihargs⟩
    simp only [List.append_assoc, List.cons_append]
    -- the parenthesis of the call has a place, but no width
    refine ⟨?_, (Tree.needs_eq_places le_rfl).trans_le (inRow_le_opens_append hfs ihf
      (@inRow_le_opens_append 0 {0} _ [.lparen] _ rfl le_rfl (ihargs.trans (opens_le_append xs _))))⟩
    simp only [width_append, width, Tree.width, hfs, hxs]
    omega
  case none => exact ⟨rfl, le_rfl⟩
  case one =>
    rintro xs t _ ⟨hxs, ih⟩
    rw [Tree.needs_eq_places (Nat.zero_le _)] at ih
    exact ⟨hxs, (inRow_singleton _ _).trans_le ih⟩
  case more =>
    rintro xs ys t u ts _ _ ⟨hxs, ih⟩ ⟨hys, ihmore⟩
    rw [Tree.needs_eq_places (Nat.zero_le _)] at ih
    refine ⟨?_, inRow_le_opens_append hxs ih (inRow_le_opens_cons rfl ihmore)⟩
    simp only [width_append, width, widthAll, hxs, hys]
    omega

end Plic.Python
