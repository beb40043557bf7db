import Plic.Proofs.Python.Parentheses

/-!
# The segments of an expression

The text of an expression is a row of marks and operands, and what is to be said of the text, of its
tokens and of the parentheses among them is said of the row. An operand stands in parentheses
exactly if its tree needs them, with one exception: a sign behind a sign does without need.

Main results:

* `Expr.textOf_segments`, `Plain.tokensOf_segments`, `Plain.places_tree` — text, tokens and places of
  parentheses are those of the segments.
* `Plain.needs_operand` — which operands stand in parentheses.
* `Plain.count_front`, `Plain.count_edge` — at both ends of its text an expression has no parentheses
  that its tree does not need.
* `count_fill` — an operand that is written with too few parentheses leaves the whole with too few.
-/

namespace Plic.Python

open Lexer (isNameRest)

/-! ## Marks and operands -/

/-- What the text of an expression is made of: marks with their tokens, and operands that have to
hold together as tightly as a level asks for and that may stand in parentheses. -/
inductive Segment where
  | mark (text : String) (tokens : List Tok)
  | operand (slot : Level) (enclosed : Bool) (e : Expr)

/-- The text of a segment, with the parentheses around an operand. -/
def Segment.text : Segment → String
  | mark text _ => text
  | operand _ enclosed e => enclose enclosed e.render

/-- The tokens of a segment, with the parentheses around an operand. -/
def Segment.tokens : Segment → List Tok
  | mark _ tokens => tokens
  | operand _ enclosed e => encloseTokens enclosed e.tokens

/-- The text of a row. -/
def textOf : List Segment → String
  | [] => ""
  | s :: ss => s.text ++ textOf ss

/-- The tokens of a row. -/
def tokensOf (ss : List Segment) : List Tok := ss.flatMap Segment.tokens

/-- The arguments of a call with commas between them; none of them needs parentheses. -/
def argumentSegments : List Expr → List Segment
  | [] => []
  | [e] => [.operand .sum false e]
  | e :: e' :: es => .operand .sum false e :: .mark ", " [.comma] :: argumentSegments (e' :: es)

/-- The segments of an expression; those of lists have no tokens. -/
def Expr.segments : Expr → List Segment
  | .int n => [.mark (toString n) (Expr.int n).tokens]
  | .str s => [.mark (quote s) [.str s]]
  | .name id => [.mark id [.name id]]
  | .neg e => [.mark "-" [.op .sub], .operand .sign (e.level.rank ≤ Level.sign.rank) e]
  | .binary op l r =>
    [.operand op.level (l.level.rank < op.level.rank) l, .mark (" " ++ op.text ++ " ") [.op op],
      .operand op.level.tighter (r.level.rank ≤ op.level.rank) r]
  | .index b i =>
    [.operand .atom (b.level.rank < Level.atom.rank) b, .mark "[" [.lbracket],
      .operand .sum false i, .mark "]" [.rbracket]]
  | .sliceFrom b lo =>
    [.operand .atom (b.level.rank < Level.atom.rank) b, .mark "[" [.lbracket],
      .operand .sum false lo, .mark ":]" [.colon, .rbracket]]
  | .slice b lo hi =>
    [.operand .atom (b.level.rank < Level.atom.rank) b, .mark "[" [.lbracket],
      .operand .sum false lo, .mark ":" [.colon], .operand .sum false hi, .mark "]" [.rbracket]]
  | .call f args =>
    .mark (f.name ++ "(") [.name f.name, .lparen] :: argumentSegments args ++ [.mark ")" [.rparen]]
  | .find t p =>
    [.operand .atom (t.level.rank < Level.atom.rank) t,
      .mark ".find(" [.dot, .name "find", .lparen], .operand .sum false p, .mark ")" [.rparen]]
  -- lists are never operands, so their tokens are not asked for
  | .single e => [.mark "[" [], .operand .sum false e, .mark "]" []]
  | .replicate e n =>
    [.mark "[" [], .operand .sum false e, .mark " for _ in range(" [], .operand .sum false n,
      .mark ")]" []]

/-- Rows that are put together have their texts one after the other. -/
theorem textOf_append (ss ss' : List Segment) : textOf (ss ++ ss') = textOf ss ++ textOf ss' := by
  induction ss with
  | nil => simp [textOf]
  | cons s ss ih => simp [textOf, ih, String.append_assoc]

theorem tokensOf_append (ss ss' : List Segment) :
    tokensOf (ss ++ ss') = tokensOf ss ++ tokensOf ss' := List.flatMap_append

theorem tokensOf_cons (s : Segment) (ss : List Segment) :
    tokensOf (s :: ss) = s.tokens ++ tokensOf ss := List.flatMap_cons

/-- The text of arguments is the one that is written for them. -/
theorem textOf_argumentSegments (args : List Expr) :
    textOf (argumentSegments args) = ", ".intercalate (renderAll args) := by
  fun_induction argumentSegments args with
  | case1 => rfl
  | case2 e => simp [textOf, renderAll, Segment.text, enclose]
  | case3 e e' es ih =>
    simp only [textOf, ih, renderAll, String.intercalate_cons_cons]
    simp [Segment.text, enclose, String.append_assoc]

theorem tokensOf_argumentSegments (args : List Expr) :
    tokensOf (argumentSegments args) = [.comma].intercalate (tokensAll args) := by
  fun_induction argumentSegments args with
  | case1 => rfl
  | case2 e => simp [tokensOf, tokensAll, Segment.tokens, encloseTokens]
  | case3 e e' es ih =>
    simp only [tokensOf_cons, ih, tokensAll, List.intercalate_cons_cons]
    simp [Segment.tokens, encloseTokens]

/-- The segments of an expression make up its text. -/
theorem Expr.textOf_segments (e : Expr) : textOf e.segments = e.render := by
  cases e with
  | call f args =>
    simp only [segments, List.cons_append, textOf, textOf_append, textOf_argumentSegments, render]
    simp [Segment.text, String.append_assoc]
  | _ => simp [segments, textOf, Segment.text, render, String.append_assoc, enclose]

/-- The tokens of a plain expression are those of its segments. -/
theorem Plain.tokensOf_segments {e : Expr} (h : Plain e) : tokensOf e.segments = e.tokens := by
  cases h with
  | call _ =>
    simp only [Expr.segments, List.cons_append, tokensOf_cons, tokensOf_append,
      tokensOf_argumentSegments, Expr.tokens]
    simp [tokensOf, Segment.tokens]
  | _ => simp [Expr.segments, tokensOf, Segment.tokens, Expr.tokens, encloseTokens]

/-! ## Operands -/

/-- What holds of the segment if it is an operand. -/
def Segment.Each (P : Level → Bool → Expr → Prop) : Segment → Prop
  | mark _ _ => True
  | operand slot enclosed e => P slot enclosed e

/-- What holds of all arguments holds of their segments. -/
theorem each_argumentSegments {P : Level → Bool → Expr → Prop} {args : List Expr}
    (h : ∀ e ∈ args, P .sum false e) : ∀ s ∈ argumentSegments args, s.Each P := by
  fun_induction argumentSegments args with
  | case1 => simp
  | case2 e => simpa [Segment.Each] using h
  | case3 e e' es ih =>
    rw [List.forall_mem_cons] at h
    simp only [List.forall_mem_cons, Segment.Each, true_and]
    exact ⟨h.1, ih h.2⟩

/-- What is to hold for all expressions that can be read may be shown from their operands. -/
theorem Plain.of_operands {P : Expr → Prop}
    (hstep : ∀ e, Plain e → (∀ s ∈ e.segments, s.Each fun _ _ v => Plain v ∧ P v) → P e)
    {e : Expr} (h : Plain e) : P e := by
  induction h with
  | int n => exact hstep _ (.int n) (by simp [Expr.segments, Segment.Each])
  | str s => exact hstep _ (.str s) (by simp [Expr.segments, Segment.Each])
  | name hid => exact hstep _ (.name hid) (by simp [Expr.segments, Segment.Each])
  | neg he ih => exact hstep _ (.neg he) (by simp [Expr.segments, Segment.Each, *])
  | binary hl hr ihl ihr =>
    exact hstep _ (.binary hl hr) (by simp [Expr.segments, Segment.Each, *])
  | index hb hint hi ihb ihi =>
    exact hstep _ (.index hb hint hi) (by simp [Expr.segments, Segment.Each, *])
  | sliceFrom hb hint hlo ihb ihlo =>
    exact hstep _ (.sliceFrom hb hint hlo) (by simp [Expr.segments, Segment.Each, *])
  | slice hb hint hlo hhi ihb ihlo ihhi =>
    exact hstep _ (.slice hb hint hlo hhi) (by simp [Expr.segments, Segment.Each, *])
  | call hargs ih =>
    -- the arguments of a call are segments like any other operands
    have hall := each_argumentSegments (P := fun _ _ v => Plain v ∧ P v)
      fun e he => ⟨hargs e he, ih e he⟩
    refine hstep _ (.call hargs) ?_
    simpa [Expr.segments, Segment.Each, or_imp, forall_and] using hall
  | find ht hint hp iht ihp =>
    exact hstep _ (.find ht hint hp) (by simp [Expr.segments, Segment.Each, *])

/-! ## Places in segments -/

section Counting

open Multiset (count)

/-- Places that are moved to the right are counted where they have come to stand. -/
theorem count_map_add (w n : Nat) (s : Multiset Nat) : count (w + n) (s.map (w + ·)) = count n s :=
  Multiset.count_map_eq_count' _ s (fun _ _ h => Nat.add_left_cancel h) n

variable {n : Nat} {e : Expr} {ss : List Segment} {slot : Level}

/-- No place is left in front of where they start. -/
theorem count_map_add_of_lt {w : Nat} (h : n < w) (s : Multiset Nat) :
    count n (s.map (w + ·)) = 0 := by
  refine Multiset.count_eq_zero_of_notMem fun hn => ?_
  obtain ⟨k, -, hk⟩ := Multiset.mem_map.mp hn
  omega

/-- Parentheses around the whole open at its front, so elsewhere nothing changes. -/
theorem count_raise_of_ne (hn : n ≠ 0) (b : Bool) (s : Multiset Nat) :
    count n (raise b s) = count n s := by
  cases b with
  | false => rfl
  | true => exact Multiset.count_cons_of_ne hn s

theorem count_raise_zero (b : Bool) (s : Multiset Nat) :
    count 0 (raise b s) = count 0 s + b.toNat := by
  cases b with
  | false => rfl
  | true => exact Multiset.count_cons_self 0 s

/-- Where one row has fewer parentheses than another, it still has when both are enclosed in the
same way. -/
theorem count_raise_lt {s t : Multiset Nat} (h : count n s < count n t) (b : Bool) :
    count n (raise b s) < count n (raise b t) := by
  rcases eq_or_ne n 0 with rfl | hn
  · rw [count_raise_zero, count_raise_zero]
    omega
  · rwa [count_raise_of_ne hn, count_raise_of_ne hn]

/-- Enclosing tokens adds a parenthesis at their front. -/
theorem opens_encloseTokens (b : Bool) (ts : List Tok) :
    opens (encloseTokens b ts) = raise b (opens ts) := by
  cases b with
  | false => rfl
  | true => simp [encloseTokens, raise, opens, opens_append]

/-- Parentheses have no width, so places do not move. -/
theorem width_encloseTokens (b : Bool) (ts : List Tok) : width (encloseTokens b ts) = width ts := by
  cases b with
  | false => rfl
  | true => simp [encloseTokens, width, width_append]

/-- The width of an expression's tokens is that of its tree. -/
theorem Plain.width_tokens (h : Plain e) : width e.tokens = e.tree.width :=
  h.groups.needs_le_opens.1

/-- No plain expression is empty, so what stands behind it has another place. -/
theorem Plain.width_pos (h : Plain e) : 0 < e.tree.width := by
  cases h with
  | int n =>
    rw [Expr.tree, Tree.ofInt]
    split <;> simp [Tree.width]
  | _ =>
    simp only [Expr.tree, Tree.width]
    omega

/-- The width of a segment, and the places of the parentheses that are needed in it. -/
def Segment.entry : Segment → Nat × Multiset Nat
  | mark _ tokens => (width tokens, opens tokens)
  | operand slot _ e => (e.tree.width, e.tree.needs slot)

/-- The places of two rows: those of the second are moved by the width of the first. -/
theorem inRow_append (row row' : List (Nat × Multiset Nat)) :
    inRow (row ++ row') = inRow row + (inRow row').map ((row.map Prod.fst).sum + ·) := by
  induction row with
  | nil => simp [inRow]
  | cons p row ih =>
    rw [List.cons_append, inRow, ih, inRow, Multiset.map_add, map_add_map_add, add_assoc]
    rfl

/-- The segments of arguments have the places of their trees. -/
theorem map_entry_argumentSegments (args : List Expr) :
    (argumentSegments args).map Segment.entry = argumentRow (treeAll args) := by
  fun_induction argumentSegments args with
  | case1 => rfl
  | case2 e => rfl
  | case3 e e' es ih =>
    rw [List.map_cons, List.map_cons, ih]
    rfl

/-- The places that a tree needs are in the segments of its expression. -/
theorem Plain.places_tree (h : Plain e) : e.tree.places = inRow (e.segments.map Segment.entry) := by
  cases h with
  | int n =>
    rw [Expr.tree, Tree.ofInt, Expr.segments, Expr.tokens]
    split <;> rfl
  -- the parenthesis of a call belongs to the mark in front of it
  | @call f args _ =>
    rw [Expr.segments, List.cons_append, List.map_cons, List.map_append,
      map_entry_argumentSegments, inRow, inRow_append]
    simp [Expr.tree, Tree.places, inRow, Segment.entry, opens, width, Tree.width, raise, Tree.level]
  | @find t p _ _ _ =>
    have hp : p.tree.needs .sum = p.tree.places := Tree.needs_eq_places (Nat.zero_le _)
    show inRow [(t.tree.width + 2, t.tree.needs .atom), (0, {0}), (p.tree.width, p.tree.places)] =
      inRow [(t.tree.width, t.tree.needs .atom), (2, {2}), (p.tree.width, p.tree.needs .sum), (0, 0)]
    rw [hp]
    simp [inRow, Nat.add_assoc]
  | _ => rfl

/-- Behind a segment no parentheses stand that are not needed. -/
def Segment.Fits (s : Segment) : Prop :=
  width s.tokens = s.entry.1 ∧
    ∀ m, s.entry.1 ≤ m → count m (opens s.tokens) ≤ count m s.entry.2

/-- The width of a row is the sum of the widths of its segments. -/
theorem width_tokensOf (h : ∀ s ∈ ss, s.Fits) :
    width (tokensOf ss) = ((ss.map Segment.entry).map Prod.fst).sum := by
  induction ss with
  | nil => rfl
  | cons s ss ih =>
    rw [List.forall_mem_cons] at h
    rw [tokensOf_cons, width_append, h.1.1, ih h.2]
    rfl

/-- Behind its end a row opens no more than its segments do, by induction along the row. -/
theorem count_opens_tokensOf_le (h : ∀ s ∈ ss, s.Fits) {m : Nat} (hm : width (tokensOf ss) ≤ m) :
    count m (opens (tokensOf ss)) ≤ count m (inRow (ss.map Segment.entry)) := by
  induction ss generalizing m with
  | nil => exact le_rfl
  | cons s ss ih =>
    rw [List.forall_mem_cons] at h
    rw [tokensOf_cons, width_append] at hm
    -- the place lies behind the first segment, so that it is `k` places into the others
    obtain ⟨k, rfl⟩ := Nat.exists_eq_add_of_le (show width s.tokens ≤ m by omega)
    have hs := h.1.2 (width s.tokens + k) (by rw [← h.1.1]; omega)
    have hss := ih h.2 (show width (tokensOf ss) ≤ k by omega)
    rw [tokensOf_cons, opens_append, Multiset.count_add, count_map_add]
    rw [List.map_cons, inRow, Multiset.count_add, ← h.1.1, count_map_add]
    omega

/-- If tokens in the place of an operand have too few parentheses somewhere for the operand, then
so has the whole for its expression. -/
theorem count_fill {before after : List Segment} {b : Bool} {v : Expr}
    {xs : List Tok} (hbefore : ∀ s ∈ before, s.Fits) (hn : n < width xs)
    (hlt : count n (opens xs) < count n (v.tree.needs slot)) :
    count (width (tokensOf before) + n) (opens (tokensOf before ++ xs ++ tokensOf after)) <
      count (width (tokensOf before) + n)
        (inRow ((before ++ .operand slot b v :: after).map Segment.entry)) := by
  -- in front the parentheses are counted up to the place; what comes behind adds to the right side
  -- only
  have hfront := @count_opens_tokensOf_le _ hbefore (width (tokensOf before) + n)
    (Nat.le_add_right _ _)
  rw [List.append_assoc, opens_append, opens_append, Multiset.count_add, count_map_add,
    Multiset.count_add, count_map_add_of_lt hn, List.map_append, inRow_append, Multiset.count_add,
    ← width_tokensOf hbefore, count_map_add, List.map_cons, inRow, Multiset.count_add]
  show _ < _ + (count n (v.tree.needs slot) + _)
  omega

/-! ## Which parentheses are needed -/

/-- The tree of an expression holds together as tightly as its tier. -/
theorem Plain.level_tree (h : Plain e) : e.tree.level = e.tier := by
  cases h with
  | int n =>
    rw [Expr.tree, Tree.ofInt, Expr.tier]
    split <;> rfl
  | _ => rfl

/-- An expression needs parentheses in a place if its level is looser than the place asks for. -/
theorem Plain.needs_tree (h : Plain e) (hslot : slot.rank ≤ Level.sign.rank ∨ ∀ n, e ≠ .int n) :
    e.tree.needs slot = raise (e.level.rank < slot.rank) e.tree.places := by
  rw [Tree.needs, h.level_tree]
  cases h with
  | int n =>
    rcases hslot with hslot | hint
    · have hlevel : slot.rank ≤ (Expr.int n).level.rank := Nat.le_trans hslot (Nat.le_succ 2)
      have htier := le_rank_tier hlevel hslot
      rw [decide_eq_false (by omega), decide_eq_false (by omega)]
    · exact absurd rfl (hint n)
  | _ => rfl

/-- What is subscripted needs parentheses exactly if its level is lower than that of an atom. -/
theorem Plain.needs_base {b : Expr} (h : Plain b) (hint : ∀ n, b ≠ .int n) :
    b.tree.needs .atom = raise (b.level.rank < Level.atom.rank) b.tree.places :=
  h.needs_tree (.inr hint)

/-- A left operand needs them exactly if its level is lower than the operator's. -/
theorem Plain.needs_left {l : Expr} (h : Plain l) (op : Operator) :
    l.tree.needs op.level = raise (l.level.rank < op.level.rank) l.tree.places :=
  h.needs_tree (.inl (by cases op <;> decide))

/-- A right operand needs them also if the levels are the same. -/
theorem Plain.needs_right {r : Expr} (h : Plain r) (op : Operator) :
    r.tree.needs op.level.tighter = raise (r.level.rank ≤ op.level.rank) r.tree.places := by
  have hop : op.level.tighter.rank = op.level.rank + 1 := by cases op <;> rfl
  rw [h.needs_tree (.inl (by cases op <;> decide)), hop]
  simp only [Nat.lt_succ_iff]

/-- At the level of signs there are signs only. -/
theorem Expr.eq_neg_of_rank (h : e.level.rank = Level.sign.rank) : ∃ w, e = .neg w := by
  cases e with
  | neg w => exact ⟨w, rfl⟩
  | binary op l r => cases op <;> exact absurd h (by simp [Expr.level, Operator.level, Level.rank])
  | _ => exact absurd h (by simp [Expr.level, Level.rank])

/-- The operand of a sign stands in parentheses if it needs them, and a sign does in any case. -/
theorem Plain.needs_sign (h : Plain e) :
    e.tree.needs .sign = raise (e.level.rank ≤ Level.sign.rank) e.tree.places ∨
      (∃ w, e = .neg w) ∧ e.tree.needs .sign = e.tree.places ∧ 0 ∉ e.tree.places := by
  by_cases hrank : e.level.rank = Level.sign.rank
  · obtain ⟨w, rfl⟩ := Expr.eq_neg_of_rank hrank
    refine .inr ⟨⟨w, rfl⟩, rfl, ?_⟩
    -- the sign itself stands before all that is inside
    simp [Expr.tree, Tree.places, inRow]
  · left
    rw [h.needs_tree (.inl le_rfl)]
    simp only [Nat.lt_iff_le_and_ne, ne_eq, hrank, not_false_eq_true, and_true]

/-- An operand stands in parentheses exactly if it needs them, except for a sign behind a sign. -/
theorem Plain.needs_operand (h : Plain e) :
    ∀ s ∈ e.segments, s.Each fun slot enclosed v => Plain v ∧
      (v.tree.needs slot = raise enclosed v.tree.places ∨
        (∃ w, e = .neg (.neg w)) ∧ v.tree.needs slot = v.tree.places ∧ 0 ∉ v.tree.places) := by
  -- between brackets and commas nothing needs parentheses
  have hsum : ∀ v : Expr, v.tree.needs .sum = raise false v.tree.places := fun v =>
    Tree.needs_eq_places (Nat.zero_le _)
  cases h with
  | int | str | name => simp [Expr.segments, Segment.Each]
  | neg he => simpa [Expr.segments, Segment.Each, he] using he.needs_sign
  | @binary op _ _ hl hr =>
    simp [Expr.segments, Segment.Each, hl, hr, hl.needs_left op, hr.needs_right op]
  | index hb hint hi => simp [Expr.segments, Segment.Each, hb, hi, hsum, hb.needs_base hint]
  | sliceFrom hb hint hlo => simp [Expr.segments, Segment.Each, hb, hlo, hsum, hb.needs_base hint]
  | slice hb hint hlo hhi =>
    simp [Expr.segments, Segment.Each, hb, hlo, hhi, hsum, hb.needs_base hint]
  | call hargs =>
    have hall := each_argumentSegments (P := fun slot enclosed v =>
      Plain v ∧ v.tree.needs slot = raise enclosed v.tree.places) fun e he => ⟨hargs e he, hsum e⟩
    simpa [Expr.segments, Segment.Each, or_imp, forall_and] using hall
  | find ht hint hp => simp [Expr.segments, Segment.Each, ht, hp, hsum, ht.needs_base hint]

/-- A segment fits if its operand does. -/
theorem Segment.Each.fits {s : Segment} (h : s.Each fun _ _ v => Plain v ∧
    ∀ m, v.tree.width ≤ m → count m (opens v.tokens) ≤ count m v.tree.places) : s.Fits := by
  cases s with
  | mark text ks => exact ⟨rfl, fun _ _ => le_rfl⟩
  | operand slot b v =>
    obtain ⟨hv, hedge⟩ := h
    refine ⟨(width_encloseTokens b _).trans hv.width_tokens, fun m hm => ?_⟩
    change v.tree.width ≤ m at hm
    -- parentheses around the operand stand in front of it, which is elsewhere
    have hne : m ≠ 0 := by
      have := hv.width_pos
      omega
    show count m (opens (encloseTokens b v.tokens)) ≤ count m (v.tree.needs slot)
    rw [opens_encloseTokens, count_raise_of_ne hne, Tree.needs, count_raise_of_ne hne]
    exact hedge m hm

/-- Behind the text of an expression no parentheses stand that are not needed: only a call without
arguments has one there. -/
theorem Plain.count_edge (h : Plain e) :
    ∀ m, e.tree.width ≤ m → count m (opens e.tokens) ≤ count m e.tree.places := by
  refine @Plain.of_operands (fun e => ∀ m, e.tree.width ≤ m →
    count m (opens e.tokens) ≤ count m e.tree.places) (fun e he hops m hm => ?_) e h
  rw [← he.width_tokens, ← he.tokensOf_segments] at hm
  rw [he.places_tree, ← he.tokensOf_segments]
  exact count_opens_tokensOf_le (fun s hs => (hops s hs).fits) hm

/-- All segments of a plain expression fit. -/
theorem Plain.fits_of_mem (h : Plain e) {s : Segment} (hs : s ∈ e.segments) : s.Fits := by
  refine Segment.Each.fits ?_
  cases s with
  | mark => trivial
  | operand slot b v =>
    have hv := (h.needs_operand _ hs).1
    exact ⟨hv, hv.count_edge⟩

/-- The front of a row is in its first segment, if that one has a width. -/
theorem count_front_cons {s : Segment} (hw : 0 < width s.tokens)
    (hle : count 0 (opens s.tokens) ≤ count 0 s.entry.2) :
    count 0 (opens (tokensOf (s :: ss))) ≤ count 0 (inRow ((s :: ss).map Segment.entry)) := by
  rw [tokensOf_cons, opens_append, Multiset.count_add, count_map_add_of_lt hw, List.map_cons, inRow,
    Multiset.count_add]
  omega

/-- The same for an operand that is enclosed as its tree needs it. -/
theorem Plain.count_front_operand {v : Expr} (h : Plain v) {b : Bool}
    (hfront : count 0 (opens v.tokens) ≤ count 0 v.tree.places)
    (hneeds : v.tree.needs slot = raise b v.tree.places) :
    count 0 (opens (tokensOf (.operand slot b v :: ss))) ≤
      count 0 (inRow ((.operand slot b v :: ss : List Segment).map Segment.entry)) := by
  apply count_front_cons
  · show 0 < width (encloseTokens b v.tokens)
    rw [width_encloseTokens, h.width_tokens]
    exact h.width_pos
  · show count 0 (opens (encloseTokens b v.tokens)) ≤ count 0 (v.tree.needs slot)
    rw [opens_encloseTokens, hneeds, count_raise_zero, count_raise_zero]
    omega

/-- In front of the text of an expression no parentheses stand that are not needed. -/
theorem Plain.count_front (h : Plain e) : count 0 (opens e.tokens) ≤ count 0 e.tree.places := by
  refine @Plain.of_operands (fun e => count 0 (opens e.tokens) ≤ count 0 e.tree.places)
    (fun e he hops => ?_) e h
  rw [he.places_tree, ← he.tokensOf_segments]
  -- a text starts with a token of its own or with that of its first operand
  cases he with
  | int n =>
    refine count_front_cons ?_ le_rfl
    show 0 < width (Expr.int n).tokens
    rw [(Plain.int n).width_tokens]
    exact (Plain.int n).width_pos
  | str | name | neg => exact count_front_cons (by simp [Segment.tokens, width]) le_rfl
  | call => exact count_front_cons (by simp [Segment.tokens, width]) le_rfl
  | @binary op _ _ hl _ =>
    exact hl.count_front_operand (hops _ (.head _)).2 (hl.needs_left op)
  | index hb hint | sliceFrom hb hint | slice hb hint | find hb hint =>
    exact hb.count_front_operand (hops _ (.head _)).2 (hb.needs_base hint)

end Counting

end Plic.Python
