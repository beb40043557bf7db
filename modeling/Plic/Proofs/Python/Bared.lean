import Plic.Proofs.Python.Segments

/-!
# A text without a pair of its parentheses

Let a pair of parentheses around an operand be left out of the text of an expression. The text is
still cut into the other tokens, since none of them grows into another. But now fewer parentheses
stand in the place of the pair than the tree needs there, so the tokens do not group as that tree.

Only a point directly behind a number would be taken for a part of it. In the expressions that are
`Searchable` none comes to stand there.

Main results:

* `Expr.Bared.exists_pair` — a text that is `Bared` is the text of the expression without a pair.
* `Laid.scans` — marks and operands are cut one by one, whatever is written for the operands.
* `Plain.not_reads_of_bared` — the text without the pair does not denote the tree.
-/

namespace Plic.Python

/-! ## Texts without a pair -/

/-- The text is that of the expression without one pair of the parentheses around operands. The pair
around a sign behind a sign is not among them. -/
inductive Expr.Bared : Expr → String → Prop where
  /-- The pair around an operand of the expression itself. -/
  | here {e v : Expr} {before after : List Segment} {slot : Level} :
      e.segments = before ++ .operand slot true v :: after → (∀ w, e ≠ .neg (.neg w)) →
      Bared e (textOf before ++ v.render ++ textOf after)
  /-- A pair inside an operand. -/
  | inside {e v : Expr} {before after : List Segment} {slot : Level} {enclosed : Bool}
      {text : String} :
      e.segments = before ++ .operand slot enclosed v :: after → Bared v text →
      Bared e (textOf before ++ enclose enclosed text ++ textOf after)

variable {e v : Expr} {slot : Level} {b : Bool} {rest : List Char} {ts : List Tok}
  {ss : List Segment}

theorem Expr.render_eq_of_segments {before after : List Segment}
    (h : e.segments = before ++ .operand slot b v :: after) :
    e.render = textOf before ++ enclose b v.render ++ textOf after := by
  rw [← e.textOf_segments, h, textOf_append, textOf, String.append_assoc]
  rfl

/-- Nothing else is left out. -/
theorem Expr.Bared.exists_pair {text : String} (h : e.Bared text) :
    ∃ (before after : String) (v : Expr), e.render = before ++ "(" ++ v.render ++ ")" ++ after ∧
      text = before ++ v.render ++ after := by
  induction h with
  | @here e v before after slot hsegments _ =>
    refine ⟨textOf before, textOf after, v, ?_, rfl⟩
    rw [render_eq_of_segments hsegments]
    simp [enclose, String.append_assoc]
  | @inside e v before after slot enclosed text hsegments _ ih =>
    obtain ⟨front, back, w, hrender, rfl⟩ := ih
    rw [render_eq_of_segments hsegments, hrender]
    -- the pair may stand inside other parentheses, which are kept
    cases enclosed with
    | false =>
      refine ⟨textOf before ++ front, back ++ textOf after, w, ?_, ?_⟩
      · simp [enclose, String.append_assoc]
      · simp [enclose, String.append_assoc]
    | true =>
      refine ⟨textOf before ++ "(" ++ front, back ++ ")" ++ textOf after, w, ?_, ?_⟩
      · simp [enclose, String.append_assoc]
      · simp [enclose, String.append_assoc]

/-! ## Cutting such a text -/

/-- Behind a text comes nothing that makes a part of it longer. A point does unless the text is one
that a point may follow. -/
def Ending (pointed : Bool) (rest : List Char) : Prop :=
  ∀ c ∈ rest.head?, c ∈ [' ', ')', ']', '[', ',', ':'] ∨ c = '.' ∧ pointed = true

/-- Whether a point directly behind the bare text of the expression is a token. -/
def Expr.pointed : Expr → Bool
  | .int _ => false
  | .neg e => e.level.rank ≤ Level.sign.rank || e.pointed
  | .binary op _ r => r.level.rank ≤ op.level.rank || r.pointed
  | _ => true

/-- The bare text of an expression is cut into its tokens, also in front of a point. -/
theorem Plain.cuts_pointed (h : Plain e) (hrest : Ending e.pointed rest) (hs : Scans rest ts) :
    Scans (e.render.toList ++ rest) (e.tokens ++ ts) := by
  induction h with
  | @neg e he ih =>
    rw [Expr.render, Expr.tokens, String.toList_append, List.append_assoc, List.cons_append]
    refine scans_minus ((unjoined_enclose he.unjoined _).append _) ?_
    cases hneeded : decide (e.level.rank ≤ Level.sign.rank) with
    | true => exact he.cuts.enclose (by simp) hs
    | false =>
      rw [Expr.pointed, hneeded, Bool.false_or] at hrest
      exact ih hrest
  | @binary op l r hl hr _ ih =>
    simp only [Expr.render, Expr.tokens, String.toList_append, List.append_assoc, List.cons_append]
    refine hl.cuts.enclose (fun _ => stops_cons (by decide) _ _) (scans_op _ ?_)
    cases hneeded : decide (r.level.rank ≤ op.level.rank) with
    | true => exact hr.cuts.enclose (by simp) hs
    | false =>
      rw [Expr.pointed, hneeded, Bool.false_or] at hrest
      exact ih hrest
  -- the other texts end with a token of their own
  | _ => exact Plain.cuts (by constructor <;> assumption) hrest hs

/-- The text is one of marks with the given tokens: it is cut into them whatever operand or mark
follows. -/
def IsMark (text : List Char) (ks : List Tok) : Prop :=
  Unjoined text ∧ ∀ ⦃rest ts⦄, (∀ c ∈ rest.head?, c ≠ '=' ∧ c ≠ '>') → Scans rest ts →
    Scans (text ++ rest) (ks ++ ts)

/-- A character that is a token by itself is a mark. -/
theorem isMark_single {c : Char} {k : Tok} (hc : c ∈ ['-', ':', '(', ')', '[', ']', ','])
    (hk : markOf c = some k) : IsMark [c] [k] := by
  refine ⟨⟨c, [], rfl, ?_⟩, fun rest ts hrest h => .mark hk (fun d hd => ?_) h⟩
  · fin_cases hc <;> decide
  · obtain ⟨heq, hgt⟩ := hrest d hd
    fin_cases hc <;> simp [isLonger, heq, hgt]

/-- An operator with its blanks is a mark. -/
theorem isMark_op (op : Operator) : IsMark (" " ++ op.text ++ " ").toList [.op op] := by
  refine ⟨?_, fun rest ts _ h => ?_⟩
  · cases op <;> exact ⟨' ', _, rfl, by decide⟩
  · rw [String.toList_append, String.toList_append, List.append_assoc, List.append_assoc]
    exact scans_op op h

theorem isMark_comma : IsMark ", ".toList [.comma] :=
  ⟨⟨',', [' '], rfl, by decide⟩, fun _ _ _ h => scans_mark (by decide) rfl (.blank h)⟩

theorem isMark_sliceEnd : IsMark ":]".toList [.colon, .rbracket] :=
  ⟨⟨':', [']'], rfl, by decide⟩, fun rest _ _ h =>
    scans_colon ⟨']', rest, rfl, by decide⟩ (scans_mark (by decide) rfl h)⟩

/-- The name of a function with its parenthesis is a mark. -/
theorem isMark_call (f : Function) :
    IsMark (f.name ++ "(").toList [.name f.name, .lparen] := by
  refine ⟨?_, fun rest ts _ h => ?_⟩
  · cases f <;> exact ⟨_, _, rfl, by decide⟩
  · rw [String.toList_append, List.append_assoc]
    refine scans_name (isName_function f) ?_ (scans_mark (by decide) rfl h)
    rintro _ ⟨⟩
    decide

theorem isMark_find : IsMark ".find(".toList [.dot, .name "find", .lparen] := by
  refine ⟨⟨'.', _, rfl, by decide⟩, fun rest ts _ h => ?_⟩
  have hfind : IsName "find" := ⟨by simp [Lexer.IsWord]; decide, by decide⟩
  refine .mark rfl ?_ (scans_name hfind ?_ (scans_mark (by decide) rfl h))
  · rintro _ ⟨⟩
    decide
  · rintro _ ⟨⟩
    decide

/-- What may stand behind an operand. -/
def Behind (enclosed : Bool) (v : Expr) (rest : List Char) : Prop :=
  ∀ c ∈ rest.head?, c ∈ [' ', ')', ']', '[', ',', ':'] ∨
    c = '.' ∧ v.pointed = true ∧ (enclosed = false → v.closed = true)

/-- Segments that can be read one behind the other: marks, and operands with a mark behind each but
the last. The flag says whether the last segment is a mark. -/
inductive Laid : Bool → List Segment → Prop where
  | nil : Laid true []
  | last (slot : Level) (enclosed : Bool) (v : Expr) : Laid false [.operand slot enclosed v]
  | mark {c : Bool} {text : String} {ks : List Tok} {ss : List Segment} :
      IsMark text.toList ks → Laid c ss → Laid c (.mark text ks :: ss)
  | operand {c : Bool} {slot : Level} {enclosed : Bool} {v : Expr} {text : String} {ks : List Tok}
      {ss : List Segment} :
      Behind enclosed v text.toList → Laid c (.mark text ks :: ss) →
      Laid c (.operand slot enclosed v :: .mark text ks :: ss)

/-- A text and its tokens may stand for the segment: for a mark itself, and for an operand anything
that is cut into the tokens in front of what may stand behind the operand. -/
def Segment.Fills : Segment → List Char × List Tok → Prop
  | mark text ks, f => f = (text.toList, ks)
  | operand _ enclosed v, f => Unjoined f.1 ∧ ∀ ⦃rest ts⦄, Behind enclosed v rest → Scans rest ts →
      Scans (f.1 ++ rest) (f.2 ++ ts)

/-- An operand does not begin with a character that would make a longer operator of the mark before
it. -/
theorem Unjoined.apart {text : List Char} (h : Unjoined text) (rest : List Char) :
    ∀ c ∈ (text ++ rest).head?, c ≠ '=' ∧ c ≠ '>' := by
  obtain ⟨c, cs, rfl, hc⟩ := h
  rintro _ ⟨⟩
  exact hc

theorem Ending.apart {p : Bool} (h : Ending p rest) : ∀ c ∈ rest.head?, c ≠ '=' ∧ c ≠ '>' := by
  intro c hc
  rcases h c hc with hstop | ⟨rfl, -⟩
  · fin_cases hstop <;> decide
  · decide

/-- Whether a text may stand behind an operand is decided at its start. -/
theorem Behind.append {text : List Char} (h : Behind b v text)
    (htext : Unjoined text) (rest : List Char) : Behind b v (text ++ rest) := by
  obtain ⟨c, cs, rfl, -⟩ := htext
  exact h

/-- What stands for the first segment does not make a longer token of a mark before it. -/
theorem Laid.unjoined {c : Bool} {fs : List (List Char × List Tok)}
    (h : Laid c ss) (hfs : List.Forall₂ Segment.Fills ss fs) (hne : ss ≠ []) :
    Unjoined (fs.flatMap Prod.fst) := by
  cases hfs with
  | nil => exact absurd rfl hne
  | @cons s f ss fs hf _ =>
    rw [List.flatMap_cons]
    -- the first segment decides, since it is not empty
    refine Unjoined.append ?_ _
    cases h with
    | mark hmark _ =>
      obtain rfl : f = _ := hf
      exact hmark.1
    | last | operand => exact hf.1

theorem Laid.apart {c : Bool} {ss : List Segment} {fs : List (List Char × List Tok)}
    (h : Laid c ss) (hfs : List.Forall₂ Segment.Fills ss fs) {rest : List Char}
    (hrest : Ending c rest) : ∀ c ∈ (fs.flatMap Prod.fst ++ rest).head?, c ≠ '=' ∧ c ≠ '>' := by
  rcases eq_or_ne ss [] with rfl | hne
  · cases hfs
    exact hrest.apart
  · exact (h.unjoined hfs hne).apart rest

/-- Segments are cut into their tokens, whatever stands for them. -/
theorem Laid.scans {c : Bool} {fs : List (List Char × List Tok)}
    (h : Laid c ss) (hfs : List.Forall₂ Segment.Fills ss fs)
    (hrest : Ending c rest) (hs : Scans rest ts) :
    Scans (fs.flatMap Prod.fst ++ rest) (fs.flatMap Prod.snd ++ ts) := by
  induction h generalizing fs with
  | nil =>
    cases hfs
    exact hs
  | last slot enclosed v =>
    obtain ⟨f, _, hf, hnil, rfl⟩ := List.forall₂_cons_left_iff.mp hfs
    cases hnil
    simp only [List.flatMap_singleton]
    refine hf.2 (fun d hd => ?_) hs
    rcases hrest d hd with hstop | ⟨-, hpoint⟩
    · exact .inl hstop
    · cases hpoint
  | mark hmark hlaid ih =>
    obtain ⟨f, fs, hf, hrestFills, rfl⟩ := List.forall₂_cons_left_iff.mp hfs
    obtain rfl : f = _ := hf
    rw [List.flatMap_cons, List.flatMap_cons, List.append_assoc, List.append_assoc]
    exact hmark.2 (hlaid.apart hrestFills hrest) (ih hrestFills hrest)
  | @operand c slot enclosed v text ks ss hbehind hlaid ih =>
    obtain ⟨f, fs, hf, hrestFills, rfl⟩ := List.forall₂_cons_left_iff.mp hfs
    rw [List.flatMap_cons, List.flatMap_cons, List.append_assoc, List.append_assoc]
    refine hf.2 ?_ (ih hrestFills hrest)
    -- the mark behind the operand is there, and its first character decides
    obtain ⟨g, gs, hg, -, rfl⟩ := List.forall₂_cons_left_iff.mp hrestFills
    obtain rfl : g = _ := hg
    cases hlaid with
    | mark hmark _ =>
      rw [List.flatMap_cons, List.append_assoc]
      exact hbehind.append hmark.1 _

/-- A character that ends any text begins the mark. -/
theorem behind_cons {c : Char} (hc : c ∈ [' ', ')', ']', '[', ',', ':']) (b : Bool) (v : Expr)
    (cs : List Char) : Behind b v (c :: cs) := by
  rintro _ ⟨⟩
  exact .inl hc

theorem isMark_close : IsMark ")".toList [.rparen] := isMark_single (by decide) rfl

/-- Arguments are laid out with commas and a parenthesis at the end. -/
theorem laid_arguments (args : List Expr) :
    Laid true (argumentSegments args ++ [.mark ")" [.rparen]]) := by
  fun_induction argumentSegments args with
  | case1 => exact .mark isMark_close .nil
  | case2 e => exact .operand (behind_cons (by decide) _ _ _) (.mark isMark_close .nil)
  | case3 e e' es ih =>
    exact .operand (behind_cons (by decide) _ _ _) (.mark isMark_comma ih)

/-- The segments of an expression that has operands can be read. The text of a search has to be one
that a point may follow. -/
theorem Plain.laid (h : Plain e) (hfind : ∀ t p, e = .find t p → t.pointed = true)
    (hv : .operand slot b v ∈ e.segments) :
    Laid e.closed e.segments := by
  have hleft : IsMark "[".toList [.lbracket] := isMark_single (by decide) rfl
  have hright : IsMark "]".toList [.rbracket] := isMark_single (by decide) rfl
  cases h with
  | int | str | name => simp [Expr.segments] at hv
  | neg => exact .mark (isMark_single (by decide) rfl) (.last _ _ _)
  | @binary op =>
    refine .operand ?_ (.mark (isMark_op op) (.last _ _ _))
    rw [String.append_assoc, String.toList_append]
    exact behind_cons (by decide) _ _ _
  | index =>
    exact .operand (behind_cons (by decide) _ _ _) (.mark hleft
      (.operand (behind_cons (by decide) _ _ _) (.mark hright .nil)))
  | sliceFrom =>
    exact .operand (behind_cons (by decide) _ _ _) (.mark hleft
      (.operand (behind_cons (by decide) _ _ _) (.mark isMark_sliceEnd .nil)))
  | slice =>
    exact .operand (behind_cons (by decide) _ _ _) (.mark hleft
      (.operand (behind_cons (by decide) _ _ _) (.mark (isMark_single (by decide) rfl)
        (.operand (behind_cons (by decide) _ _ _) (.mark hright .nil)))))
  | @call f args => exact .mark (isMark_call f) (laid_arguments args)
  | @find t p ht hint hp =>
    refine .operand ?_ (.mark isMark_find
      (.operand (behind_cons (by decide) _ _ _) (.mark isMark_close .nil)))
    -- the point behind the text is a token, with or without parentheses around the text
    rintro _ ⟨⟩
    exact .inr ⟨rfl, hfind t p rfl, Expr.closed_of_atom hint⟩

/-- The text is cut into the tokens in front of all that ends the text of the expression. -/
def CutsTo (e : Expr) (text : List Char) (ts : List Tok) : Prop :=
  ∀ ⦃rest us⦄, Ending e.closed rest → Scans rest us → Scans (text ++ rest) (ts ++ us)

/-- A text that is cut as an operand is may stand for it, in parentheses if the operand does. -/
theorem CutsTo.fills {text : String} (h : CutsTo v text.toList ts)
    (htext : Unjoined text.toList) (slot : Level) (b : Bool) :
    (Segment.operand slot b v).Fills ((enclose b text).toList, encloseTokens b ts) := by
  refine ⟨unjoined_enclose htext b, fun rest us hbehind hs => ?_⟩
  cases b with
  | false =>
    refine h (fun c hc => ?_) hs
    exact (hbehind c hc).imp id fun hpoint => ⟨hpoint.1, hpoint.2.2 rfl⟩
  | true =>
    refine scans_enclosed (h ?_ (scans_mark (by decide) rfl hs))
    rintro _ ⟨⟩
    exact .inl (by decide)

/-- So may the bare text of an operand. -/
theorem Plain.fills_bare (h : Plain v) (slot : Level) (b : Bool) :
    (Segment.operand slot b v).Fills (v.render.toList, v.tokens) := by
  refine ⟨h.unjoined, fun rest us hbehind hs => h.cuts_pointed (fun c hc => ?_) hs⟩
  exact (hbehind c hc).imp id fun hpoint => ⟨hpoint.1, hpoint.2.1⟩

/-- Expressions without lists in which every search is one in a text that a point may follow. -/
inductive Searchable : Expr → Prop where
  | int (n : Int) : Searchable (.int n)
  | str (s : String) : Searchable (.str s)
  | name (id : String) : Searchable (.name id)
  | neg {e : Expr} : Searchable e → Searchable (.neg e)
  | binary {l r : Expr} (op : Operator) :
      Searchable l → Searchable r → Searchable (.binary op l r)
  | index {b i : Expr} : Searchable b → Searchable i → Searchable (.index b i)
  | sliceFrom {b lo : Expr} : Searchable b → Searchable lo → Searchable (.sliceFrom b lo)
  | slice {b lo hi : Expr} :
      Searchable b → Searchable lo → Searchable hi → Searchable (.slice b lo hi)
  | call (f : Function) {args : List Expr} :
      (∀ e ∈ args, Searchable e) → Searchable (.call f args)
  | find {t p : Expr} :
      t.pointed = true → Searchable t → Searchable p → Searchable (.find t p)

/-- The operands of a searchable expression are searchable. -/
theorem Searchable.operands (h : Searchable e) : (∀ t p, e = .find t p → t.pointed = true) ∧
      ∀ s ∈ e.segments, s.Each fun _ _ v => Searchable v := by
  cases h with
  | call f hargs =>
    have hall := each_argumentSegments (P := fun _ _ v => Searchable v) hargs
    refine ⟨by simp, ?_⟩
    simpa [Expr.segments, Segment.Each, or_imp, forall_and] using hall
  | find hpointed ht hp =>
    refine ⟨?_, by simp [Expr.segments, Segment.Each, ht, hp]⟩
    rintro _ _ ⟨⟩
    exact hpointed
  | _ => simp [Expr.segments, Segment.Each, *]

/-- What stands for each segment of an expression if nothing is left out. -/
def Segment.filling (s : Segment) : List Char × List Tok := (s.text.toList, s.tokens)

/-- What is written for the segments of a plain expression fills them. -/
theorem Plain.fills_filling (h : Plain e) (hss : ss ⊆ e.segments) :
    List.Forall₂ Segment.Fills ss (ss.map Segment.filling) := by
  induction ss with
  | nil => exact .nil
  | cons s ss ih =>
    rw [List.cons_subset] at hss
    refine .cons ?_ (ih hss.2)
    cases s with
    | mark text ks => rfl
    | operand slot b v =>
      have hv := (h.needs_operand _ hss.1).1
      exact CutsTo.fills hv.cuts hv.unjoined slot b

/-- The fillings put together are the text and the tokens of the row. -/
theorem flatMap_filling (ss : List Segment) :
    (ss.map Segment.filling).flatMap Prod.fst = (textOf ss).toList ∧
      (ss.map Segment.filling).flatMap Prod.snd = tokensOf ss := by
  induction ss with
  | nil => exact ⟨rfl, rfl⟩
  | cons s ss ih =>
    rw [List.map_cons, List.flatMap_cons, List.flatMap_cons, ih.1, ih.2, textOf,
      String.toList_append, tokensOf_cons]
    exact ⟨rfl, rfl⟩

/-- The text is cut into tokens that have too few parentheses in a place for the expression. -/
structure Lacks (e : Expr) (text : List Char) (ts : List Tok) (n : Nat) : Prop where
  cuts : CutsTo e text ts
  unjoined : Unjoined text
  inside : n < width ts
  fewer : Multiset.count n (opens ts) < Multiset.count n e.tree.places

/-- Let something else stand for an operand of an expression. If that has too few parentheses in a
place for the operand, the whole has too few for the expression. -/
theorem Plain.lacks_of_fills (h : Plain e)
    (hfind : ∀ t p, e = .find t p → t.pointed = true) {before after : List Segment}
    (hsegments : e.segments = before ++ .operand slot b v :: after) {text : String}
    {xs : List Tok} (hfills : (Segment.operand slot b v).Fills (text.toList, xs)) {n : Nat}
    (hn : n < width xs) (hlt : Multiset.count n (opens xs) < Multiset.count n (v.tree.needs slot)) :
    Lacks e (textOf before ++ text ++ textOf after).toList
      (tokensOf before ++ xs ++ tokensOf after) (width (tokensOf before) + n) := by
  have hbefore : before ⊆ e.segments := by simp [hsegments]
  have hafter : after ⊆ e.segments := by
    rw [hsegments]
    exact fun s hs => List.mem_append_right _ (.tail _ hs)
  have hlaid : Laid e.closed e.segments :=
    h.laid hfind (hsegments ▸ List.mem_append_right _ (.head _))
  rw [hsegments] at hlaid
  -- every other segment is filled with its own text
  have hall := List.rel_append (h.fills_filling hbefore) (.cons hfills (h.fills_filling hafter))
  have htexts : (before.map Segment.filling ++ (text.toList, xs) :: after.map Segment.filling).flatMap
      Prod.fst = (textOf before ++ text ++ textOf after).toList := by
    rw [List.flatMap_append, List.flatMap_cons, (flatMap_filling before).1,
      (flatMap_filling after).1, String.toList_append, String.toList_append, List.append_assoc]
  have htokens : (before.map Segment.filling ++ (text.toList, xs) :: after.map Segment.filling).flatMap
      Prod.snd = tokensOf before ++ xs ++ tokensOf after := by
    rw [List.flatMap_append, List.flatMap_cons, (flatMap_filling before).2,
      (flatMap_filling after).2, List.append_assoc]
  constructor
  case cuts =>
    intro rest us hrest hs
    rw [← htexts, ← htokens]
    exact hlaid.scans hall hrest hs
  case unjoined =>
    rw [← htexts]
    exact hlaid.unjoined hall (by simp)
  case inside =>
    rw [width_append, width_append]
    omega
  -- what the operand lacks, the whole lacks at the place where the operand stands
  case fewer =>
    rw [h.places_tree, hsegments]
    exact count_fill (fun s hs => h.fits_of_mem (hbefore hs)) hn hlt

/-- A text without a pair of parentheses has too few of them in a place. -/
theorem Plain.exists_lacks {text : String} (h : Plain e) (hsearch : Searchable e)
    (hbared : e.Bared text) : ∃ ts n, Lacks e text.toList ts n := by
  induction hbared with
  | @here e v before after slot hsegments hsign =>
    obtain ⟨hfind, -⟩ := hsearch.operands
    have hmem : Segment.operand slot true v ∈ e.segments := by simp [hsegments]
    obtain ⟨hv, hneeds⟩ := h.needs_operand _ hmem
    -- the pair in front of the operand is the one that is missing there
    have hlt : Multiset.count 0 (opens v.tokens) < Multiset.count 0 (v.tree.needs slot) := by
      rcases hneeds with hneeds | ⟨⟨w, rfl⟩, -⟩
      · rw [hneeds, count_raise_zero]
        exact Nat.lt_succ_of_le hv.count_front
      · exact absurd rfl (hsign w)
    have hpos : 0 < width v.tokens := hv.width_tokens ▸ hv.width_pos
    exact ⟨_, _, h.lacks_of_fills hfind hsegments (hv.fills_bare slot true) hpos hlt⟩
  | @inside e v before after slot enclosed text hsegments _ ih =>
    obtain ⟨hfind, hops⟩ := hsearch.operands
    have hmem : Segment.operand slot enclosed v ∈ e.segments := by simp [hsegments]
    obtain ⟨hv, hneeds⟩ := h.needs_operand _ hmem
    obtain ⟨ts, n, hlacks⟩ := ih hv (hops _ hmem)
    have hlt : Multiset.count n (opens (encloseTokens enclosed ts)) <
        Multiset.count n (v.tree.needs slot) := by
      rw [opens_encloseTokens]
      rcases hneeds with hneeds | ⟨-, hneeds, hzero⟩
      · rw [hneeds]
        exact count_raise_lt hlacks.fewer enclosed
      · -- behind a sign nothing is missing in front, where the pair around it stands
        have hne : n ≠ 0 := by
          rintro rfl
          exact hzero (Multiset.count_pos.mp (Nat.zero_lt_of_lt hlacks.fewer))
        rw [hneeds, count_raise_of_ne hne]
        exact hlacks.fewer
    have hn : n < width (encloseTokens enclosed ts) := by
      rw [width_encloseTokens]
      exact hlacks.inside
    exact ⟨_, _, h.lacks_of_fills hfind hsegments
      (hlacks.cuts.fills hlacks.unjoined slot enclosed) hn hlt⟩

/-- Without a pair of its parentheses the text of an expression has another reading or none. -/
theorem Plain.not_reads_of_bared {text : String} (h : Plain e) (hsearch : Searchable e)
    (hbared : e.Bared text) : ¬ Reads text e.tree := by
  obtain ⟨ts, n, hlacks⟩ := h.exists_lacks hsearch hbared
  rintro ⟨us, hscans, hgroups⟩
  have hcut : Scans (text.toList ++ []) (ts ++ []) := hlacks.cuts (by rintro _ ⟨⟩) .nil
  rw [List.append_nil, List.append_nil] at hcut
  obtain rfl := hscans.unique hcut
  have hneeds := Multiset.count_le_of_le n hgroups.needs_le_opens.2
  rw [Tree.needs_eq_places (Nat.zero_le _)] at hneeds
  exact absurd hlacks.fewer (Nat.not_lt.mpr hneeds)

end Plic.Python
