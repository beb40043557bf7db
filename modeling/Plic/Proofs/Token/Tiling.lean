import Plic.Proofs.Token.Pieces

/-!
# Tokens tile the source

Every token is a range of the source, and so is every report. The ranges of
all pieces lie side by side from the first character to the last, so a
character belongs to exactly one of them: to a token, to a blank or a comment,
or to a piece that was dropped and reported.

A place is counted from the text alone (`placeOf`): line feeds before it give
the line, characters behind the last of them the column.

Main results:

* `after_start` — walking over a text arrives at the place counted from it.
* `tokenize_tiling` — the tokens and reports of a source are those of a row of
  tiles that covers it.
-/

namespace Plic

/-! ## Places -/

namespace Location

/-- The place of the character behind a text: one line more than it has line
feeds, one column more than it has characters behind the last of them. -/
def placeOf (before : List Char) : Location :=
  ⟨1 + before.count '\n', 1 + (before.reverse.takeWhile (· ≠ '\n')).length⟩

/-- One place comes before another in the text. -/
def Before (a b : Location) : Prop :=
  a.line < b.line ∨ a.line = b.line ∧ a.column < b.column

theorem Before.trans {a b c : Location} (hab : a.Before b) (hbc : b.Before c) : a.Before c := by
  unfold Before at *
  omega

/-- Walking over a text arrives at the place that its characters count up to. -/
theorem after_start (before : List Char) : start.after before = placeOf before := by
  -- from the last character, on which the column depends
  induction before using List.reverseRecOn with
  | nil => rfl
  | append_singleton cs c ih =>
    rw [after_append, ih, after_cons, after_nil, step]
    by_cases hc : c = '\n'
    · subst hc
      simp [placeOf]
      omega
    · simp [placeOf, hc]
      omega

/-- Every character moves the place on. -/
theorem before_step (l : Location) (c : Char) : l.Before (l.step c) := by
  unfold Before step
  split
  · left
    simp
  · right
    simp

/-- A text that is not empty ends at a later place than it starts. -/
theorem before_after {text : List Char} (h : text ≠ []) (l : Location) :
    l.Before (l.after text) := by
  induction text generalizing l with
  | nil => exact absurd rfl h
  | cons c cs ih =>
    rw [after_cons]
    -- the text behind the first character may be empty
    by_cases hcs : cs = []
    · subst hcs
      exact before_step l c
    · exact (before_step l c).trans (ih hcs (l.step c))

end Location

/-! ## Tiles -/

namespace Lexer

/-- A piece together with the range of the source that it covers. -/
structure Tile where
  start : Nat
  stop : Nat
  piece : Piece

namespace Tile

/-- The characters of the source that a tile covers. -/
def range (source : List Char) (t : Tile) : List Char :=
  (source.drop t.start).take (t.stop - t.start)

/-- The tile covers the characters of its piece, and they are what the piece
claims to be. -/
structure Fits (source : List Char) (t : Tile) : Prop where
  covers : t.range source = t.piece.text
  fits   : t.piece.Fits (source.drop t.stop)

/-- Tiles side by side from one offset to another, none of them empty. -/
inductive Row : Nat → List Tile → Nat → Prop where
  | nil (n : Nat) : Row n [] n
  | cons {t : Tile} {ts : List Tile} {n : Nat} :
      t.start < t.stop → Row t.stop ts n → Row t.start (t :: ts) n

/-- The token of a tile. -/
def token? (source : List Char) (t : Tile) : Option Token :=
  match t.piece with
  | .token kind _ =>
    some ⟨kind, String.ofList (t.range source), .placeOf (source.take t.start)⟩
  | _ => none

/-- The report of a tile. -/
def report? (source : List Char) (t : Tile) : Option Diagnostic :=
  match t.piece with
  | .dropped problem _ => some ⟨problem, .placeOf (source.take t.start)⟩
  | _ => none

end Tile

/-- The tiles of some pieces, the first of which starts at an offset. -/
def tilesFrom : Nat → List Piece → List Tile
  | _, [] => []
  | n, p :: ps => ⟨n, n + p.text.length, p⟩ :: tilesFrom (n + p.text.length) ps

/-- The tile of a piece that stands between two parts of the source. -/
theorem range_between (before rest : List Char) (p : Piece) :
    Tile.range (before ++ (p.text ++ rest)) ⟨before.length, before.length + p.text.length, p⟩ =
      p.text := by
  simp [Tile.range]

variable {cs : List Char} {ps : List Piece}

/-- The tiles of a text lie side by side, from its start to its end. -/
theorem row_tilesFrom (h : Cut cs ps) (n : Nat) : Tile.Row n (tilesFrom n ps) (n + cs.length) := by
  induction h generalizing n with
  | nil => exact .nil n
  | @cons p rest ps hne _ _ ih =>
    have hpos := List.length_pos_iff.mpr hne
    rw [tilesFrom, List.length_append, ← Nat.add_assoc]
    have hlt : n < n + p.text.length := by omega
    exact Tile.Row.cons (t := ⟨n, n + p.text.length, p⟩) hlt (ih (n + p.text.length))

/-- Every tile of a cut fits, whatever stands before the text that is cut. -/
theorem fits_tilesFrom (h : Cut cs ps) (before : List Char) :
    ∀ t ∈ tilesFrom before.length ps, t.Fits (before ++ cs) := by
  induction h generalizing before with
  | nil =>
    intro t ht
    simp [tilesFrom] at ht
  | @cons p rest ps _ hfits _ ih =>
    intro t ht
    rw [tilesFrom] at ht
    rcases List.mem_cons.mp ht with rfl | ht
    -- the tile of the first piece
    · refine ⟨range_between before rest p, ?_⟩
      rw [← List.length_append, ← List.append_assoc, List.drop_left]
      exact hfits
    -- the tiles of the others: the first piece goes over to what stands before
    · rw [← List.append_assoc]
      apply ih (before ++ p.text)
      rw [List.length_append]
      exact ht

/-- What is found at each placed piece is found at each tile, if it is so for one piece between two
parts of the source. -/
theorem filterMap_tilesFrom {β : Type} {f : Location × Piece → Option β}
    {g : List Char → Tile → Option β}
    (hfg : ∀ before rest p, f (Location.start.after before, p) =
      g (before ++ (p.text ++ rest)) ⟨before.length, before.length + p.text.length, p⟩)
    (h : Cut cs ps) (before : List Char) :
    (placed (Location.start.after before) ps).filterMap f =
      (tilesFrom before.length ps).filterMap (g (before ++ cs)) := by
  induction h generalizing before with
  | nil => rfl
  | @cons p rest ps _ _ _ ih =>
    -- the first piece goes over to what stands before the rest
    have hrest := ih (before ++ p.text)
    rw [Location.after_append, List.append_assoc, List.length_append] at hrest
    rw [placed, tilesFrom, List.filterMap_cons, List.filterMap_cons, hrest, hfg before rest p]

/-- The tokens of the placed pieces are those of their tiles. -/
theorem tokens_tilesFrom (h : Cut cs ps) (before : List Char) :
    (placed (Location.start.after before) ps).filterMap tokenOf =
      (tilesFrom before.length ps).filterMap (Tile.token? (before ++ cs)) := by
  refine filterMap_tilesFrom (fun before rest p => ?_) h before
  cases p with
  | token kind text =>
    have hrange := range_between before rest (.token kind text)
    simp only [tokenOf, Tile.token?, hrange, List.take_left, Location.after_start]
    rfl
  | blank c | comment text | dropped problem text => rfl

/-- The reports on the placed pieces are those on their tiles. -/
theorem reports_tilesFrom (h : Cut cs ps) (before : List Char) :
    (placed (Location.start.after before) ps).filterMap diagnosticOf =
      (tilesFrom before.length ps).filterMap (Tile.report? (before ++ cs)) := by
  refine filterMap_tilesFrom (fun before rest p => ?_) h before
  cases p with
  | dropped problem text =>
    simp only [diagnosticOf, Tile.report?, List.take_left, Location.after_start]
  | blank c | comment text | token kind text => rfl

/-! ## Order -/

/-- No piece of a cut stands before the place where the cut starts. -/
theorem not_before_of_mem_placed (h : Cut cs ps)
    {l m : Location} (hml : m.Before l) : ∀ q ∈ placed l ps, m.Before q.1 := by
  induction h generalizing l with
  | nil =>
    intro q hq
    simp [placed] at hq
  | @cons p rest ps hne _ _ ih =>
    intro q hq
    rw [placed] at hq
    rcases List.mem_cons.mp hq with rfl | hq
    · exact hml
    · exact ih (hml.trans (Location.before_after hne l)) q hq

/-- The pieces of a cut stand one behind the other. -/
theorem pairwise_placed (h : Cut cs ps) (l : Location) :
    (placed l ps).Pairwise fun a b => a.1.Before b.1 := by
  induction h generalizing l with
  | nil => exact .nil
  | @cons p rest ps hne _ hcut ih =>
    rw [placed, List.pairwise_cons]
    exact ⟨not_before_of_mem_placed hcut (Location.before_after hne l), ih (l.after p.text)⟩

/-- A report has the place of its piece. -/
theorem diagnosticOf_loc {q : Location × Piece} {d : Diagnostic} (h : d ∈ diagnosticOf q) :
    d.loc = q.1 := by
  obtain ⟨l, p⟩ := q
  cases p with
  | dropped problem text =>
    rw [diagnosticOf, Option.mem_def, Option.some.injEq] at h
    rw [← h]
  | blank c | comment text | token kind text => simp [diagnosticOf] at h

/-- The reports on a cut are in the order of their places. -/
theorem pairwise_reports (h : Cut cs ps) (l : Location) :
    ((placed l ps).filterMap diagnosticOf).Pairwise fun a b => a.loc.Before b.loc := by
  apply (pairwise_placed h l).filterMap
  intro a b hab d hd e he
  rw [diagnosticOf_loc hd, diagnosticOf_loc he]
  exact hab

/-- No tile of a row starts before the row. -/
theorem Tile.Row.le_start {n m : Nat} {ts : List Tile} (h : Row n ts m) :
    ∀ t ∈ ts, n ≤ t.start := by
  induction h with
  | nil n =>
    intro t ht
    simp at ht
  | cons hlt _ ih =>
    intro u hu
    rcases List.mem_cons.mp hu with rfl | hu
    · exact Nat.le_refl _
    · exact Nat.le_trans (Nat.le_of_lt hlt) (ih u hu)

/-- The ranges of a row are disjoint and increasing. -/
theorem Tile.Row.pairwise {n m : Nat} {ts : List Tile} (h : Row n ts m) :
    ts.Pairwise fun a b => a.stop ≤ b.start := by
  induction h with
  | nil n => exact .nil
  | cons _ hrow ih => exact List.pairwise_cons.mpr ⟨hrow.le_start, ih⟩

/-- **Tokens tile the source.** Reading a source cuts it into ranges that lie
side by side from its first character to its last. Each range holds what its
piece says (`Tile.Fits`): a token, a blank, a comment up to its first end mark,
or something that has to be dropped. The tokens are the characters of the
token ranges, with the end of the source behind them; the reports are those on
the dropped ranges, one for each, and they come in the order of the text. Every
place is the one counted from the characters before it. -/
theorem tokenize_tiling (source : String) :
    ∃ tiles : List Tile,
      Tile.Row 0 tiles source.toList.length ∧
      tiles.Pairwise (fun a b => a.stop ≤ b.start) ∧
      (∀ t ∈ tiles, t.Fits source.toList) ∧
      (ofSource source).tokenize.1 =
        tiles.filterMap (Tile.token? source.toList) ++
          [.endOfSource (.placeOf source.toList)] ∧
      (ofSource source).tokenize.2.diagnostics =
        tiles.filterMap (Tile.report? source.toList) ∧
      (ofSource source).tokenize.2.diagnostics.Pairwise fun a b => a.loc.Before b.loc := by
  -- all facts are about one cut of the source
  have hcut := cut_pieces source.toList
  have hrow : Tile.Row 0 (tilesFrom 0 (pieces source.toList)) source.toList.length := by
    simpa using row_tilesFrom hcut 0
  refine ⟨tilesFrom 0 (pieces source.toList), hrow, hrow.pairwise, fits_tilesFrom hcut [],
    ?_, ?_, ?_⟩
  · have htokens := tokens_tilesFrom hcut []
    rw [tokenize, ← Location.after_start]
    exact congrArg (· ++ _) htokens
  · exact reports_tilesFrom hcut []
  · exact pairwise_reports hcut .start

end Lexer

end Plic
