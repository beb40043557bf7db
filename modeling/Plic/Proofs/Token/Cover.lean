import Plic.Proofs.Token.Tiling

/-!
# The characters that a token covers

A token tells where it starts by a line and a column, and by its lexeme how far
it goes. This is enough to say of every character of the source whether it
stands inside the token, since no two offsets of a text have the same place.

Main result: `exists_covers_iff` — the characters inside tokens of some kinds are
those in the ranges of the tiles of these kinds.
-/

namespace Plic

namespace Location

theorem Before.irrefl (l : Location) : ¬ l.Before l := by
  unfold Before
  omega

/-- Two offsets of a text with the same place are the same. -/
theorem placeOf_take_inj {source : List Char} {m n : Nat} (hm : m ≤ source.length)
    (hn : n ≤ source.length) (h : placeOf (source.take m) = placeOf (source.take n)) : m = n := by
  -- the place moves forward with every character in between
  have hlater : ∀ {a b : Nat}, a < b → b ≤ source.length →
      (placeOf (source.take a)).Before (placeOf (source.take b)) := by
    intro a b hab hb
    have hsplit := List.take_append_drop a (source.take b)
    rw [List.take_take, Nat.min_eq_left hab.le] at hsplit
    have hne : (source.take b).drop a ≠ [] := by
      rw [← List.length_pos_iff]
      simp
      omega
    rw [← after_start, ← after_start, ← hsplit, after_append]
    exact before_after hne _
  rcases Nat.lt_trichotomy m n with hlt | heq | hgt
  · exact absurd (h ▸ hlater hlt hn) (Before.irrefl _)
  · exact heq
  · exact absurd (h ▸ hlater hgt hm) (Before.irrefl _)

end Location

/-- The character at an offset of the source stands inside the token: the token
starts at or before it and is long enough. -/
def Token.Covers (source : List Char) (t : Token) (i : Nat) : Prop :=
  ∃ start ≤ i, i < start + t.lexeme.toList.length ∧ Location.placeOf (source.take start) = t.loc

instance (source : List Char) (t : Token) (i : Nat) : Decidable (t.Covers source i) :=
  inferInstanceAs (Decidable (∃ start, start ≤ i ∧ _))

namespace Lexer

namespace Tile

/-- The token of a tile has its characters and stands where the tile starts. -/
theorem token?_eq_some_iff {source : List Char} {tile : Tile} {t : Token} :
    tile.token? source = some t ↔
      ∃ kind text, tile.piece = .token kind text ∧
        t = ⟨kind, String.ofList (tile.range source), .placeOf (source.take tile.start)⟩ := by
  obtain ⟨start, stop, p⟩ := tile
  cases p with
  | token kind text => simp [token?, eq_comm]
  | blank c | comment text | dropped problem text => simp [token?]

/-- The tile lies within the source. -/
structure Within (source : List Char) (tile : Tile) : Prop where
  start : tile.start ≤ tile.stop
  stop  : tile.stop ≤ source.length

/-- The tiles of a source lie within it. -/
theorem Row.within {n : Nat} {tiles : List Tile} {source : List Char}
    (h : Row n tiles source.length) : ∀ tile ∈ tiles, tile.Within source := by
  generalize hm : source.length = m at h
  -- by induction from the last tile, which ends where the source does
  have hbound : n ≤ m ∧ ∀ tile ∈ tiles, tile.start ≤ tile.stop ∧ tile.stop ≤ m := by
    clear hm
    induction h with
    | nil n => exact ⟨Nat.le_refl n, by simp⟩
    | cons hlt _ ih =>
      rw [List.forall_mem_cons]
      exact ⟨Nat.le_trans hlt.le ih.1, ⟨hlt.le, ih.1⟩, ih.2⟩
  intro tile htile
  obtain ⟨hstart, hstop⟩ := hbound.2 tile htile
  exact ⟨hstart, hm ▸ hstop⟩

/-- The token of a tile covers the range of the tile. -/
theorem Within.covers_iff {source : List Char} {tile : Tile} (h : tile.Within source)
    {t : Token} (ht : tile.token? source = some t) {i : Nat} (hi : i < source.length) :
    t.Covers source i ↔ tile.start ≤ i ∧ i < tile.stop := by
  obtain ⟨kind, text, -, rfl⟩ := token?_eq_some_iff.mp ht
  have hlength : (tile.range source).length = tile.stop - tile.start := by
    have := h.stop
    simp [range]
    omega
  have hstart := h.start
  have hstop := h.stop
  simp only [Token.Covers, String.toList_ofList, hlength]
  constructor
  · rintro ⟨start, hle, hlt, hplace⟩
    -- the place of the token tells where it starts
    obtain rfl := Location.placeOf_take_inj (by omega) (by omega) hplace
    omega
  · rintro ⟨hle, hlt⟩
    exact ⟨tile.start, hle, by omega, rfl⟩

end Tile

/-- The tiles of a source. -/
def tiles (source : String) : List Tile := tilesFrom 0 (pieces source.toList)

theorem row_tiles (source : String) : Tile.Row 0 (tiles source) source.toList.length := by
  have hrow := row_tilesFrom (cut_pieces source.toList) 0
  rwa [Nat.zero_add] at hrow

/-- The tokens of a source are those of its tiles, and the end. -/
theorem tokenize_tiles (source : String) :
    (ofSource source).tokenize.1 =
      (tiles source).filterMap (Tile.token? source.toList) ++
        [.endOfSource (.placeOf source.toList)] := by
  have htokens := tokens_tilesFrom (cut_pieces source.toList) []
  rw [tokenize, ← Location.after_start]
  exact congrArg (· ++ _) htokens

/-- A character stands inside a token of some kind exactly if it is in the range
of a tile of that kind. -/
theorem exists_covers_iff {source : String} {P : Token.Kind → Prop} {i : Nat}
    (hi : i < source.toList.length) :
    (∃ t ∈ (ofSource source).tokenize.1, P t.kind ∧ t.Covers source.toList i) ↔
      ∃ tile ∈ tiles source, (∃ kind text, tile.piece = .token kind text ∧ P kind) ∧
        tile.start ≤ i ∧ i < tile.stop := by
  have hwithin := (row_tiles source).within
  rw [tokenize_tiles]
  constructor
  · rintro ⟨t, ht, hP, hcovers⟩
    rw [List.mem_append, List.mem_filterMap, List.mem_singleton] at ht
    rcases ht with ⟨tile, htile, ht⟩ | rfl
    · rw [(hwithin tile htile).covers_iff ht hi] at hcovers
      obtain ⟨kind, text, hpiece, rfl⟩ := Tile.token?_eq_some_iff.mp ht
      exact ⟨tile, htile, ⟨kind, text, hpiece, hP⟩, hcovers⟩
    · -- the end of the source has no characters
      obtain ⟨start, hle, hlt, -⟩ := hcovers
      simp [Token.endOfSource] at hlt
      omega
  · rintro ⟨tile, htile, ⟨kind, text, hpiece, hP⟩, hrange⟩
    have ht : tile.token? source.toList = some ⟨kind, String.ofList (tile.range source.toList),
        .placeOf (source.toList.take tile.start)⟩ :=
      Tile.token?_eq_some_iff.mpr ⟨kind, text, hpiece, rfl⟩
    refine ⟨_, List.mem_append_left _ (List.mem_filterMap.mpr ⟨tile, htile, ht⟩), hP, ?_⟩
    exact ((hwithin tile htile).covers_iff ht hi).mpr hrange

end Lexer

end Plic
