import Plic.Proofs.Token.Cover
import Plic.Proofs.Token.Exact

/-!
# The case of letters in a source

A source is recased where a letter is exchanged for the same letter in the other
case. No lexical rule tells the two apart: a class of characters holds all letters
or none of them, marks and quotes are no letters, and words are looked up in small
letters. Only constants and queries keep their characters as they are.

So a recased source with the same constants and queries is cut at the same places
into pieces of the same kinds. Its tokens differ in the spelling of words alone, and
there is the same to report on it.

Main results:

* `Spells.recase`, `Drops.recase` — a recased token is a token of the same kind, and
  what is dropped is dropped for the same reason.
* `Cut.recase` — a recased text is cut into recased pieces.
* `tokenize_recased` — its tokens are recased and stand where they stood.
-/

namespace Plic

/-! ## Characters and texts -/

/-- The same character, or one letter in two cases. -/
def Recased (c d : Char) : Prop := c = d ∨ c.isAlpha ∧ d.isAlpha ∧ c.toLower = d.toLower

instance (c d : Char) : Decidable (Recased c d) := inferInstanceAs (Decidable (_ ∨ _))

/-- Recasing can be undone by recasing. -/
theorem Recased.symm {c d : Char} (h : Recased c d) : Recased d c := by
  rcases h with rfl | ⟨hc, hd, hlower⟩
  · exact .inl rfl
  · exact .inr ⟨hd, hc, hlower.symm⟩

/-- In small letters both are the same. -/
theorem Recased.toLower_eq {c d : Char} (h : Recased c d) : c.toLower = d.toLower := by
  rcases h with rfl | ⟨_, _, hlower⟩
  · rfl
  · exact hlower

/-- Only letters have a case. -/
theorem Recased.eq {c d : Char} (h : Recased c d) (hc : ¬ c.isAlpha) : c = d := by
  rcases h with rfl | ⟨halpha, _, _⟩
  · rfl
  · exact absurd halpha hc

/-- A class of characters that does not tell the cases apart. -/
def Caseless (p : Char → Prop) : Prop := ∀ ⦃c d⦄, Recased c d → p c → p d

namespace Caseless

variable {p : Char → Prop}

/-- A class that holds all letters is caseless. -/
theorem of_letters (h : ∀ c, c.isAlpha → p c) : Caseless p := by
  rintro c d (rfl | ⟨_, hd, _⟩) hc
  · exact hc
  · exact h d hd

theorem not (h : Caseless p) : Caseless fun c => ¬ p c :=
  fun _ _ hcd hc hd => hc (h hcd.symm hd)

theorem of_no_letters (h : ∀ c, p c → ¬ c.isAlpha) : Caseless p := by
  intro c d hcd hc
  rwa [← hcd.eq (h c hc)]

/-- A mark is told from every other character, whatever their case. -/
theorem ne {e : Char} (he : ¬ e.isAlpha) : Caseless (· ≠ e) := by
  have heq : Caseless (· = e) := of_no_letters fun c hc => by rwa [hc]
  exact heq.not

end Caseless

/-- The texts are the same but for the case of letters. -/
def RecasedText (cs ds : List Char) : Prop := List.Forall₂ Recased cs ds

instance (cs ds : List Char) : Decidable (RecasedText cs ds) :=
  inferInstanceAs (Decidable (List.Forall₂ _ _ _))

namespace RecasedText

variable {cs ds text : List Char}

theorem refl (cs : List Char) : RecasedText cs cs :=
  List.forall₂_same.mpr fun _ _ => .inl rfl

theorem symm (h : RecasedText cs ds) : RecasedText ds cs :=
  (List.Forall₂.imp (fun _ _ hcd => hcd.symm) h).flip

theorem append {cs' ds' : List Char} (h : RecasedText cs ds) (h' : RecasedText cs' ds') :
    RecasedText (cs ++ cs') (ds ++ ds') :=
  List.rel_append h h'

/-- A recased text can be taken apart where the text can. -/
theorem split {cs' : List Char} (h : RecasedText (cs ++ cs') text) :
    ∃ ds ds', text = ds ++ ds' ∧ RecasedText cs ds ∧ RecasedText cs' ds' := by
  induction cs generalizing text with
  | nil => exact ⟨[], text, rfl, .nil, h⟩
  | cons c cs ih =>
    cases h with
    | cons hc hrest =>
      obtain ⟨ds, ds', rfl, hds, hds'⟩ := ih hrest
      exact ⟨_ :: ds, ds', rfl, .cons hc hds, hds'⟩

/-- In small letters both texts are the same. -/
theorem map_toLower (h : RecasedText cs ds) : cs.map Char.toLower = ds.map Char.toLower := by
  rw [← List.forall₂_eq_eq_eq, List.forall₂_map_left_iff, List.forall₂_map_right_iff]
  exact List.Forall₂.imp (fun _ _ hcd => hcd.toLower_eq) h

/-- Without letters there is nothing to recase. -/
theorem eq (h : RecasedText cs ds) (hcs : ∀ c ∈ cs, ¬ c.isAlpha) : cs = ds := by
  induction h with
  | nil => rfl
  | cons hcd _ ih =>
    rw [List.forall_mem_cons] at hcs
    rw [hcd.eq hcs.1, ih hcs.2]

/-- What holds of all characters for a caseless class holds of the recased ones. -/
theorem forall_mem (h : RecasedText cs ds) {p : Char → Prop} (hp : Caseless p)
    (hcs : ∀ c ∈ cs, p c) : ∀ d ∈ ds, p d := by
  induction h with
  | nil => exact hcs
  | cons hcd _ ih =>
    rw [List.forall_mem_cons] at hcs ⊢
    exact ⟨hp hcd hcs.1, ih hcs.2⟩

theorem forall_head? (h : RecasedText cs ds) {p : Char → Prop} (hp : Caseless p)
    (hcs : ∀ c ∈ cs.head?, p c) : ∀ d ∈ ds.head?, p d := by
  cases h with
  | nil => exact hcs
  | cons hcd _ =>
    intro d hd
    obtain rfl := Option.some.inj hd
    exact hp hcd (hcs _ rfl)

/-- A text that does not begin with a mark does not do so when it is recased. -/
theorem head?_ne (h : RecasedText cs ds) {e : Char} (he : ¬ e.isAlpha)
    (hcs : cs.head? ≠ some e) : ds.head? ≠ some e := by
  have hds := h.forall_head? (Caseless.ne he) fun c hc hce => hcs (hce ▸ hc)
  exact fun hhead => hds e hhead rfl

/-- What has no letters and stands at the front stays there. -/
theorem front (h : RecasedText cs ds) (htext : ∀ c ∈ text, ¬ c.isAlpha) (hfront : text <+: cs) :
    text <+: ds := by
  obtain ⟨rest, rfl⟩ := hfront
  obtain ⟨text', rest', rfl, htext', -⟩ := h.split
  rw [← htext'.eq htext]
  exact List.prefix_append _ _

/-- What has no letters and stands in a text stays in it. -/
theorem part (h : RecasedText cs ds) (htext : ∀ c ∈ text, ¬ c.isAlpha) (hpart : text <:+: cs) :
    text <:+: ds := by
  obtain ⟨before, rest, rfl⟩ := hpart
  rw [List.append_assoc] at h
  obtain ⟨before', tail, rfl, -, htail⟩ := h.split
  have hfront := htail.front htext (List.prefix_append _ _)
  exact hfront.isInfix.trans (List.suffix_append _ _).isInfix

/-- A recased text takes as much room. -/
theorem after_eq (h : RecasedText cs ds) (l : Location) : l.after cs = l.after ds := by
  induction h generalizing l with
  | nil => rfl
  | @cons c d _ _ hcd _ ih =>
    have hstep : l.step c = l.step d := by
      by_cases hfeed : c = '\n'
      · rw [hcd.eq (by rw [hfeed]; decide)]
      · have hd : d ≠ '\n' := Caseless.ne (by decide) hcd hfeed
        rw [Location.step, Location.step, if_neg hfeed, if_neg hd]
    rw [Location.after_cons, Location.after_cons, hstep, ih]

end RecasedText

namespace Lexer

/-! ## Classes of characters -/

theorem isNameStart_of_isAlpha {c : Char} (h : c.isAlpha) : isNameStart c := by
  rw [isNameStart, h, Bool.true_or]

theorem isNameRest_of_isAlpha {c : Char} (h : c.isAlpha) : isNameRest c := by
  rw [isNameRest, isNameStart_of_isAlpha h, Bool.true_or]

theorem not_isAlpha_of_isDigit {c : Char} (h : c.isDigit) : ¬ c.isAlpha := by
  intro halpha
  rw [isDigit_of_isNameStart (isNameStart_of_isAlpha halpha)] at h
  exact absurd h (by decide)

theorem IsMark.not_isAlpha {c : Char} (h : IsMark c) : ¬ c.isAlpha :=
  fun halpha => h.word (isNameRest_of_isAlpha halpha)

theorem caseless_isDigit : Caseless fun c => c.isDigit :=
  .of_no_letters fun _ => not_isAlpha_of_isDigit

theorem caseless_isNameStart : Caseless fun c => isNameStart c :=
  .of_letters fun _ => isNameStart_of_isAlpha

theorem caseless_isNameRest : Caseless fun c => isNameRest c :=
  .of_letters fun _ => isNameRest_of_isAlpha

theorem not_isAlpha_slash_star : ∀ c ∈ ['/', '*'], ¬ c.isAlpha :=
  List.forall_mem_cons.mpr ⟨by decide, List.forall_mem_singleton.mpr (by decide)⟩

theorem not_isAlpha_star_slash : ∀ c ∈ ['*', '/'], ¬ c.isAlpha :=
  List.forall_mem_cons.mpr ⟨by decide, List.forall_mem_singleton.mpr (by decide)⟩

/-- A symbol has no letters, so it stays at the front of a recased text. -/
theorem symbol_front {cs ds : List Char} (h : RecasedText cs ds) {s : List Char × Symbol}
    (hs : s ∈ Symbol.spellings) (hfront : s.1 <+: cs) : s.1 <+: ds :=
  h.front (fun c hc => (isMark_of_mem hs c hc).not_isAlpha) hfront

/-! ## Spellings -/

theorem IsWord.recase {letters letters' : List Char} (h : IsWord letters)
    (hrecased : RecasedText letters letters') : IsWord letters' := by
  cases hrecased with
  | nil => exact h
  | cons hc hrest =>
    exact ⟨caseless_isNameStart hc h.1, RecasedText.forall_mem hrest caseless_isNameRest h.2⟩

/-- A text that closes a constant closes one when it is recased. -/
theorem exists_doubled {value rest cs : List Char}
    (h : RecasedText (doubled value ++ '\x27' :: rest) cs) :
    ∃ value' rest', cs = doubled value' ++ '\x27' :: rest' ∧ RecasedText value value' ∧
      RecasedText rest rest' := by
  induction value generalizing cs with
  | nil =>
    cases h with
    | cons hquote hrest =>
      obtain rfl := hquote.eq (by decide)
      exact ⟨[], _, rfl, .nil, hrest⟩
  | cons c value ih =>
    by_cases hc : c = '\x27'
    -- the two quotes for one of the value are no letters, so both stay
    · subst hc
      rw [doubled_cons_quote] at h
      cases h with
      | cons hquote h =>
        cases h with
        | cons hsecond hrest =>
          obtain rfl := hquote.eq (by decide)
          obtain rfl := hsecond.eq (by decide)
          obtain ⟨value', rest', rfl, hvalue, hrest⟩ := ih hrest
          exact ⟨'\x27' :: value', rest', by rw [doubled_cons_quote]; rfl,
            .cons (.inl rfl) hvalue, hrest⟩
    · rw [doubled_cons_plain hc] at h
      cases h with
      | @cons _ d _ _ hcd hrest =>
        have hd : d ≠ '\x27' := Caseless.ne (by decide) hcd hc
        obtain ⟨value', rest', rfl, hvalue, hrest⟩ := ih hrest
        exact ⟨d :: value', rest', by rw [doubled_cons_plain hd]; rfl, .cons hcd hvalue, hrest⟩

/-- A text that closes a query closes one when it is recased. -/
theorem QuerySpelling.recase {value body body' : List Char} (h : QuerySpelling value body)
    (hrecased : RecasedText body body') : ∃ value', QuerySpelling value' body' := by
  induction h generalizing body' with
  | close =>
    obtain rfl := hrecased.eq (List.forall_mem_singleton.mpr (by decide))
    exact ⟨[], .close⟩
  | @escaped c _ _ hc _ ih =>
    have hmark : ¬ c.isAlpha := by rcases hc with rfl | rfl <;> decide
    cases hrecased with
    | cons hback hrecased =>
      cases hrecased with
      | cons hcd hrest =>
        obtain rfl := hback.eq (by decide)
        obtain rfl := hcd.eq hmark
        obtain ⟨value', hvalue⟩ := ih hrest
        exact ⟨c :: value', .escaped hc hvalue⟩
  | @plain c _ _ hclose hline hback _ ih =>
    cases hrecased with
    | @cons _ d _ _ hcd hrest =>
      obtain ⟨value', hvalue⟩ := ih hrest
      refine ⟨d :: value', .plain (Caseless.ne (by decide) hcd hclose)
        (Caseless.ne (by decide) hcd hline) ?_ hvalue⟩
      -- a backslash that stands for itself did so before
      rintro rfl
      obtain ⟨hquote, hescape⟩ := hback (hcd.symm.eq (by decide)).symm
      exact ⟨RecasedText.head?_ne hrest (by decide) hquote,
        RecasedText.head?_ne hrest (by decide) hescape⟩

end Lexer

/-- The token is taken as it is written: a character constant or a query. -/
def Token.Kind.IsVerbatim : Token.Kind → Prop
  | .text _ | .query _ => True
  | _ => False

instance : DecidablePred Token.Kind.IsVerbatim
  | .text _ | .query _ => .isTrue trivial
  | .number _ | .name _ | .keyword _ | .symbol _ | .eof => .isFalse id

/-- The token is a word, which can be written in either case. -/
def Token.Kind.IsWord : Token.Kind → Prop
  | .name _ | .keyword _ => True
  | _ => False

namespace Lexer

/-- A recased token that is not a word is the same token. -/
theorem Spells.eq_of_recased {kind : Token.Kind} {text text' behind : List Char}
    (h : Spells kind text behind) (htext : RecasedText text text')
    (hverbatim : kind.IsVerbatim → text = text') (hword : ¬ kind.IsWord) : text = text' := by
  cases h with
  | number _ hdigits _ _ => exact htext.eq fun d hd => not_isAlpha_of_isDigit (hdigits d hd)
  | text _ _ | query _ => exact hverbatim trivial
  | name _ _ _ | keyword _ _ _ => exact absurd trivial hword
  | symbol hmem _ _ => exact htext.eq fun c hc => (isMark_of_mem hmem c hc).not_isAlpha

/-- A recased token is a token of the same kind, if constants and queries are kept. -/
theorem Spells.recase {kind : Token.Kind} {text text' behind behind' : List Char}
    (h : Spells kind text behind) (htext : RecasedText text text')
    (hbehind : RecasedText behind behind') (hverbatim : kind.IsVerbatim → text = text') :
    Spells kind text' behind' := by
  -- only words may change; everything else has no letters or is kept as it is
  by_cases hword : kind.IsWord
  · cases h with
    | name hletters hend hfree =>
      rw [htext.map_toLower] at hfree ⊢
      exact .name (hletters.recase htext) (hbehind.forall_head? caseless_isNameRest.not hend) hfree
    | keyword hletters hend hkeyword =>
      rw [htext.map_toLower] at hkeyword
      exact .keyword (hletters.recase htext) (hbehind.forall_head? caseless_isNameRest.not hend)
        hkeyword
    | _ => exact absurd hword id
  · obtain rfl := h.eq_of_recased htext hverbatim hword
    cases h with
    | number hne hdigits hend hmax =>
      exact .number hne hdigits (hbehind.forall_head? caseless_isDigit.not hend) hmax
    | text hline hnext => exact .text hline (hbehind.head?_ne (by decide) hnext)
    | query hspells => exact .query hspells
    | name _ _ _ | keyword _ _ _ => exact absurd trivial hword
    | symbol hmem hlongest hopen =>
      have hback := (RecasedText.refl text).append hbehind.symm
      exact .symbol hmem (fun s hs hfront => hlongest s hs (symbol_front hback hs hfront))
        fun hcomment => hopen (hback.front not_isAlpha_slash_star hcomment)

/-- What is dropped from a recased text is dropped for the same reason. -/
theorem Drops.recase {problem : Problem} {text text' behind behind' : List Char}
    (h : Drops problem text behind) (htext : RecasedText text text')
    (hbehind : RecasedText behind behind') : Drops problem text' behind' := by
  cases h with
  | @illegalCharacter c _ hblank hdigit hletter hquote hdouble hfree =>
    have halpha : ¬ c.isAlpha := fun hc => hletter (isNameStart_of_isAlpha hc)
    obtain rfl := htext.eq (List.forall_mem_singleton.mpr halpha)
    have hback := (RecasedText.refl [c]).append hbehind.symm
    exact .illegalCharacter hblank hdigit hletter hquote hdouble
      fun s hs hfront => hfree s hs (symbol_front hback hs hfront)
  | unterminatedText hopen =>
    obtain rfl := htext.eq (List.forall_mem_singleton.mpr (by decide))
    refine .unterminatedText ?_
    -- a constant that closes now would have closed in the other case
    rintro value rest hline hnext rfl
    obtain ⟨value', rest', hclosed, hvalue, hrest⟩ := exists_doubled hbehind.symm
    have hline' : ∀ c ∈ value', c ≠ '\n' :=
      hvalue.forall_mem (Caseless.ne (by decide)) fun c hc hfeed => hline (hfeed ▸ hc)
    exact hopen value' rest' (fun hfeed => hline' _ hfeed rfl) (hrest.head?_ne (by decide) hnext)
      hclosed
  | unterminatedQuery hopen =>
    obtain rfl := htext.eq (List.forall_mem_singleton.mpr (by decide))
    refine .unterminatedQuery ?_
    rintro value body hspells ⟨rest, rfl⟩
    obtain ⟨body', rest', rfl, hbody, -⟩ := hbehind.symm.split
    obtain ⟨value', hspells'⟩ := hspells.recase hbody
    exact hopen value' body' hspells' (List.prefix_append _ _)
  | numberOutOfRange hne hdigits hend hmax =>
    obtain rfl := htext.eq fun d hd => not_isAlpha_of_isDigit (hdigits d hd)
    exact .numberOutOfRange hne hdigits (hbehind.forall_head? caseless_isDigit.not hend) hmax
  | @unterminatedComment body hopen =>
    have hopening : RecasedText (['/', '*'] ++ body) text' := htext
    obtain ⟨mark, body', rfl, hmark, hbody⟩ := hopening.split
    obtain rfl := hmark.eq not_isAlpha_slash_star
    cases hbehind with
    | nil =>
      exact .unterminatedComment fun hclosed =>
        hopen (hbody.symm.part not_isAlpha_star_slash hclosed)

end Lexer

open Lexer

/-! ## Pieces -/

namespace Piece

/-- The pieces are of the same kind, and their characters are the same but for the
case of letters. -/
inductive Recased : Piece → Piece → Prop where
  | blank (c : Char) : Recased (.blank c) (.blank c)
  | comment {text text' : List Char} :
      RecasedText text text' → Recased (.comment text) (.comment text')
  | token {kind : Token.Kind} {text text' : List Char} :
      RecasedText text text' → (¬ kind.IsWord → text = text') →
      Recased (.token kind text) (.token kind text')
  | dropped {problem : Problem} {text text' : List Char} :
      RecasedText text text' → Recased (.dropped problem text) (.dropped problem text')

theorem Recased.text {p q : Piece} (h : p.Recased q) : RecasedText p.text q.text := by
  cases h with
  | blank c => exact .refl _
  | comment htext | token htext _ | dropped htext => exact htext

/-- A character constant or a query. -/
def IsVerbatim (p : Piece) : Prop := ∃ kind text, p = .token kind text ∧ kind.IsVerbatim

/-- A recased piece is a piece of the same kind. -/
theorem Fits.recase {p : Piece} {text behind behind' : List Char} (h : p.Fits behind)
    (htext : RecasedText p.text text) (hbehind : RecasedText behind behind')
    (hverbatim : p.IsVerbatim → p.text = text) :
    ∃ q : Piece, q.text = text ∧ q.Fits behind' ∧ p.Recased q := by
  cases h with
  | @blank c _ hblank =>
    have halpha : ¬ c.isAlpha := by
      intro hc
      rw [(ordinary_of_isNameStart (isNameStart_of_isAlpha hc)).blank] at hblank
      exact absurd hblank (by decide)
    obtain rfl := htext.eq (List.forall_mem_singleton.mpr halpha)
    exact ⟨.blank c, rfl, .blank hblank, .blank c⟩
  -- the two ends of the comment have no letters and stay what they are
  | @comment inner _ hfirst =>
    have hopening : RecasedText (['/', '*'] ++ (inner ++ ['*', '/'])) text := htext
    obtain ⟨mark, tail, rfl, hmark, htail⟩ := hopening.split
    obtain ⟨inner', ending, rfl, hinner, hending⟩ := htail.split
    obtain rfl := hmark.eq not_isAlpha_slash_star
    obtain rfl := hending.eq not_isAlpha_star_slash
    -- an early end of the recased comment would be one of the comment itself
    refine ⟨_, rfl, .comment fun hclosed => hfirst ?_, .comment htext⟩
    exact (hinner.symm.append (.refl _)).part not_isAlpha_star_slash hclosed
  | @token kind _ _ hspells =>
    have hsame : kind.IsVerbatim → _ = text := fun hkind => hverbatim ⟨_, _, rfl, hkind⟩
    exact ⟨.token kind text, rfl, .token (hspells.recase htext hbehind hsame),
      .token htext (hspells.eq_of_recased htext hsame)⟩
  | @dropped problem _ _ hdrops =>
    exact ⟨.dropped problem text, rfl, .dropped (hdrops.recase htext hbehind), .dropped htext⟩

end Piece

/-- A recased text with the same constants and queries is cut into recased pieces. -/
theorem Cut.recase {cs cs' : List Char} {ps : List Piece} (h : Cut cs ps) (n : Nat)
    (hcs : RecasedText cs cs')
    (hverbatim : ∀ i < cs.length,
      (∃ tile ∈ tilesFrom n ps, tile.piece.IsVerbatim ∧ tile.start ≤ n + i ∧ n + i < tile.stop) →
      cs[i]? = cs'[i]?) :
    ∃ ps', Cut cs' ps' ∧ List.Forall₂ Piece.Recased ps ps' := by
  induction h generalizing n cs' with
  | nil =>
    cases hcs with
    | nil => exact ⟨[], .nil, .nil⟩
  | @cons p rest ps hne hfits _ ih =>
    obtain ⟨text, rest', rfl, htext, hrest⟩ := hcs.split
    have hlength : p.text.length = text.length := List.Forall₂.length_eq htext
    have hsame : p.IsVerbatim → p.text = text := by
      -- the first tile is that of the piece
      intro hp
      apply List.ext_getElem hlength
      intro i hi hi'
      have hchar := hverbatim i (by rw [List.length_append]; omega)
        ⟨⟨n, n + p.text.length, p⟩, by simp [tilesFrom], hp, by simp, by simpa using hi⟩
      rw [List.getElem?_append_left hi, List.getElem?_append_left hi'] at hchar
      simpa [hi, hi'] using hchar
    obtain ⟨q, rfl, hq, hpq⟩ := hfits.recase htext hrest hsame
    -- offsets in the rest are counted from the end of the piece
    have hbehind : ∀ i < rest.length,
        (∃ tile ∈ tilesFrom (n + p.text.length) ps, tile.piece.IsVerbatim ∧
          tile.start ≤ n + p.text.length + i ∧ n + p.text.length + i < tile.stop) →
        rest[i]? = rest'[i]? := by
      rintro i hi ⟨tile, htile, hp, hrange⟩
      have hchar := hverbatim (p.text.length + i) (by rw [List.length_append]; omega)
        ⟨tile, List.mem_cons_of_mem _ htile, hp, by omega⟩
      rw [List.getElem?_append_right (by omega), List.getElem?_append_right (by omega)] at hchar
      simpa [hlength] using hchar
    obtain ⟨ps', hcut, hps⟩ := ih (n + p.text.length) hrest hbehind
    have hqne : q.text ≠ [] := by
      rw [← List.length_pos_iff, ← hlength, List.length_pos_iff]
      exact hne
    exact ⟨q :: ps', .cons hqne hq hcut, .cons hpq hps⟩

/-! ## Tokens and reports -/

/-- The tokens are of the same kind and at the same place, and words are the same
but for the case of letters. -/
structure Token.Recased (t u : Token) : Prop where
  kind   : t.kind = u.kind
  loc    : t.loc = u.loc
  lexeme : RecasedText t.lexeme.toList u.lexeme.toList
  same   : ¬ t.kind.IsWord → t.lexeme = u.lexeme

/-- The second source is the first with letters in other cases, and both agree inside
the character constants and queries of the first. -/
structure SameUpToCase (source source' : String) : Prop where
  letters  : RecasedText source.toList source'.toList
  verbatim : ∀ i < source.toList.length,
    (∃ t ∈ (ofSource source).tokenize.1, t.kind.IsVerbatim ∧ t.Covers source.toList i) →
    source.toList[i]? = source'.toList[i]?

namespace Lexer

/-- Recased pieces give recased tokens at the same places, since recasing keeps all lengths and line
ends. -/
theorem tokens_recased {ps ps' : List Piece} (h : List.Forall₂ Piece.Recased ps ps')
    (l : Location) :
    List.Forall₂ Token.Recased ((placed l ps).filterMap tokenOf)
      ((placed l ps').filterMap tokenOf) := by
  induction h generalizing l with
  | nil => exact .nil
  | @cons p q _ _ hpq _ ih =>
    have hrest := ih (l.after p.text)
    rw [placed, placed, ← hpq.text.after_eq]
    cases hpq with
    | token htext hsame =>
      refine .cons ⟨rfl, rfl, ?_, fun hword => congrArg String.ofList (hsame hword)⟩ hrest
      rwa [String.toList_ofList, String.toList_ofList]
    | blank c | comment _ | dropped _ => exact hrest

theorem reports_recased {ps ps' : List Piece} (h : List.Forall₂ Piece.Recased ps ps')
    (l : Location) :
    (placed l ps).filterMap diagnosticOf = (placed l ps').filterMap diagnosticOf := by
  induction h generalizing l with
  | nil => rfl
  | @cons p q _ _ hpq _ ih =>
    have hrest := ih (l.after p.text)
    rw [placed, placed, ← hpq.text.after_eq]
    cases hpq with
    | dropped _ => exact congrArg (_ :: ·) hrest
    | blank c | comment _ | token _ _ => exact hrest

/-- The tokens of a recased source are recased and stand where they stood, and there
is the same to report. -/
theorem tokenize_recased {source source' : String} (h : SameUpToCase source source') :
    List.Forall₂ Token.Recased (ofSource source).tokenize.1 (ofSource source').tokenize.1 ∧
      (ofSource source).tokenize.2.diagnostics = (ofSource source').tokenize.2.diagnostics := by
  obtain ⟨ps', hcut, hps⟩ := (cut_pieces source.toList).recase 0 h.letters fun i hi htile => by
    rw [Nat.zero_add] at htile
    exact h.verbatim i hi ((exists_covers_iff hi).mpr htile)
  have heof (l : Location) : Token.Recased (.endOfSource l) (.endOfSource l) :=
    ⟨rfl, rfl, .refl _, fun _ => rfl⟩
  -- the rules alone tell the pieces of the recased source
  simp only [tokenize, ofSource, pieces_of_cut hcut, ← h.letters.after_eq]
  exact ⟨List.rel_append (tokens_recased hps .start) (.cons (heof _) .nil),
    congrArg ([] ++ ·) (reports_recased hps .start)⟩

end Lexer

end Plic
