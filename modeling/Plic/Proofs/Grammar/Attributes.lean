import Plic.Proofs.Grammar.Alike
import Plic.Proofs.Grammar.Entries
import Plic.Proofs.Grammar.Stops

/-!
# Data attributes

An attribute is a word with an optional precision or, for `CHARACTER`, an optional
length. The parser collects attributes one by one and decides at each of them
whether it may follow those before it. What a list of attributes has to fulfil is
said here of the list as a whole (`Allowed`): only one of its conditions depends
on the order, that no precision stands behind `CHARACTER`.

Main results:

* `sound_attributes`, `complete_attributes` — what is collected are the attributes
  that are written, if they are allowed.
* `attributed_unique` — a row of tokens is written as attributes in one way.
* `denotes_iff_of_perm` — the order counts only where a precision and `CHARACTER`
  meet.
* `Denotes.keeps_iff` — which precisions are lost.
-/

namespace Plic

/-! ## Lists of attributes -/

/-- The words that a precision can be written behind. `DEC` and `DECIMAL` are one. -/
inductive Attribute.Word where
  | fixed | binary | decimal | varying
deriving DecidableEq

/-- A data attribute as it is written. -/
inductive Attribute where
  /-- A word with its precision and scale. -/
  | word (word : Attribute.Word) (precision : Option (Nat × Option Nat))
  /-- `CHARACTER` with its length. -/
  | character (length : Option Nat)
deriving DecidableEq

namespace Attribute

/-- The word of an attribute; `CHARACTER` has none here, as it takes a length and no precision. -/
def word? : Attribute → Option Word
  | word w _ => some w
  | character _ => none

/-- The precision that is written behind an attribute. -/
def precision? : Attribute → Option (Nat × Option Nat)
  | word _ p => p
  | character _ => none

/-- The length of `CHARACTER`, which is 1 if none is written. -/
def length? : Attribute → Option Nat
  | word _ _ => none
  | character n => some (n.getD 1)

end Attribute

/-- The type has the precision and the scale. A binary number has no scale but 0, and characters
have no precision. -/
def DataType.Keeps : DataType → Nat × Option Nat → Prop
  | .fixedBinary digits, p => digits = some p.1 ∧ ∀ s ∈ p.2, s = 0
  | .fixedDecimal digits scale, p => digits = some p.1 ∧ scale = p.2
  | .character _ _, _ => False

namespace Grammar

open Plic.Parser

/-- Whether a word is among the attributes. -/
def held (as : List Attribute) (w : Attribute.Word) : Bool := some w ∈ as.map Attribute.word?

/-- The numbers of a precision fit 32 bits. -/
def PrecisionFormed (q : Nat × Option Nat) : Prop := q.1 < 2 ^ 32 ∧ ∀ n ∈ q.2, n < 2 ^ 32

/-- A length fits 32 bits and is at least 1. -/
def LengthFormed (n : Nat) : Prop := 1 ≤ n ∧ n < 2 ^ 32

/-- Attributes that can stand in one declaration in this order: none of them twice, at most one
precision, numbers in bounds, and no precision behind `CHARACTER`. -/
structure Allowed (as : List Attribute) : Prop where
  once      : (as.map Attribute.word?).Nodup
  single    : (as.filterMap Attribute.precision?).length ≤ 1
  precision : ∀ p ∈ as.filterMap Attribute.precision?, PrecisionFormed p
  length    : ∀ n ∈ as.filterMap Attribute.length?, LengthFormed n
  ahead     : as.Pairwise fun x y => x.word? = none → y.precision? = none

namespace Attributes

/-- The attributes that are collected from a list, as the parser keeps them: words as flags, and the
last precision and length. -/
def of (as : List Attribute) (spellings : List String) : Attributes :=
  ⟨held as .fixed, held as .binary, held as .decimal, as.findSome? Attribute.length?,
    held as .varying, as.findSome? Attribute.precision?, spellings⟩

/-- Whether a word has been collected. -/
def has (a : Attributes) : Attribute.Word → Bool
  | .fixed => a.fixed
  | .binary => a.binary
  | .decimal => a.decimal
  | .varying => a.varying

/-- The flag of a word is set. -/
def mark (a : Attributes) : Attribute.Word → Attributes
  | .fixed => { a with fixed := true }
  | .binary => { a with binary := true }
  | .decimal => { a with decimal := true }
  | .varying => { a with varying := true }

/-- The attribute can be collected behind those before it. -/
def Takes (a : Attributes) : Attribute → Prop
  | .word w p =>
    a.has w = false ∧ ∀ q ∈ p, a.character = .none ∧ a.precision = .none ∧ PrecisionFormed q
  | .character n => a.character = .none ∧ LengthFormed (n.getD 1)

/-- One attribute more is collected. -/
def add (a : Attributes) (spelling : String) : Attribute → Attributes
  | .word w p =>
    { a.mark w with
      precision := p.or a.precision
      spellings := a.spellings ++ [spelling] }
  | .character n =>
    { a with
      character := some (n.getD 1)
      spellings := a.spellings ++ [spelling] }

@[simp] theorem character_mark (a : Attributes) (w : Attribute.Word) :
    (a.mark w).character = a.character := by
  cases w <;> rfl

@[simp] theorem precision_mark (a : Attributes) (w : Attribute.Word) :
    (a.mark w).precision = a.precision := by
  cases w <;> rfl

theorem has_of (as : List Attribute) (spellings : List String) (w : Attribute.Word) :
    (of as spellings).has w = held as w := by
  cases w <;> rfl

end Attributes

/-- One attribute more holds its own word as well. -/
theorem held_append (as : List Attribute) (x : Attribute) (w : Attribute.Word) :
    held (as ++ [x]) w = (held as w || decide (x.word? = some w)) := by
  rw [Bool.eq_iff_iff, Bool.or_eq_true, decide_eq_true_eq, held, held, decide_eq_true_eq,
    decide_eq_true_eq, List.map_append, List.mem_append, List.map_singleton, List.mem_singleton]
  exact or_congr_right eq_comm

variable {as bs : List Attribute} {x : Attribute} {spellings : List String} {α : Type}
  {w : Attribute.Word} {ts rest xs ys xs' r r' : List Token} {s : Option Nat} {loc : Location}
  {n : Nat} {t : Token} {a : Attributes}

/-- To collect one attribute more is to collect a list that is longer by it. -/
theorem Attributes.of_append (h : (Attributes.of as spellings).Takes x) (spelling : String) :
    (Attributes.of as spellings).add spelling x = of (as ++ [x]) (spellings ++ [spelling]) := by
  cases x with
  | word w p =>
    have hprecision : p.or (as.findSome? Attribute.precision?) =
        (as ++ [Attribute.word w p]).findSome? Attribute.precision? := by
      cases p with
      | none => simp [Attribute.precision?]
      | some q =>
        -- there was no precision before
        have hnone : as.findSome? Attribute.precision? = .none := (h.2 q rfl).2.1
        rw [List.findSome?_append, hnone]
        rfl
    have hlength : (as ++ [Attribute.word w p]).findSome? Attribute.length? =
        as.findSome? Attribute.length? := by
      simp [Attribute.length?]
    unfold Attributes.add Attributes.of
    simp only [held_append, Attribute.word?, hlength, ← hprecision]
    cases w <;> simp [Attributes.mark]
  | character n =>
    have hnone : as.findSome? Attribute.length? = .none := h.1
    have hlength : (as ++ [Attribute.character n]).findSome? Attribute.length? =
        some (n.getD 1) := by
      rw [List.findSome?_append, hnone]
      rfl
    have hprecision : (as ++ [Attribute.character n]).findSome? Attribute.precision? =
        as.findSome? Attribute.precision? := by
      simp [Attribute.precision?]
    unfold Attributes.add Attributes.of
    simp only [held_append, Attribute.word?, hlength, hprecision]
    simp

/-- Nothing is found if there is nothing to find. -/
theorem findSome?_eq_none_iff_filterMap {β : Type} {f : α → Option β} {l : List α} :
    l.findSome? f = none ↔ l.filterMap f = [] := by
  rw [List.findSome?_eq_none_iff, List.filterMap_eq_nil_iff]

/-- There is no length if there is no `CHARACTER`. -/
theorem findSome?_length?_eq_none_iff :
    as.findSome? Attribute.length? = none ↔ none ∉ as.map Attribute.word? := by
  rw [List.findSome?_eq_none_iff, List.mem_map]
  constructor
  · rintro h ⟨x, hx, hword⟩
    have hlength := h x hx
    cases x with
    | word w p => cases hword
    | character n => cases hlength
  · intro h x hx
    cases x with
    | word w p => rfl
    | character n => exact absurd ⟨_, hx, rfl⟩ h

/-- A flag that is not set says that the word is not in the list. -/
theorem held_eq_false_iff : held as w = false ↔ some w ∉ as.map Attribute.word? := by
  rw [held, decide_eq_false_iff_not]

/-- The last attribute of an allowed list can be collected behind the others. -/
theorem Allowed.takes (h : Allowed (as ++ [x]))
    (spellings : List String) : (Attributes.of as spellings).Takes x := by
  obtain ⟨honce, hsingle, hprecision, hlength, hahead⟩ := h
  rw [List.map_append, List.map_singleton, ← List.concat_eq_append, List.nodup_concat] at honce
  rw [List.filterMap_append, List.length_append] at hsingle
  rw [List.filterMap_append, List.forall_mem_append] at hprecision hlength
  cases x with
  | word w p =>
    refine ⟨?_, ?_⟩
    · rw [Attributes.has_of, held_eq_false_iff]
      exact honce.1
    · rintro q rfl
      have hformed : PrecisionFormed q := hprecision.2 q (by simp [Attribute.precision?])
      refine ⟨findSome?_length?_eq_none_iff.mpr ?_, ?_, hformed⟩
      · -- `CHARACTER` in front of a precision
        rw [List.mem_map]
        rintro ⟨y, hy, hword⟩
        have hnone := (List.pairwise_append.mp hahead).2.2 y hy _ (List.mem_singleton.mpr rfl) hword
        cases hnone
      · have hone : ([Attribute.word w (some q)].filterMap Attribute.precision?).length = 1 := rfl
        have hzero : (as.filterMap Attribute.precision?).length = 0 := by omega
        exact findSome?_eq_none_iff_filterMap.mpr (List.length_eq_zero_iff.mp hzero)
  | character n =>
    exact ⟨findSome?_length?_eq_none_iff.mpr honce.1, hlength.2 _ (by simp [Attribute.length?])⟩

/-- What can be collected behind an allowed list makes a longer one with it. -/
theorem Allowed.append
    (h : Allowed as) (hx : (Attributes.of as spellings).Takes x) : Allowed (as ++ [x]) := by
  have hnew : x.word? ∉ as.map Attribute.word? := by
    cases x with
    | word w p =>
      have hfree := hx.1
      rwa [Attributes.has_of, held_eq_false_iff] at hfree
    | character n => exact findSome?_length?_eq_none_iff.mp hx.1
  refine ⟨?_, ?_, ?_, ?_, ?_⟩
  · rw [List.map_append, List.map_singleton, ← List.concat_eq_append, List.nodup_concat]
    exact ⟨hnew, h.once⟩
  · rw [List.filterMap_append, List.length_append]
    match x, hx with
    | .word w none, _ => exact h.single
    | .word w (some q), hx =>
      have hnone := findSome?_eq_none_iff_filterMap.mp (hx.2 q rfl).2.1
      rw [hnone]
      exact Nat.le_refl 1
    | .character n, _ => exact h.single
  · rw [List.filterMap_append, List.forall_mem_append]
    refine ⟨h.precision, ?_⟩
    match x, hx with
    | .word w none, _ => exact List.forall_mem_nil _
    | .word w (some q), hx => exact List.forall_mem_singleton.mpr (hx.2 q rfl).2.2
    | .character n, _ => exact List.forall_mem_nil _
  · rw [List.filterMap_append, List.forall_mem_append]
    refine ⟨h.length, ?_⟩
    match x, hx with
    | .word w p, _ => exact List.forall_mem_nil _
    | .character n, hx => exact List.forall_mem_singleton.mpr hx.2
  · rw [List.pairwise_append]
    refine ⟨h.ahead, List.pairwise_singleton _ _, fun y hy z hz hword => ?_⟩
    rw [List.mem_singleton.mp hz]
    match x, hx with
    | .word w none, _ => rfl
    | .word w (some q), hx =>
      -- there is no `CHARACTER` in front of a precision
      have hfree := findSome?_length?_eq_none_iff.mp (hx.2 q rfl).1
      exact absurd (List.mem_map.mpr ⟨y, hy, hword⟩) hfree
    | .character n, _ => rfl

/-- What stands in front in an allowed list is allowed. -/
theorem Allowed.of_append (h : Allowed (as ++ bs)) : Allowed as := by
  have hsub : as.Sublist (as ++ bs) := List.sublist_append_left as bs
  refine ⟨h.once.sublist (hsub.map _), ?_, fun p hp => h.precision p ((hsub.filterMap _).subset hp),
    fun n hn => h.length n ((hsub.filterMap _).subset hn), h.ahead.sublist hsub⟩
  exact (hsub.filterMap _).length_le.trans h.single

/-! ## Rules -/

/-- The keywords of the words. -/
inductive Words : Keyword → Attribute.Word → Prop where
  | fixed   : Words .FIXED .fixed
  | binary  : Words .BIN .binary
  | dec     : Words .DEC .decimal
  | decimal : Words .DECIMAL .decimal
  | varying : Words .VARYING .varying

/-- A precision with a scale or without. -/
inductive Precise : Rule (Nat × Option Nat) where
  | digits {o n c : Token} {p : Nat} :
      o.kind = .symbol .lparen → n.kind = .number p → c.kind = .symbol .rparen →
      Precise [o, n, c] (p, none)
  | scaled {o n m q c : Token} {p s : Nat} :
      o.kind = .symbol .lparen → n.kind = .number p → m.kind = .symbol .comma →
      q.kind = .number s → c.kind = .symbol .rparen → Precise [o, n, m, q, c] (p, some s)

/-- A length in parentheses. -/
inductive Sized : Rule Nat where
  | intro {o n c : Token} {length : Nat} :
      o.kind = .symbol .lparen → n.kind = .number length → c.kind = .symbol .rparen →
      Sized [o, n, c] length

/-- A stretch that may be left out. -/
inductive Given {α : Type} (R : Rule α) : Rule (Option α) where
  | absent : Given R [] none
  | given {xs : List Token} {a : α} : R xs a → Given R xs (some a)

/-- Attributes as they are written. -/
inductive Attributed : Rule Attribute where
  | word {t : Token} {k : Keyword} {w : Attribute.Word} {xs : List Token}
      {precision : Option (Nat × Option Nat)} :
      t.kind = .keyword k → Words k w → Given Precise xs precision →
      Attributed (t :: xs) (.word w precision)
  | character {t : Token} {xs : List Token} {length : Option Nat} :
      t.kind = .keyword .CHAR → Given Sized xs length → Attributed (t :: xs) (.character length)

/-! ## Numbers in parentheses -/

/-- A scale is a number behind a comma, and without a comma there is none. -/
theorem scale?_ok_iff : scale? ts = .ok s rest ↔
      (s = none ∧ ts = rest ∧ (front ts).kind ≠ .symbol .comma) ∨
      ∃ m q : Token, ∃ n, m.kind = .symbol .comma ∧ q.kind = .number n ∧ s = some n ∧
        ts = m :: q :: rest := by
  constructor
  · intro h
    -- whether there is a scale is decided by the comma
    rcases (accept_bind_ok_iff (by simp)).mp h with ⟨m, mid, hm, rfl, hnext⟩ | ⟨hfront, hnone⟩
    · obtain ⟨n, last, hn, hlast⟩ := bind_ok_iff.mp hnext
      obtain ⟨q, hq, rfl⟩ := integer_ok_iff.mp hn
      injection hlast with hs hrest
      exact .inr ⟨m, q, n, hm, hq, hs.symm, by rw [hrest]⟩
    · injection hnone with hs hrest
      exact .inl ⟨hs.symm, hrest, hfront⟩
  · rintro (⟨rfl, rfl, hfront⟩ | ⟨m, q, n, hm, hq, rfl, rfl⟩)
    · rw [scale?, bind_of_ok (accept_other hfront)]
      rfl
    · rw [scale?, bind_of_ok (accept_cons (by simp) hm _)]
      show (integer >>= _) _ = _
      rw [bind_of_ok (integer_ok_iff.mpr ⟨q, hq, rfl⟩)]
      rfl

/-- The numbers of a precision are in bounds if both fit. -/
theorem precisionFormed_iff {p : Nat} :
    PrecisionFormed (p, s) ↔ fitsWord p ∧ ∀ n ∈ s, fitsWord n := by
  simp only [PrecisionFormed, fitsWord, decide_eq_true_eq]
  norm_num

/-- The rest of a precision behind its parentheses. -/
def boundedPrecision (loc : Location) (p : Nat) (s : Option Nat) : Parser (Nat × Option Nat) := do
  unless fitsWord p do refuse loc (.precision p)
  if let some q := s then
    unless fitsWord q do refuse loc (.precision q)
  return (p, s)

theorem refuse_bind_ne_ok {β : Type} {cause : Fault.Cause} {f : α → Parser β} {b : β} :
    (refuse loc cause >>= f) ts ≠ .ok b rest := by
  intro h
  obtain ⟨_, _, hrefused, _⟩ := bind_ok_iff.mp h
  exact refuse_ne_ok _ _ _ _ _ hrefused

/-- A precision within its bounds is taken as it is. -/
theorem boundedPrecision_ok_iff {p : Nat} {q : Nat × Option Nat} :
    boundedPrecision loc p s ts = .ok q rest ↔
      PrecisionFormed (p, s) ∧ q = (p, s) ∧ ts = rest := by
  have hpure : (pure (p, s) : Parser (Nat × Option Nat)) ts = .ok q rest ↔
      q = (p, s) ∧ ts = rest := by
    rw [pure_apply, EStateM.Result.ok.injEq]
    exact and_congr_left' eq_comm
  rw [precisionFormed_iff, boundedPrecision]
  -- both numbers are checked in turn, and each may be refused
  by_cases hp : fitsWord p
  · rw [if_pos hp]
    cases s with
    | none => simpa [hp] using hpure
    | some n =>
      dsimp only
      by_cases hn : fitsWord n
      · rw [if_pos hn]
        simpa [hp, hn] using hpure
      · rw [if_neg hn]
        exact iff_of_false refuse_bind_ne_ok (by simp [hn])
  · rw [if_neg hp]
    exact iff_of_false refuse_bind_ne_ok (by simp [hp])

/-- A precision is read exactly if it is written by the rule and within its bounds. -/
theorem precision_ok_iff {p : Nat × Option Nat} :
    precision ts = .ok p rest ↔ ∃ xs, ts = xs ++ rest ∧ Precise xs p ∧ PrecisionFormed p := by
  -- the same parser with its last step named, so that the bounds are a lemma of their own
  have heq : precision ts = (do
      symbol .lparen .precisionOpen
      let p ← integer
      let s ← scale?
      symbol .rparen .precision
      boundedPrecision (front ts).loc p s : Parser (Nat × Option Nat)) ts := rfl
  rw [heq]
  constructor
  · intro h
    obtain ⟨o, mid, ho, rfl, hinside⟩ := symbol_bind_ok_iff.mp h
    obtain ⟨n, mid, hn, hscale⟩ := bind_ok_iff.mp hinside
    obtain ⟨t, ht, rfl⟩ := integer_ok_iff.mp hn
    obtain ⟨s, mid, hs, hclose⟩ := bind_ok_iff.mp hscale
    obtain ⟨c, mid, hc, rfl, hlast⟩ := symbol_bind_ok_iff.mp hclose
    obtain ⟨hformed, rfl, rfl⟩ := boundedPrecision_ok_iff.mp hlast
    -- the two forms of a precision come from the scale
    obtain ⟨rfl, rfl, -⟩ | ⟨m, q, k, hm, hq, rfl, rfl⟩ := scale?_ok_iff.mp hs
    · exact ⟨[o, t, c], rfl, .digits ho ht hc, hformed⟩
    · exact ⟨[o, t, m, q, c], rfl, .scaled ho ht hm hq hc, hformed⟩
  · rintro ⟨xs, rfl, hxs, hformed⟩
    -- a precision without a scale has its closing parenthesis where the comma would be
    cases hxs with
    | @digits o n c p ho hn hc =>
      have hscale : scale? (c :: rest) = .ok none (c :: rest) :=
        scale?_ok_iff.mpr (.inl ⟨rfl, rfl, by simp [hc]⟩)
      show (symbol .lparen .precisionOpen >>= _) (o :: n :: c :: rest) = _
      rw [symbol_bind ho, bind_of_ok (integer_ok_iff.mpr ⟨n, hn, rfl⟩), bind_of_ok hscale,
        symbol_bind hc]
      exact boundedPrecision_ok_iff.mpr ⟨hformed, rfl, rfl⟩
    | @scaled o n m q c p s ho hn hm hq hc =>
      have hscale : scale? (m :: q :: c :: rest) = .ok (some s) (c :: rest) :=
        scale?_ok_iff.mpr (.inr ⟨m, q, s, hm, hq, rfl, rfl⟩)
      show (symbol .lparen .precisionOpen >>= _) (o :: n :: m :: q :: c :: rest) = _
      rw [symbol_bind ho, bind_of_ok (integer_ok_iff.mpr ⟨n, hn, rfl⟩), bind_of_ok hscale,
        symbol_bind hc]
      exact boundedPrecision_ok_iff.mpr ⟨hformed, rfl, rfl⟩

/-- A length that is not written is one, and then no parenthesis follows. -/
theorem writtenLength_ok_iff :
    writtenLength ts = .ok n rest ↔ ∃ xs written, ts = xs ++ rest ∧ Given Sized xs written ∧
      written.getD 1 = n ∧ (written = none → Unextended rest) := by
  constructor
  · intro h
    rcases (accept_bind_ok_iff (by simp)).mp h with ⟨o, mid, ho, rfl, hnext⟩ | ⟨hfront, hnone⟩
    · obtain ⟨k, mid, hk, hclose⟩ := bind_ok_iff.mp hnext
      obtain ⟨t, ht, rfl⟩ := integer_ok_iff.mp hk
      obtain ⟨c, mid, hc, rfl, hend⟩ := symbol_bind_ok_iff.mp hclose
      injection hend with hn hrest
      subst hrest
      exact ⟨[o, t, c], some k, rfl, .given (.intro ho ht hc), hn, by simp⟩
    -- without a parenthesis nothing is read, and the length is one
    · injection hnone with hn hrest
      subst hrest
      exact ⟨[], none, rfl, .absent, hn, fun _ => hfront⟩
  · rintro ⟨xs, written, rfl, hsized, rfl, hopen⟩
    cases hsized with
    | absent =>
      rw [writtenLength, List.nil_append, bind_of_ok (accept_other (hopen rfl))]
      rfl
    | given hsized =>
      obtain @⟨o, t, c, _, ho, ht, hc⟩ := hsized
      show (accept (.symbol .lparen) >>= _) (o :: t :: c :: rest) = _
      rw [bind_of_ok (accept_cons (by simp) ho _)]
      show (integer >>= _) _ = _
      rw [bind_of_ok (integer_ok_iff.mpr ⟨t, ht, rfl⟩), symbol_bind hc]
      rfl

/-- A length is positive and fits into a word. -/
theorem lengthFormed_iff : LengthFormed n ↔ 0 < n && fitsWord n := by
  simp only [LengthFormed, fitsWord, Bool.and_eq_true, decide_eq_true_eq]
  norm_num
  omega

/-- A length is read exactly if it is written by the rule and well formed. -/
theorem characterLength_ok_iff :
    characterLength loc ts = .ok n rest ↔ ∃ xs written, ts = xs ++ rest ∧ Given Sized xs written ∧
      written.getD 1 = n ∧ LengthFormed n ∧ (written = none → Unextended rest) := by
  -- the check that follows a length, whether it was written or not
  have hbounded : ∀ m us, ((do
      unless 0 < m && fitsWord m do refuse loc (.characterLength m)
      return m : Parser Nat) us = .ok n rest) ↔ LengthFormed m ∧ m = n ∧ us = rest := by
    intro m us
    rw [lengthFormed_iff]
    by_cases hm : 0 < m && fitsWord m
    · rw [if_pos hm, and_iff_right hm]
      exact Iff.of_eq (EStateM.Result.ok.injEq m us n rest)
    · rw [if_neg hm]
      exact iff_of_false refuse_bind_ne_ok fun h => hm h.1
  rw [characterLength, bind_ok_iff]
  constructor
  · rintro ⟨m, mid, hwritten, hlast⟩
    obtain ⟨hformed, rfl, rfl⟩ := (hbounded m mid).mp hlast
    obtain ⟨xs, written, hts, hsized, hn, hopen⟩ := writtenLength_ok_iff.mp hwritten
    exact ⟨xs, written, hts, hsized, hn, hformed, hopen⟩
  · rintro ⟨xs, written, hts, hsized, hn, hformed, hopen⟩
    exact ⟨n, rest, writtenLength_ok_iff.mpr ⟨xs, written, hts, hsized, hn, hopen⟩,
      (hbounded n rest).mpr ⟨hformed, rfl, rfl⟩⟩

/-! ## One attribute -/

/-- A word sets its flag and says whether the flag was set before. -/
theorem attribute?_word {k : Keyword} (ht : t.kind = .keyword k)
    (hw : Words k w) (a : Attributes) (ts : List Token) :
    attribute? a (t :: ts) = .ok (some (a.mark w, a.has w)) ts := by
  have hadvance : behind (t :: ts) = ts := behind_cons (by simp [ht]) ts
  have hrun : ∀ b : Attributes × Bool,
      (do advance; return some b : Parser (Option (Attributes × Bool))) (t :: ts) =
        .ok (some b) ts := fun b => by
    show EStateM.Result.ok (some b) (behind (t :: ts)) = _
    rw [hadvance]
  rw [attribute?, peek_bind, front_cons, ht]
  cases hw <;> exact hrun _

/-- `CHARACTER` reads its length and says whether there was one before. -/
theorem attribute?_character (ht : t.kind = .keyword .CHAR) (a : Attributes) (ts : List Token) :
    attribute? a (t :: ts) = (do
      let length ← characterLength t.loc
      return some ({ a with character := some length }, a.character.isSome)) ts := by
  rw [attribute?, peek_bind, front_cons, ht]
  exact advance_bind (by simp [ht]) ts _

/-- What can be at the front of the tokens when an attribute is asked for. -/
theorem attribute?_cases (a : Attributes) (ts : List Token) :
    (∃ t k w us, t.kind = .keyword k ∧ Words k w ∧ ts = t :: us) ∨
    (∃ t us, t.kind = .keyword .CHAR ∧ ts = t :: us) ∨ attribute? a ts = .ok none ts := by
  -- a token with a kind of its own is not the end, so there is one in front
  have hcons : ∀ {k : Keyword}, (front ts).kind = .keyword k →
      ∃ t us, t.kind = .keyword k ∧ ts = t :: us := by
    intro k hk
    obtain ⟨t, us, rfl⟩ := exists_cons_of_front (by simp [hk] : (front ts).kind ≠ .eof)
    exact ⟨t, us, hk, rfl⟩
  have hword : ∀ {k w}, (front ts).kind = .keyword k → Words k w →
      ∃ t k w us, t.kind = .keyword k ∧ Words k w ∧ ts = t :: us := by
    intro k w hk hw
    obtain ⟨t, us, ht, hts⟩ := hcons hk
    exact ⟨t, k, w, us, ht, hw, hts⟩
  rw [attribute?, peek_bind]
  generalize hk : (front ts).kind = kind
  -- one case for each keyword that the parser asks for
  split
  case h_1 => exact .inl (hword hk .fixed)
  case h_2 => exact .inl (hword hk .binary)
  case h_3 => exact .inl (hword hk .dec)
  case h_4 => exact .inl (hword hk .decimal)
  case h_5 => exact .inl (hword hk .varying)
  case h_6 => exact .inr (.inl (hcons hk))
  case h_7 => exact .inr (.inr rfl)

/-- A precision starts with a parenthesis. -/
theorem Precise.front {p : Nat × Option Nat} (h : Precise xs p)
    (rest : List Token) : ¬ Unextended (xs ++ rest) := by
  cases h with
  | digits ho _ _ | scaled ho _ _ _ _ => exact not_not_intro ho

/-- A precision is taken once and not behind `CHARACTER`; where none is written nothing changes. -/
theorem attributePrecision_ok_iff {b : Attributes} : attributePrecision a ts = .ok b rest ↔
      (∃ xs p, ts = xs ++ rest ∧ Precise xs p ∧ a.character = none ∧ a.precision = none ∧
        PrecisionFormed p ∧ b = { a with precision := some p }) ∨
      (b = a ∧ ts = rest ∧ (a.character = none → Unextended ts)) := by
  rw [attributePrecision, peek_bind]
  -- behind `CHARACTER` a parenthesis is not asked for at all
  by_cases hopen : a.character.isNone && (front ts).kind = .symbol .lparen
  · rw [if_pos hopen]
    rw [Bool.and_eq_true, Option.isNone_iff_eq_none, decide_eq_true_eq] at hopen
    obtain ⟨hcharacter, hparen⟩ := hopen
    have hsecond : ¬ (b = a ∧ ts = rest ∧ (a.character = none → Unextended ts)) :=
      fun h => h.2.2 hcharacter hparen
    rw [or_iff_left hsecond]
    -- a second precision is refused before it is read
    cases hprecision : a.precision with
    | some q =>
      refine iff_of_false ?_ (by simp)
      exact refuse_bind_ne_ok
    | none =>
      show (precision >>= fun p => pure { a with precision := some p }) ts = _ ↔ _
      rw [bind_ok_iff]
      constructor
      · rintro ⟨p, mid, hp, hlast⟩
        obtain ⟨rfl, rfl⟩ := pure_ok_iff.mp hlast
        obtain ⟨xs, hts, hxs, hformed⟩ := precision_ok_iff.mp hp
        exact ⟨xs, p, hts, hxs, hcharacter, rfl, hformed, rfl⟩
      · rintro ⟨xs, p, hts, hxs, -, -, hformed, rfl⟩
        exact ⟨p, rest, precision_ok_iff.mpr ⟨xs, hts, hxs, hformed⟩, rfl⟩
  · rw [if_neg hopen]
    have hclosed : a.character = none → Unextended ts := fun hcharacter hparen =>
      hopen (by simp [hcharacter, hparen])
    constructor
    · intro h
      injection h with hb hrest
      exact .inr ⟨hb.symm, hrest, hclosed⟩
    · rintro (⟨xs, p, rfl, hxs, hcharacter, -⟩ | ⟨rfl, rfl, -⟩)
      · exact absurd (hclosed hcharacter) (hxs.front rest)
      · rfl

/-- An attribute is collected if it is not repeated and its precision may stand there. -/
theorem collected_ok_iff {b : Attributes} {repeated : Bool} {c? : Option Attributes} :
    collected a t b repeated ts = .ok c? rest ↔ repeated = false ∧ ∃ c, c? = some c ∧
      attributePrecision { b with spellings := a.spellings ++ [Text.lower t.lexeme] } ts =
        .ok c rest := by
  unfold collected
  -- a repeated attribute is refused before its precision is read
  cases repeated with
  | true => exact iff_of_false refuse_bind_ne_ok (by simp)
  | false =>
    show (attributePrecision _ >>= fun c => pure (some c)) ts = _ ↔ _
    rw [bind_ok_iff]
    constructor
    · rintro ⟨c, mid, hc, hlast⟩
      injection hlast with hc? hmid
      subst hmid
      exact ⟨rfl, c, hc?.symm, hc⟩
    · rintro ⟨-, c, rfl, hc⟩
      exact ⟨c, rest, hc, rfl⟩

/-- An attribute that is read is written, and can be collected behind those before it. -/
theorem sound_nextAttribute {c? : Option Attributes} (h : nextAttribute a ts = .ok c? rest) :
    (c? = none ∧ ts = rest) ∨ ∃ xs x spelling, ts = xs ++ rest ∧ Attributed xs x ∧ a.Takes x ∧
      c? = some (a.add spelling x) := by
  rw [nextAttribute_eq, peek_bind] at h
  obtain ⟨t, k, w, us, ht, hw, rfl⟩ | ⟨t, us, ht, rfl⟩ | hnone := attribute?_cases a ts
  · rw [bind_of_ok (attribute?_word ht hw a us)] at h
    obtain ⟨hnew, c, rfl, hc⟩ := collected_ok_iff.mp h
    obtain ⟨xs, p, rfl, hxs, hcharacter, hprecision, hformed, rfl⟩ | ⟨rfl, rfl, -⟩ :=
      attributePrecision_ok_iff.mp hc
    · rw [Attributes.character_mark] at hcharacter
      rw [Attributes.precision_mark] at hprecision
      refine .inr ⟨t :: xs, .word w (some p), Text.lower t.lexeme, rfl, .word ht hw (.given hxs),
        ⟨hnew, ?_⟩, rfl⟩
      rintro q ⟨⟩
      exact ⟨hcharacter, hprecision, hformed⟩
    · refine .inr ⟨[t], .word w none, Text.lower t.lexeme, rfl, .word ht hw .absent,
        ⟨hnew, by simp⟩, ?_⟩
      cases w <;> rfl
  · rw [bind_ok_iff] at h
    obtain ⟨b?, mid, hb?, hnext⟩ := h
    rw [attribute?_character ht, bind_ok_iff] at hb?
    obtain ⟨n, last, hn, hlast⟩ := hb?
    obtain ⟨rfl, rfl⟩ := pure_ok_iff.mp hlast
    obtain ⟨hnew, c, rfl, hc⟩ := collected_ok_iff.mp hnext
    obtain ⟨xs, length, rfl, hxs, rfl, hformed, -⟩ := characterLength_ok_iff.mp hn
    obtain ⟨-, -, -, -, hcharacter, -⟩ | ⟨rfl, rfl, -⟩ := attributePrecision_ok_iff.mp hc
    · -- no precision is looked for once there is a length
      exact absurd hcharacter (by simp)
    · exact .inr ⟨t :: xs, .character length, Text.lower t.lexeme, rfl, .character ht hxs,
        ⟨Option.not_isSome_iff_eq_none.mp (by simp [hnew]), hformed⟩, rfl⟩
  · rw [bind_of_ok hnone] at h
    injection h with hc? hrest
    exact .inl ⟨hc?.symm, hrest⟩

/-- An attribute that can be collected is read if no parenthesis follows it. -/
theorem complete_nextAttribute (hx : Attributed xs x) (ha : a.Takes x) (hrest : Unextended rest) :
    ∃ spelling, nextAttribute a (xs ++ rest) = .ok (some (a.add spelling x)) rest := by
  cases hx with
  | @word t k w xs p ht hw hxs =>
    refine ⟨Text.lower t.lexeme, ?_⟩
    show nextAttribute a (t :: (xs ++ rest)) = _
    rw [nextAttribute_eq, peek_bind, bind_of_ok (attribute?_word ht hw a (xs ++ rest))]
    refine collected_ok_iff.mpr ⟨ha.1, _, rfl, attributePrecision_ok_iff.mpr ?_⟩
    -- a precision behind the word is either written, and then may stand there, or not
    cases hxs with
    | absent =>
      refine .inr ⟨?_, rfl, fun _ => hrest⟩
      cases w <;> rfl
    | @given _ p hp =>
      obtain ⟨hcharacter, hprecision, hformed⟩ := ha.2 p rfl
      refine .inl ⟨xs, p, rfl, hp, ?_, ?_, hformed, rfl⟩
      · rw [Attributes.character_mark, hcharacter]
      · rw [Attributes.precision_mark, hprecision]
  | @character t xs length ht hxs =>
    -- `CHARACTER` reads its length itself, and a precision behind it is not asked for
    have hlength : characterLength t.loc (xs ++ rest) = .ok (length.getD 1) rest :=
      characterLength_ok_iff.mpr ⟨xs, length, rfl, hxs, rfl, ha.2, fun _ => hrest⟩
    refine ⟨Text.lower t.lexeme, ?_⟩
    show nextAttribute a (t :: (xs ++ rest)) = _
    rw [nextAttribute_eq, peek_bind, bind_ok_iff]
    refine ⟨some ({ a with character := some (length.getD 1) }, a.character.isSome), rest, ?_, ?_⟩
    · rw [attribute?_character ht, bind_of_ok hlength]
      rfl
    · refine collected_ok_iff.mpr ⟨by rw [ha.1]; rfl, _, rfl,
        attributePrecision_ok_iff.mpr (.inr ⟨rfl, rfl, ?_⟩)⟩
      intro hnone
      cases hnone

/-! ## All attributes -/

/-- Attributes that are read one by one are written in a row and allowed together. -/
theorem sound_foldUpTo_nextAttribute (n : Nat) (has : Allowed as)
    (h : foldUpTo nextAttribute n (.of as spellings) ts = .ok a rest) :
    ∃ ys bs more, ts = ys ++ rest ∧ Repeated Attributed ys bs ∧ Allowed (as ++ bs) ∧
      more.length = bs.length ∧ a = .of (as ++ bs) (spellings ++ more) := by
  induction n generalizing as spellings ts with
  | zero =>
    injection h with ha hrest
    exact ⟨[], [], [], hrest, .nil, by simpa using has, rfl, by simp [← ha]⟩
  | succ n ih =>
    obtain ⟨c?, mid, hc?, hnext⟩ := bind_ok_iff.mp h
    obtain ⟨rfl, rfl⟩ | ⟨xs, x, spelling, rfl, hx, htakes, rfl⟩ := sound_nextAttribute hc?
    · injection hnext with ha hrest
      exact ⟨[], [], [], hrest, .nil, by simpa using has, rfl, by simp [← ha]⟩
    · have hmore : foldUpTo nextAttribute n ((Attributes.of as spellings).add spelling x) mid =
          .ok a rest := hnext
      -- what has been collected is again what a list of attributes gives
      rw [Attributes.of_append htakes] at hmore
      have hallowed := has.append htakes
      obtain ⟨ys, bs, more, rfl, hys, hbs, hlength, rfl⟩ := ih hallowed hmore
      exact ⟨xs ++ ys, x :: bs, spelling :: more, by simp, .cons hx hys, by simpa using hbs,
        by simp [hlength], by simp⟩

/-- No attribute and no parenthesis is at the front. -/
def Ended (rest : List Token) : Prop :=
  (front rest).isKeyword = false ∧ Unextended rest

/-- An attribute starts with a keyword, so the one before it has no precision. -/
theorem Attributed.unextended (h : Attributed xs x)
    (rest : List Token) : Unextended (xs ++ rest) := by
  cases h with
  | word ht _ _ | character ht _ => simp [Unextended, ht]

theorem Repeated.unextended {ys rest : List Token} {bs : List Attribute}
    (h : Repeated Attributed ys bs) (hrest : Unextended rest) : Unextended (ys ++ rest) := by
  cases h with
  | nil => exact hrest
  | cons hx _ =>
    rw [List.append_assoc]
    exact hx.unextended _

/-- Attributes in a row are read up to where they end if they are allowed together. -/
theorem complete_foldUpTo_nextAttribute
    (h : Repeated Attributed ys bs) (hrest : Ended rest) (hn : bs.length ≤ n)
    (hbs : Allowed (as ++ bs)) (spellings : List String) :
    ∃ more, more.length = bs.length ∧
      foldUpTo nextAttribute n (.of as spellings) (ys ++ rest) =
        .ok (.of (as ++ bs) (spellings ++ more)) rest := by
  -- what has been collected grows at its end
  induction h generalizing n as spellings with
  | nil =>
    refine ⟨[], rfl, ?_⟩
    rw [List.append_nil, List.append_nil, List.nil_append]
    cases n with
    | zero => rfl
    | succ n =>
      have hnone : nextAttribute (.of as spellings) rest = .ok none rest := by
        rw [nextAttribute, peek_bind, bind_of_ok (attribute?_of_not_keyword hrest.1 _)]
        rfl
      rw [foldUpTo, bind_of_ok hnone]
      rfl
  | @cons xs ys x bs hx hys ih =>
    cases n with
    | zero => exact absurd hn (by simp)
    | succ n =>
      have hsplit : as ++ x :: bs = (as ++ [x]) ++ bs := by simp
      rw [hsplit] at hbs
      have htakes : (Attributes.of as spellings).Takes x := hbs.of_append.takes spellings
      obtain ⟨spelling, hnext⟩ :=
        complete_nextAttribute hx htakes (hys.unextended hrest.2)
      obtain ⟨more, hlength, hmore⟩ :=
        ih (Nat.le_of_succ_le_succ hn) hbs (spellings ++ [spelling])
      refine ⟨spelling :: more, by simp [hlength], ?_⟩
      rw [List.append_assoc, foldUpTo, bind_of_ok hnext]
      show foldUpTo nextAttribute n ((Attributes.of as spellings).add spelling x) (ys ++ rest) = _
      rw [Attributes.of_append htakes, hmore, hsplit]
      simp

theorem allowed_nil : Allowed [] := ⟨.nil, by simp, by simp, by simp, .nil⟩

/-- Attributes that are read are written in a row and allowed together. -/
theorem sound_attributes (h : attributes ts = .ok a rest) :
    ∃ ys as spellings, ts = ys ++ rest ∧ Repeated Attributed ys as ∧ Allowed as ∧
      a = .of as spellings := by
  obtain ⟨b, mid, hfold, hlast⟩ := bind_ok_iff.mp h
  obtain ⟨ys, as, spellings, rfl, hys, has, -, rfl⟩ :=
    sound_foldUpTo_nextAttribute ts.length allowed_nil hfold
  split at hlast
  · exact absurd hlast (unexpected_ne_ok _ _ _ _ _)
  · injection hlast with ha hmid
    subst ha hmid
    exact ⟨ys, as, spellings, rfl, hys, has, rfl⟩

/-- An attribute has tokens, so the rounds end. -/
theorem Attributed.ne_nil (h : Attributed xs x) : xs ≠ [] := by
  cases h <;> simp

/-- Attributes in a row are read if they are allowed together and at least one. -/
theorem complete_attributes
    (h : Repeated Attributed ys as) (hrest : Ended rest) (has : Allowed as) (hne : as ≠ []) :
    ∃ spellings, attributes (ys ++ rest) = .ok (.of as spellings) rest := by
  -- the loop is bounded by the number of tokens, which is enough
  have hlength : as.length ≤ (ys ++ rest).length := by
    have hle := h.length_le fun _ _ hx => hx.ne_nil
    rw [List.length_append]
    omega
  have hall : Allowed ([] ++ as) := has
  obtain ⟨spellings, hcount, hfold⟩ := complete_foldUpTo_nextAttribute h hrest hlength hall []
  refine ⟨spellings, ?_⟩
  -- an empty list is refused behind the loop
  have hsome : spellings ≠ [] := by
    rintro rfl
    exact hne (List.length_eq_zero_iff.mp hcount.symm)
  have hread : fold nextAttribute .none (ys ++ rest) = .ok (.of as spellings) rest := hfold
  rw [attributes, bind_of_ok hread]
  show (if spellings.isEmpty then _ else _ : Parser Attributes) rest = _
  rw [if_neg (by simpa using hsome)]
  rfl

/-! ## One way to write them -/

theorem Words.unique {k : Keyword} {w' : Attribute.Word} (h : Words k w) (h' : Words k w') :
    w = w' := by
  cases h <;> cases h' <;> rfl

theorem Words.ne_character : ¬ Words .CHAR w := by
  rintro ⟨⟩

/-- Tokens of different kinds are different. -/
theorem ne_of_kind {u : Token} {k l : Token.Kind} (ht : t.kind = k) (hu : u.kind = l)
    (hne : k ≠ l) : t ≠ u := by
  rintro rfl
  exact hne (ht.symm.trans hu)

/-- A precision can be read in one way. -/
theorem Precise.unique {p p' : Nat × Option Nat} (h : Precise xs p)
    (h' : Precise xs' p') (heq : xs ++ r = xs' ++ r') : p = p' ∧ r = r' := by
  -- the third token tells the two forms apart: a parenthesis or a comma
  cases h with
  | digits ho hn hc =>
    cases h' with
    | digits ho' hn' hc' =>
      simp only [List.cons_append, List.nil_append, List.cons.injEq] at heq
      obtain ⟨rfl, rfl, rfl, rfl⟩ := heq
      simp_all
    | scaled ho' hn' hm' hq' hc' =>
      simp only [List.cons_append, List.nil_append, List.cons.injEq] at heq
      exact absurd heq.2.2.1 (ne_of_kind hc hm' (by simp))
  | scaled ho hn hm hq hc =>
    cases h' with
    | digits ho' hn' hc' =>
      simp only [List.cons_append, List.nil_append, List.cons.injEq] at heq
      exact absurd heq.2.2.1 (ne_of_kind hm hc' (by simp))
    | scaled ho' hn' hm' hq' hc' =>
      simp only [List.cons_append, List.nil_append, List.cons.injEq] at heq
      obtain ⟨rfl, rfl, rfl, rfl, rfl, rfl⟩ := heq
      simp_all

theorem Sized.unique {n' : Nat} (h : Sized xs n)
    (h' : Sized xs' n') (heq : xs ++ r = xs' ++ r') : n = n' ∧ r = r' := by
  obtain ⟨ho, hn, hc⟩ := h
  obtain ⟨ho', hn', hc'⟩ := h'
  simp only [List.cons_append, List.nil_append, List.cons.injEq] at heq
  obtain ⟨rfl, rfl, rfl, rfl⟩ := heq
  simp_all

/-- A length starts with a parenthesis. -/
theorem Sized.front (h : Sized xs n) (rest : List Token) : ¬ Unextended (xs ++ rest) := by
  obtain ⟨ho, _, _⟩ := h
  exact not_not_intro ho

/-- What is in parentheses or left out is written in one way, up to where no parenthesis follows. -/
theorem Given.unique {R : Rule α} {a a' : Option α}
    (hfront : ∀ {xs a}, R xs a → ∀ rest, ¬ Unextended (xs ++ rest))
    (hunique : ∀ {xs xs' a a'}, R xs a → R xs' a' → xs ++ r = xs' ++ r' → a = a' ∧ r = r')
    (h : Given R xs a) (h' : Given R xs' a') (hr : Unextended r) (hr' : Unextended r')
    (heq : xs ++ r = xs' ++ r') : a = a' ∧ r = r' := by
  cases h with
  | absent =>
    cases h' with
    | absent => exact ⟨rfl, heq⟩
    | given h' =>
      -- something that is given begins with a parenthesis, and what is left does not
      have hopen := hfront h' r'
      rw [← heq, List.nil_append] at hopen
      exact absurd hr hopen
  | given h =>
    cases h' with
    | absent =>
      have hopen := hfront h r
      rw [heq, List.nil_append] at hopen
      exact absurd hr' hopen
    | given h' =>
      obtain ⟨rfl, hrest⟩ := hunique h h' heq
      exact ⟨rfl, hrest⟩

/-- An attribute is written in one way, up to where no parenthesis follows. -/
theorem Attributed.unique {xs xs' r r' : List Token} {x x' : Attribute} (h : Attributed xs x)
    (h' : Attributed xs' x') (hr : Unextended r) (hr' : Unextended r') (heq : xs ++ r = xs' ++ r') :
    x = x' ∧ r = r' := by
  -- the first token tells words from `CHARACTER`
  have hcharacter : ∀ {t : Token} {k : Keyword} {w : Attribute.Word}, t.kind = .keyword k →
      Words k w → t.kind ≠ .keyword .CHAR := by
    intro t k w ht hw ht'
    rw [ht] at ht'
    injection ht' with hk
    subst hk
    exact Words.ne_character hw
  cases h with
  | word ht hw hp =>
    cases h' with
    | word ht' hw' hp' =>
      injection heq with htoken hrest
      subst htoken
      rw [ht] at ht'
      injection ht' with hk
      subst hk
      obtain ⟨rfl, hrest⟩ := Given.unique Precise.front Precise.unique hp hp' hr hr' hrest
      exact ⟨by rw [hw.unique hw'], hrest⟩
    | character ht' _ =>
      injection heq with htoken hrest
      subst htoken
      exact absurd ht' (hcharacter ht hw)
  | character ht hn =>
    cases h' with
    | word ht' hw' _ =>
      injection heq with htoken hrest
      subst htoken
      exact absurd ht (hcharacter ht' hw')
    | character ht' hn' =>
      injection heq with htoken hrest
      obtain ⟨rfl, hrest⟩ := Given.unique Sized.front Sized.unique hn hn' hr hr' hrest
      exact ⟨rfl, hrest⟩

/-- An attribute starts with a keyword. -/
theorem Attributed.isKeyword {xs : List Token} {x : Attribute} (h : Attributed xs x)
    (rest : List Token) : (front (xs ++ rest)).isKeyword = true := by
  cases h with
  | word ht _ _ | character ht _ => simp [Token.isKeyword, ht]

/-- Attributes in a row are written in one way. -/
theorem attributed_unique {zs : List Token}
    (hys : Repeated Attributed ys as) (hzs : Repeated Attributed zs bs) (hr : Ended r)
    (hr' : Ended r') (heq : ys ++ r = zs ++ r') : as = bs := by
  induction hys generalizing zs bs with
  | nil =>
    cases hzs with
    | nil => rfl
    | cons hx _ =>
      -- one row goes on with a keyword where the other has ended
      have hkeyword := hx.isKeyword
      rw [List.nil_append, List.append_assoc] at heq
      subst heq
      exact absurd (hkeyword _) (Bool.eq_false_iff.mp hr.1)
  | cons hx hmore ih =>
    cases hzs with
    | nil =>
      have hkeyword := hx.isKeyword
      rw [List.nil_append, List.append_assoc] at heq
      subst heq
      exact absurd (hkeyword _) (Bool.eq_false_iff.mp hr'.1)
    | cons hx' hmore' =>
      rw [List.append_assoc, List.append_assoc] at heq
      obtain ⟨rfl, hrest⟩ :=
        hx.unique hx' (hmore.unextended hr.2) (hmore'.unextended hr'.2) heq
      rw [ih hmore' hrest]

/-! ## Order -/

/-- What has to be collected for a type. A binary number has no digits behind the point. -/
def Attributes.Gives (a : Attributes) : DataType → Prop
  | .character length varying =>
    a.fixed = false ∧ a.binary = false ∧ a.decimal = false ∧ a.character = some length ∧
      a.varying = varying
  | .fixedBinary precision =>
    a.fixed = true ∧ a.binary = true ∧ a.decimal = false ∧ a.character = .none ∧
      a.varying = false ∧ a.precision.map Prod.fst = precision ∧
      ∀ s ∈ a.precision.bind Prod.snd, s = 0
  | .fixedDecimal precision scale =>
    a.fixed = true ∧ a.binary = false ∧ a.character = .none ∧ a.varying = false ∧
      a.precision.map Prod.fst = precision ∧ a.precision.bind Prod.snd = scale

/-- The attributes resolve to the type that they give, and to no other. -/
theorem resolve_eq_ok_iff {type : DataType} : a.resolve = .ok type ↔ a.Gives type := by
  constructor
  · intro h
    -- one case for each of the three types, and one for what gives none
    unfold Attributes.resolve at h
    split at h
    · rename_i hfixed hbinary hdecimal hcharacter
      injection h with h
      subst h
      exact ⟨hfixed, hbinary, hdecimal, hcharacter, rfl⟩
    · rename_i hfixed hbinary hdecimal hcharacter hvarying
      split at h
      · cases h
      · rename_i hscale
        injection h with h
        subst h
        refine ⟨hfixed, hbinary, hdecimal, hcharacter, hvarying, rfl, ?_⟩
        intro s hs
        obtain ⟨⟨digits, _⟩, hp, rfl⟩ := Option.bind_eq_some_iff.mp hs
        -- a scale other than zero would have been refused
        cases s with
        | zero => rfl
        | succ s => exact absurd hp (hscale digits s)
    · rename_i hfixed hbinary hcharacter hvarying
      injection h with h
      subst h
      exact ⟨hfixed, hbinary, hcharacter, hvarying, rfl, rfl⟩
    · cases h
  · intro h
    -- in the other direction the flags select the branch
    cases type with
    | character length varying =>
      obtain ⟨hfixed, hbinary, hdecimal, hcharacter, hvarying⟩ := h
      simp only [Attributes.resolve, hfixed, hbinary, hdecimal, hcharacter, hvarying]
    | fixedDecimal digits scale =>
      obtain ⟨hfixed, hbinary, hcharacter, hvarying, hdigits, hscale⟩ := h
      simp only [Attributes.resolve, hfixed, hbinary, hcharacter, hvarying, hdigits, hscale]
    | fixedBinary digits =>
      obtain ⟨hfixed, hbinary, hdecimal, hcharacter, hvarying, hdigits, hscale⟩ := h
      simp only [Attributes.resolve, hfixed, hbinary, hdecimal, hcharacter, hvarying]
      split
      · rename_i hp
        rw [hp] at hscale
        exact absurd (hscale _ rfl) (by simp)
      · rw [hdigits]

/-- The attributes can stand together and denote the type. -/
structure Denotes (as : List Attribute) (type : DataType) : Prop where
  allowed : Allowed as
  gives : (Attributes.of as []).Gives type

/-- Lists of at most one member in another order are the same. -/
theorem perm_eq_of_length_le_one {l l' : List α} (h : l.Perm l') (hl : l.length ≤ 1) : l = l' := by
  match l, hl with
  | [], _ => rw [h.nil_eq]
  | [x], _ => exact (List.perm_singleton.mp h.symm).symm

/-- There are as many lengths as there are `CHARACTER`s. -/
theorem length_filterMap_length? (as : List Attribute) :
    (as.filterMap Attribute.length?).length = (as.map Attribute.word?).count none := by
  induction as with
  | nil => rfl
  | cons x as ih =>
    cases x with
    | word w p =>
      rw [List.filterMap_cons_none rfl, ih, List.map_cons]
      exact (List.count_cons_of_ne (by simp [Attribute.word?])).symm
    | character n =>
      have hsome : (Attribute.character n).length? = some (n.getD 1) := rfl
      rw [List.filterMap_cons_some hsome, List.length_cons, ih, List.map_cons]
      exact List.count_cons_self.symm

/-- What is collected does not depend on the order. -/
theorem Allowed.of_perm (h : Allowed as) (hperm : as.Perm bs) :
    Attributes.of as [] = Attributes.of bs [] := by
  have hheld : ∀ w, held as w = held bs w := fun w => by
    simp only [held, (hperm.map _).mem_iff]
  -- at most one precision is given, so its place in the list does not matter
  have hprecision : as.findSome? Attribute.precision? = bs.findSome? Attribute.precision? := by
    rw [← List.head?_filterMap, ← List.head?_filterMap,
      perm_eq_of_length_le_one (hperm.filterMap _) h.single]
  have hlength : as.findSome? Attribute.length? = bs.findSome? Attribute.length? := by
    -- the same for the length, since no attribute is given twice
    have hone : (as.filterMap Attribute.length?).length ≤ 1 := by
      rw [length_filterMap_length?]
      exact List.nodup_iff_count_le_one.mp h.once none
    rw [← List.head?_filterMap, ← List.head?_filterMap,
      perm_eq_of_length_le_one (hperm.filterMap _) hone]
  simp only [Attributes.of, hheld, hprecision, hlength]

/-- Only the place of a precision relative to `CHARACTER` depends on the order. -/
theorem Allowed.perm (h : Allowed as) (hperm : as.Perm bs)
    (hahead : bs.Pairwise fun x y => x.word? = none → y.precision? = none) : Allowed bs where
  once := (hperm.map _).nodup_iff.mp h.once
  single := (hperm.filterMap _).length_eq ▸ h.single
  precision := fun p hp => h.precision p ((hperm.filterMap _).mem_iff.mpr hp)
  length := fun n hn => h.length n ((hperm.filterMap _).mem_iff.mpr hn)
  ahead := hahead

/-- A precision behind `CHARACTER` needs both. -/
theorem pairwise_ahead
    (h : none ∉ as.map Attribute.word? ∨ as.filterMap Attribute.precision? = []) :
    as.Pairwise fun x y => x.word? = none → y.precision? = none := by
  have hall : as.Pairwise fun _ _ => True := List.pairwise_of_forall fun _ _ => trivial
  refine hall.imp_of_mem fun {x y} hx hy _ hword => ?_
  rcases h with hnone | hnone
  · exact absurd (List.mem_map.mpr ⟨x, hx, hword⟩) hnone
  · exact List.filterMap_eq_nil_iff.mp hnone y hy

/-- `CHARACTER` goes together with `VARYING` only. -/
theorem Denotes.character_cases {varying : Bool} (h : Denotes as (.character n varying)) :
    ∃ l, as = [.character l] ∨ as = [.character l, .word .varying none] ∨
      ∃ p, as = [.word .varying p, .character l] := by
  obtain ⟨hallowed, hfixed, hbinary, hdecimal, hlength, -⟩ := h
  -- no other word is held, so there are at most two attributes
  have hsubset : as.map Attribute.word? ⊆ [none, some .varying] := by
    intro w hw
    match w with
    | none => simp
    | some .varying => simp
    | some .fixed => exact absurd hw (of_decide_eq_false hfixed)
    | some .binary => exact absurd hw (of_decide_eq_false hbinary)
    | some .decimal => exact absurd hw (of_decide_eq_false hdecimal)
  have hle : as.length ≤ 2 := by
    have hle := (List.subperm_of_subset hallowed.once hsubset).length_le
    rwa [List.length_map] at hle
  have hmem : none ∈ as.map Attribute.word? := by
    by_contra hnone
    have hlength' : as.findSome? Attribute.length? = some n := hlength
    rw [findSome?_length?_eq_none_iff.mpr hnone] at hlength'
    cases hlength'
  have hvarying : ∀ {w p}, Attribute.word w p ∈ as → w = .varying := by
    intro w p hmem
    have hw := hsubset (List.mem_map_of_mem hmem)
    simpa [Attribute.word?] using hw
  -- the order of the two is left open, but a precision in front of `VARYING` is not
  match as, hle with
  | [], _ => simp at hmem
  | [x], _ =>
    cases x with
    | character l => exact ⟨l, .inl rfl⟩
    | word w p => simp [Attribute.word?] at hmem
  | [x, y], _ =>
    have honce := hallowed.once
    have hahead := List.pairwise_pair.mp hallowed.ahead
    cases x with
    | character l =>
      cases y with
      | character l' => simp [Attribute.word?] at honce
      | word w p =>
        obtain rfl : w = .varying := hvarying (p := p) (by simp)
        obtain rfl : p = none := hahead rfl
        exact ⟨l, .inr (.inl rfl)⟩
    | word w p =>
      cases y with
      | character l =>
        obtain rfl : w = .varying := hvarying List.mem_cons_self
        exact ⟨l, .inr (.inr ⟨p, rfl⟩)⟩
      | word w' p' => simp [Attribute.word?] at hmem

/-- A precision behind `VARYING`, and `CHARACTER` first in front of it and then behind it. -/
def Swapped (as bs : List Attribute) : Prop :=
  ∃ p n, PrecisionFormed p ∧ LengthFormed (n.getD 1) ∧
    as = [.word .varying (some p), .character n] ∧ bs = [.character n, .word .varying (some p)]

/-- A type is denoted in every order, unless `CHARACTER` comes to stand in front of a precision. -/
theorem Denotes.perm {as bs : List Attribute} {type : DataType} (h : Denotes as type)
    (hperm : as.Perm bs) : Denotes bs type ∨ Swapped as bs := by
  by_cases hahead : bs.Pairwise fun x y => x.word? = none → y.precision? = none
  · exact .inl ⟨h.allowed.perm hperm hahead, h.allowed.of_perm hperm ▸ h.gives⟩
  right
  -- in the new order a precision stands behind `CHARACTER`, so both were there
  have hcharacter : none ∈ as.map Attribute.word? := by
    by_contra hnone
    exact hahead (pairwise_ahead (.inl fun hmem => hnone ((hperm.map _).mem_iff.mpr hmem)))
  have hprecision : as.filterMap Attribute.precision? ≠ [] := fun hnone =>
    hahead (pairwise_ahead (.inr ((hnone ▸ hperm.filterMap _).nil_eq.symm)))
  have hsome : (Attributes.of as []).character ≠ .none := fun hnone =>
    findSome?_length?_eq_none_iff.mp hnone hcharacter
  cases type with
  | fixedBinary p => exact absurd h.gives.2.2.2.1 hsome
  | fixedDecimal p q => exact absurd h.gives.2.2.1 hsome
  | character n varying =>
    obtain ⟨l, rfl | rfl | ⟨p, rfl⟩⟩ := h.character_cases
    · exact absurd rfl hprecision
    · exact absurd rfl hprecision
    · cases p with
      | none => exact absurd rfl hprecision
      | some p =>
        refine ⟨p, l, h.allowed.precision p (by simp [Attribute.precision?]),
          h.allowed.length _ (by simp [Attribute.length?]), rfl, ?_⟩
        exact (List.pair_perm.mp hperm).resolve_left fun hsame => hahead (hsame ▸ h.allowed.ahead)

/-- The orders of some attributes denote the same unless they are these. -/
theorem denotes_iff_of_perm (hperm : as.Perm bs) :
    (∀ type, Denotes as type ↔ Denotes bs type) ↔ ¬ (Swapped as bs ∨ Swapped bs as) := by
  -- where a precision and `CHARACTER` change places, one order has a type and the other none
  have hne : ∀ {as bs}, Swapped as bs → ∃ type, Denotes as type ∧ ¬ Denotes bs type := by
    rintro as bs ⟨p, n, hp, hn, rfl, rfl⟩
    refine ⟨.character (n.getD 1) true, ⟨⟨?_, ?_, ?_, ?_, ?_⟩, ?_⟩, ?_⟩
    · simp [Attribute.word?]
    · simp [Attribute.precision?]
    · simpa [Attribute.precision?] using hp
    · simpa [Attribute.length?] using hn
    · simp [Attribute.word?]
    · exact ⟨rfl, rfl, rfl, rfl, rfl⟩
    · intro h
      have hnone := List.pairwise_pair.mp h.allowed.ahead rfl
      cases hnone
  constructor
  · rintro h (hswapped | hswapped)
    · obtain ⟨type, has, hbs⟩ := hne hswapped
      exact hbs ((h type).mp has)
    · obtain ⟨type, hbs, has⟩ := hne hswapped
      exact has ((h type).mpr hbs)
  · intro h type
    rw [not_or] at h
    -- and this is the only way to lose a type
    exact ⟨fun has => (has.perm hperm).resolve_right h.1,
      fun hbs => (hbs.perm hperm.symm).resolve_right h.2⟩

/-- No precision that was written is lost but one behind `VARYING`. -/
theorem Denotes.keeps_iff {type : DataType} (h : Denotes as type) :
    (∀ p ∈ as.filterMap Attribute.precision?, type.Keeps p) ↔
      ¬ ∃ p n, as = [.word .varying (some p), .character n] := by
  have hfound : ∀ p ∈ as.filterMap Attribute.precision?,
      (Attributes.of as []).precision = some p := by
    intro p hp
    show as.findSome? Attribute.precision? = some p
    rw [← List.head?_filterMap]
    match hall : as.filterMap Attribute.precision?, hp, h.allowed.single with
    | [q], hp, _ => rw [List.mem_singleton.mp hp, List.head?_cons]
    | _ :: _ :: _, _, hsingle => simp at hsingle
  -- a number is not declared with `CHARACTER`
  have hnumber : (Attributes.of as []).character = .none →
      ¬ ∃ p n, as = [.word .varying (some p), .character n] := by
    rintro hnone ⟨p, n, rfl⟩
    cases hnone
  cases type with
  | fixedBinary digits =>
    obtain ⟨-, -, -, hcharacter, -, hdigits, hscale⟩ := h.gives
    refine iff_of_true (fun p hp => ?_) (hnumber hcharacter)
    rw [hfound p hp] at hdigits hscale
    exact ⟨hdigits.symm, hscale⟩
  | fixedDecimal digits scale =>
    obtain ⟨-, -, hcharacter, -, hdigits, hscale⟩ := h.gives
    refine iff_of_true (fun p hp => ?_) (hnumber hcharacter)
    rw [hfound p hp] at hdigits hscale
    exact ⟨hdigits.symm, hscale.symm⟩
  | character n varying =>
    constructor
    · rintro hkeeps ⟨p, l, rfl⟩
      exact hkeeps p (by simp [Attribute.precision?])
    · intro hnot p hp
      obtain ⟨l, rfl | rfl | ⟨q, rfl⟩⟩ := h.character_cases
      · simp [Attribute.precision?] at hp
      · simp [Attribute.precision?] at hp
      · cases q with
        | none => simp [Attribute.precision?] at hp
        | some q => exact hnot ⟨q, l, rfl⟩

end Grammar

end Plic
