import Plic.Proofs.Grammar.Attributes

/-!
# Declarations as they are written

A declaration is `DCL`, a list of entries, a row of attributes and a semicolon. The
parser accepts exactly those whose attributes denote a type, and declares the names
of the entries, each with the extents nearest to it.

The entries end at the first keyword or semicolon, so tokens are a declaration in
one way only. The type is therefore a matter of the attributes alone, and it is
asked here what happens to it when they are written in another order.

Main results:

* `declaration_ok_iff_nearest` — which declarations are accepted, and what they
  declare.
* `type_in_any_order` — in which orders attributes denote the same type, and which
  precision is lost.
-/

namespace Plic

namespace Grammar

open Plic.Parser

/-! ## Reading -/

/-- Declarations as they are written. -/
inductive Declared : Rule Declaration where
  | intro {dcl s : Token} {xs ys : List Token} {es : List Entry} {as : List Attribute}
      {type : DataType} :
      dcl.kind = .keyword .DCL → Separated Entered xs es → Repeated Attributed ys as →
      Denotes as type → s.kind = .symbol .semicolon →
      Declared (dcl :: xs ++ ys ++ [s]) ⟨entryItems es, type, dcl.loc⟩

variable {as : List Attribute} {type : DataType} {xs rest : List Token}

/-- The type does not depend on how the attributes are spelled. -/
theorem gives_of_iff {spellings : List String} :
    (Attributes.of as spellings).Gives type ↔ (Attributes.of as []).Gives type := by
  cases type <;> rfl

/-- A type is never denoted by no attributes at all. -/
theorem Denotes.ne_nil (h : Denotes as type) : as ≠ [] := by
  rintro rfl
  cases type with
  | fixedBinary digits | fixedDecimal digits scale => exact absurd h.gives.1 Bool.false_ne_true
  | character n varying => exact absurd h.gives.2.2.2.1 nofun

theorem ended_of_semicolon {s : Token} (h : s.kind = .symbol .semicolon) (rest : List Token) :
    Ended (s :: rest) := by
  simp [Ended, Unextended, Token.isKeyword, h]

/-- What is read as a declaration is one. -/
theorem sound_declaration : Sound declaration Declared := by
  intro ts d rest h
  rw [declaration_eq, peek_bind] at h
  obtain ⟨dcl, mid, hdcl, rfl, hrest⟩ := keyword_bind_ok_iff.mp h
  obtain ⟨found, mid, hfound, hattributes⟩ := bind_ok_iff.mp hrest
  obtain ⟨xs, es, rfl, hxs, hitems⟩ := sound_commaList_items hfound
  obtain ⟨a, mid, ha, htype⟩ := bind_ok_iff.mp hattributes
  obtain ⟨ys, as, spellings, rfl, hys, has, rfl⟩ := sound_attributes ha
  -- attributes that give no type are refused behind the last of them
  cases hresolve : (Attributes.of as spellings).resolve with
  | error cause =>
    simp only [hresolve] at htype
    exact absurd htype (refuse_ne_ok _ _ _ _ _)
  | ok type =>
    simp only [hresolve] at htype
    obtain ⟨s, mid, hs, rfl, hlast⟩ := symbol_bind_ok_iff.mp htype
    injection hlast with hd hmid
    subst hd hmid
    rw [hitems]
    exact ⟨dcl :: xs ++ ys ++ [s], by simp,
      .intro hdcl hxs hys ⟨has, gives_of_iff.mp (resolve_eq_ok_iff.mp hresolve)⟩ hs⟩

theorem complete_declaration {d : Declaration} (h : Declared xs d) :
    declaration (xs ++ rest) = .ok d rest := by
  obtain @⟨dcl, s, xs, ys, es, as, type, hdcl, hxs, hys, hdenotes, hs⟩ := h
  have hend := ended_of_semicolon hs rest
  obtain ⟨spellings, hattributes⟩ := complete_attributes hys hend hdenotes.allowed hdenotes.ne_nil
  -- entries are followed by an attribute
  have hnext : ∃ k, (front (ys ++ s :: rest)).kind = .keyword k := by
    cases hys with
    | nil => exact absurd rfl hdenotes.ne_nil
    | cons hx _ =>
      cases hx with
      | word ht _ _ => exact ⟨_, ht⟩
      | character ht _ => exact ⟨_, ht⟩
  obtain ⟨k, hk⟩ := hnext
  have hopen : (front (ys ++ s :: rest)).kind ≠ .symbol .lparen := by simp [hk]
  have hcomma : (front (ys ++ s :: rest)).kind ≠ .symbol .comma := by simp [hk]
  obtain ⟨found, hfound, hitems⟩ := complete_commaList_items hxs hopen hcomma
  have hresolve : (Attributes.of as spellings).resolve = .ok type :=
    resolve_eq_ok_iff.mpr (gives_of_iff.mpr hdenotes.gives)
  have htokens : dcl :: xs ++ ys ++ [s] ++ rest = dcl :: (xs ++ (ys ++ s :: rest)) := by simp
  rw [htokens, declaration_eq, peek_bind, keyword_bind hdcl, declarationRest, bind_of_ok hfound,
    bind_of_ok hattributes]
  simp only [hresolve]
  rw [symbol_bind hs, hitems]
  rfl

theorem declaration_ok_iff {ts : List Token} {d : Declaration} :
    declaration ts = .ok d rest ↔ ∃ xs, ts = xs ++ rest ∧ Declared xs d := by
  constructor
  · intro h
    exact sound_declaration h
  · rintro ⟨xs, rfl, h⟩
    exact complete_declaration h

/-- A declaration is accepted if it lists entries and its attributes denote a type. It declares
the names that are written, in order, each with its own extents or, if it has none, with those
behind the innermost list around it that has any. -/
theorem declaration_ok_iff_nearest (ts rest : List Token) (d : Declaration) :
    declaration ts = .ok d rest ↔
      ∃ dcl s xs ys es as, ts = dcl :: xs ++ ys ++ s :: rest ∧
        dcl.kind = .keyword .DCL ∧ Separated Entered xs es ∧
        Repeated Attributed ys as ∧ Denotes as d.type ∧ s.kind = .symbol .semicolon ∧
        d.loc = dcl.loc ∧ d.items = (occurrencesOf [] es).map Occurrence.item ∧
        d.items.map (fun i => (i.name, i.loc)) = xs.filterMap writtenName := by
  rw [declaration_ok_iff]
  constructor
  · rintro ⟨_, rfl, @⟨dcl, s, xs, ys, es, as, type, hdcl, hxs, hys, hdenotes, hs⟩⟩
    refine ⟨dcl, s, xs, ys, es, as, by simp, hdcl, hxs, hys, hdenotes, hs, rfl, rfl, ?_⟩
    -- the names are those of the list, in the order of its tokens
    rw [entryItems, List.map_map, ← names_of_separated hxs []]
    rfl
  · rintro ⟨dcl, s, xs, ys, es, as, rfl, hdcl, hxs, hys, hdenotes, hs, hloc, hitems, -⟩
    obtain ⟨items, type, loc⟩ := d
    obtain rfl : loc = dcl.loc := hloc
    obtain rfl : items = entryItems es := hitems
    exact ⟨dcl :: xs ++ ys ++ [s], by simp, .intro hdcl hxs hys hdenotes hs⟩

/-! ## One way to write them -/

/-- A token that can stand in the list of a declaration: no keyword and no semicolon. -/
def isListed (t : Token) : Bool := !t.isKeyword && t.kind ≠ .symbol .semicolon

/-- All marks but the semicolon may stand in the list. -/
theorem isListed_symbol {t : Token} {m : Symbol} (h : t.kind = .symbol m) (hm : m ≠ .semicolon) :
    isListed t = true := by
  simp [isListed, Token.isKeyword, h, hm]

theorem Extended.listed {own : Option Extents} (h : Extended xs own) :
    ∀ t ∈ xs, isListed t = true := by
  intro t ht
  obtain ⟨n, hn⟩ | ⟨m, hm, hne⟩ := h.inExtents t ht
  · simp [isListed, Token.isKeyword, hn]
  · exact isListed_symbol hm hne

mutual

theorem Entered.listed {xs : List Token} {e : Entry} (h : Entered xs e) :
    ∀ t ∈ xs, isListed t = true := by
  match h with
  | .name ht hxs =>
    rw [List.forall_mem_cons]
    exact ⟨by simp [isListed, Token.isKeyword, ht], hxs.listed⟩
  | .group ho hmembers hc hys =>
    rw [List.forall_mem_append, List.forall_mem_cons, List.forall_mem_cons]
    exact ⟨⟨isListed_symbol ho (by simp), listed_of_separated hmembers⟩,
      isListed_symbol hc (by simp), hys.listed⟩

/-- No keyword and no semicolon stands in the list of a declaration. -/
theorem listed_of_separated {xs : List Token} {es : List Entry} (h : Separated Entered xs es) :
    ∀ t ∈ xs, isListed t = true := by
  match h with
  | .one he => exact he.listed
  | .more he hcomma hes =>
    rw [List.forall_mem_append, List.forall_mem_cons]
    exact ⟨he.listed, isListed_symbol hcomma (by simp), listed_of_separated hes⟩

end

/-- The list ends in front of the attributes, or of the semicolon if there are none. -/
theorem dropWhile_isListed {ys : List Token} {es : List Entry}
    {s : Token} (hxs : Separated Entered xs es) (hys : Repeated Attributed ys as)
    (hs : s.kind = .symbol .semicolon) :
    (xs ++ (ys ++ s :: rest)).dropWhile isListed = ys ++ s :: rest := by
  rw [List.dropWhile_append_of_pos (listed_of_separated hxs)]
  -- behind the names stands the first attribute, or the semicolon
  cases hys with
  | nil => exact List.dropWhile_cons_of_neg (by simp [isListed, hs])
  | @cons zs ys x as hx _ =>
    have hkeyword := hx.isKeyword (ys ++ s :: rest)
    rw [List.append_assoc]
    obtain ⟨t, tail, htokens⟩ := List.exists_cons_of_ne_nil
      (List.append_ne_nil_of_left_ne_nil hx.ne_nil (ys ++ s :: rest))
    rw [htokens, front_cons] at hkeyword
    rw [htokens]
    exact List.dropWhile_cons_of_neg (by simp [isListed, hkeyword])

/-- The type that the tokens declare. -/
def declaredType? (ts : List Token) : Option DataType :=
  match declaration ts with
  | .ok d _ => some d.type
  | .error _ _ => none

theorem declaredType?_eq_some_iff {ts : List Token} :
    declaredType? ts = some type ↔ ∃ d rest, declaration ts = .ok d rest ∧ d.type = type := by
  rw [declaredType?]
  cases declaration ts <;> simp

section

variable {dcl s : Token} {xs ys zs rest : List Token} {es : List Entry} {as bs : List Attribute}

/-- The type of a declaration is a matter of its attributes. -/
theorem declaredType?_iff_denotes (hdcl : dcl.kind = .keyword .DCL)
    (hxs : Separated Entered xs es) (hys : Repeated Attributed ys as)
    (hs : s.kind = .symbol .semicolon) {type : DataType} :
    declaredType? (dcl :: xs ++ ys ++ s :: rest) = some type ↔ Denotes as type := by
  rw [declaredType?_eq_some_iff]
  constructor
  · rintro ⟨d, rest', hd, rfl⟩
    obtain ⟨_, htokens, hdeclared⟩ := declaration_ok_iff.mp hd
    obtain @⟨dcl', s', xs', ys', es', as', type, hdcl', hxs', hys', hdenotes, hs'⟩ := hdeclared
    have hcons : dcl :: (xs ++ (ys ++ s :: rest)) = dcl' :: (xs' ++ (ys' ++ s' :: rest')) := by
      simpa using htokens
    injection hcons with _ hlist
    -- two ways to read the row agree on where the list ends
    have hrow : ys ++ s :: rest = ys' ++ s' :: rest' := by
      rw [← dropWhile_isListed hxs hys hs, ← dropWhile_isListed hxs' hys' hs', hlist]
    -- and therefore on the attributes
    have has := attributed_unique hys hys' (ended_of_semicolon hs rest)
      (ended_of_semicolon hs' rest') hrow
    rw [has]
    exact hdenotes
  · intro h
    have hdeclared := Declared.intro hdcl hxs hys h hs
    refine ⟨⟨entryItems es, type, dcl.loc⟩, rest, ?_, rfl⟩
    rw [declaration_ok_iff]
    exact ⟨_, by simp, hdeclared⟩

/-- Attributes denote the same type in every order, or none in any, but for `CHARACTER` and a
`VARYING` with a precision. Of these one order is accepted, and it is the only one in which a
precision is lost. -/
theorem type_in_any_order (hdcl : dcl.kind = .keyword .DCL) (hxs : Separated Entered xs es)
    (hys : Repeated Attributed ys as) (hzs : Repeated Attributed zs bs)
    (hs : s.kind = .symbol .semicolon) (hperm : as.Perm bs) :
    (declaredType? (dcl :: xs ++ ys ++ s :: rest) = declaredType? (dcl :: xs ++ zs ++ s :: rest) ↔
      ¬ (Swapped as bs ∨ Swapped bs as)) ∧
    ∀ type, declaredType? (dcl :: xs ++ ys ++ s :: rest) = some type →
      ((∀ p ∈ as.filterMap Attribute.precision?, type.Keeps p) ↔
        ¬ ∃ p n, as = [.word .varying (some p), .character n]) := by
  constructor
  -- two types are the same if both are denoted by the same attributes
  · rw [← denotes_iff_of_perm hperm, Option.ext_iff]
    refine forall_congr' fun type => ?_
    rw [declaredType?_iff_denotes hdcl hxs hys hs, declaredType?_iff_denotes hdcl hxs hzs hs]
  · intro type htype
    exact ((declaredType?_iff_denotes hdcl hxs hys hs).mp htype).keeps_iff

open Token (bare)

/-- `DCL X FIXED BIN(15)` and `DCL X BIN(15) FIXED` declare the same, with the precision. -/
theorem type_in_any_order_binary :
    declaredType? (bare (.keyword .DCL) :: [bare (.name "x")] ++
        [bare (.keyword .FIXED), bare (.keyword .BIN), bare (.symbol .lparen), bare (.number 15),
          bare (.symbol .rparen)] ++ [bare (.symbol .semicolon)]) =
      declaredType? (bare (.keyword .DCL) :: [bare (.name "x")] ++
        [bare (.keyword .BIN), bare (.symbol .lparen), bare (.number 15), bare (.symbol .rparen),
          bare (.keyword .FIXED)] ++ [bare (.symbol .semicolon)]) ∧
    (DataType.fixedBinary (some 15)).Keeps (15, none) := by
  have hfixed : Attributed [bare (.keyword .FIXED)] (.word .fixed none) := .word rfl .fixed .absent
  -- the precision belongs to the second word in one order and to the first in the other
  have hbinary : Attributed
      [bare (.keyword .BIN), bare (.symbol .lparen), bare (.number 15), bare (.symbol .rparen)]
      (.word .binary (some (15, none))) := .word rfl .binary (.given (.digits rfl rfl rfl))
  have hlist : Separated Entered [bare (.name "x")] [.name "x" .nowhere none] :=
    .one (.name rfl .absent)
  obtain ⟨hsame, hkeeps⟩ := @type_in_any_order (bare (.keyword .DCL)) (bare (.symbol .semicolon))
    _ _ _ [] _ _ _ rfl hlist (.cons hfixed (.cons hbinary .nil))
    (.cons hbinary (.cons hfixed .nil)) rfl (.swap _ _ _)
  refine ⟨hsame.mpr ?_, (hkeeps _ (by decide +kernel)).mpr (by simp) _ (by decide)⟩
  rintro (⟨p, n, _, _, h, _⟩ | ⟨p, n, _, _, h, _⟩) <;> cases h

/-- `DCL S VARYING(5) CHAR(8)` is accepted and its precision is lost, but
`DCL S CHAR(8) VARYING(5)` is refused. -/
theorem varying_precision_before_character :
    ∃ (dcl s : Token) (xs ys zs : List Token) (es : List Entry) (as bs : List Attribute),
      dcl.kind = .keyword .DCL ∧ Separated Entered xs es ∧ Repeated Attributed ys as ∧
      Repeated Attributed zs bs ∧ s.kind = .symbol .semicolon ∧ as.Perm bs ∧
      (5, none) ∈ as.filterMap Attribute.precision? ∧
      declaredType? (dcl :: xs ++ ys ++ [s]) = some (.character 8 true) ∧
      declaredType? (dcl :: xs ++ zs ++ [s]) = none := by
  -- in front of `CHARACTER` the precision is read and lost, behind it it is refused
  have hvarying : Attributed
      [bare (.keyword .VARYING), bare (.symbol .lparen), bare (.number 5), bare (.symbol .rparen)]
      (.word .varying (some (5, none))) := .word rfl .varying (.given (.digits rfl rfl rfl))
  have hcharacter : Attributed
      [bare (.keyword .CHAR), bare (.symbol .lparen), bare (.number 8), bare (.symbol .rparen)]
      (.character (some 8)) := .character rfl (.given (.intro rfl rfl rfl))
  exact ⟨bare (.keyword .DCL), bare (.symbol .semicolon), [bare (.name "s")], _, _,
    [.name "s" .nowhere none], _, _, rfl, .one (.name rfl .absent),
    .cons hvarying (.cons hcharacter .nil), .cons hcharacter (.cons hvarying .nil), rfl,
    .swap _ _ _, by decide, by decide +kernel, by decide +kernel⟩

end

end Grammar

end Plic
