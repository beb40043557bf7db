import Plic.Proofs.Grammar.Rules

/-!
# Parsers and rules

How a parser is tied to a rule of the grammar, in both directions:

* `Sound p R` — what `p` answers is derived by `R` from the tokens that it
  took off the front.
* `Complete n p R F` — where a stretch of at most `n` tokens that `R` derives
  stands at the front, and what comes behind it satisfies `F`, `p` takes exactly
  that stretch. `F` says that the stretch cannot be read on.

One lemma for each primitive says what it takes, one pair of lemmas for each
combinator carries both properties from the parts to the whole.
-/

namespace Plic.Parser

variable {α β : Type}

/-! ## Sequences -/

variable {ts rest : List Token} {t : Token} {m : Symbol} {place : Place} {u : Unit}

/-- A sequence gives a value if both parts do, one behind the other. -/
theorem bind_ok_iff {p : Parser α} {f : α → Parser β} {b : β} :
    (p >>= f) ts = .ok b rest ↔ ∃ a mid, p ts = .ok a mid ∧ f a mid = .ok b rest := by
  show EStateM.bind p f ts = _ ↔ _
  unfold EStateM.bind
  cases h : p ts with
  | ok a mid => simp
  | error e mid => simp

/-- A sequence goes on where its first part ended. -/
theorem bind_of_ok {p : Parser α} {f : α → Parser β} {mid : List Token} {a : α}
    (h : p ts = .ok a mid) : (p >>= f) ts = f a mid := by
  show EStateM.bind p f ts = _
  unfold EStateM.bind
  rw [h]

@[simp] theorem pure_apply (a : α) (ts : List Token) : (pure a : Parser α) ts = .ok a ts := rfl

theorem pure_ok_iff {a b : α} : (pure a : Parser α) ts = .ok b rest ↔ a = b ∧ ts = rest := by
  simp

/-- Looking takes no tokens, so the front is known in what follows. -/
@[simp] theorem peek_bind (f : Token → Parser β) (ts : List Token) :
    (peek >>= f) ts = f (front ts) ts := rfl

@[simp] theorem refuse_ne_ok (loc : Location) (cause : Fault.Cause) (ts rest : List Token)
    (a : α) : (refuse loc cause : Parser α) ts ≠ .ok a rest := by
  simp [refuse]

@[simp] theorem unexpected_ne_ok (what : Sought) (place : Place) (ts rest : List Token)
    (a : α) : (unexpected what place : Parser α) ts ≠ .ok a rest := by
  simp [unexpected]

/-! ## Single tokens -/

@[simp] theorem front_cons (t : Token) (ts : List Token) : front (t :: ts) = t := rfl

/-- Every token but the last one can be stepped over. -/
theorem behind_cons (h : t.kind ≠ .eof) (ts : List Token) : behind (t :: ts) = ts := by
  simp [behind, h]

/-- A token that is not the end of the source stands in the list. -/
theorem exists_cons_of_front (h : (front ts).kind ≠ .eof) : ∃ t rest, ts = t :: rest := by
  cases ts with
  | nil => exact absurd rfl h
  | cons t rest => exact ⟨t, rest, rfl⟩

theorem advance_cons (h : t.kind ≠ .eof) (ts : List Token) : advance (t :: ts) = .ok () ts := by
  rw [advance, behind_cons h]

@[simp] theorem advance_bind (h : t.kind ≠ .eof) (ts : List Token)
    (f : Unit → Parser β) : (advance >>= f) (t :: ts) = f () ts :=
  bind_of_ok (advance_cons h ts)

theorem accept_cons {k : Token.Kind} (hk : k ≠ .eof) (h : t.kind = k)
    (ts : List Token) : accept k (t :: ts) = .ok true ts := by
  rw [accept, front_cons, if_pos h, behind_cons (h ▸ hk)]

theorem accept_other {k : Token.Kind} (h : (front ts).kind ≠ k) : accept k ts = .ok false ts := by
  rw [accept, if_neg h]

/-- A token is taken exactly if it has the kind. -/
theorem accept_true_iff {k : Token.Kind} (hk : k ≠ .eof) :
    accept k ts = .ok true rest ↔ ∃ t : Token, t.kind = k ∧ ts = t :: rest := by
  constructor
  · intro h
    by_cases hfront : (front ts).kind = k
    · obtain ⟨t, tail, rfl⟩ := exists_cons_of_front (hfront ▸ hk)
      rw [front_cons] at hfront
      rw [accept_cons hk hfront] at h
      injection h with _ hrest
      exact ⟨t, hfront, by rw [hrest]⟩
    · rw [accept_other hfront] at h
      injection h with hfalse
      exact absurd hfalse (by simp)
  · rintro ⟨t, ht, rfl⟩
    exact accept_cons hk ht rest

theorem accept_false_iff {k : Token.Kind} :
    accept k ts = .ok false rest ↔ (front ts).kind ≠ k ∧ ts = rest := by
  rw [accept]
  split
  · rename_i h
    simp [h]
  · rename_i h
    simp [h]

theorem accept_bind_ok_iff {k : Token.Kind} (hk : k ≠ .eof) {f : Bool → Parser β} {b : β} :
    (accept k >>= f) ts = .ok b rest ↔
      (∃ (t : Token) (mid : List Token), t.kind = k ∧ ts = t :: mid ∧ f true mid = .ok b rest) ∨
        (front ts).kind ≠ k ∧ f false ts = .ok b rest := by
  rw [bind_ok_iff, Bool.exists_bool]
  simp only [accept_true_iff hk, accept_false_iff]
  grind

theorem symbol_cons (h : t.kind = .symbol m) (place : Place)
    (ts : List Token) : symbol m place (t :: ts) = .ok () ts := by
  rw [symbol, bind_of_ok (accept_cons (by simp) h ts)]
  rfl

theorem keyword_cons {k : Keyword} (h : t.kind = .keyword k) (place : Place)
    (ts : List Token) : keyword k place (t :: ts) = .ok () ts := by
  rw [keyword, bind_of_ok (accept_cons (by simp) h ts)]
  rfl

/-- What is asked for is at the front, or nothing is read. -/
theorem accepted_ok_iff {k : Token.Kind} (hk : k ≠ .eof) {what : Sought} :
    (do unless ← accept k do unexpected what place : Parser Unit) ts = .ok u rest ↔
      ∃ t : Token, t.kind = k ∧ ts = t :: rest := by
  rw [accept_bind_ok_iff hk]
  simp

/-- A mark is read exactly if it is in front. -/
theorem symbol_ok_iff :
    symbol m place ts = .ok u rest ↔ ∃ t : Token, t.kind = .symbol m ∧ ts = t :: rest :=
  accepted_ok_iff (by simp)

/-- A keyword is read exactly if it is in front. -/
theorem keyword_ok_iff {k : Keyword} :
    keyword k place ts = .ok u rest ↔ ∃ t : Token, t.kind = .keyword k ∧ ts = t :: rest :=
  accepted_ok_iff (by simp)

theorem symbol_bind_ok_iff {f : Unit → Parser β} {b : β} : (symbol m place >>= f) ts = .ok b rest ↔
      ∃ (t : Token) (mid : List Token), t.kind = .symbol m ∧ ts = t :: mid ∧
        f () mid = .ok b rest := by
  simp only [bind_ok_iff, symbol_ok_iff]
  grind

theorem keyword_bind_ok_iff {k : Keyword} {f : Unit → Parser β} {b : β} :
    (keyword k place >>= f) ts = .ok b rest ↔
      ∃ (t : Token) (mid : List Token), t.kind = .keyword k ∧ ts = t :: mid ∧
        f () mid = .ok b rest := by
  simp only [bind_ok_iff, keyword_ok_iff]
  grind

theorem symbol_bind (h : t.kind = .symbol m) (place : Place)
    (f : Unit → Parser β) (ts : List Token) : (symbol m place >>= f) (t :: ts) = f () ts :=
  bind_of_ok (symbol_cons h place ts)

theorem keyword_bind {k : Keyword} (h : t.kind = .keyword k) (place : Place)
    (f : Unit → Parser β) (ts : List Token) : (keyword k place >>= f) (t :: ts) = f () ts :=
  bind_of_ok (keyword_cons h place ts)

/-! Where the token at the front decides, its kind is all that is asked for. -/

/-- An identifier is read exactly if a name is in front. -/
theorem identifier_ok_iff {n : String} :
    identifier ts = .ok n rest ↔ ∃ t : Token, t.kind = .name n ∧ ts = t :: rest := by
  rw [identifier, peek_bind]
  cases ts with
  | nil => simp [front, Token.endOfSource]
  | cons t ts => cases ht : t.kind <;> simp [ht]

/-- A number is read exactly if one is in front. -/
theorem integer_ok_iff {n : Nat} :
    integer ts = .ok n rest ↔ ∃ t : Token, t.kind = .number n ∧ ts = t :: rest := by
  rw [integer, peek_bind]
  cases ts with
  | nil => simp [front, Token.endOfSource]
  | cons t ts => cases ht : t.kind <;> simp [ht]

end Plic.Parser

namespace Plic.Grammar

open Plic.Parser

variable {α β : Type}

/-! ## Soundness and completeness -/

/-- What the parser answers is derived from the tokens that it took. -/
def Sound (p : Parser α) (R : Rule α) : Prop :=
  ∀ ⦃ts a rest⦄, p ts = .ok a rest → ∃ xs, ts = xs ++ rest ∧ R xs a

variable {R : Rule α} {n : Nat} {F : List Token → Prop} {xs : List Token} {as : List α}
  {item : Parser α}

/-- What the first part of a sequence read is derived by its rule. -/
theorem Sound.of_bind {p : Parser α} (h : Sound p R) {f : α → Parser β}
    {ts rest : List Token} {b : β} (hts : (p >>= f) ts = .ok b rest) :
    ∃ xs a mid, ts = xs ++ mid ∧ R xs a ∧ f a mid = .ok b rest := by
  obtain ⟨a, mid, hp, hf⟩ := bind_ok_iff.mp hts
  obtain ⟨xs, hxs, hR⟩ := h hp
  exact ⟨xs, a, mid, hxs, hR, hf⟩

/-- The parser takes every stretch of at most `n` tokens that the rule derives,
if what comes behind the stretch satisfies `F`. -/
def Complete (n : Nat) (p : Parser α) (R : Rule α) (F : List Token → Prop) : Prop :=
  ∀ ⦃xs a rest⦄, xs.length ≤ n → R xs a → F rest → p (xs ++ rest) = .ok a rest

/-- What is read at some length is read at every shorter one. -/
theorem Complete.mono {m : Nat} {p : Parser α}
    (h : Complete n p R F) (hm : m ≤ n) : Complete m p R F :=
  fun _ _ _ hlength hR hF => h (Nat.le_trans hlength hm) hR hF

/-! ## Repetition -/

/-- A repetition of rules that derive nothing empty has no more items than tokens. -/
theorem Repeated.length_le (hne : ∀ xs a, R xs a → xs ≠ []) (h : Repeated R xs as) :
    as.length ≤ xs.length := by
  induction h with
  | nil => exact Nat.le_refl _
  | cons hR _ ih =>
    have hpos := List.length_pos_iff.mpr (hne _ _ hR)
    rw [List.length_append, List.length_cons]
    omega

/-- A round of a loop, with an answer for going on and one for stopping. -/
def SoundRound (p : Parser (Option α)) (R : Rule α) : Prop :=
  ∀ ⦃ts a? rest⦄, p ts = .ok a? rest →
    match a? with
    | some a => ∃ xs, ts = xs ++ rest ∧ R xs a
    | none => ts = rest

/-- A repetition of sound rounds is sound. -/
theorem sound_many {p : Parser (Option α)} (h : SoundRound p R) : Sound (many p) (Repeated R) := by
  -- the bound on the rounds plays no part in soundness
  have hupTo : ∀ n, Sound (manyUpTo p n) (Repeated R) := by
    intro n
    induction n with
    | zero =>
      intro ts as rest hts
      injection hts with has hrest
      exact ⟨[], by simp [hrest], has ▸ .nil⟩
    | succ n ih =>
      intro ts as rest hts
      obtain ⟨a?, mid, hround, hnext⟩ := bind_ok_iff.mp hts
      have hmid := h hround
      cases a? with
      | none =>
        injection hnext with has hrest
        exact ⟨[], by rw [hmid, hrest]; rfl, has ▸ .nil⟩
      | some a =>
        obtain ⟨xs, hxs, hR⟩ := hmid
        obtain ⟨as', last, hmore, hlast⟩ := bind_ok_iff.mp hnext
        obtain ⟨ys, rfl, hys⟩ := ih hmore
        injection hlast with has hrest
        exact ⟨xs ++ ys, by rw [hxs, ← hrest, List.append_assoc], has ▸ .cons hR hys⟩
  exact fun ts _ _ hts => hupTo ts.length hts

/-- A loop takes every row of stretches. Its rounds need `G` behind a stretch,
which holds in front of a further stretch and, by `F`, behind the last. -/
theorem complete_many {p : Parser (Option α)} {G : List Token → Prop}
    (hround : ∀ ⦃xs a rest⦄, xs.length ≤ n → R xs a → G rest → p (xs ++ rest) = .ok (some a) rest)
    (hstop : ∀ ⦃rest⦄, F rest → p rest = .ok none rest) (hne : ∀ xs a, R xs a → xs ≠ [])
    (hnext : ∀ xs a rest, R xs a → G (xs ++ rest)) (hlast : ∀ rest, F rest → G rest) :
    Complete n (many p) (Repeated R) F := by
  -- induction on the row; every bound that covers its stretches will do
  have hupTo : ∀ ⦃xs as⦄, Repeated R xs as → xs.length ≤ n → ∀ k, as.length ≤ k →
      ∀ ⦃rest⦄, F rest → manyUpTo p k (xs ++ rest) = .ok as rest := by
    intro xs as h
    induction h with
    | nil =>
      intro _ k _ rest hF
      cases k with
      | zero => rfl
      | succ k =>
        rw [manyUpTo, List.nil_append, bind_of_ok (hstop hF)]
        rfl
    | @cons xs ys a as hR hmore ih =>
      intro hlength k hk rest hF
      rw [List.length_append] at hlength
      cases k with
      | zero => exact absurd hk (by simp)
      | succ k =>
        -- the first stretch ends at the next one, or at the end of the row
        have hG : G (ys ++ rest) := by
          cases hmore with
          | nil => exact hlast _ hF
          | cons hR' _ =>
            rw [List.append_assoc]
            exact hnext _ _ _ hR'
        rw [manyUpTo, List.append_assoc, bind_of_ok (hround (by omega) hR hG)]
        show (manyUpTo p k >>= _) _ = _
        rw [bind_of_ok (ih (by omega) k (Nat.le_of_succ_le_succ hk) hF)]
        rfl
  intro xs as rest hlength h hF
  apply hupTo h hlength _ _ hF
  -- no stretch is empty, so there are at most as many as tokens
  have hle := h.length_le hne
  rw [List.length_append]
  omega

/-! ## Lists with commas -/

/-- A comma and what comes behind it. -/
inductive Following (R : Rule α) : Rule α where
  | intro {comma : Token} {xs : List Token} {a : α} :
      comma.kind = .symbol .comma → R xs a → Following R (comma :: xs) a

/-- A list with commas is an item and rounds of a comma and an item. -/
theorem separated_of_repeated {ys : List Token} {a : α}
    (h : R xs a) (hs : Repeated (Following R) ys as) : Separated R (xs ++ ys) (a :: as) := by
  induction hs generalizing xs a with
  | nil =>
    rw [List.append_nil]
    exact .one h
  | cons hfollowing _ ih =>
    cases hfollowing with
    | intro hcomma hR => exact .more h hcomma (ih hR)

theorem Separated.exists_repeated (h : Separated R xs as) :
    ∃ ys zs a as', xs = ys ++ zs ∧ as = a :: as' ∧ R ys a ∧ Repeated (Following R) zs as' := by
  induction h with
  | @one xs a hR => exact ⟨xs, [], a, [], by simp, rfl, hR, .nil⟩
  | @more xs ys comma a as hR hcomma _ ih =>
    obtain ⟨us, vs, b, bs, rfl, rfl, hb, hbs⟩ := ih
    exact ⟨xs, comma :: us ++ vs, a, b :: bs, by simp, rfl, hR, .cons (.intro hcomma hb) hbs⟩

theorem Separated.ne_nil (h : Separated R xs as) : as ≠ [] := by
  cases h <;> simp

/-- A round of a list: a comma and an item. -/
def commaRound (item : Parser α) : Parser (Option α) := do
  if ← accept (.symbol .comma) then return some (← item) else return none

theorem commaList_eq (item : Parser α) :
    commaList item = (do
      let first ← item
      let rest ← many (commaRound item)
      return first :: rest) := rfl

/-- What a round reads is a comma and an item. -/
theorem sound_commaRound (h : Sound item R) : SoundRound (commaRound item) (Following R) := by
  intro ts a? rest hts
  rcases (accept_bind_ok_iff (by simp)).mp hts with ⟨comma, mid, hcomma, rfl, hnext⟩ | ⟨-, hnone⟩
  · obtain ⟨a, last, hitem, hlast⟩ := bind_ok_iff.mp hnext
    obtain ⟨xs, rfl, hR⟩ := h hitem
    obtain ⟨rfl, rfl⟩ := pure_ok_iff.mp hlast
    exact ⟨comma :: xs, rfl, .intro hcomma hR⟩
  · injection hnone with ha hrest
    subst ha
    exact hrest

theorem sound_commaList (h : Sound item R) : Sound (commaList item) (Separated R) := by
  intro ts as rest hts
  rw [commaList_eq] at hts
  obtain ⟨a, mid, hfirst, hnext⟩ := bind_ok_iff.mp hts
  obtain ⟨as', last, hmore, hlast⟩ := bind_ok_iff.mp hnext
  obtain ⟨xs, rfl, hR⟩ := h hfirst
  obtain ⟨ys, rfl, hRs⟩ := sound_many (sound_commaRound h) hmore
  obtain ⟨rfl, rfl⟩ := pure_ok_iff.mp hlast
  exact ⟨xs ++ ys, by rw [List.append_assoc], separated_of_repeated hR hRs⟩

/-- A list is read to its end: its items end at a comma, and no comma is
behind the last of them. -/
theorem complete_commaList (h : Complete n item R F)
    (hcomma : ∀ t ts, t.kind = .symbol .comma → F (t :: ts)) :
    Complete n (commaList item) (Separated R)
      (fun rest => F rest ∧ (front rest).kind ≠ .symbol .comma) := by
  intro xs as rest hlength hR hF
  obtain ⟨ys, zs, a, as', rfl, rfl, ha, hmore⟩ := hR.exists_repeated
  rw [List.length_append] at hlength
  -- the first item ends at a comma or where the list ends
  have hG : F (zs ++ rest) := by
    cases hmore with
    | nil => exact hF.1
    | cons hfollowing _ =>
      cases hfollowing with
      | intro hc _ => exact hcomma _ _ hc
  have hmany := complete_many (n := n) (R := Following R) (p := commaRound item)
    (F := fun rest => F rest ∧ (front rest).kind ≠ .symbol .comma) (G := F)
    ?round ?stop ?ne ?next (fun _ hF => hF.1)
  case round =>
    rintro _ b tail hlen ⟨hc, hb⟩ htail
    rw [commaRound, List.cons_append, bind_of_ok (accept_cons (by simp) hc _)]
    rw [List.length_cons] at hlen
    show (item >>= _) _ = _
    rw [bind_of_ok (h (by omega) hb htail)]
    rfl
  case stop =>
    intro tail htail
    rw [commaRound, bind_of_ok (accept_other htail.2)]
    rfl
  case ne =>
    rintro _ b ⟨_, _⟩
    simp
  case next =>
    rintro _ b tail ⟨hc, _⟩
    exact hcomma _ _ hc
  rw [commaList_eq, List.append_assoc, bind_of_ok (h (by omega) ha hG),
    bind_of_ok (hmany (by omega) hmore hF)]
  rfl

end Plic.Grammar
