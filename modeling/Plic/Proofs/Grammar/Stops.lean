import Plic.Proofs.Grammar.Program

/-!
# Where a parser stops

A run of a parser takes some tokens off the front and stops in front of the next
one, with an answer or with a fault. It has looked at no token behind that one.
So the tokens up to the one where it stops settle how the run ends, whatever comes
behind them, and a fault that names a token names the one where the run stopped.

Parsers that loop or nest are bounded by the number of tokens that are left, which
is not settled by those that were looked at. Each of these bounds exceeds the
number of tokens that were taken, and more than that has no effect. This is why
two parsers are compared here, which differ in their bounds.

One place in the grammar is an exception: the attempt to take a parenthesis for
that of a condition may look further than the attempt that decides. Exceptions are
left open (`E`) and told by the tokens that were taken and the one in front of
which the run stopped.

Main results:

* `SettledAt.bind` — runs in a row are settled if their parts are.
* `definite_expr`, `definite_declarations` — expressions and declarations are
  settled without exception.
* `settledAt_condition` — a condition is settled, unless its first parenthesis
  encloses an expression and a relation stands behind that.
-/

namespace Plic

/-- A token without a text, at no place. -/
def Token.bare (k : Token.Kind) : Token := ⟨k, "", .nowhere⟩

/-- The token that a fault names: the one that was found where another was looked for. -/
def Fault.Cause.named? : Fault.Cause → Option Token
  | .expected _ _ found => some found
  | .lateDeclaration found => some found
  | .whenAfterOther found => some found
  | _ => none

/-- A fault that names a token names the one at the front, at its place. -/
def Fault.PointsAt (f : Fault) (ts : List Token) : Prop :=
  ∀ t, f.cause.named? = some t → Parser.front ts = t ∧ f.loc = t.loc

namespace Parser

variable {α β : Type}

/-! ## Runs -/

/-- How a run on `ts` ends, and which tokens it leaves. -/
inductive Halts (p : Parser α) (ts : List Token) : Except Fault α → List Token → Prop where
  | ok {a : α} {rest : List Token} : p ts = .ok a rest → Halts p ts (.ok a) rest
  | error {f : Fault} {rest : List Token} : p ts = .error f rest → Halts p ts (.error f) rest

variable {p : Parser α} {ts rest : List Token}

/-- Halting with a value is the parser's own answer. -/
theorem halts_ok_iff {a : α} : Halts p ts (.ok a) rest ↔ p ts = .ok a rest :=
  ⟨fun | .ok h => h, .ok⟩

/-- Halting with a fault is the parser's own answer too. -/
theorem halts_error_iff {f : Fault} : Halts p ts (.error f) rest ↔ p ts = .error f rest :=
  ⟨fun | .error h => h, .error⟩

/-- A run ends in one way only. -/
theorem Halts.unique {rest' : List Token} {o o' : Except Fault α}
    (h : Halts p ts o rest) (h' : Halts p ts o' rest') : o = o' ∧ rest = rest' := by
  cases h with
  | ok h =>
    cases h' with
    | ok h' =>
      injection h.symm.trans h' with ha hrest
      exact ⟨congrArg Except.ok ha, hrest⟩
    | error h' => cases h.symm.trans h'
  | error h =>
    cases h' with
    | ok h' => cases h.symm.trans h'
    | error h' =>
      injection h.symm.trans h' with hf hrest
      exact ⟨congrArg Except.error hf, hrest⟩

/-- A run of two parsers in a row ends with the second, or with a fault of the first. -/
theorem halts_bind_iff {f : α → Parser β} {o : Except Fault β} : Halts (p >>= f) ts o rest ↔
      (∃ a mid, p ts = .ok a mid ∧ Halts (f a) mid o rest) ∨
        ∃ e, p ts = .error e rest ∧ o = .error e := by
  -- a sequence unfolds to a match on how its first part ends
  have hbind : (p >>= f) ts = match p ts with
      | .ok a mid => f a mid
      | .error e mid => .error e mid := by
    show EStateM.bind p f ts = _
    unfold EStateM.bind
    cases p ts <;> rfl
  cases hp : p ts with
  | ok a mid =>
    simp only [hp] at hbind
    constructor
    · intro h
      refine .inl ⟨a, mid, rfl, ?_⟩
      cases h with
      | ok h => exact .ok (hbind.symm.trans h)
      | error h => exact .error (hbind.symm.trans h)
    · rintro (⟨b, mid', hb, h⟩ | ⟨e, he, -⟩)
      · injection hb with hb hmid
        subst hb hmid
        cases h with
        | ok h => exact .ok (hbind.trans h)
        | error h => exact .error (hbind.trans h)
      · cases he
  | error e mid =>
    simp only [hp] at hbind
    constructor
    · intro h
      cases h with
      | ok h => cases hbind.symm.trans h
      | error h =>
        injection hbind.symm.trans h with he hmid
        subst he hmid
        exact .inr ⟨e, rfl, rfl⟩
    · rintro (⟨b, mid', hb, -⟩ | ⟨e', he, rfl⟩)
      · cases hb
      · injection he with he hmid
        subst he hmid
        exact .error hbind

/-! ## Settled runs -/

/-- The run took `xs` off the front and stopped in front of `rest`. If it took fewer than `n`
tokens, `q` ends in the same way whatever comes behind the next token, or this is an exception. -/
structure Stop (E : List Token → Token → Prop) (n : Nat) (q : Parser α) (ts xs : List Token)
    (o : Except Fault α) (rest : List Token) : Prop where
  split  : ts = xs ++ rest
  passed : ∀ t ∈ xs, t.kind ≠ .eof
  points : ∀ f, o = .error f → f.PointsAt rest
  same   : ∀ t more, rest = t :: more → xs.length < n →
    (∀ more', Halts q (xs ++ t :: more') o (t :: more')) ∨ (∃ f, o = .error f) ∧ E xs t

/-- The run of `p` on `ts` is settled by the tokens up to the one where it stops, as is that of
`q`, unless the exception holds. -/
def SettledAt (E : List Token → Token → Prop) (n : Nat) (p q : Parser α) (ts : List Token) : Prop :=
  ∀ ⦃o rest⦄, Halts p ts o rest → ∃ xs, Stop E n q ts xs o rest

/-- All runs are settled, without exception. -/
def Definite (n : Nat) (p q : Parser α) : Prop := ∀ E ts, SettledAt E n p q ts

section

variable {E E' : List Token → Token → Prop} {n m : Nat} {p q : Parser α} {ts : List Token}

/-- What is settled for longer rows is settled for shorter ones, and it may be asked less of the
token it stops at. -/
theorem SettledAt.mono (h : SettledAt E n p q ts) (hm : m ≤ n) (hE : ∀ xs t, E xs t → E' xs t) :
    SettledAt E' m p q ts := by
  intro o rest hhalts
  obtain ⟨xs, hxs⟩ := h hhalts
  refine ⟨xs, hxs.split, hxs.passed, hxs.points, ?_⟩
  intro t more hrest hlength
  rcases hxs.same t more hrest (by omega) with hsame | ⟨hfault, hexception⟩
  · exact .inl hsame
  · exact .inr ⟨hfault, hE _ _ hexception⟩

/-- What is definite for longer rows is definite for shorter ones. -/
theorem Definite.mono (h : Definite n p q) (hm : m ≤ n) : Definite m p q :=
  fun E ts => (h E ts).mono hm fun _ _ => id

/-- An exception concerns tokens that were taken. -/
theorem SettledAt.taken (h : SettledAt E n p q ts) :
    SettledAt (fun xs t => E xs t ∧ xs <+: ts) n p q ts := by
  intro o rest hhalts
  obtain ⟨xs, hxs⟩ := h hhalts
  refine ⟨xs, hxs.split, hxs.passed, hxs.points, ?_⟩
  intro t more hrest hlength
  rcases hxs.same t more hrest hlength with hsame | ⟨hfault, hexception⟩
  · exact .inl hsame
  · exact .inr ⟨hfault, hexception, rest, hxs.split.symm⟩

/-- With the bound zero nothing is said about the other parser. -/
theorem SettledAt.zero (h : SettledAt E n p q ts) (q' : Parser α) : SettledAt E' 0 p q' ts := by
  intro o rest hhalts
  obtain ⟨xs, hxs⟩ := h hhalts
  refine ⟨xs, hxs.split, hxs.passed, hxs.points, ?_⟩
  intro t more _ hlength
  omega

/-- Without exception and bound, a run ends in the same way whatever comes behind. -/
theorem Definite.exists_stop (h : ∀ n, Definite n p q) {o : Except Fault α} {rest : List Token}
    (hhalts : Halts p ts o rest) :
    ∃ xs, ts = xs ++ rest ∧ ∀ t more, rest = t :: more →
      ∀ more', Halts q (xs ++ t :: more') o (t :: more') := by
  -- the bound exceeds what is read, and no exception is allowed for
  obtain ⟨xs, hxs⟩ := h (ts.length + 1) (fun _ _ => False) ts hhalts
  refine ⟨xs, hxs.split, ?_⟩
  intro t more hrest
  have hlength : xs.length ≤ ts.length := by
    rw [hxs.split, List.length_append]
    omega
  rcases hxs.same t more hrest (by omega) with hsame | ⟨-, hexception⟩
  · exact hsame
  · exact hexception.elim

/-- A definite parser never leaves more than it was given. -/
theorem Definite.length_le (h : Definite n p q) {a : α} {rest : List Token}
    (hp : p ts = .ok a rest) : rest.length ≤ ts.length := by
  obtain ⟨xs, hxs⟩ := h (fun _ _ => False) ts (.ok hp)
  rw [hxs.split, List.length_append]
  omega

end

/-! ## Sequences -/

section

variable {E E' : List Token → Token → Prop} {n : Nat} {p q : Parser α} {f g : α → Parser β}
  {ts : List Token}

/-- Runs in a row. What the first takes counts towards the bound and the exception of the second. -/
theorem SettledAt.bind (hp : SettledAt E' n p q ts) (hE : ∀ xs t, E' xs t → E xs t)
    (hf : ∀ ⦃a xs mid⦄, p ts = .ok a mid → ts = xs ++ mid →
      SettledAt (fun ys => E (xs ++ ys)) (n - xs.length) (f a) (g a) mid) :
    SettledAt E n (p >>= f) (q >>= g) ts := by
  intro o rest hhalts
  rcases halts_bind_iff.mp hhalts with ⟨a, mid, ha, hnext⟩ | ⟨e, he, rfl⟩
  · obtain ⟨xs, hxs⟩ := hp (.ok ha)
    obtain ⟨ys, hys⟩ := hf ha hxs.split hnext
    refine ⟨xs ++ ys, ?_, ?_, hys.points, ?_⟩
    · rw [hxs.split, hys.split, List.append_assoc]
    · rw [List.forall_mem_append]
      exact ⟨hxs.passed, hys.passed⟩
    · intro t more hrest hlength
      rw [List.length_append] at hlength
      -- the first run stops at a token that is the same whatever comes behind `t`
      have hfirst : ∀ more', q (xs ++ (ys ++ t :: more')) = .ok a (ys ++ t :: more') := by
        intro more'
        have hmid : mid = ys ++ t :: more := by rw [hys.split, hrest]
        obtain ⟨u, us, us', hus, hus'⟩ : ∃ u us us', ys ++ t :: more = u :: us ∧
            ys ++ t :: more' = u :: us' := by
          cases ys with
          | nil => exact ⟨t, more, more', rfl, rfl⟩
          | cons y ys => exact ⟨y, ys ++ t :: more, ys ++ t :: more', rfl, rfl⟩
        rw [hus']
        rcases hxs.same u us (hmid.trans hus) (by omega) with hsame | ⟨⟨f, hf⟩, -⟩
        · exact halts_ok_iff.mp (hsame us')
        · cases hf
      rcases hys.same t more hrest (by omega) with hsame | ⟨hfault, hexception⟩
      · left
        intro more'
        rw [List.append_assoc]
        exact halts_bind_iff.mpr (.inl ⟨a, _, hfirst more', hsame more'⟩)
      · exact .inr ⟨hfault, hexception⟩
  · obtain ⟨xs, hxs⟩ := hp (.error he)
    refine ⟨xs, hxs.split, hxs.passed, ?_, ?_⟩
    · intro e' he'
      injection he' with he'
      subst he'
      exact hxs.points e rfl
    · intro t more hrest hlength
      rcases hxs.same t more hrest hlength with hsame | ⟨-, hexception⟩
      · left
        intro more'
        exact halts_bind_iff.mpr (.inr ⟨e, halts_error_iff.mp (hsame more'), rfl⟩)
      · exact .inr ⟨⟨e, rfl⟩, hE _ _ hexception⟩

/-- Sequences keep definiteness: a fault of the second parser lies behind what the first one read.
-/
theorem Definite.bind (hp : Definite n p q) (hf : ∀ a, Definite n (f a) (g a)) :
    Definite n (p >>= f) (q >>= g) := by
  intro E ts
  refine (hp E ts).bind (fun _ _ => id) ?_
  intro a xs mid _ _
  exact (hf a _ mid).mono (by omega) fun _ _ => id

/-- A parser that only looks at the token at the front takes nothing. -/
theorem definite_of_still (o : Token → Except Fault α) (hp : ∀ us, Halts p us (o (front us)) us)
    (hpoints : ∀ us f, o (front us) = .error f → f.PointsAt us) : Definite n p p := by
  intro E ts o' rest hhalts
  obtain ⟨rfl, rfl⟩ := hhalts.unique (hp ts)
  refine ⟨[], rfl, by simp, hpoints _, ?_⟩
  rintro t more rfl -
  exact .inl fun more' => hp (t :: more')

theorem Definite.pure (a : α) : Definite n (pure a) (pure a) :=
  definite_of_still (fun _ => .ok a) (fun _ => .ok rfl) fun _ _ h => by cases h

/-- A refusal that shows no token does not depend on what follows. -/
theorem Definite.refuse (loc : Location) {cause : Fault.Cause} (h : cause.named? = none) :
    Definite n (refuse loc cause : Parser α) (refuse loc cause) := by
  refine definite_of_still (fun _ => .error ⟨cause, loc⟩) (fun _ => .error rfl) ?_
  intro us f hf t ht
  injection hf with hf
  subst hf
  rw [h] at ht
  cases ht

/-- Nothing comes behind a fault. -/
theorem Definite.refuse_bind (loc : Location) {cause : Fault.Cause} (h : cause.named? = none) :
    Definite n (Parser.refuse loc cause >>= f) (Parser.refuse loc cause >>= g) :=
  Definite.refuse loc h

/-- One that shows a token stops at exactly that token. -/
theorem Definite.unexpected (what : Sought) (place : Place) :
    Definite n (unexpected what place : Parser α) (unexpected what place) := by
  refine definite_of_still (fun t => .error ⟨.expected what place t, t.loc⟩)
    (fun _ => .error rfl) ?_
  intro us f hf t ht
  injection hf with hf
  subst hf
  injection ht with ht
  subst ht
  exact ⟨rfl, rfl⟩

/-- Looking at the first token is definite. -/
theorem definite_peek : Definite n peek peek :=
  definite_of_still (fun t => .ok t) (fun _ => .ok rfl) fun _ _ h => by cases h

theorem definite_check (kind : Token.Kind) : Definite n (check kind) (check kind) :=
  definite_of_still (fun t => .ok (t.kind = kind)) (fun _ => .ok rfl) fun _ _ h => by cases h

/-- A choice between definite parsers is definite. -/
theorem Definite.ite {c : Prop} [Decidable c] {p' q' : Parser α} (hp : Definite n p q)
    (hp' : Definite n p' q') : Definite n (if c then p else p') (if c then q else q') := by
  by_cases h : c
  · rwa [if_pos h, if_pos h]
  · rwa [if_neg h, if_neg h]

end

/-! ## Tokens -/

section

variable {E : List Token → Token → Prop} {n : Nat} {p q p' q' : Parser α} {ts : List Token}

/-- Halting depends on the answer only. -/
theorem halts_congr {us rest : List Token} {o : Except Fault α} (h : p ts = p' us) :
    Halts p ts o rest ↔ Halts p' us o rest := by
  cases o with
  | ok a => rw [halts_ok_iff, halts_ok_iff, h]
  | error f => rw [halts_error_iff, halts_error_iff, h]

/-- Parsers may be replaced by those that they come down to behind the token at the front. -/
theorem SettledAt.cons {t : Token} (ht : t.kind ≠ .eof) (hp : ∀ us, p (t :: us) = p' us)
    (hq : ∀ us, q (t :: us) = q' us) (h : SettledAt (fun ys => E (t :: ys)) (n - 1) p' q' ts) :
    SettledAt E n p q (t :: ts) := by
  intro o rest hhalts
  obtain ⟨xs, hxs⟩ := h ((halts_congr (hp ts)).mp hhalts)
  refine ⟨t :: xs, ?_, ?_, hxs.points, ?_⟩
  · rw [hxs.split, List.cons_append]
  · rw [List.forall_mem_cons]
    exact ⟨ht, hxs.passed⟩
  · intro u more hrest hlength
    rw [List.length_cons] at hlength
    rcases hxs.same u more hrest (by omega) with hsame | hexception
    · exact .inl fun more' => (halts_congr (hq _)).mpr (hsame more')
    · exact .inr hexception

/-- Parsers may be replaced by those that they come down to for the token at the front. -/
theorem SettledAt.congr (hp : ∀ us, front us = front ts → p us = p' us)
    (hq : ∀ us, front us = front ts → q us = q' us) (h : SettledAt E n p' q' ts) :
    SettledAt E n p q ts := by
  intro o rest hhalts
  obtain ⟨xs, hxs⟩ := h ((halts_congr (hp ts rfl)).mp hhalts)
  refine ⟨xs, hxs.split, hxs.passed, hxs.points, ?_⟩
  intro t more hrest hlength
  rcases hxs.same t more hrest hlength with hsame | hexception
  · left
    intro more'
    -- the run did not pass the token in front of which it stopped
    have hfront : front (xs ++ t :: more') = front ts := by
      rw [hxs.split, hrest]
      cases xs with
      | nil => rfl
      | cons x xs => rfl
    exact (halts_congr (hq _ hfront)).mpr (hsame more')
  · exact .inr hexception

/-- Taking a token is definite, also at the end, where nothing is taken. -/
theorem definite_advance : Definite n advance advance := by
  intro E ts
  by_cases hfront : (front ts).kind = .eof
  · -- the end of the source stays
    have hstay : ∀ us, front us = front ts → advance us = (pure () : Parser Unit) us := by
      intro us hus
      rw [← hus] at hfront
      cases us with
      | nil => rfl
      | cons u us =>
        rw [front_cons] at hfront
        rw [advance, behind, if_pos hfront, pure_apply]
    exact (Definite.pure () E ts).congr hstay hstay
  · obtain ⟨t, mid, rfl⟩ := exists_cons_of_front hfront
    have hmove : ∀ us, advance (t :: us) = (pure () : Parser Unit) us := advance_cons hfront
    exact (Definite.pure () _ mid).cons hfront hmove hmove

/-- Taking a token of a kind if it is there is definite. -/
theorem definite_accept {kind : Token.Kind} (hkind : kind ≠ .eof) :
    Definite n (accept kind) (accept kind) := by
  intro E ts
  by_cases hfront : (front ts).kind = kind
  · obtain ⟨t, mid, rfl⟩ := exists_cons_of_front (hfront ▸ hkind)
    have hmove : ∀ us, accept kind (t :: us) = (pure true : Parser Bool) us :=
      accept_cons hkind hfront
    exact (Definite.pure true _ mid).cons (hfront ▸ hkind) hmove hmove
  · have hstay : ∀ us, front us = front ts → accept kind us = (pure false : Parser Bool) us :=
      fun us hus => accept_other (hus ▸ hfront)
    exact (Definite.pure false E ts).congr hstay hstay

theorem definite_symbol (m : Symbol) (place : Place) :
    Definite n (symbol m place) (symbol m place) :=
  (definite_accept (by simp)).bind fun _ => .ite (.pure ()) (.unexpected _ _)

theorem definite_keyword (k : Keyword) (place : Place) :
    Definite n (keyword k place) (keyword k place) :=
  (definite_accept (by simp)).bind fun _ => .ite (.pure ()) (.unexpected _ _)

theorem definite_identifier : Definite n identifier identifier := by
  refine definite_peek.bind fun t => ?_
  split
  · exact definite_advance.bind fun _ => .pure _
  · exact .unexpected _ _

/-! Of a parser that is followed by another one it counts which tokens it took. -/

/-- A parser that looks first can be followed with the token it sees. -/
theorem SettledAt.peek {f g : Token → Parser β}
    (h : SettledAt E n (f (front ts)) (g (front ts)) ts) :
    SettledAt E n (peek >>= f) (peek >>= g) ts := by
  refine (definite_peek E ts).bind (fun _ _ => id) ?_
  intro t xs mid ht hxs
  injection ht with ht hmid
  subst ht hmid
  obtain rfl : xs = [] := List.append_left_eq_self.mp hxs.symm
  exact h

/-- One that takes a token goes on in a row that is shorter by one; this is where the bound on the
length goes down. -/
theorem SettledAt.advance {f g : Unit → Parser β} (hfront : (front ts).kind ≠ .eof)
    (h : ∀ t mid, ts = t :: mid → SettledAt (fun ys => E (t :: ys)) (n - 1) (f ()) (g ()) mid) :
    SettledAt E n (advance >>= f) (advance >>= g) ts := by
  obtain ⟨t, mid, rfl⟩ := exists_cons_of_front hfront
  exact (h t mid rfl).cons hfront (fun us => advance_bind hfront us f)
    fun us => advance_bind hfront us g

/-- The same behind a mark: if the mark is not there, the parser stops at the token in its place. -/
theorem SettledAt.symbol {m : Symbol} {place : Place} {f g : Unit → Parser β}
    (h : ∀ t mid, ts = t :: mid → t.kind = .symbol m →
      SettledAt (fun ys => E (t :: ys)) (n - 1) (f ()) (g ()) mid) :
    SettledAt E n (symbol m place >>= f) (symbol m place >>= g) ts := by
  refine (definite_symbol m place E ts).bind (fun _ _ => id) ?_
  intro u xs mid hu hxs
  obtain ⟨t, ht, rfl⟩ := symbol_ok_iff.mp hu
  obtain rfl : [t] = xs := List.append_cancel_right hxs
  exact h t mid rfl ht

theorem SettledAt.keyword {k : Keyword} {place : Place} {f g : Unit → Parser β}
    (h : ∀ t mid, ts = t :: mid → t.kind = .keyword k →
      SettledAt (fun ys => E (t :: ys)) (n - 1) (f ()) (g ()) mid) :
    SettledAt E n (keyword k place >>= f) (keyword k place >>= g) ts := by
  refine (definite_keyword k place E ts).bind (fun _ _ => id) ?_
  intro u xs mid hu hxs
  obtain ⟨t, ht, rfl⟩ := keyword_ok_iff.mp hu
  obtain rfl : [t] = xs := List.append_cancel_right hxs
  exact h t mid rfl ht

/-- A token that is taken only if it is there gives two rows to follow. -/
theorem SettledAt.accept {kind : Token.Kind} (hkind : kind ≠ .eof) {f g : Bool → Parser β}
    (hyes : ∀ t mid, ts = t :: mid → t.kind = kind →
      SettledAt (fun ys => E (t :: ys)) (n - 1) (f true) (g true) mid)
    (hno : SettledAt E n (f false) (g false) ts) :
    SettledAt E n (accept kind >>= f) (accept kind >>= g) ts := by
  refine (definite_accept hkind E ts).bind (fun _ _ => id) ?_
  intro b xs mid hb hxs
  -- the token that was taken, or none, is known from the answer
  cases b with
  | true =>
    obtain ⟨t, ht, rfl⟩ := (accept_true_iff hkind).mp hb
    obtain rfl : [t] = xs := List.append_cancel_right hxs
    exact hyes t mid rfl ht
  | false =>
    obtain ⟨-, rfl⟩ := accept_false_iff.mp hb
    obtain rfl : xs = [] := List.append_left_eq_self.mp hxs.symm
    exact hno

/-- A parser with a rule took tokens from which the rule derives its answer. -/
theorem SettledAt.bind_sound {E' : List Token → Token → Prop} {R : Grammar.Rule α}
    {f g : α → Parser β} (hp : SettledAt E' n p q ts) (hR : Grammar.Sound p R)
    (hE : ∀ xs t, E' xs t → E xs t)
    (hf : ∀ a xs mid, ts = xs ++ mid → R xs a →
      SettledAt (fun ys => E (xs ++ ys)) (n - xs.length) (f a) (g a) mid) :
    SettledAt E n (p >>= f) (q >>= g) ts := by
  refine hp.bind hE ?_
  intro a xs mid ha hxs
  obtain ⟨ys, hys, hderived⟩ := hR ha
  obtain rfl : xs = ys := List.append_cancel_right (hxs.symm.trans hys)
  exact hf a xs mid hxs hderived

theorem definite_integer : Definite n integer integer := by
  refine definite_peek.bind fun t => ?_
  split
  · exact definite_advance.bind fun _ => .pure _
  · exact .unexpected _ _

theorem definite_name : Definite n name name := by
  refine definite_peek.bind fun t => ?_
  split
  · exact definite_advance.bind fun _ => .pure _
  · exact definite_advance.bind fun _ => .pure _
  · exact .unexpected _ _

end

/-! ## Loops -/

section

variable {E : List Token → Token → Prop} {n : Nat}

/-- Parsers that are bounded by the number of tokens that are left. -/
theorem settledAt_sized {p q : Parser α} {w v : Nat → Parser α}
    (hp : ∀ ts, p ts = w ts.length ts) (hq : ∀ ts, q ts = v ts.length ts)
    (h : ∀ k l ts, SettledAt E (min n (min k l)) (w k) (v l) ts) (ts : List Token) :
    SettledAt E n p q ts := by
  intro o rest hhalts
  have hrun := (halts_congr (hp ts)).mp hhalts
  obtain ⟨xs, hxs⟩ := h ts.length 0 ts hrun
  refine ⟨xs, hxs.split, hxs.passed, hxs.points, ?_⟩
  intro t more hrest hlength
  by_cases hexception : (∃ f, o = .error f) ∧ E xs t
  · exact .inr hexception
  left
  intro more'
  -- the bound differs with what comes behind, but always exceeds what is taken
  obtain ⟨ys, hys⟩ := h ts.length (xs ++ t :: more').length ts hrun
  obtain rfl : ys = xs := List.append_cancel_right (hys.split.symm.trans hxs.split)
  have hbound : ys.length < min n (min ts.length (ys ++ t :: more').length) := by
    have hts : ts.length = ys.length + (more.length + 1) := by
      rw [hys.split, hrest, List.length_append, List.length_cons]
    rw [List.length_append, List.length_cons]
    omega
  rcases hys.same t more hrest hbound with hsame | hother
  · exact (halts_congr (hq _)).mpr (hsame more')
  · exact absurd hother hexception

/-- A loop whose rounds take tokens as a rule says. The exception of a round is carried over to
the loop by the rounds in front of it. -/
theorem settledAt_many {R : Grammar.Rule α} {E' : List Token → Token → Prop}
    {p q : Parser (Option α)} (hp : ∀ ts, SettledAt E' n p q ts)
    (hround : ∀ ⦃ts a xs mid⦄, p ts = .ok (some a) mid → ts = xs ++ mid → xs ≠ [] ∧ R xs a)
    (hE : ∀ xs as ys t, Grammar.Repeated R xs as → E' ys t → E (xs ++ ys) t) (ts : List Token) :
    SettledAt E n (many p) (many q) ts := by
  refine settledAt_sized (fun _ => rfl) (fun _ => rfl) (fun k l => ?_) ts
  -- induction on the rounds of the one loop; the exception is stated behind those already done
  induction k generalizing l E with
  | zero =>
    intro ts
    rw [Nat.zero_min, Nat.min_zero]
    exact (Definite.pure [] E ts (n := 0)).zero _
  | succ k ih =>
    have hstep : ∀ l ts, SettledAt E (min n (min (k + 1) (l + 1)))
        (manyUpTo p (k + 1)) (manyUpTo q (l + 1)) ts := by
      intro l ts
      rw [manyUpTo, manyUpTo]
      refine ((hp ts).mono (by omega) fun _ _ => id).bind (fun ys t => hE [] [] ys t .nil) ?_
      intro a? xs mid ha? hxs
      cases a? with
      | none => exact Definite.pure [] _ mid
      | some a =>
        obtain ⟨hne, hR⟩ := hround ha? hxs
        have hpos := List.length_pos_iff.mpr hne
        have hrest := ih (E := fun ys => E (xs ++ ys)) (fun ys as zs t hys hzs => by
          rw [← List.append_assoc]
          exact hE _ _ _ _ (.cons hR hys) hzs) l mid
        exact (hrest.mono (by omega) fun _ _ => id).bind (fun _ _ => id)
          fun as _ last _ _ => Definite.pure (a :: as) _ last
    intro ts
    cases l with
    | zero =>
      rw [Nat.min_zero, Nat.min_zero]
      exact (hstep k ts).zero _
    | succ l => exact hstep l ts

/-- With the token `t` at the front, a round that goes on takes tokens. -/
def ReadsFrom (t : Token) (p : Parser (Option α)) : Prop :=
  ∀ ⦃ts a rest⦄, front ts = t → p ts = .ok (some a) rest → rest.length < ts.length

/-- The rounds of a loop that go on take tokens. -/
def Reads (p : Parser (Option α)) : Prop := ∀ t, ReadsFrom t p

/-- A round that ends a repetition need not read. -/
theorem ReadsFrom.pure_none (t : Token) : ReadsFrom t (pure none : Parser (Option α)) := by
  intro ts a rest _ hts
  injection hts with hnone
  cases hnone

/-- A round that takes a token has read something. -/
theorem ReadsFrom.advance {t : Token} (ht : t.kind ≠ .eof) {p q : Parser (Option α)}
    (hp : Definite n p q) : ReadsFrom t (advance >>= fun _ => p) := by
  rintro ts a rest rfl hts
  obtain ⟨t, mid, rfl⟩ := exists_cons_of_front ht
  rw [front_cons] at ht
  rw [advance_bind ht] at hts
  exact Nat.lt_succ_of_le (hp.length_le hts)

/-- Whether a round reads may depend on the token in front. -/
theorem Reads.peek {f : Token → Parser (Option α)} (h : ∀ t, ReadsFrom t (f t)) :
    Reads (peek >>= f) := by
  rintro _ ts a rest rfl hts
  rw [peek_bind] at hts
  exact h _ rfl hts

/-- A repetition of definite rounds that read is definite, by induction on the length of the row. -/
theorem Definite.many {p q : Parser (Option α)} (hp : Definite n p q) (hreads : Reads p) :
    Definite n (many p) (many q) := by
  intro E ts
  refine settledAt_many (R := fun _ _ => True) (hp fun _ _ => False) ?_ ?_ ts
  · rintro ts a xs mid ha rfl
    have hlt := hreads _ rfl ha
    rw [List.length_append] at hlt
    exact ⟨List.length_pos_iff.mp (by omega), trivial⟩
  · exact fun _ _ _ _ _ => False.elim

theorem Definite.fold {step step' : β → Parser (Option β)} (hstep : ∀ b, Definite n (step b) (step' b))
    (hreads : ∀ b, Reads (step b)) (b : β) : Definite n (fold step b) (fold step' b) := by
  intro E ts
  -- both loops are bounded, and the bounds need not be the same
  refine settledAt_sized (w := fun k => foldUpTo step k b) (v := fun l => foldUpTo step' l b)
    (fun _ => rfl) (fun _ => rfl) (fun k l => ?_) ts
  induction k generalizing l b E with
  | zero =>
    intro ts
    rw [Nat.zero_min, Nat.min_zero]
    exact (Definite.pure b E ts (n := 0)).zero _
  | succ k ih =>
    have hround : ∀ l ts, SettledAt E (min n (min (k + 1) (l + 1)))
        (foldUpTo step (k + 1) b) (foldUpTo step' (l + 1) b) ts := by
      intro l ts
      rw [foldUpTo, foldUpTo]
      refine (((hstep b).mono (by omega)) E ts).bind (fun _ _ => id) ?_
      intro b? xs mid hb? hxs
      cases b? with
      | none => exact Definite.pure b _ mid
      | some b' =>
        -- a round that goes on has taken a token, so less is asked of the rounds behind it
        have hlt := hreads b _ rfl hb?
        rw [hxs, List.length_append] at hlt
        exact (ih b' _ l mid).mono (by omega) fun _ _ => id
    intro ts
    cases l with
    | zero =>
      rw [Nat.min_zero, Nat.min_zero]
      exact (hround k ts).zero _
    | succ l => exact hround l ts

/-- A round of a list takes its comma first. -/
theorem reads_commaRound {item item' : Parser α} (h : Definite n item item') :
    Reads (Grammar.commaRound item) := by
  intro _ ts a rest _ hts
  rcases (accept_bind_ok_iff (by simp)).mp hts with ⟨t, mid, -, rfl, hnext⟩ | ⟨-, hnext⟩
  · obtain ⟨c, last, hitem, hlast⟩ := bind_ok_iff.mp hnext
    injection hlast with _ hrest
    subst hrest
    exact Nat.lt_succ_of_le (h.length_le hitem)
  · injection hnext with hnone
    cases hnone

/-- A list of definite items with commas between them is definite. -/
theorem Definite.commaList {item item' : Parser α} (h : Definite n item item') :
    Definite n (commaList item) (commaList item') := by
  have hround : Definite n (Grammar.commaRound item) (Grammar.commaRound item') :=
    (definite_accept (by simp)).bind fun _ => .ite (h.bind fun _ => .pure _) (.pure _)
  exact h.bind fun _ => (hround.many (reads_commaRound h)).bind fun _ => .pure _

end

end Parser

namespace Grammar

open Plic.Parser

variable {n : Nat}

/-! ## Expressions -/

/-- The name of a file is checked at its own token. -/
theorem definite_fileName : Definite n fileName fileName := by
  refine definite_peek.bind fun t => ?_
  split
  · exact .ite (definite_advance.bind fun _ => .pure _) (.refuse _ rfl)
  · exact .unexpected _ _

/-- A row of operators of one tier is definite if its operands are. -/
theorem definite_tier (tier : Tier) {operand operand' : Parser Expr}
    (h : Definite n operand operand') :
    Definite n (Grammar.tier (operatorOf tier) operand) (Grammar.tier (operatorOf tier) operand') := by
  have hround : Definite n (tierRound tier operand) (tierRound tier operand') := by
    refine definite_peek.bind fun t => ?_
    cases operatorOf tier t.kind with
    | none => exact .pure _
    | some op => exact definite_advance.bind fun _ => h.bind fun _ => .pure _
  -- the rounds take their operator, so they end
  have hreads : Reads (tierRound tier operand) := by
    refine .peek fun t => ?_
    cases hop : operatorOf tier t.kind with
    | none => exact .pure_none t
    | some op =>
      obtain ⟨m, hm, -⟩ := (operatorOf_eq_some_iff _ _ _).mp hop
      exact .advance (by simp [hm]) (h.bind fun _ => .pure _)
  exact h.bind fun _ => (hround.many hreads).bind fun _ => .pure _

theorem definite_signed {operand operand' : Parser Expr} (h : Definite n operand operand') :
    Definite n (signed operand) (signed operand') := by
  have hround : Definite n signRound signRound := by
    refine definite_peek.bind fun t => ?_
    split
    · exact definite_advance.bind fun _ => .pure _
    · exact definite_advance.bind fun _ => .pure _
    · exact .pure _
  -- each round that goes on reads a sign
  have hreads : Reads signRound := by
    intro _ ts a rest _ hts
    obtain ⟨xs, rfl, hsigned⟩ := sound_signRound hts
    cases hsigned with
    | minus _ => simp
    | plus _ => simp
  exact (hround.many hreads).bind fun _ => h.bind fun _ => .pure _

section

variable {nested nested' : Parser Expr}

/-- An inner expression stands behind the name and the parenthesis. -/
theorem definite_referenceOf (h : Definite n nested nested') :
    Definite (n + 1) (referenceOf nested) (referenceOf nested') := by
  refine definite_peek.bind fun t => definite_identifier.bind fun name => ?_
  intro E ts
  refine SettledAt.accept (by simp) (fun o mid _ _ => ?_) (Definite.pure _ E ts)
  exact (h.commaList.bind fun _ => (definite_symbol _ _).bind fun _ => .pure _) _ mid

/-- A call reads its keyword, so what is nested in it is asked for shorter rows only. -/
theorem definite_callOf (h : Definite n nested nested') (function : Builtin) {ts : List Token}
    (hfront : (front ts).kind ≠ .eof) (E : List Token → Token → Prop) :
    SettledAt E (n + 1) (callOf nested function) (callOf nested' function) ts := by
  refine .peek (.advance hfront fun t mid _ => ?_)
  refine ((definite_symbol _ _).bind fun _ => h.commaList.bind fun args =>
    (definite_symbol _ _).bind fun _ => ?_) _ mid
  exact .ite (.pure _) (.refuse _ rfl)

/-- The test for the end of a file is definite. -/
theorem definite_endfile : Definite n endfile endfile :=
  definite_peek.bind fun _ => definite_advance.bind fun _ => (definite_symbol _ _).bind fun _ =>
    definite_fileName.bind fun _ => (definite_symbol _ _).bind fun _ => .pure _

/-- A primary expression is definite for one token more than what is nested in it. -/
theorem definite_primary (h : Definite n nested nested') :
    Definite (n + 1) (primary nested) (primary nested') := by
  intro E ts
  refine .peek ?_
  -- what is nested is entered behind a token in every case where it is entered
  split
  case h_1 => exact (definite_advance.bind fun _ => .pure _) E ts
  case h_2 => exact (definite_advance.bind fun _ => .pure _) E ts
  case h_3 => exact ((definite_referenceOf h).bind fun _ => .pure _) E ts
  case h_4 hk =>
    refine .advance (by simp [hk]) fun o mid _ => ?_
    exact (h.bind fun _ => (definite_symbol .rparen .parenthesis).bind fun _ => .pure _) _ mid
  case h_5 => exact definite_endfile E ts
  case h_6 word _ hk =>
    cases builtinOf word with
    | none => exact Definite.unexpected _ _ E ts
    | some function => exact definite_callOf h function (by simp [hk]) E
  case h_7 => exact Definite.unexpected _ _ E ts

end

/-- Two bounds on the depth of nesting answer alike on every row that both have room for. -/
theorem definite_exprWithin (k l : Nat) : Definite (min k l) (exprWithin k) (exprWithin l) := by
  induction k generalizing l with
  | zero =>
    intro E ts
    rw [Nat.zero_min]
    exact (Definite.unexpected .expression .unspecified E ts (n := 0)).zero _
  | succ k ih =>
    -- from primary expressions up through all tiers
    have hstep : ∀ l, Definite (min (k + 1) (l + 1)) (exprWithin (k + 1)) (exprWithin (l + 1)) := by
      intro l
      have hprimary : Definite (min (k + 1) (l + 1)) _ _ :=
        (definite_primary (ih l)).mono (by omega)
      have hproduct := definite_tier .product (definite_signed hprimary)
      exact definite_tier .concat (definite_tier .sum hproduct)
    intro E ts
    cases l with
    | zero => exact (hstep k E ts).zero _
    | succ l => exact hstep l E ts

/-- Expressions are settled by the tokens up to the one where they end or fail. -/
theorem definite_expr : Definite n expr expr :=
  fun E ts => settledAt_sized (fun _ => rfl) (fun _ => rfl)
    (fun k l => (definite_exprWithin k l).mono (Nat.min_le_right _ _) E) ts

theorem definite_reference : Definite n reference reference :=
  (definite_referenceOf definite_expr).mono (Nat.le_succ n)

/-! ## Conditions -/

theorem definite_comparison : Definite n comparison comparison := by
  refine definite_peek.bind fun _ => definite_expr.bind fun _ => definite_peek.bind fun t => ?_
  split
  · exact definite_advance.bind fun _ => definite_expr.bind fun _ => .pure _
  · exact .unexpected _ _

theorem definite_enclosedComparison : Definite n enclosedComparison enclosedComparison :=
  (definite_symbol _ _).bind fun _ => definite_comparison.bind fun _ =>
    (definite_symbol _ _).bind fun _ => .pure _

variable {ts rest : List Token} {f : Fault}

/-- A sequence whose first parser stops stops there. -/
theorem bind_of_error {α β : Type} {p : Parser α} {f : α → Parser β}
    {e : Fault} (h : p ts = .error e rest) : (p >>= f) ts = .error e rest :=
  halts_error_iff.mp (halts_bind_iff.mpr (.inr ⟨e, h, rfl⟩))

/-- An expression fails with the part in parentheses that it begins with. -/
theorem expr_error_of_lparen {o : Token} (ho : o.kind = .symbol .lparen)
    (h : (do let e ← expr; symbol .rparen .parenthesis; return e : Parser Expr) ts
      = .error f rest) :
    expr (o :: ts) = .error f rest := by
  -- the inner expression is bounded by the tokens behind the parenthesis, as it is on its own
  have hprimary : primary (exprWithin ts.length) (o :: ts) = .error f rest := by
    rw [primary, peek_bind, front_cons]
    simp only [ho]
    rw [advance_bind (by simp [ho])]
    exact h
  have hsigns : many signRound (o :: ts) = .ok [] (o :: ts) := by
    rw [many, List.length_cons, manyUpTo]
    have hround : signRound (o :: ts) = .ok none (o :: ts) := by
      rw [signRound, peek_bind, front_cons]
      simp only [ho]
      rfl
    rw [bind_of_ok hround]
    rfl
  have hsigned : signed (primary (exprWithin ts.length)) (o :: ts) = .error f rest := by
    rw [signed_eq, bind_of_ok hsigns]
    exact bind_of_error hprimary
  exact bind_of_error (bind_of_error (bind_of_error hsigned))

/-- An operand is an expression. -/
theorem Expression.of_primary {xs : List Token} {e : Expr} (h : Expression .primary xs e) :
    Expression .concat xs e :=
  .operand (by decide) (.operand (by decide) (.operand (by decide) (.operand (by decide) h)))

/-- A comparison stops where its first operand does. -/
theorem comparison_error (h : expr ts = .error f rest) : comparison ts = .error f rest := by
  rw [comparison, peek_bind]
  exact bind_of_error h

/-- A token that is not the symbol asked for is named where it stands. -/
theorem symbol_of_other {m : Symbol} {place : Place} (h : (front ts).kind ≠ .symbol m) :
    symbol m place ts =
      .error ⟨.expected (.symbol m) place (front ts), (front ts).loc⟩ ts := by
  rw [symbol, bind_of_ok (accept_other h)]
  rfl

/-- A token that stands in a row before `behind` begins is one of those in front of `behind`. -/
theorem concat_prefix_of_length_lt {xs zs more behind : List Token} {t : Token}
    (h : xs ++ t :: more = zs ++ behind) (hlength : behind.length < (t :: more).length) :
    xs ++ [t] <+: zs := by
  have hprefix : xs ++ [t] <+: zs ++ behind := ⟨more, by rw [← h, List.append_assoc]; rfl⟩
  refine List.prefix_of_prefix_length_le hprefix (List.prefix_append _ _) ?_
  have hlen := congrArg List.length h
  simp only [List.length_cons, List.length_append, List.length_nil] at hlen hlength ⊢
  omega

/-- If the attempt on a comparison in parentheses looks further than the one without, it passes a
relation behind the first inner expression, and the one without fails there. -/
theorem exists_relation_of_further {o : Token} (ho : o.kind = .symbol .lparen)
    {further : List Token} {out : Except Fault Condition}
    (henclosed : enclosedComparison (o :: ts) = .error f further)
    (hbare : Halts comparison (o :: ts) out rest) (hlength : further.length < rest.length) :
    ∃ zs e t m op, ts = zs ++ rest ∧ Expression .concat zs e ∧ front rest = t ∧
      t.kind = .symbol m ∧ Relates m op ∧ ∃ f, out = .error f := by
  rw [enclosedComparison, symbol_bind ho] at henclosed
  cases hexpr : expr ts with
  | error f' stop =>
    -- both attempts fail with the inner expression
    have hinner : comparison ts = .error f' stop := comparison_error hexpr
    rw [bind_of_error hinner] at henclosed
    injection henclosed with _ hfurther
    have houter : comparison (o :: ts) = .error f' stop :=
      comparison_error (expr_error_of_lparen ho (bind_of_error hexpr))
    obtain ⟨-, hrest⟩ := hbare.unique (.error houter)
    rw [hrest, hfurther] at hlength
    omega
  | ok e mid =>
    obtain ⟨zs, rfl, hzs⟩ := sound_expr hexpr
    cases hop : relationOf (front mid).kind with
    | some op =>
      obtain ⟨m, hm, hrelates⟩ := (relationOf_eq_some_iff _ _).mp hop
      have hnot : (front mid).kind ≠ .symbol .rparen := by
        rw [hm]
        intro heq
        injection heq with heq
        subst heq
        cases hrelates
      have houter : comparison (o :: (zs ++ mid)) = _ :=
        comparison_error (expr_error_of_lparen ho
          (by rw [bind_of_ok hexpr]; exact bind_of_error (symbol_of_other hnot)))
      obtain ⟨hout, hrest⟩ := hbare.unique (.error houter)
      subst hrest
      exact ⟨zs, e, _, m, op, rfl, hzs, rfl, hm, hrelates, _, hout⟩
    | none =>
      have hinner : comparison (zs ++ mid) =
          .error ⟨.expected .relation .unspecified (front mid), (front mid).loc⟩ mid := by
        rw [comparison, peek_bind, bind_of_ok hexpr, peek_bind]
        simp only [hop]
        rfl
      rw [bind_of_error hinner] at henclosed
      injection henclosed with _ hfurther
      subst hfurther
      -- the other attempt stops inside the parentheses, although they could be closed and a
      -- relation put behind them
      obtain ⟨xs, hxs, hsame⟩ := Definite.exists_stop (fun _ => definite_comparison) hbare
      obtain ⟨t, more, rfl⟩ := List.exists_cons_of_length_pos (l := rest) (by omega)
      obtain ⟨ws, hws⟩ : xs ++ [t] <+: o :: zs := concat_prefix_of_length_lt hxs.symm hlength
      have hcompared : Compared (o :: (zs ++ [.bare (.symbol .rparen)]) ++
          .bare (.symbol .eq) :: [.bare (.number 0)]) ⟨e, .eq, .number 0 .nowhere, o.loc⟩ :=
        .intro (.of_primary (.enclosed ho hzs rfl)) rfl .eq (.of_primary (.number rfl))
      have hread := complete_comparison _ (Nat.le_refl _) hcompared
        (ends_of_symbol (t := .bare (.symbol .semicolon)) rfl rfl [])
      have hstop := hsame t more rfl (ws ++ [.bare (.symbol .rparen), .bare (.symbol .eq),
        .bare (.number 0), .bare (.symbol .semicolon)])
      have hlist : ∀ ks, xs ++ t :: (ws ++ ks) = o :: zs ++ ks := by
        intro ks
        rw [← hws]
        simp
      rw [hlist] at hstop
      simp only [List.cons_append, List.append_assoc, List.nil_append] at hread hstop
      obtain ⟨-, hrest⟩ := hstop.unique (.ok hread)
      simp at hrest

/-- A condition in parentheses is tried first. -/
theorem condition_of_enclosed {c : Condition}
    (h : enclosedComparison ts = .ok c rest) : condition ts = .ok c rest := by
  rw [condition, h]

/-- If that fails the comparison is read from the start again. -/
theorem condition_of_error
    (h : enclosedComparison ts = .error f rest) : condition ts = comparison ts := by
  rw [condition, h]

/-- A condition is settled, except for a relation behind an expression that follows its first
parenthesis: there the attempt that decides fails, and the other one may go on. -/
theorem settledAt_condition {E : List Token → Token → Prop}
    (hE : ∀ o zs e t m op, o.kind = .symbol .lparen → Expression .concat zs e →
      t.kind = .symbol m → Relates m op → E (o :: zs) t) (ts : List Token) :
    SettledAt E n condition condition ts := by
  intro out rest hhalts
  cases henclosed : enclosedComparison ts with
  | ok c stop =>
    obtain ⟨rfl, rfl⟩ := hhalts.unique (.ok (condition_of_enclosed henclosed))
    obtain ⟨xs, hxs⟩ := definite_enclosedComparison (n := n) E ts (.ok henclosed)
    refine ⟨xs, hxs.split, hxs.passed, hxs.points, ?_⟩
    intro t more hrest hlength
    rcases hxs.same t more hrest hlength with hsame | ⟨⟨f, hf⟩, -⟩
    · left
      intro more'
      exact .ok (condition_of_enclosed (halts_ok_iff.mp (hsame more')))
    · cases hf
  | error f further =>
    have hbare := (halts_congr (condition_of_error henclosed)).mp hhalts
    obtain ⟨xs, hxs⟩ := definite_comparison (n := n) E ts hbare
    refine ⟨xs, hxs.split, hxs.passed, hxs.points, ?_⟩
    intro t more hrest hlength
    obtain ⟨ys, hys, hfails⟩ :=
      Definite.exists_stop (fun _ => definite_enclosedComparison) (.error henclosed)
    by_cases hfurther : further.length < rest.length
    · -- the attempt in parentheses got further, so it began with a parenthesis
      right
      have hfront : (front ts).kind = .symbol .lparen := by
        by_contra hother
        rw [enclosedComparison, bind_of_error (symbol_of_other hother)] at henclosed
        injection henclosed with _ hstop
        have hlen := congrArg List.length hxs.split
        rw [hstop, List.length_append] at hlen
        omega
      have hne : (front ts).kind ≠ .eof := by simp [hfront]
      obtain ⟨o, us, rfl⟩ := exists_cons_of_front hne
      obtain ⟨zs, e, u, m, op, hzs, hexpr, hu, hm, hrelates, hfault⟩ :=
        exists_relation_of_further hfront henclosed hbare hfurther
      obtain rfl : xs = o :: zs := by
        have hsplit := hxs.split
        rw [hzs, ← List.cons_append] at hsplit
        exact (List.append_cancel_right hsplit).symm
      rw [hrest, front_cons] at hu
      subst hu
      exact ⟨hfault, hE o zs e t m op hfront hexpr hm hrelates⟩
    · -- it failed at a token that the other attempt has looked at too
      rcases hxs.same t more hrest hlength with hsame | hexception
      · left
        intro more'
        obtain ⟨u, us, rfl⟩ := List.exists_cons_of_length_pos (l := further)
          (by rw [hrest] at hfurther; simp at hfurther; omega)
        obtain ⟨ws, hws⟩ : ys ++ [u] <+: xs ++ [t] := by
          have hboth : ys ++ u :: us = xs ++ [t] ++ more := by
            rw [← hys, hxs.split, hrest, List.append_assoc]
            rfl
          rw [hrest] at hfurther
          exact concat_prefix_of_length_lt hboth (by simp at hfurther ⊢; omega)
        have hagain := hfails u us rfl (ws ++ more')
        have hlist : ys ++ u :: (ws ++ more') = xs ++ t :: more' := by
          calc ys ++ u :: (ws ++ more') = ys ++ [u] ++ ws ++ more' := by simp
            _ = xs ++ t :: more' := by rw [hws]; simp
        rw [hlist] at hagain
        exact (halts_congr (condition_of_error (halts_error_iff.mp hagain))).mpr (hsame more')
      · exact .inr hexception

/-! ## Declarations -/

/-- The extents of an array are definite. -/
theorem definite_extents? : Definite n extents? extents? := by
  refine (definite_check _).bind fun _ => .ite ?_ (.pure _)
  exact (definite_symbol _ _).bind fun _ => definite_integer.commaList.bind fun _ =>
    (definite_symbol _ _).bind fun _ => .pure _

/-- A level of declared items is definite for one token more than what is nested in it. -/
theorem definite_itemsOf {nested nested' : Parser (List Item)} (h : Definite n nested nested') :
    Definite (n + 1) (itemsOf nested) (itemsOf nested') := by
  intro E ts
  refine .accept (by simp) (fun o mid _ _ => ?_) ?_
  · exact (h.commaList.bind fun _ => (definite_symbol _ _).bind fun _ =>
      definite_extents?.bind fun _ => .pure _) _ mid
  · exact (definite_peek.bind fun _ => definite_identifier.bind fun _ =>
      definite_extents?.bind fun _ => .pure _) E ts

/-- Two bounds on the depth of items answer alike where both have room. -/
theorem definite_itemsWithin (k l : Nat) : Definite (min k l) (itemsWithin k) (itemsWithin l) := by
  induction k generalizing l with
  | zero =>
    intro E ts
    rw [Nat.zero_min]
    exact (Definite.unexpected .identifier .unspecified E ts (n := 0)).zero _
  | succ k ih =>
    have hstep : ∀ l, Definite (min (k + 1) (l + 1)) (itemsWithin (k + 1)) (itemsWithin (l + 1)) :=
      fun l => (definite_itemsOf (ih l)).mono (by omega)
    intro E ts
    cases l with
    -- with no depth left on one side there is nothing to compare
    | zero => exact (hstep k E ts).zero _
    | succ l => exact hstep l E ts

theorem definite_items : Definite n items items :=
  fun E ts => settledAt_sized (fun _ => rfl) (fun _ => rfl)
    (fun k l => (definite_itemsWithin k l).mono (Nat.min_le_right _ _) E) ts

theorem definite_precision : Definite n precision precision := by
  have hscale : Definite n scale? scale? :=
    (definite_accept (by simp)).bind fun _ =>
      .ite (definite_integer.bind fun _ => .pure _) (.pure _)
  refine definite_peek.bind fun _ => (definite_symbol _ _).bind fun _ =>
    definite_integer.bind fun digits => hscale.bind fun scale => (definite_symbol _ _).bind fun _ =>
      .ite ?_ (.refuse_bind _ rfl)
  cases scale with
  | none => exact .pure _
  | some q => exact .ite (.pure _) (.refuse_bind _ rfl)

theorem definite_characterLength (loc : Location) :
    Definite n (characterLength loc) (characterLength loc) := by
  have hwritten : Definite n writtenLength writtenLength :=
    (definite_accept (by simp)).bind fun _ =>
      .ite (definite_integer.bind fun _ => (definite_symbol _ _).bind fun _ => .pure _) (.pure _)
  exact hwritten.bind fun _ => .ite (.pure _) (.refuse_bind _ rfl)

/-- An attribute is definite, whatever was collected before it. -/
theorem definite_attribute? (a : Attributes) : Definite n (attribute? a) (attribute? a) := by
  refine definite_peek.bind fun t => ?_
  split
  case h_6 =>
    exact definite_advance.bind fun _ => (definite_characterLength _).bind fun _ => .pure _
  case h_7 => exact .pure _
  all_goals exact definite_advance.bind fun _ => .pure _

/-- An attribute that is found has been read. -/
theorem reads_attribute? (a : Attributes) : Reads (attribute? a) := by
  refine .peek fun t => ?_
  split
  case h_6 hk =>
    exact .advance (n := 0) (by simp [hk]) ((definite_characterLength _).bind fun _ => .pure _)
  case h_7 => exact .pure_none t
  all_goals exact .advance (n := 0) (by simp [*]) (.pure _)

/-- The precision behind the attributes is definite. -/
theorem definite_attributePrecision (a : Attributes) :
    Definite n (attributePrecision a) (attributePrecision a) := by
  refine definite_peek.bind fun t => .ite ?_ (.pure _)
  exact .ite (.refuse_bind _ rfl) (definite_precision.bind fun _ => .pure _)

/-- What happens with an attribute once it has been read: a repeated one is refused at its own
token. -/
def collected (a : Attributes) (t : Token) (b : Attributes) (repeated : Bool) :
    Parser (Option Attributes) := do
  let spelling := Text.lower t.lexeme
  if repeated then refuse t.loc (.repeatedAttribute spelling)
  return some (← attributePrecision { b with spellings := a.spellings ++ [spelling] })

/-- A round of attributes in two parts, the reading and what is made of it. -/
theorem nextAttribute_eq (a : Attributes) :
    nextAttribute a = (do
      let t ← peek
      match ← attribute? a with
      | none => return none
      | some (b, repeated) => collected a t b repeated) := rfl

/-- What is made of an attribute reads nothing more. -/
theorem definite_collected (a : Attributes) (t : Token) (b : Attributes) (repeated : Bool) :
    Definite n (collected a t b repeated) (collected a t b repeated) :=
  .ite (.refuse_bind _ rfl) ((definite_attributePrecision _).bind fun _ => .pure _)

theorem definite_attributes : Definite n attributes attributes := by
  have hnext : ∀ a, Definite n (nextAttribute a) (nextAttribute a) := by
    intro a
    rw [nextAttribute_eq]
    refine definite_peek.bind fun t => (definite_attribute? a).bind fun b? => ?_
    cases b? with
    | none => exact .pure _
    | some b => exact definite_collected a t b.1 b.2
  -- an attribute takes its keyword, and nothing is put back behind it
  have hreads : ∀ a, Reads (nextAttribute a) := by
    intro a _ ts c rest _ hts
    rw [nextAttribute_eq, peek_bind] at hts
    obtain ⟨b?, mid, hb?, hnext⟩ := bind_ok_iff.mp hts
    cases b? with
    | none =>
      injection hnext with hnone
      cases hnone
    | some b =>
      have hlt := reads_attribute? a _ rfl hb?
      have hle := (definite_collected (n := 0) a (front ts) b.1 b.2).length_le hnext
      omega
  exact (Definite.fold hnext hreads .none).bind fun _ => .ite (.unexpected _ _) (.pure _)

/-- A declaration behind its keyword. -/
def declarationRest (loc : Location) : Parser Declaration := do
  let names ← commaList items
  let a ← attributes
  match a.resolve with
  | .error cause => refuse loc cause
  | .ok type =>
    symbol .semicolon .declaration
    return ⟨names.flatten, type, loc⟩

/-- A declaration is its keyword and the rest. -/
theorem declaration_eq :
    declaration = (do
      let t ← peek
      keyword .DCL .unspecified
      declarationRest t.loc) := rfl

/-- Attributes that cannot be combined are refused without naming a token. -/
theorem named?_of_resolve {a : Attributes} {cause : Fault.Cause} (h : a.resolve = .error cause) :
    cause.named? = none := by
  rw [Attributes.resolve] at h
  split at h
  · cases h
  · split at h
    · injection h with h
      subst h
      rfl
    · cases h
  · cases h
  · injection h with h
    subst h
    rfl

/-- The rest of a declaration is definite. -/
theorem definite_declarationRest (loc : Location) :
    Definite n (declarationRest loc) (declarationRest loc) := by
  refine definite_items.commaList.bind fun names => definite_attributes.bind fun a => ?_
  split
  · rename_i cause hcause
    exact .refuse loc (named?_of_resolve hcause)
  · exact (definite_symbol _ _).bind fun _ => .pure _

/-- Declarations are settled by the tokens up to the one where they end or fail. -/
theorem definite_declarations : Definite n declarations declarations := by
  have hround : Definite n
      (do if ← check (.keyword .DCL) then return some (← declaration) else return none)
      (do if ← check (.keyword .DCL) then return some (← declaration) else return none) := by
    rw [declaration_eq]
    refine (definite_check _).bind fun _ => .ite ?_ (.pure _)
    exact (definite_peek.bind fun t => (definite_keyword _ _).bind fun _ =>
      definite_declarationRest t.loc).bind fun _ => .pure _
  refine hround.many ?_
  -- a round that goes on has taken the keyword of a declaration
  intro _ ts d rest _ hts
  obtain ⟨b, mid, hb, hnext⟩ := bind_ok_iff.mp hts
  injection hb with hb hmid
  subst hmid
  cases b with
  | false =>
    injection hnext with hnone
    cases hnone
  | true =>
    obtain ⟨d', last, hdeclaration, hlast⟩ := bind_ok_iff.mp hnext
    injection hlast with _ hrest
    subst hrest
    rw [declaration_eq, peek_bind, keyword_bind_ok_iff] at hdeclaration
    obtain ⟨t, mid, -, rfl, hdeclared⟩ := hdeclaration
    exact Nat.lt_succ_of_le ((definite_declarationRest (n := 0) _).length_le hdeclared)

end Grammar

end Plic
