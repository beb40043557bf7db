import Plic.Proofs.Grammar.Stops

/-!
# The steps of a parser

Loops and nested parsers are bounded by the number of tokens that are left, and
asking for a token behind the last one has an answer. Here a run is said without
either. In a walk, whoever looks at the token under the cursor needs one there. A
loop is a round with the loop behind it, and a nested parser is entered again each
time it is met, with no bound on either. A walk is finite, so what asks for a token
that is not there has no walk, and what goes on for ever has none.

`Follows` ties a parser to the walks of another, which differs from it in its
bounds. One lemma for each way of putting parsers together carries it from the
parts to the whole, along with what a successful run takes off the row.

Main results:

* `Follows.many`, `Follows.fold` — a loop whose rounds take tokens ends before
  its bound does.
* `Follows.bind`, `Follows.after` — runs in a row; behind a token that was taken
  the bound is smaller.
-/

namespace Plic

namespace Grammar

/-- An expression whose inner expressions are read by `nested`. -/
def exprOf (nested : Parser Expr) : Parser Expr :=
  tier concatOperator <| tier sumOperator <| tier productOperator <| signed <| primary nested

end Grammar

namespace Parser

open Grammar

variable {α β : Type}

/-! ## Walks -/

/-- The parsers that look at the token under the cursor. Every other one is put
together from these. -/
inductive Looks : {α : Type} → Parser α → Prop where
  | peek : Looks peek
  | check (kind : Token.Kind) : Looks (check kind)
  | advance : Looks advance
  | accept (kind : Token.Kind) : Looks (accept kind)
  | unexpected {α : Type} (what : Sought) (place : Place) :
      Looks (unexpected what place : Parser α)
  | atGroup : Looks atGroup

/-- A run step by step: how it ends, and which tokens it leaves. -/
inductive Walks : {α : Type} → Parser α → List Token → Except Fault α → List Token → Prop where
  | pure {α : Type} (a : α) (ts : List Token) : Walks (pure a) ts (.ok a) ts
  | refuse {α : Type} (loc : Location) (cause : Fault.Cause) (ts : List Token) :
      Walks (refuse loc cause : Parser α) ts (.error ⟨cause, loc⟩) ts
  /-- The cursor is on a token of the row. -/
  | look {α : Type} {p : Parser α} {t : Token} {ts rest : List Token} {o : Except Fault α} :
      Looks p → Halts p (t :: ts) o rest → Walks p (t :: ts) o rest
  | bind {α β : Type} {p : Parser α} {f : α → Parser β} {ts mid rest : List Token} {a : α}
      {o : Except Fault β} :
      Walks p ts (.ok a) mid → Walks (f a) mid o rest → Walks (p >>= f) ts o rest
  | fail {α β : Type} {p : Parser α} {f : α → Parser β} {ts rest : List Token} {e : Fault} :
      Walks p ts (.error e) rest → Walks (p >>= f) ts (.error e) rest
  | many {α : Type} {p : Parser (Option α)} {ts rest : List Token} {o : Except Fault (List α)} :
      Walks (do match ← p with | none => return [] | some a => return a :: (← many p)) ts o rest →
      Walks (many p) ts o rest
  | fold {β : Type} {step : β → Parser (Option β)} {b : β} {ts rest : List Token}
      {o : Except Fault β} :
      Walks (do match ← step b with | none => return b | some b' => fold step b') ts o rest →
      Walks (fold step b) ts o rest
  | expr {ts rest : List Token} {o : Except Fault Expr} :
      Walks (exprOf expr) ts o rest → Walks expr ts o rest
  | items {ts rest : List Token} {o : Except Fault (List Item)} :
      Walks (itemsOf items) ts o rest → Walks items ts o rest
  | group {ts rest : List Token} {o : Except Fault (List Stmt)} :
      Walks (groupOf group) ts o rest → Walks group ts o rest
  | enclosed {ts rest : List Token} {c : Condition} :
      Walks enclosedComparison ts (.ok c) rest → Walks condition ts (.ok c) rest
  /-- The cursor goes back to where the attempt began. -/
  | bare {ts mid rest : List Token} {e : Fault} {o : Except Fault Condition} :
      Walks enclosedComparison ts (.error e) mid → Walks comparison ts o rest →
      Walks condition ts o rest

/-! ## Rows -/

/-- Tokens with the end of the source behind them and nowhere else. -/
inductive Row : List Token → Prop where
  | last {eof : Token} : eof.kind = .eof → Row [eof]
  | cons {t : Token} {ts : List Token} : t.kind ≠ .eof → Row ts → Row (t :: ts)

section

variable {ts : List Token}

theorem Row.exists_cons (h : Row ts) : ∃ t us, ts = t :: us := by
  cases h with
  | last _ => exact ⟨_, _, rfl⟩
  | cons _ _ => exact ⟨_, _, rfl⟩

/-- What is behind the front of a row is a row again; at its end the cursor stays. -/
theorem Row.behind (h : Row ts) : Row (behind ts) ∧ behind ts <:+ ts := by
  cases h with
  | @last eof heof =>
    have hstays : Parser.behind [eof] = [eof] := by simp [Parser.behind, heof]
    rw [hstays]
    exact ⟨.last heof, List.suffix_refl _⟩
  | cons ht hts =>
    rw [behind_cons ht]
    exact ⟨hts, List.suffix_cons _ _⟩

/-- Wherever a row is cut off, what is left is a row, unless nothing is. -/
theorem Row.of_append {xs : List Token} (h : Row (xs ++ ts)) (hne : ts ≠ []) : Row ts := by
  induction xs with
  | nil => exact h
  | cons x xs ih =>
    rw [List.cons_append] at h
    generalize hus : xs ++ ts = us at h
    cases h with
    | last _ => exact absurd (List.append_eq_nil_iff.mp hus).2 hne
    | cons _ h => exact ih (hus ▸ h)

/-- Tokens with an end behind them are a row. -/
theorem row_append {eof : Token} (heof : eof.kind = .eof) (hts : ∀ t ∈ ts, t.kind ≠ .eof) :
    Row (ts ++ [eof]) := by
  induction ts with
  | nil => exact .last heof
  | cons t ts ih =>
    rw [List.forall_mem_cons] at hts
    exact .cons hts.1 (ih hts.2)

end

/-! ## Where a walk ends -/

section

variable {p : Parser α} {ts rest : List Token} {o : Except Fault α}

/-- What looks at the token under the cursor leaves the cursor there or goes one token on. -/
theorem Looks.rest_eq (h : Looks p) (hhalts : Halts p ts o rest) :
    rest = ts ∨ rest = behind ts := by
  cases h with
  | peek | check _ | atGroup => exact .inl (hhalts.unique (.ok rfl)).2
  | unexpected _ _ => exact .inl (hhalts.unique (.error rfl)).2
  | advance => exact .inr (hhalts.unique (.ok rfl)).2
  | accept kind =>
    by_cases hfront : (front ts).kind = kind
    · exact .inr (hhalts.unique (.ok (if_pos hfront))).2
    · exact .inl (hhalts.unique (.ok (if_neg hfront))).2

/-- The cursor ends on a token, no earlier than where it began. It may have gone back to the start
of an attempt, and no further. -/
theorem Walks.row (h : Walks p ts o rest) (hrow : Row ts) : Row rest ∧ rest <:+ ts := by
  induction h with
  | pure _ _ => exact ⟨hrow, List.suffix_refl _⟩
  | refuse _ _ _ => exact ⟨hrow, List.suffix_refl _⟩
  -- a look at the first token leaves it, or takes it and leaves the row behind it
  | look hlooks hhalts =>
    rcases hlooks.rest_eq hhalts with rfl | rfl
    · exact ⟨hrow, List.suffix_refl _⟩
    · exact hrow.behind
  | bind _ _ ih ih' =>
    obtain ⟨hmid, hsuffix⟩ := ih hrow
    obtain ⟨hrest, hsuffix'⟩ := ih' hmid
    exact ⟨hrest, hsuffix'.trans hsuffix⟩
  | fail _ ih => exact ih hrow
  | many _ ih => exact ih hrow
  | fold _ ih => exact ih hrow
  | expr _ ih => exact ih hrow
  | items _ ih => exact ih hrow
  | group _ ih => exact ih hrow
  | enclosed _ ih => exact ih hrow
  | bare _ _ _ ih => exact ih hrow

end

/-! ## Following -/

/-- How `p` ends on `ts` is where a walk of `q` ends, with fewer tokens left if it answers a value
in `S`. -/
def FollowsAt (S : α → Prop) (q p : Parser α) (ts : List Token) : Prop :=
  ∀ ⦃o rest⦄, Halts p ts o rest →
    Walks q ts o rest ∧ ∀ a, o = .ok a → S a → rest.length < ts.length

/-- The same for all rows of at most `n` tokens. -/
def Follows (S : α → Prop) (n : Nat) (q p : Parser α) : Prop :=
  ∀ ⦃ts⦄, Row ts → ts.length ≤ n → FollowsAt S q p ts

/-- The same for all rows of at most `n` tokens that begin with `t`. -/
def FollowsFrom (S : α → Prop) (n : Nat) (t : Token) (q p : Parser α) : Prop :=
  ∀ ⦃us⦄, Row (t :: us) → us.length < n → FollowsAt S q p (t :: us)

section

variable {S : α → Prop} {T : β → Prop} {n m : Nat} {q p : Parser α} {g f : α → Parser β}
  {ts : List Token} {t : Token}

/-- Fewer values may be asked to take a token. -/
theorem FollowsAt.weaken {S' : α → Prop} (h : FollowsAt S q p ts) (hS : ∀ a, S' a → S a) :
    FollowsAt S' q p ts := by
  intro o rest hhalts
  obtain ⟨hwalk, hlt⟩ := h hhalts
  exact ⟨hwalk, fun a ha hS' => hlt a ha (hS a hS')⟩

theorem FollowsAt.congr {p' : Parser α} (h : FollowsAt S q p' ts) (hp : p ts = p' ts) :
    FollowsAt S q p ts :=
  fun _ _ hhalts => h ((halts_congr hp).mp hhalts)

/-- A parser with more walks is followed as well. -/
theorem FollowsAt.imp {q' : Parser α} (h : FollowsAt S q' p ts)
    (hwalks : ∀ o rest, Walks q' ts o rest → Walks q ts o rest) : FollowsAt S q p ts := by
  intro o rest hhalts
  obtain ⟨hwalk, hlt⟩ := h hhalts
  exact ⟨hwalks _ _ hwalk, hlt⟩

/-- What follows up to some length follows up to every smaller one. -/
theorem Follows.mono (h : Follows S m q p) (hm : n ≤ m) : Follows S n q p :=
  fun _ hrow hle => h hrow (Nat.le_trans hle hm)

/-- Runs in a row. The second counts what the first has left; values of the second in `T` are
answered by runs that take a token, in its first part or in the second. -/
theorem FollowsAt.bind (h : FollowsAt S q p ts) (hrow : Row ts)
    (hf : ∀ ⦃a mid⦄, Row mid → mid.length ≤ ts.length → (S a → mid.length < ts.length) →
      FollowsAt (fun b => T b ∧ ¬S a) (g a) (f a) mid) :
    FollowsAt T (q >>= g) (p >>= f) ts := by
  intro o rest hhalts
  rcases halts_bind_iff.mp hhalts with ⟨a, mid, ha, hnext⟩ | ⟨e, he, rfl⟩
  · obtain ⟨hwalk, hlt⟩ := h (.ok ha)
    obtain ⟨hmid, hsuffix⟩ := hwalk.row hrow
    obtain ⟨hwalk', hlt'⟩ := hf hmid hsuffix.length_le (hlt a rfl) hnext
    refine ⟨.bind hwalk hwalk', fun b hb hT => ?_⟩
    -- either of the two steps has read a token; the other one gives none back
    by_cases hS : S a
    · exact Nat.lt_of_le_of_lt (hwalk'.row hmid).2.length_le (hlt a rfl hS)
    · exact Nat.lt_of_lt_of_le (hlt' b hb ⟨hT, hS⟩) hsuffix.length_le
  · refine ⟨.fail (h (.error he)).1, fun b hb => ?_⟩
    cases hb

/-- Behind a value in `S` a token was taken: the row is shorter, and the rest need not take any. -/
theorem Follows.bind_of_le (h : Follows S n q p) (hm : n ≤ m + 1)
    (hS : ∀ a, S a → Follows ⊥ m (g a) (f a)) (hnot : ∀ a, ¬S a → Follows T n (g a) (f a)) :
    Follows T n (q >>= g) (p >>= f) := by
  intro ts hrow hle
  refine (h hrow hle).bind hrow fun a mid hmid hle' hlt => ?_
  by_cases ha : S a
  · have hlt := hlt ha
    exact (hS a ha hmid (by omega)).weaken fun _ hT => absurd ha hT.2
  · exact (hnot a ha hmid (by omega)).weaken fun _ => And.left

/-- Runs in a row, where the first need not take a token. -/
theorem Follows.bind (h : Follows ⊥ n q p) (hf : ∀ a, Follows T n (g a) (f a)) :
    Follows T n (q >>= g) (p >>= f) :=
  h.bind_of_le (Nat.le_succ n) (fun _ => False.elim) fun a _ => hf a

/-- Behind a run that took a token the bound may be smaller by one. -/
theorem Follows.after_of_le (h : Follows ⊤ n q p) (hm : n ≤ m + 1)
    (hf : ∀ a, Follows ⊥ m (g a) (f a)) : Follows T n (q >>= g) (p >>= f) :=
  h.bind_of_le hm (fun a _ => hf a) fun _ ha => absurd trivial ha

theorem Follows.after (h : Follows ⊤ n q p) (hf : ∀ a, Follows ⊥ n (g a) (f a)) :
    Follows T n (q >>= g) (p >>= f) :=
  h.after_of_le (Nat.le_succ n) hf

/-- A part that always fails. -/
theorem Follows.fail (h : Follows ⊥ n q p) (hp : ∀ ts, ∃ e rest, p ts = .error e rest) :
    Follows T n (q >>= g) (p >>= f) := by
  intro ts hrow hle o rest hhalts
  rcases halts_bind_iff.mp hhalts with ⟨a, mid, ha, -⟩ | ⟨e, he, rfl⟩
  · obtain ⟨e, rest, he⟩ := hp ts
    cases ha.symm.trans he
  · refine ⟨.fail (h hrow hle (.error he)).1, fun b hb => ?_⟩
    cases hb

/-! ## Single tokens -/

/-- A value takes nothing, so it must be one that need not. -/
theorem follows_pure {a : α} (h : ¬S a) : Follows S n (pure a) (pure a) := by
  intro ts _ _ o rest hhalts
  obtain ⟨rfl, rfl⟩ := hhalts.unique (.ok rfl)
  refine ⟨.pure a _, fun b hb hS => ?_⟩
  injection hb with hb
  exact absurd (hb ▸ hS) h

/-- Nothing is asked of a value at the end. -/
theorem follows_done (a : α) : Follows ⊥ n (pure a) (pure a) := follows_pure id

theorem follows_refuse (loc : Location) (cause : Fault.Cause) :
    Follows S n (refuse loc cause : Parser α) (refuse loc cause) := by
  intro ts _ _ o rest hhalts
  obtain ⟨rfl, rfl⟩ := hhalts.unique (.error rfl)
  refine ⟨.refuse loc cause _, fun b hb => ?_⟩
  cases hb

/-- Looking needs a token under the cursor, and on a row there is one. -/
theorem follows_look (h : Looks p) : Follows ⊥ n p p := by
  intro ts hrow _ o rest hhalts
  obtain ⟨t, us, rfl⟩ := hrow.exists_cons
  exact ⟨.look h hhalts, fun _ _ => False.elim⟩

/-- A token that is found in the wrong place is under the cursor. -/
theorem follows_unexpected (what : Sought) (place : Place) :
    Follows S n (unexpected what place : Parser α) (unexpected what place) := by
  intro ts hrow hle o rest hhalts
  refine ⟨(follows_look (.unexpected what place) hrow hle hhalts).1, fun a ha => ?_⟩
  cases ha.symm.trans (hhalts.unique (.error rfl)).1

theorem follows_refuse_bind (loc : Location) (cause : Fault.Cause) :
    Follows T n (refuse loc cause >>= g) (refuse loc cause >>= f) :=
  (follows_refuse loc cause).fail fun _ => ⟨_, _, rfl⟩

theorem follows_unexpected_bind (what : Sought) (place : Place) :
    Follows T n (unexpected what place >>= g) (unexpected what place >>= f) :=
  (follows_unexpected what place).fail fun _ => ⟨_, _, rfl⟩

theorem Follows.ite {c : Prop} [Decidable c] {q' p' : Parser α} (h : Follows S n q p)
    (h' : Follows S n q' p') : Follows S n (if c then q else q') (if c then p else p') := by
  by_cases hc : c
  · rwa [if_pos hc, if_pos hc]
  · rwa [if_neg hc, if_neg hc]

theorem Follows.from (h : Follows S n q p) (t : Token) : FollowsFrom S n t q p :=
  fun _ hrow hlt => h hrow hlt

/-- A parser that looks first is followed for each token that it may see. -/
theorem Follows.peek {g f : Token → Parser β} (h : ∀ t, FollowsFrom T n t (g t) (f t)) :
    Follows T n (peek >>= g) (peek >>= f) := by
  intro ts hrow hle o rest hhalts
  obtain ⟨t, us, rfl⟩ := hrow.exists_cons
  obtain ⟨hwalk, hlt⟩ := h t hrow hle ((halts_congr (peek_bind f _)).mp hhalts)
  exact ⟨.bind (.look .peek (.ok rfl)) hwalk, hlt⟩

/-- The token at the front is known to be none that ends the source, so it is taken. -/
theorem FollowsFrom.advance_of_le {g f : Unit → Parser β} (ht : t.kind ≠ .eof) (hm : n ≤ m + 1)
    (h : Follows ⊥ m (g ()) (f ())) : FollowsFrom T n t (advance >>= g) (advance >>= f) := by
  intro us hrow hlt
  have htaken : FollowsAt ⊤ Parser.advance Parser.advance (t :: us) := by
    intro o rest hhalts
    refine ⟨.look .advance hhalts, fun _ _ _ => ?_⟩
    obtain ⟨-, rfl⟩ := hhalts.unique (.ok (advance_cons ht us))
    exact Nat.lt_succ_self _
  refine htaken.bind hrow fun _ mid hmid _ hlt' => ?_
  have hmid_lt := hlt' trivial
  rw [List.length_cons] at hmid_lt
  exact (h hmid (by omega)).weaken fun _ hT => absurd trivial hT.2

/-- Stepping over a token that is not the end takes it. -/
theorem FollowsFrom.advance {g f : Unit → Parser β} (ht : t.kind ≠ .eof)
    (h : Follows ⊥ n (g ()) (f ())) :
    FollowsFrom T n t (Parser.advance >>= g) (Parser.advance >>= f) :=
  .advance_of_le ht (Nat.le_succ n) h

/-- If a token is taken only where it is there, the bound is smaller on that way alone. -/
theorem Follows.accept_of_le {kind : Token.Kind} {g f : Bool → Parser β} (hkind : kind ≠ .eof)
    (hm : n ≤ m + 1) (h : Follows ⊥ m (g true) (f true)) (h' : Follows T n (g false) (f false)) :
    Follows T n (accept kind >>= g) (accept kind >>= f) := by
  have htaken : Follows (· = true) n (Parser.accept kind) (Parser.accept kind) := by
    intro ts hrow hle o rest hhalts
    refine ⟨(follows_look (.accept kind) hrow hle hhalts).1, ?_⟩
    rintro b rfl rfl
    obtain ⟨t, -, rfl⟩ := (accept_true_iff hkind).mp (halts_ok_iff.mp hhalts)
    exact Nat.lt_succ_self _
  refine htaken.bind_of_le hm (fun b hb => ?_) fun b hb => ?_
  · rwa [hb]
  · rwa [Bool.not_eq_true _ |>.mp hb]

theorem Follows.accept {kind : Token.Kind} {g f : Bool → Parser β} (hkind : kind ≠ .eof)
    (h : Follows ⊥ n (g true) (f true)) (h' : Follows T n (g false) (f false)) :
    Follows T n (Parser.accept kind >>= g) (Parser.accept kind >>= f) :=
  .accept_of_le hkind (Nat.le_succ n) h h'

/-- A mark that is asked for is taken or refused. -/
theorem follows_symbol {S : Unit → Prop} (mark : Symbol) (place : Place) :
    Follows S n (symbol mark place) (symbol mark place) :=
  .accept (by simp) (follows_done ()) (follows_unexpected _ _)

theorem follows_keyword {S : Unit → Prop} (word : Keyword) (place : Place) :
    Follows S n (keyword word place) (keyword word place) :=
  .accept (by simp) (follows_done ()) (follows_unexpected _ _)

theorem follows_identifier : Follows ⊤ n identifier identifier := by
  refine .peek fun t => ?_
  split
  · rename_i hk
    exact .advance (by simp [hk]) (follows_done _)
  · exact (follows_unexpected _ _).from t

theorem follows_name : Follows ⊤ n name name := by
  refine .peek fun t => ?_
  split
  · rename_i hk
    exact .advance (by simp [hk]) (follows_done _)
  · rename_i hk
    exact .advance (by simp [hk]) (follows_done _)
  · exact (follows_unexpected _ _).from t

theorem follows_integer : Follows ⊤ n integer integer := by
  refine .peek fun t => ?_
  split
  · rename_i hk
    exact .advance (by simp [hk]) (follows_done _)
  · exact (follows_unexpected _ _).from t

end

/-! ## Loops -/

section

variable {n : Nat}

/-- Every round that goes on takes a token, and the bound of a loop is the number of tokens: the
round that stops comes before the bound. -/
theorem Follows.many {q p : Parser (Option α)} (h : Follows (fun a? => a?.isSome) n q p) :
    Follows ⊥ n (many q) (many p) := by
  -- the bound of the repetition is never met: each round that goes on takes a token
  have hupTo : ∀ k ts, Row ts → ts.length ≤ k → ts.length ≤ n →
      FollowsAt ⊥ (Parser.many q) (manyUpTo p k) ts := by
    intro k
    induction k with
    | zero =>
      intro ts hrow hle
      -- a row ends in its own token, so it is never empty
      obtain ⟨t, us, rfl⟩ := hrow.exists_cons
      exact absurd hle (by simp)
    | succ k ih =>
      intro ts hrow hk hn
      refine FollowsAt.imp ?_ fun o rest => Walks.many
      refine (h hrow hn).bind hrow fun a? mid hmid hle hlt => ?_
      cases a? with
      | none => exact (follows_done [] hmid hle).weaken fun _ => And.left
      | some a =>
        have hlt := hlt rfl
        refine FollowsAt.weaken ?_ fun _ => And.left
        exact (ih mid hmid (by omega) (by omega)).bind hmid fun as last hlast hle' _ =>
          (follows_done (a :: as) hlast hle').weaken fun _ => And.left
  exact fun ts hrow hle => (hupTo ts.length ts hrow (Nat.le_refl _) hle).congr rfl

theorem Follows.fold {step' step : β → Parser (Option β)}
    (h : ∀ b, Follows (fun b? => b?.isSome) n (step' b) (step b)) (b : β) :
    Follows ⊥ n (fold step' b) (fold step b) := by
  have hupTo : ∀ k ts b, Row ts → ts.length ≤ k → ts.length ≤ n →
      FollowsAt ⊥ (Parser.fold step' b) (foldUpTo step k b) ts := by
    intro k
    induction k with
    | zero =>
      intro ts b hrow hle
      obtain ⟨t, us, rfl⟩ := hrow.exists_cons
      exact absurd hle (by simp)
    | succ k ih =>
      intro ts b hrow hk hn
      refine FollowsAt.imp ?_ fun o rest => Walks.fold
      refine (h b hrow hn).bind hrow fun b? mid hmid hle hlt => ?_
      cases b? with
      | none => exact (follows_done b hmid hle).weaken fun _ => And.left
      | some b' =>
        -- the token that was taken pays for the round
        have hlt := hlt rfl
        exact (ih mid b' hmid (by omega) (by omega)).weaken fun _ => And.left
  exact fun ts hrow hle => (hupTo ts.length ts b hrow (Nat.le_refl _) hle).congr rfl

/-- A list takes its first item, and each round takes a comma. -/
theorem Follows.commaList {q p : Parser α} (h : Follows ⊤ n q p) :
    Follows ⊤ n (commaList q) (commaList p) := by
  have hround : Follows (fun a? => a?.isSome) n (commaRound q) (commaRound p) :=
    .accept (by simp) (h.after fun _ => follows_done _) (follows_pure (by simp))
  exact h.after fun _ => hround.many.bind fun _ => follows_done _

end

end Parser

end Plic
