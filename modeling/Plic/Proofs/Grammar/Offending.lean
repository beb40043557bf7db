import Plic.Proofs.Grammar.Stops

/-!
# The token that a syntax error names

A fault of the parser that names a token names the one where the reading
stopped. Up to that token the program could have gone on otherwise; with it, no
program begins. This is so because the tokens up to there settle the run: were
there a program that begins with them, the parser would fail on it too.

There is one exception. Behind the parenthesis that opens a condition comes an
expression and then a relation. If the condition turns out to be malformed later
on, the parser starts over as if the parenthesis belonged to the expression, and
then it names the relation, which was good where it stands.

Main results:

* `settledAt_group`, `settledAt_program` — the runs of the parser are settled,
  but for the relations in open parentheses.
* `offending_token` — no program begins with the tokens up to the named one,
  except in front of such relations, and there some program does.
-/

namespace Plic.Grammar

open Plic.Parser

variable {α β : Type}

/-! ## Relations in open parentheses -/

/-- The tokens lead up to a condition: with any condition behind them they go on to a stretch that
the rule derives. -/
def AwaitsTest (R : Rule α) (us : List Token) : Prop :=
  ∃ more, ∀ zs c, Tested zs c → ∃ a, R (us ++ zs ++ more) a

/-- Tokens and the one behind them: a condition is opened by a parenthesis, an expression follows,
and then comes a relation. -/
inductive OpenRelation (R : Rule α) : List Token → Token → Prop where
  | intro {us xs : List Token} {o t : Token} {e : Expr} {m : Symbol} {op : Relation} :
      AwaitsTest R us → o.kind = .symbol .lparen → Expression .concat xs e →
      t.kind = .symbol m → Relates m op → OpenRelation R (us ++ o :: xs) t

/-- What leads up to a condition in a part does so in the whole. -/
theorem OpenRelation.within {R : Rule α} {S : Rule β} {C : List Token → List Token}
    (hC : ∀ us vs, C (us ++ vs) = C us ++ vs)
    (hawaits : ∀ us, AwaitsTest R us → AwaitsTest S (C us)) {ys : List Token} {t : Token}
    (h : OpenRelation R ys t) : OpenRelation S (C ys) t := by
  cases h with
  | intro hus ho hxs ht hrelates =>
    rw [hC]
    exact .intro (hawaits _ hus) ho hxs ht hrelates

theorem awaitsTest_of {R : Rule α} {us : List Token} (more : List Token)
    (h : ∀ zs c, Tested zs c → ∃ xs a, R xs a ∧ xs = us ++ zs ++ more) : AwaitsTest R us := by
  refine ⟨more, fun zs c hzs => ?_⟩
  obtain ⟨xs, a, hxs, rfl⟩ := h zs c hzs
  exact ⟨a, hxs⟩

/-! ## Where conditions stand

One lemma for each place in a statement where a condition or a group stands. What is missing behind
the place is filled up with the shortest statement and with `END;`. -/

/-- `PUT SKIP;`. -/
def filler : List Token :=
  [.bare (.keyword .PUT), .bare (.keyword .SKIP), .bare (.symbol .semicolon)]

theorem group_filler : Group filler [.put [] .nowhere] :=
  .single (.put rfl (.skip rfl) rfl)

/-- `END;`. -/
def closer : List Token := [.bare (.keyword .END), .bare (.symbol .semicolon)]

theorem closer_kinds : closer.map Token.kind = [.keyword .END, .symbol .semicolon] := rfl

namespace AwaitsTest

variable {us : List Token}

/-- A condition in a statement stands in the group that the statement is. -/
theorem single (h : AwaitsTest Statement us) : AwaitsTest Group us := by
  obtain ⟨more, hmore⟩ := h
  refine awaitsTest_of more fun zs c hzs => ?_
  obtain ⟨s, hs⟩ := hmore zs c hzs
  exact ⟨_, _, .single hs, rfl⟩

/-- A row of groups the last of which leads up to a condition. -/
theorem body {xs : List Token} {bodies : List (List Stmt)} (hxs : Repeated Group xs bodies)
    (h : AwaitsTest Group us) : AwaitsTest Body (xs ++ us) := by
  obtain ⟨more, hmore⟩ := h
  refine awaitsTest_of more fun zs c hzs => ?_
  obtain ⟨ss, hss⟩ := hmore zs c hzs
  exact ⟨_, _, ⟨_, hxs.snoc hss, rfl⟩, by simp⟩

/-- One in a body stands in the group around the body. -/
theorem block {d s : Token} (hd : d.kind = .keyword .DO) (hs : s.kind = .symbol .semicolon)
    (h : AwaitsTest Body us) : AwaitsTest Group (d :: s :: us) := by
  obtain ⟨more, hmore⟩ := h
  refine awaitsTest_of (more ++ closer) fun zs c hzs => ?_
  obtain ⟨ss, bodies, hbodies, -⟩ := hmore zs c hzs
  have hhead : [d, s].map Token.kind = [.keyword .DO, .symbol .semicolon] := by simp [hd, hs]
  exact ⟨_, _, .block hhead hbodies closer_kinds, by simp⟩

section

variable {i th el : Token} {xs ys : List Token} {c : Condition} {yes : List Stmt}
  (hi : i.kind = .keyword .IF)
include hi

theorem ifHead : AwaitsTest Statement [i] := by
  refine awaitsTest_of (.bare (.keyword .THEN) :: filler ++ .bare (.keyword .ELSE) :: filler)
    fun zs c hzs => ?_
  exact ⟨_, _, .ifElse hi hzs (t := .bare (.keyword .THEN)) rfl group_filler
    (e := .bare (.keyword .ELSE)) rfl group_filler, by simp⟩

/-- A condition in the first branch of `IF`. -/
theorem ifYes (hxs : Tested xs c) (hth : th.kind = .keyword .THEN) (h : AwaitsTest Group us) :
    AwaitsTest Statement (i :: (xs ++ th :: us)) := by
  obtain ⟨more, hmore⟩ := h
  refine awaitsTest_of (more ++ .bare (.keyword .ELSE) :: filler) fun zs c' hzs => ?_
  obtain ⟨yes, hyes⟩ := hmore zs c' hzs
  exact ⟨_, _, .ifElse hi hxs hth hyes (e := .bare (.keyword .ELSE)) rfl group_filler, by simp⟩

theorem ifNo (hxs : Tested xs c) (hth : th.kind = .keyword .THEN) (hys : Group ys yes)
    (hel : el.kind = .keyword .ELSE) (h : AwaitsTest Group us) :
    AwaitsTest Statement (i :: (xs ++ th :: (ys ++ el :: us))) := by
  obtain ⟨more, hmore⟩ := h
  refine awaitsTest_of more fun zs c' hzs => ?_
  obtain ⟨no, hno⟩ := hmore zs c' hzs
  exact ⟨_, _, .ifElse hi hxs hth hys hel hno, by simp⟩

end

section

variable {d w o p q : Token} {xs : List Token} {c : Condition} (hd : d.kind = .keyword .DO)
include hd

theorem whileHead (hw : w.kind = .keyword .WHILE) (ho : o.kind = .symbol .lparen) :
    AwaitsTest Statement [d, w, o] := by
  let ms : List Token := [.bare (.symbol .rparen), .bare (.symbol .semicolon)]
  refine awaitsTest_of (ms ++ closer) fun zs c hzs => ?_
  have hhead : [w, o].map Token.kind = [.keyword .WHILE, .symbol .lparen] := by simp [hw, ho]
  have hms : ms.map Token.kind = [.symbol .rparen, .symbol .semicolon] := rfl
  exact ⟨_, _, .doWhile hd hhead hzs hms .nil closer_kinds, by simp⟩

/-- A condition in the body of such a loop. -/
theorem whileBody (hw : w.kind = .keyword .WHILE) (ho : o.kind = .symbol .lparen)
    (hxs : Tested xs c) (hp : p.kind = .symbol .rparen) (hq : q.kind = .symbol .semicolon)
    (h : AwaitsTest Body us) : AwaitsTest Statement (d :: w :: o :: (xs ++ p :: q :: us)) := by
  obtain ⟨more, hmore⟩ := h
  refine awaitsTest_of (more ++ closer) fun zs c' hzs => ?_
  obtain ⟨ss, bodies, hbodies, -⟩ := hmore zs c' hzs
  have hhead : [w, o].map Token.kind = [.keyword .WHILE, .symbol .lparen] := by simp [hw, ho]
  have hmid : [p, q].map Token.kind = [.symbol .rparen, .symbol .semicolon] := by simp [hp, hq]
  exact ⟨_, _, .doWhile hd hhead hxs hmid hbodies closer_kinds, by simp⟩

/-- A condition in the body of a loop that counts. -/
theorem loopBody {t : Token} {vs ys ks : List Token} {v : Reference} {start limit : Expr}
    {step : Option Expr} (hvs : Referenced vs v) (hq : q.kind = .symbol .eq)
    (hxs : Expression .concat xs start) (ht : t.kind = .keyword .TO)
    (hys : Expression .concat ys limit) (hks : Stepped ks step)
    (hp : p.kind = .symbol .semicolon) (h : AwaitsTest Body us) :
    AwaitsTest Statement (d :: (vs ++ q :: (xs ++ t :: (ys ++ (ks ++ p :: us))))) := by
  obtain ⟨more, hmore⟩ := h
  refine awaitsTest_of (more ++ closer) fun zs c' hzs => ?_
  obtain ⟨ss, bodies, hbodies, -⟩ := hmore zs c' hzs
  exact ⟨_, _, .doLoop hd hvs hq hxs ht hys hks hp hbodies closer_kinds, by simp⟩

end

/-- A condition in the body of a `WHEN`. -/
theorem whenBody {w o p : Token} {xs : List Token} {values : List Expr}
    (hw : w.kind = .keyword .WHEN) (ho : o.kind = .symbol .lparen)
    (hxs : Separated (Expression .concat) xs values) (hp : p.kind = .symbol .rparen)
    (h : AwaitsTest Group us) : AwaitsTest When (w :: o :: (xs ++ p :: us)) := by
  obtain ⟨more, hmore⟩ := h
  refine awaitsTest_of more fun zs c hzs => ?_
  obtain ⟨body, hbody⟩ := hmore zs c hzs
  exact ⟨_, _, .intro hw ho hxs hp hbody, by simp⟩

/-- A condition in the body of `OTHER`. -/
theorem otherBody {t : Token} (ht : t.kind = .keyword .OTHER) (h : AwaitsTest Group us) :
    AwaitsTest Otherwise (t :: us) := by
  obtain ⟨more, hmore⟩ := h
  refine awaitsTest_of more fun zs c hzs => ?_
  obtain ⟨body, hbody⟩ := hmore zs c hzs
  exact ⟨_, _, .other ht hbody, by simp⟩

section

variable {k o p q : Token} {xs ws : List Token} {subject : Expr}
  {whens : List (List Expr × List Stmt × Location)} (hk : k.kind = .keyword .SELECT)
  (ho : o.kind = .symbol .lparen) (hxs : Expression .concat xs subject)
  (hp : p.kind = .symbol .rparen) (hq : q.kind = .symbol .semicolon)
  (hws : Repeated When ws whens)
include hk ho hxs hp hq hws

/-- A condition in one of the branches of `SELECT`; those behind it are left out. -/
theorem selectWhen (h : AwaitsTest When us) :
    AwaitsTest Statement (k :: o :: (xs ++ p :: q :: (ws ++ us))) := by
  obtain ⟨more, hmore⟩ := h
  refine awaitsTest_of (more ++ closer) fun zs c hzs => ?_
  obtain ⟨branch, hbranch⟩ := hmore zs c hzs
  have hmid : [p, q].map Token.kind = [.symbol .rparen, .symbol .semicolon] := by simp [hp, hq]
  exact ⟨_, _, .select hk ho hxs hmid (hws.snoc hbranch) (by simp) .absent closer_kinds, by simp⟩

/-- A condition in the last branch, which comes behind a `WHEN`. -/
theorem selectOther (hne : whens ≠ []) (h : AwaitsTest Otherwise us) :
    AwaitsTest Statement (k :: o :: (xs ++ p :: q :: (ws ++ us))) := by
  obtain ⟨more, hmore⟩ := h
  refine awaitsTest_of (more ++ closer) fun zs c hzs => ?_
  obtain ⟨last, hlast⟩ := hmore zs c hzs
  have hmid : [p, q].map Token.kind = [.symbol .rparen, .symbol .semicolon] := by simp [hp, hq]
  exact ⟨_, _, .select hk ho hxs hmid hws hne hlast closer_kinds, by simp⟩

end

end AwaitsTest

/-! ## Statements -/

section

variable {nested nested' : Parser (List Stmt)} {n : Nat}

/-- A fault that names the token at the front takes nothing. -/
theorem settledAt_refuse_front {E : List Token → Token → Prop} (cause : Token → Fault.Cause)
    (hcause : ∀ t, (cause t).named? = some t) (ts : List Token) :
    SettledAt E n (refuse (front ts).loc (cause (front ts)) : Parser α)
      (refuse (front ts).loc (cause (front ts))) ts := by
  -- said for the parser that looks at the front itself, this is a run that takes nothing
  have hstill : Definite n (fun us => refuse (front us).loc (cause (front us)) us : Parser α)
      (fun us => refuse (front us).loc (cause (front us)) us) := by
    refine definite_of_still (fun t => .error ⟨cause t, t.loc⟩) (fun _ => .error rfl) ?_
    intro us f hf t ht
    injection hf with hf
    subst hf
    rw [hcause] at ht
    injection ht with ht
    subst ht
    exact ⟨rfl, rfl⟩
  refine (hstill E ts).congr ?_ ?_
  · intro us hus
    rw [hus]
  · intro us hus
    rw [hus]

/-- Whether a round goes on is decided by its first token. -/
theorem settledAt_groupRound {E : List Token → Token → Prop}
    (h : ∀ ts, SettledAt E n nested nested' ts) (ts : List Token) :
    SettledAt E n (groupRound nested) (groupRound nested') ts := by
  refine .peek ?_
  split
  · exact Definite.pure _ E ts
  · exact Definite.pure _ E ts
  · exact settledAt_refuse_front .lateDeclaration (fun _ => rfl) ts
  · exact (h ts).bind (fun _ _ => id) fun _ _ mid _ _ => Definite.pure _ _ mid

/-- The groups of a body are settled one after the other, so an open relation is in the last one. -/
theorem settledAt_statementsOf (hs : Sound nested Group)
    (h : ∀ ts, SettledAt (OpenRelation Group) n nested nested' ts) (ts : List Token) :
    SettledAt (OpenRelation Body) n (statementsOf nested) (statementsOf nested') ts := by
  rw [statementsOf_eq, statementsOf_eq]
  -- what a round has read is not empty, and it is a group
  have hround : ∀ ⦃ts ss xs mid⦄, groupRound nested ts = .ok (some ss) mid → ts = xs ++ mid →
      xs ≠ [] ∧ Group xs ss := by
    intro ts ss xs mid hts hxs
    obtain ⟨ys, hys, hgroup⟩ := sound_groupRound hs hts
    obtain rfl : xs = ys := List.append_cancel_right (hxs.symm.trans hys)
    exact ⟨hgroup.ne_nil, hgroup⟩
  have hmany := settledAt_many (E := OpenRelation Body) (settledAt_groupRound h) hround
    (fun xs bodies ys t hxs => OpenRelation.within (C := (xs ++ ·))
      (fun _ _ => (List.append_assoc _ _ _).symm) fun _ hus => hus.body hxs) ts
  exact hmany.bind (fun _ _ => id) fun _ _ mid _ _ => Definite.pure _ _ mid

/-- `IF` has three places where a relation may be open. -/
theorem settledAt_ifRest (hs : Sound nested Group)
    (h : ∀ ts, SettledAt (OpenRelation Group) n nested nested' ts) {i : Token}
    (hi : i.kind = .keyword .IF) (loc : Location) (ts : List Token) :
    SettledAt (fun ys => OpenRelation Statement (i :: ys)) n (ifRest nested loc)
      (ifRest nested' loc) ts := by
  -- the condition itself, then the two branches behind `THEN` and `ELSE`
  refine (settledAt_condition (E := fun ys => OpenRelation Statement (i :: ys)) ?_ ts).bind_sound
    sound_condition (fun _ _ => id) ?_
  · intro o zs e t m op ho hzs ht hrelates
    exact OpenRelation.intro (AwaitsTest.ifHead hi) ho hzs ht hrelates
  intro c xs mid _ hxs
  refine .keyword fun th mid _ hth => ?_
  refine ((h mid).mono (by omega) fun _ _ => id).bind_sound hs ?_ ?_
  · intro ys t
    exact OpenRelation.within (C := fun us => i :: (xs ++ th :: us)) (by simp)
      fun us hus => hus.ifYes hi hxs hth
  intro yes ys mid _ hys
  refine .keyword fun el mid _ hel => ?_
  refine ((h mid).mono (by omega) fun _ _ => id).bind ?_ fun _ _ mid _ _ => Definite.pure _ _ mid
  intro zs t
  exact OpenRelation.within (C := fun us => i :: (xs ++ th :: (ys ++ el :: us))) (by simp)
    fun us hus => hus.ifNo hi hxs hth hys hel

/-- Behind the part of a compound statement that holds groups stands only its end. -/
theorem definite_closing (place : Place) (a : α) :
    Definite n (do closing place; return a) (do closing place; return a) :=
  ((definite_keyword _ _).bind fun _ => definite_symbol _ _).bind fun _ => .pure _

theorem settledAt_whileRest (hs : Sound nested Group)
    (h : ∀ ts, SettledAt (OpenRelation Group) n nested nested' ts) {d w : Token}
    (hd : d.kind = .keyword .DO) (hw : w.kind = .keyword .WHILE) (loc : Location)
    (ts : List Token) :
    SettledAt (fun ys => OpenRelation Statement (d :: w :: ys)) n (whileRest nested loc)
      (whileRest nested' loc) ts := by
  refine .symbol fun o mid _ ho => ?_
  refine (settledAt_condition (E := fun ys => OpenRelation Statement (d :: w :: o :: ys)) ?_
    mid).bind_sound sound_condition (fun _ _ => id) ?_
  · intro o' zs e t m op ho' hzs ht hrelates
    exact OpenRelation.intro (AwaitsTest.whileHead hd hw ho) ho' hzs ht hrelates
  -- behind the condition an open relation can only be in the body
  intro c xs mid _ hxs
  refine .symbol fun p mid _ hp => .symbol fun q mid _ hq => ?_
  refine ((settledAt_statementsOf hs h mid).mono (by omega) fun _ _ => id).bind ?_
    fun body _ mid _ _ => definite_closing .closingWhile (Stmt.doWhile c body loc) _ mid
  intro ys t
  exact OpenRelation.within (C := fun us => d :: w :: o :: (xs ++ p :: q :: us)) (by simp)
    fun us hus => hus.whileBody hd hw ho hxs hp hq

/-- A loop that counts has one, in its body. -/
theorem settledAt_loopRest (hs : Sound nested Group)
    (h : ∀ ts, SettledAt (OpenRelation Group) n nested nested' ts) {d : Token}
    (hd : d.kind = .keyword .DO) (loc : Location) (ts : List Token) :
    SettledAt (fun ys => OpenRelation Statement (d :: ys)) n (loopRest nested loc)
      (loopRest nested' loc) ts := by
  refine .peek ?_
  split
  · refine (definite_reference _ ts).bind_sound sound_reference (fun _ _ => id) ?_
    intro v vs mid _ hvs
    refine .symbol fun q mid _ hq => ?_
    refine (definite_expr _ mid).bind_sound sound_expr (fun _ _ => id) ?_
    intro start xs mid _ hxs
    refine .keyword fun t mid _ ht => ?_
    refine (definite_expr _ mid).bind_sound sound_expr (fun _ _ => id) ?_
    intro limit ys mid _ hys
    -- no condition stands in the head of the loop, so all of it is definite
    have hstep : Definite (n - vs.length - 1 - xs.length - 1 - ys.length) loopStep loopStep :=
      (definite_accept (by simp)).bind fun _ => .ite (definite_expr.bind fun _ => .pure _) (.pure _)
    refine (hstep _ mid).bind_sound sound_loopStep (fun _ _ => id) ?_
    intro step ks mid _ hks
    refine .symbol fun p mid _ hp => ?_
    refine ((settledAt_statementsOf hs h mid).mono (by omega) fun _ _ => id).bind ?_
      fun body _ mid _ _ => definite_closing .closingLoop (Stmt.doLoop v start limit step body loc)
        _ mid
    intro zs t'
    exact OpenRelation.within
      (C := fun us => d :: (vs ++ q :: (xs ++ t :: (ys ++ (ks ++ p :: us))))) (by simp)
      fun us hus => hus.loopBody hd hvs hq hxs ht hys hks hp
  · exact Definite.unexpected _ _ _ ts

theorem settledAt_when? (h : ∀ ts, SettledAt (OpenRelation Group) n nested nested' ts)
    (ts : List Token) : SettledAt (OpenRelation When) n (when? nested) (when? nested') ts := by
  refine .peek (.accept (by simp) (fun w mid _ hw => ?_) (Definite.pure _ _ ts))
  refine .symbol fun o mid _ ho => ?_
  refine (definite_expr.commaList _ mid).bind_sound (sound_commaList sound_expr) (fun _ _ => id) ?_
  intro values xs mid _ hxs
  refine .symbol fun p mid _ hp => ?_
  refine ((h mid).mono (by omega) fun _ _ => id).bind ?_ fun _ _ mid _ _ => Definite.pure _ _ mid
  intro ys t
  exact OpenRelation.within (C := fun us => w :: o :: (xs ++ p :: us)) (by simp)
    fun us hus => hus.whenBody hw ho hxs hp

theorem settledAt_lastBranch (h : ∀ ts, SettledAt (OpenRelation Group) n nested nested' ts)
    (ts : List Token) :
    SettledAt (OpenRelation Otherwise) n (lastBranch nested) (lastBranch nested') ts := by
  refine .accept (by simp) (fun t mid _ ht => ?_) (Definite.pure _ _ ts)
  refine ((h mid).mono (by omega) fun _ _ => id).bind ?_ fun _ _ mid _ _ => Definite.pure _ _ mid
  intro ys t'
  exact OpenRelation.within (C := (t :: ·)) (by simp) fun us hus => hus.otherBody ht

/-- A `WHEN` has tokens, so the rounds of a selection end. -/
theorem When.ne_nil {xs : List Token} {w : List Expr × List Stmt × Location} (h : When xs w) :
    xs ≠ [] := by
  cases h
  simp

/-- A selection has those of its branches. -/
theorem settledAt_selectRest (hs : Sound nested Group)
    (h : ∀ ts, SettledAt (OpenRelation Group) n nested nested' ts) {k : Token}
    (hk : k.kind = .keyword .SELECT) (loc : Location) (ts : List Token) :
    SettledAt (fun ys => OpenRelation Statement (k :: ys)) n (selectRest nested loc)
      (selectRest nested' loc) ts := by
  refine .symbol fun o mid _ ho => ?_
  refine (definite_expr _ mid).bind_sound sound_expr (fun _ _ => id) ?_
  intro subject xs mid _ hxs
  refine .symbol fun p mid _ hp => .symbol fun q mid _ hq => ?_
  -- a round that goes on has read a `WHEN`, which is not empty
  have hround : ∀ ⦃ts a ws mid⦄, when? nested ts = .ok (some a) mid → ts = ws ++ mid →
      ws ≠ [] ∧ When ws a := by
    intro ts a ws mid hts hws
    obtain ⟨ys, hys, hwhen⟩ := sound_when? hs hts
    obtain rfl : ws = ys := List.append_cancel_right (hws.symm.trans hys)
    exact ⟨hwhen.ne_nil, hwhen⟩
  have hwhens := settledAt_many
    (E := fun ys => OpenRelation Statement (k :: o :: (xs ++ p :: q :: ys)))
    (settledAt_when? h) hround (fun ws whens ys t hws => OpenRelation.within
      (C := fun us => k :: o :: (xs ++ p :: q :: (ws ++ us))) (by simp)
      fun us hus => hus.selectWhen hk ho hxs hp hq hws) mid
  refine (hwhens.mono (by omega) fun _ _ => id).bind_sound (sound_many (sound_when? hs))
    (fun _ _ => id) ?_
  intro whens ws mid _ hws
  -- that there is a branch at all is asked behind the loop
  by_cases hempty : whens.isEmpty = true
  · rw [if_pos hempty, if_pos hempty]
    exact Definite.unexpected _ _ _ mid
  rw [if_neg hempty, if_neg hempty]
  refine ((settledAt_lastBranch h mid).mono (by omega) fun _ _ => id).bind ?_ ?_
  · intro ys t
    exact OpenRelation.within (C := fun us => k :: o :: (xs ++ p :: q :: (ws ++ us))) (by simp)
      fun us hus => hus.selectOther hk ho hxs hp hq hws (by simpa using hempty)
  intro last os mid _ _
  refine .peek ?_
  -- a `WHEN` behind `OTHER` is refused at its own token
  by_cases hlate : (front mid).kind = .keyword .WHEN
  · rw [if_pos hlate]
    exact settledAt_refuse_front .whenAfterOther (fun _ => rfl) mid
  rw [if_neg hlate]
  exact definite_closing _ _ _ mid

/-! The other statements hold neither conditions nor groups. -/

/-- The statements below have no conditions in them, so there are no exceptions. -/
theorem definite_file : Definite n file file :=
  (definite_keyword _ _).bind fun _ => (definite_symbol _ _).bind fun _ =>
    definite_fileName.bind fun _ => (definite_symbol _ _).bind fun _ => .pure _

theorem definite_putRest (loc : Location) : Definite n (putRest loc) (putRest loc) := by
  have hitems : ∀ skip, Definite n (putItems skip) (putItems skip) := by
    intro skip
    refine (definite_accept (by simp)).bind fun _ => .ite ?_ (.ite (.pure _) (.unexpected _ _))
    exact (definite_symbol _ _).bind fun _ => definite_expr.commaList.bind fun _ =>
      (definite_symbol _ _).bind fun _ => .pure _
  exact (definite_accept (by simp)).bind fun skip => (hitems skip).bind fun _ =>
    (definite_symbol _ _).bind fun _ => .pure _

theorem definite_getRest (loc : Location) : Definite n (getRest loc) (getRest loc) :=
  (definite_keyword _ _).bind fun _ => (definite_symbol _ _).bind fun _ =>
    definite_reference.commaList.bind fun _ => (definite_symbol _ _).bind fun _ =>
      (definite_symbol _ _).bind fun _ => .pure _

theorem definite_openRest (loc : Location) : Definite n (openRest loc) (openRest loc) := by
  have hmode : Definite n fileMode fileMode := by
    refine definite_peek.bind fun t => ?_
    split
    · exact definite_advance.bind fun _ => .pure _
    · exact definite_advance.bind fun _ => .pure _
    · exact .unexpected _ _
  exact definite_file.bind fun _ => hmode.bind fun _ => (definite_symbol _ _).bind fun _ => .pure _

/-- A reference in parentheses is definite. -/
theorem definite_enclosedReference : Definite n enclosedReference enclosedReference :=
  (definite_symbol _ _).bind fun _ => definite_reference.bind fun _ =>
    (definite_symbol _ _).bind fun _ => .pure _

theorem definite_readRest (loc : Location) : Definite n (readRest loc) (readRest loc) :=
  definite_file.bind fun _ => (definite_keyword _ _).bind fun _ =>
    definite_enclosedReference.bind fun _ => (definite_symbol _ _).bind fun _ => .pure _

theorem definite_writeRest (loc : Location) : Definite n (writeRest loc) (writeRest loc) :=
  definite_file.bind fun _ => (definite_keyword _ _).bind fun _ =>
    definite_enclosedReference.bind fun _ => (definite_symbol _ _).bind fun _ => .pure _

theorem definite_closeRest (loc : Location) : Definite n (closeRest loc) (closeRest loc) :=
  definite_file.bind fun _ => (definite_symbol _ _).bind fun _ => .pure _

theorem definite_execRest (loc : Location) : Definite n (execRest loc) (execRest loc) := by
  refine (definite_keyword _ _).bind fun _ => definite_peek.bind fun t => ?_
  split
  · exact definite_advance.bind fun _ => (definite_keyword _ _).bind fun _ =>
      (definite_accept (by simp)).bind fun _ => definite_reference.bind fun _ =>
        (definite_symbol _ _).bind fun _ => .pure _
  · exact .unexpected _ _

theorem definite_assignment (loc : Location) : Definite n (assignment loc) (assignment loc) :=
  definite_reference.bind fun _ => (definite_symbol _ _).bind fun _ => definite_expr.bind fun _ =>
    (definite_symbol _ _).bind fun _ => .pure _

/-- The statement behind its keyword `DO`. -/
def doRest (nested : Parser (List Stmt)) (loc : Location) : Parser Stmt := do
  if ← accept (.keyword .WHILE) then whileRest nested loc else loopRest nested loc

/-- Which of the two loops `DO` opens is decided by the next token. -/
theorem settledAt_doRest (hs : Sound nested Group)
    (h : ∀ ts, SettledAt (OpenRelation Group) n nested nested' ts) {d : Token}
    (hd : d.kind = .keyword .DO) (loc : Location) (ts : List Token) :
    SettledAt (fun ys => OpenRelation Statement (d :: ys)) n (doRest nested loc)
      (doRest nested' loc) ts := by
  refine .accept (by simp) (fun w mid _ hw => ?_) (settledAt_loopRest hs h hd loc ts)
  exact (settledAt_whileRest hs h hd hw loc mid).mono (by omega) fun _ _ => id

/-- A statement is settled one token further than what is nested in it, as it takes its first token.
-/
theorem settledAt_statementOf (hs : Sound nested Group)
    (h : ∀ ts, SettledAt (OpenRelation Group) n nested nested' ts) (ts : List Token) :
    SettledAt (OpenRelation Statement) (n + 1) (statementOf nested) (statementOf nested') ts := by
  refine .peek ?_
  -- only the first three of the forms have conditions or groups in them
  split
  case h_1 hk =>
    refine .advance (by simp [hk]) ?_
    rintro i mid rfl
    exact settledAt_ifRest hs h hk _ mid
  case h_2 hk =>
    refine .advance (by simp [hk]) ?_
    rintro d mid rfl
    exact settledAt_doRest hs h hk _ mid
  case h_3 hk =>
    refine .advance (by simp [hk]) ?_
    rintro k mid rfl
    exact settledAt_selectRest hs h hk _ mid
  case h_4 => exact (definite_advance.bind fun _ => definite_putRest _) _ ts
  case h_5 => exact (definite_advance.bind fun _ => definite_getRest _) _ ts
  case h_6 => exact (definite_advance.bind fun _ => definite_openRest _) _ ts
  case h_7 => exact (definite_advance.bind fun _ => definite_readRest _) _ ts
  case h_8 => exact (definite_advance.bind fun _ => definite_writeRest _) _ ts
  case h_9 => exact (definite_advance.bind fun _ => definite_closeRest _) _ ts
  case h_10 => exact (definite_advance.bind fun _ => definite_execRest _) _ ts
  case h_11 => exact definite_assignment _ _ ts
  case h_12 => exact Definite.unexpected _ _ _ ts

/-! ## Groups -/

/-- A group that does not open with `DO` is a statement. -/
theorem groupOf_other {ts : List Token} (h : (front ts).kind ≠ .keyword .DO) :
    groupOf nested ts = (do return [← statementOf nested] : Parser (List Stmt)) ts := by
  have hat : atGroup ts = .ok false ts := by
    rw [atGroup, decide_eq_false (fun hdo => h hdo.1)]
  rw [groupOf, bind_of_ok hat]
  rfl

/-- Behind `DO` a semicolon decides for a group. -/
theorem groupOf_do {d : Token} (hd : d.kind = .keyword .DO) (ts : List Token) :
    groupOf nested (d :: ts) = (do
      if ← check (.symbol .semicolon) then
        advance
        let body ← statementsOf nested
        closing .closingGroup
        return body
      else return [← doRest nested d.loc] : Parser (List Stmt)) ts := by
  have hne : d.kind ≠ .eof := by simp [hd]
  -- the parser looks two tokens ahead; said from the second on, it looks one ahead
  by_cases hs : (front ts).kind = .symbol .semicolon
  · have hat : atGroup (d :: ts) = .ok true (d :: ts) := by
      rw [atGroup, behind_cons hne, decide_eq_true ⟨hd, hs⟩]
    have hcheck : check (.symbol .semicolon) ts = .ok true ts := by
      rw [check, decide_eq_true hs]
    rw [groupOf, bind_of_ok hat, bind_of_ok hcheck]
    exact advance_bind hne ts _
  · have hat : atGroup (d :: ts) = .ok false (d :: ts) := by
      rw [atGroup, behind_cons hne, decide_eq_false (fun hdo => hs hdo.2)]
    have hcheck : check (.symbol .semicolon) ts = .ok false ts := by
      rw [check, decide_eq_false hs]
    have hstatement : statementOf nested (d :: ts) = doRest nested d.loc ts := by
      rw [statementOf, peek_bind, front_cons]
      simp only [hd]
      exact advance_bind hne ts _
    rw [groupOf, bind_of_ok hat, bind_of_ok hcheck]
    show EStateM.bind (statementOf nested) _ (d :: ts) = EStateM.bind (doRest nested d.loc) _ ts
    unfold EStateM.bind
    rw [hstatement]

/-- A group is settled as far as a statement. -/
theorem settledAt_groupOf (hs : Sound nested Group)
    (h : ∀ ts, SettledAt (OpenRelation Group) n nested nested' ts) (ts : List Token) :
    SettledAt (OpenRelation Group) (n + 1) (groupOf nested) (groupOf nested') ts := by
  have hsingle : ∀ ys t, OpenRelation Statement ys t → OpenRelation Group ys t :=
    fun ys t => OpenRelation.within (C := id) (fun _ _ => rfl) fun us hus => hus.single
  by_cases hdo : (front ts).kind = .keyword .DO
  · have hne : (front ts).kind ≠ .eof := by simp [hdo]
    obtain ⟨d, ts, rfl⟩ := exists_cons_of_front hne
    rw [front_cons] at hdo
    refine SettledAt.cons (by simp [hdo]) (groupOf_do hdo) (groupOf_do hdo) ?_
    refine (definite_check _ _ ts).bind (fun _ _ => id) ?_
    intro b xs mid hb hxs
    injection hb with hb hmid
    subst hmid
    obtain rfl : xs = [] := List.append_left_eq_self.mp hxs.symm
    -- a semicolon behind `DO` makes it a block, and anything else a loop
    cases b with
    | true =>
      have hsemicolon : (front ts).kind = .symbol .semicolon := of_decide_eq_true hb
      refine .advance (by simp [hsemicolon]) ?_
      rintro s mid rfl
      refine ((settledAt_statementsOf hs h mid).mono (by omega) fun _ _ => id).bind ?_
        fun body _ mid _ _ => definite_closing .closingGroup body _ mid
      intro ys t
      exact OpenRelation.within (C := fun us => d :: s :: us) (by simp)
        fun us hus => hus.block hdo hsemicolon
    | false =>
      refine (settledAt_doRest hs h hdo d.loc ts).bind (fun ys t => hsingle _ t)
        fun _ _ mid _ _ => Definite.pure _ _ mid
  · refine SettledAt.congr (fun us hus => groupOf_other (hus ▸ hdo))
      (fun us hus => groupOf_other (hus ▸ hdo)) ?_
    exact (settledAt_statementOf hs h ts).bind hsingle fun _ _ mid _ _ => Definite.pure _ _ mid

end

/-- What is read as a group at some depth is one. -/
theorem sound_groupWithin (depth : Nat) : Sound (groupWithin depth) Group := by
  induction depth with
  | zero => exact fun ts ss rest hts => absurd hts (unexpected_ne_ok _ _ _ _ _)
  | succ depth ih => exact sound_groupOf ih

/-- Two bounds on the depth answer alike where both have room, but for open relations. -/
theorem settledAt_groupWithin (k l : Nat) (ts : List Token) :
    SettledAt (OpenRelation Group) (min k l) (groupWithin k) (groupWithin l) ts := by
  induction k generalizing l ts with
  | zero =>
    rw [Nat.zero_min]
    exact (Definite.unexpected (n := 0) .statement .unspecified (OpenRelation Group) ts).zero _
  | succ k ih =>
    have hstep : ∀ l, SettledAt (OpenRelation Group) (min (k + 1) (l + 1)) (groupWithin (k + 1))
        (groupWithin (l + 1)) ts := by
      intro l
      exact (settledAt_groupOf (sound_groupWithin k) (ih l) ts).mono (by omega) fun _ _ => id
    cases l with
    -- with no depth left on one side there is nothing to compare
    | zero => exact (hstep k).zero _
    | succ l => exact hstep l

/-- A group is settled by the tokens up to the one where it ends or fails, but for relations in
open parentheses. -/
theorem settledAt_group (n : Nat) (ts : List Token) :
    SettledAt (OpenRelation Group) n group group ts :=
  settledAt_sized (fun _ => rfl) (fun _ => rfl)
    (fun k l ts => (settledAt_groupWithin k l ts).mono (Nat.min_le_right _ _) fun _ _ => id) ts

/-! ## Programs -/

/-- The tokens from which the parser reads a program. -/
def Accepted : Rule Program := fun ts p => ∃ rest, program ts = .ok p rest

/-- The header of a program is definite. -/
theorem definite_header {n : Nat} : Definite n header header :=
  definite_name.bind fun _ => (definite_symbol _ _).bind fun _ => (definite_keyword _ _).bind fun _ =>
    (definite_keyword _ _).bind fun _ => (definite_symbol _ _).bind fun _ =>
      (definite_keyword _ _).bind fun _ => (definite_symbol _ _).bind fun _ =>
        (definite_symbol _ _).bind fun _ => .pure _

theorem definite_ending {n : Nat} (name : String) : Definite n (ending name) (ending name) := by
  refine (definite_keyword _ _).bind fun _ => definite_peek.bind fun t => .ite ?_ ?_
  · exact definite_symbol _ _
  · exact definite_name.bind fun _ => .ite (.refuse_bind _ rfl) (definite_symbol _ _)

/-- No condition stands at the front of a row of statements. -/
theorem AwaitsTest.ne_nil {us : List Token} (h : AwaitsTest Body us) : us ≠ [] := by
  rintro rfl
  obtain ⟨more, hmore⟩ := h
  have hnumber : Expression .concat [.bare (.number 0)] (.number 0 .nowhere) :=
    .of_primary (.number rfl)
  -- no body begins with a number, but a condition may
  obtain ⟨ss, bodies, hbodies, -⟩ := hmore _ _
    (.bare (.intro (r := .bare (.symbol .eq)) hnumber rfl .eq hnumber))
  generalize hxs : [] ++ _ ++ more = xs at hbodies
  cases hbodies with
  | nil => simp at hxs
  | cons hgroup _ =>
    obtain ⟨t, vs, rfl, hbegins⟩ := hgroup.exists_begins
    simp only [List.nil_append, List.cons_append, List.cons.injEq] at hxs
    obtain ⟨rfl, -⟩ := hxs
    rcases hbegins with ⟨m, hm⟩ | ⟨w, -, hw⟩
    · cases hm
    · cases hw

/-- What leads up to a condition in the statements does so in the program. -/
theorem AwaitsTest.program {xs ds us mid rest : List Token} {name : String}
    {decls : List Declaration} (hheader : header (xs ++ mid) = .ok name mid)
    (hdecls : declarations mid = .ok decls rest) (hmid : mid = ds ++ rest)
    (hrest : us <+: rest) (h : AwaitsTest Body us) : AwaitsTest Accepted (xs ++ (ds ++ us)) := by
  obtain ⟨u, us, rfl⟩ := List.exists_cons_of_ne_nil h.ne_nil
  obtain ⟨vs, rfl⟩ := hrest
  obtain ⟨more, hmore⟩ := h
  refine awaitsTest_of (more ++ closer ++ [.bare .eof]) fun zs c hzs => ?_
  obtain ⟨ss, hss⟩ := hmore zs c hzs
  -- the head and the declarations are read as before, since the next token is the same
  obtain ⟨n, hs, hn, hhs, hxs⟩ := header_ok_iff.mp hheader
  obtain rfl : xs = n :: hs := List.append_cancel_right hxs
  obtain ⟨ds', hds', hsame⟩ := Definite.exists_stop (fun _ => definite_declarations) (.ok hdecls)
  obtain rfl : ds' = ds := List.append_cancel_right (hds'.symm.trans hmid)
  have hagain := fun more' => halts_ok_iff.mp (hsame u (us ++ vs) rfl more')
  have hdeclared : declarations (ds' ++ (u :: us ++ zs ++ more ++ (closer ++ [.bare .eof]))) =
      .ok decls (u :: us ++ zs ++ more ++ (closer ++ [.bare .eof])) := hagain _
  have hhead : header (n :: (hs ++ (ds' ++ (u :: us ++ zs ++ more ++ (closer ++ [.bare .eof]))))) =
      .ok name _ := header_ok_iff.mpr ⟨n, hs, hn, hhs, rfl⟩
  have hend : (front (closer ++ [.bare .eof])).kind = .keyword .END := rfl
  have hstatements := complete_statements _ (Nat.le_refl _) hss hend
  have hending : ending name (closer ++ [.bare .eof]) = .ok () [.bare .eof] :=
    ending_ok_iff.mpr ⟨_, _, [], rfl, .absent, rfl, rfl⟩
  have hcheck : check .eof [.bare .eof] = .ok true [.bare .eof] := rfl
  refine ⟨n :: (hs ++ (ds' ++ (u :: us ++ zs ++ more ++ (closer ++ [.bare .eof])))),
    ⟨name, decls, ss, n.loc⟩, ⟨[.bare .eof], ?_⟩, by simp⟩
  rw [Grammar.program, peek_bind, front_cons, bind_of_ok hhead, bind_of_ok hdeclared,
    bind_of_ok hstatements, bind_of_ok hending, bind_of_ok hcheck]
  rfl

/-- A program is settled by the tokens up to the one where it ends or fails, but for relations in
open parentheses. -/
theorem settledAt_program (n : Nat) (ts : List Token) :
    SettledAt (OpenRelation Accepted) n program program ts := by
  refine .peek ((definite_header _ ts).bind (fun _ _ => id) ?_)
  intro name xs mid hheader hxs
  refine (definite_declarations _ mid).bind (fun _ _ => id) ?_
  intro decls ds rest hdecls hds
  -- header and declarations are definite, so an open relation is in the statements
  have hstatements := (settledAt_statementsOf sound_group
    (settledAt_group (n - xs.length - ds.length)) rest).taken
  refine hstatements.bind ?_ ?_
  · rintro _ t ⟨⟨hus, ho, hzs, ht, hrelates⟩, htaken⟩
    rw [← List.append_assoc, ← List.append_assoc]
    have hprogram := hus.program (hxs ▸ hheader) hdecls hds ((List.prefix_append _ _).trans htaken)
    rw [List.append_assoc xs]
    exact .intro hprogram ho hzs ht hrelates
  · intro ss _ mid _ _
    exact ((definite_ending name).bind fun _ => (definite_check _).bind fun _ =>
      .ite (.pure _) ((Definite.unexpected _ _).bind fun _ => .pure _)) _ mid

/-- **A syntax error names the first offending token.** A fault that names a token names the one
where the reading stopped. No program begins with the tokens up to and with this one, unless it is a
relation behind an expression that the opening parenthesis of a condition encloses with it; and in
that case there is one. -/
theorem offending_token {ts rest : List Token} {eof t : Token} {f : Fault} (heof : eof.kind = .eof)
    (hfail : program (ts ++ [eof]) = .error f rest) (hnamed : f.cause.named? = some t) :
    ∃ before behind, ts ++ [eof] = before ++ t :: behind ∧ rest = t :: behind ∧ f.loc = t.loc ∧
      ((∃ more p, Accepted (before ++ t :: more) p) ↔ OpenRelation Accepted before t) := by
  obtain ⟨before, hstop⟩ := settledAt_program ((ts ++ [eof]).length + 1) _ (.error hfail)
  obtain ⟨hfront, hloc⟩ := hstop.points f rfl t hnamed
  -- the end of the source is not passed, so some token is left
  obtain ⟨u, behind, rfl⟩ : ∃ u behind, rest = u :: behind := by
    cases rest with
    | nil =>
      have hmem : eof ∈ before := by
        rw [← List.append_nil before, ← hstop.split]
        simp
      exact absurd heof (hstop.passed eof hmem)
    | cons u behind => exact ⟨u, behind, rfl⟩
  rw [front_cons] at hfront
  subst hfront
  refine ⟨before, behind, hstop.split, rfl, hloc, ?_, ?_⟩
  · rintro ⟨more, p, last, hread⟩
    have hlength : before.length < (ts ++ [eof]).length + 1 := by
      rw [hstop.split, List.length_append]
      omega
    rcases hstop.same u behind rfl hlength with hsame | ⟨-, hopen⟩
    · -- the run would fail in the same way on the program
      obtain ⟨hout, -⟩ := (hsame more).unique (.ok hread)
      cases hout
    · exact hopen
  · rintro ⟨⟨more, hmore⟩, ho, hxs, ht, hrelates⟩
    -- the condition is completed with a number and the closing parenthesis
    obtain ⟨v, vs, rfl⟩ := List.exists_cons_of_ne_nil hxs.ne_nil
    have htested := Tested.enclosed ho (.intro hxs ht hrelates
      (.of_primary (.number (t := .bare (.number 0)) rfl))) (p := .bare (.symbol .rparen)) rfl
    obtain ⟨p, hread⟩ := hmore _ _ htested
    exact ⟨.bare (.number 0) :: .bare (.symbol .rparen) :: more, p, by simpa using hread⟩

/-- The token that a run names when it fails, with what is left behind. -/
def blamed? : EStateM.Result Fault (List Token) α → Option (Token × List Token)
  | .error f rest => f.cause.named?.map (·, rest)
  | .ok _ _ => none

theorem blamed?_eq_some_iff {r : EStateM.Result Fault (List Token) α} {t : Token}
    {rest : List Token} :
    blamed? r = some (t, rest) ↔ ∃ f, r = .error f rest ∧ f.cause.named? = some t := by
  cases r with
  | ok a left => simp [blamed?]
  | error f left => simp [blamed?, and_comm]

/-- Whether a run goes through. -/
def isRead : EStateM.Result Fault (List Token) α → Bool
  | .ok _ _ => true
  | .error _ _ => false

/-- The missing parenthesis of a loop's condition is noticed at the semicolon, with which no program
goes on there. -/
theorem offending_token_semicolon :
    ∃ ts eof f rest t,
      (Lexer.ofSource "p: proc options(main); do while ((a) = 1; end; end p;").tokenize.1
        = ts ++ [eof] ∧
      eof.kind = .eof ∧ program (ts ++ [eof]) = .error f rest ∧ f.cause.named? = some t ∧
      t.kind = .symbol .semicolon ∧
      ∃ before behind, ts ++ [eof] = before ++ t :: behind ∧ rest = t :: behind ∧ f.loc = t.loc ∧
        ¬∃ more p, Accepted (before ++ t :: more) p := by
  obtain ⟨ts, eof, htokens, -, heof⟩ :=
    Lexer.exists_tokens "p: proc options(main); do while ((a) = 1; end; end p;"
  have hrun : (blamed? (program (Lexer.ofSource
      "p: proc options(main); do while ((a) = 1; end; end p;").tokenize.1)).map (·.1.kind)
      = some (.symbol .semicolon) := by
    decide +kernel
  rw [htokens] at hrun
  obtain ⟨⟨t, rest⟩, hblamed, ht⟩ := Option.map_eq_some_iff.mp hrun
  obtain ⟨f, hfail, hnamed⟩ := blamed?_eq_some_iff.mp hblamed
  obtain ⟨before, behind, hsplit, hrest, hloc, hiff⟩ := offending_token heof hfail hnamed
  refine ⟨ts, eof, f, rest, t, htokens, heof, hfail, hnamed, ht, before, behind, hsplit, hrest,
    hloc, ?_⟩
  -- a semicolon is no relation
  intro hmore
  cases hiff.mp hmore with
  | intro _ _ _ hm hrelates =>
    rw [ht] at hm
    injection hm with hm
    subst hm
    cases hrelates

/-- A relation that stands where it should is named, because the condition behind it is malformed:
`if (a = )` is refused at `=`, with which `if (a = b)` goes on. -/
theorem offending_relation :
    ∃ before t behind more f p,
      (Lexer.ofSource
        "p: proc options(main); if (a = ) then x = 1; else x = 2; end p;").tokenize.1
        = before ++ t :: behind ∧
      program (before ++ t :: behind) = .error f (t :: behind) ∧ f.cause.named? = some t ∧
      (Lexer.ofSource
        "p: proc options(main); if (a = b) then x = 1; else x = 2; end p;").tokenize.1
        = before ++ t :: more ∧
      Accepted (before ++ t :: more) p := by
  let bad := (Lexer.ofSource
    "p: proc options(main); if (a = ) then x = 1; else x = 2; end p;").tokenize.1
  let good := (Lexer.ofSource
    "p: proc options(main); if (a = b) then x = 1; else x = 2; end p;").tokenize.1
  have hcut : ∀ us : List Token, 11 < us.length →
      us = us.take 11 ++ front (us.drop 11) :: us.drop 12 := by
    intro us hlength
    have hdrop := List.drop_eq_getElem_cons hlength
    have hfront : front (us.drop 11) :: us.drop 12 = us.drop 11 := by rw [hdrop, front_cons]
    rw [hfront, List.take_append_drop]
  -- the relation and the eleven tokens in front of it are the same
  have hsame : ((Lexer.ofSource
      "p: proc options(main); if (a = ) then x = 1; else x = 2; end p;").tokenize.1.take 11,
      front ((Lexer.ofSource
      "p: proc options(main); if (a = ) then x = 1; else x = 2; end p;").tokenize.1.drop 11)) =
      ((Lexer.ofSource
      "p: proc options(main); if (a = b) then x = 1; else x = 2; end p;").tokenize.1.take 11,
      front ((Lexer.ofSource
      "p: proc options(main); if (a = b) then x = 1; else x = 2; end p;").tokenize.1.drop 11)) := by
    cbv
  obtain ⟨htake, hfront⟩ : bad.take 11 = good.take 11 ∧ front (bad.drop 11) = front (good.drop 11) :=
    Prod.mk.inj hsame
  have hbad : bad = good.take 11 ++ front (bad.drop 11) :: bad.drop 12 := by
    rw [← htake]
    exact hcut bad (by decide +kernel)
  have hgood : good = good.take 11 ++ front (bad.drop 11) :: good.drop 12 := by
    rw [hfront]
    exact hcut good (by decide +kernel)
  have hblamed : blamed? (program bad)
      = some (front (bad.drop 11), front (bad.drop 11) :: bad.drop 12) := by decide +kernel
  have hread : isRead (program good) = true := by decide +kernel
  obtain ⟨f, hfail, hnamed⟩ := blamed?_eq_some_iff.mp hblamed
  cases hp : program good with
  | ok p rest =>
    exact ⟨good.take 11, front (bad.drop 11), bad.drop 12, good.drop 12, f, p, hbad,
      hbad ▸ hfail, hnamed, hgood, rest, hgood ▸ hp⟩
  | error f' rest =>
    rw [hp] at hread
    cases hread

end Plic.Grammar
