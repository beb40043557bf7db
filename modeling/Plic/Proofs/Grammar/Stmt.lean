import Plic.Proofs.Grammar.Expr

/-!
# The parser of statements

Every function of the statement parser is sound and complete for the rule of
the same name, under the same assumption on the reader of the groups inside.
The circle is closed in `sound_group` and `complete_group` by induction on the
depth: a group inside another is shorter than it.

A statement ends with its last token, so nothing is asked of what comes behind
it; only a row of statements has to be followed by `END`.
-/

namespace Plic.Grammar

open Plic.Parser

/-- The statements of a row of groups. -/
def Body : Rule (List Stmt) :=
  fun xs ss => ∃ bodies, Repeated Group xs bodies ∧ ss = bodies.flatten

/-! ## Soundness -/

/-- A round of statements: a group, unless `END` is at the front. -/
def groupRound (nested : Parser (List Stmt)) : Parser (Option (List Stmt)) := do
  let t ← peek
  match t.kind with
  | .keyword .END | .eof => return none
  | .keyword .DCL => refuse t.loc (.lateDeclaration t)
  | _ => return some (← nested)

/-- The statements of a block are rounds of groups that are put in one list. -/
theorem statementsOf_eq (nested : Parser (List Stmt)) :
    statementsOf nested = (do
      let groups ← many (groupRound nested)
      return groups.flatten) := rfl

/-- A stretch with two kinds is two tokens. -/
theorem exists_pair {hs : List Token} {k l : Token.Kind} (h : hs.map Token.kind = [k, l]) :
    ∃ s t : Token, hs = [s, t] ∧ s.kind = k ∧ t.kind = l := by
  obtain ⟨s, ss, rfl, hs, hss⟩ := List.map_eq_cons_iff.mp h
  obtain ⟨t, ts, rfl, ht, hts⟩ := List.map_eq_cons_iff.mp hss
  obtain rfl := List.map_eq_nil_iff.mp hts
  exact ⟨s, t, rfl, hs, ht⟩

variable {ts rest xs : List Token}

/-- A block is closed by `END` and a semicolon and by nothing else. -/
theorem closing_ok_iff {place : Place} {u : Unit} : closing place ts = .ok u rest ↔
      ∃ es : List Token, es.map Token.kind = [.keyword .END, .symbol .semicolon] ∧
        ts = es ++ rest := by
  rw [closing, keyword_bind_ok_iff]
  constructor
  · rintro ⟨e, mid, he, rfl, hsymbol⟩
    obtain ⟨s, hs, rfl⟩ := symbol_ok_iff.mp hsymbol
    exact ⟨[e, s], by simp [he, hs], rfl⟩
  · rintro ⟨es, hes, rfl⟩
    obtain ⟨e, s, rfl, he, hs⟩ := exists_pair hes
    exact ⟨e, _, he, rfl, symbol_cons hs _ _⟩

/-- A token that may be left out has been taken or not. -/
theorem optional_of_accept {k : Token.Kind} (hk : k ≠ .eof) {b : Bool}
    (h : accept k ts = .ok b rest) : ∃ os, ts = os ++ rest ∧ Optional k os := by
  cases b with
  | true =>
    obtain ⟨t, ht, rfl⟩ := (accept_true_iff hk).mp h
    exact ⟨[t], rfl, .given ht⟩
  | false =>
    obtain ⟨-, rfl⟩ := accept_false_iff.mp h
    exact ⟨[], rfl, .absent⟩

/-- The mode of a file is one of its keywords. -/
theorem fileMode_ok_iff {mode : FileMode} : fileMode ts = .ok mode rest ↔
      ∃ (t : Token) (k : Keyword), t.kind = .keyword k ∧ Opens k mode ∧ ts = t :: rest := by
  have hopens : ∀ k, Opens k mode ↔ k = .INPUT ∧ .input = mode ∨ k = .OUTPUT ∧ .output = mode := by
    intro k
    constructor
    · rintro (_ | _) <;> simp
    · rintro (⟨rfl, rfl⟩ | ⟨rfl, rfl⟩) <;> constructor
  rw [fileMode, peek_bind]
  simp only [hopens]
  cases ts with
  | nil => simp [front, Token.endOfSource]
  | cons t ts =>
    cases ht : t.kind with
    | keyword k => cases k <;> simp [ht, and_comm]
    | _ => simp [ht]

section

variable {nested : Parser (List Stmt)}

/-- A round reads a group, or stops in front of `END` or of the end. -/
theorem sound_groupRound (h : Sound nested Group) : SoundRound (groupRound nested) Group := by
  intro ts a? rest hts
  rw [groupRound, peek_bind] at hts
  have hnested : (do return some (← nested) : Parser (Option (List Stmt))) ts = .ok a? rest →
      ∃ xs ss, a? = some ss ∧ ts = xs ++ rest ∧ Group xs ss := by
    intro hts
    obtain ⟨xs, ss, mid, rfl, hgroup, hlast⟩ := h.of_bind hts
    obtain ⟨rfl, rfl⟩ := pure_ok_iff.mp hlast
    exact ⟨xs, ss, rfl, rfl, hgroup⟩
  -- `END` and the end stop the rounds, a late declaration is refused, and all else is a group
  cases hk : (front ts).kind with
  | keyword k =>
    cases k with
    | END =>
      simp only [hk] at hts
      obtain ⟨rfl, rfl⟩ := pure_ok_iff.mp hts
      rfl
    | DCL =>
      simp only [hk] at hts
      exact absurd hts (refuse_ne_ok _ _ _ _ _)
    | _ =>
      simp only [hk] at hts
      obtain ⟨xs, ss, rfl, hxs, hgroup⟩ := hnested hts
      exact ⟨xs, hxs, hgroup⟩
  | eof =>
    simp only [hk] at hts
    obtain ⟨rfl, rfl⟩ := pure_ok_iff.mp hts
    rfl
  | _ =>
    simp only [hk] at hts
    obtain ⟨xs, ss, rfl, hxs, hgroup⟩ := hnested hts
    exact ⟨xs, hxs, hgroup⟩

/-- What is read up to `END` is a body. -/
theorem sound_statementsOf (h : Sound nested Group) : Sound (statementsOf nested) Body := by
  intro ts ss rest hts
  obtain ⟨xs, bodies, mid, rfl, hxs, hlast⟩ := (sound_many (sound_groupRound h)).of_bind hts
  obtain ⟨rfl, rfl⟩ := pure_ok_iff.mp hlast
  exact ⟨xs, rfl, bodies, hxs, rfl⟩

/-- A file is given by its keyword and its name in parentheses. -/
theorem sound_file : Sound file FileGiven := by
  intro ts name rest hts
  simp only [file, bind_ok_iff, keyword_ok_iff, symbol_ok_iff, fileName_ok_iff, pure_ok_iff] at hts
  obtain ⟨_, _, ⟨f, hf, rfl⟩, _, _, ⟨o, ho, rfl⟩, _, _, ⟨v, value, hv, hname, rfl⟩, _, _,
    ⟨c, hc, rfl⟩, rfl, rfl⟩ := hts
  exact ⟨[f, o] ++ [v, c], rfl, .intro (by simp [hf, ho]) hv hname hc⟩

/-- What is read behind `IF` makes a statement together with it. The keyword belongs to the rule and
not to what is read here. -/
theorem sound_ifRest (h : Sound nested Group) {i : Token} (hi : i.kind = .keyword .IF) :
    Sound (ifRest nested i.loc) fun xs => Statement (i :: xs) := by
  intro ts s rest hts
  simp only [ifRest, bind_ok_iff, keyword_ok_iff, pure_ok_iff] at hts
  obtain ⟨c, _, hc, _, _, ⟨t, ht, rfl⟩, yes, _, hyes, _, _, ⟨e, he, rfl⟩, no, _, hno, rfl, rfl⟩ :=
    hts
  obtain ⟨xs, rfl, hxs⟩ := sound_condition hc
  obtain ⟨ys, rfl, hys⟩ := h hyes
  obtain ⟨zs, rfl, hzs⟩ := h hno
  exact ⟨xs ++ t :: ys ++ e :: zs, by simp, .ifElse hi hxs ht hys he hzs⟩

theorem sound_whileRest (h : Sound nested Group) {d w : Token} (hd : d.kind = .keyword .DO)
    (hw : w.kind = .keyword .WHILE) :
    Sound (whileRest nested d.loc) fun xs => Statement (d :: w :: xs) := by
  intro ts s rest hts
  simp only [whileRest, bind_ok_iff, symbol_ok_iff, closing_ok_iff, pure_ok_iff] at hts
  obtain ⟨_, _, ⟨o, ho, rfl⟩, c, _, hc, _, _, ⟨p, hp, rfl⟩, _, _, ⟨q, hq, rfl⟩, body, _, hbody, _,
    _, ⟨es, hes, rfl⟩, rfl, rfl⟩ := hts
  obtain ⟨xs, rfl, hxs⟩ := sound_condition hc
  obtain ⟨ys, rfl, bodies, hys, rfl⟩ := sound_statementsOf h hbody
  have hhs : [w, o].map Token.kind = [.keyword .WHILE, .symbol .lparen] := by simp [hw, ho]
  exact ⟨o :: xs ++ [p, q] ++ ys ++ es, by simp,
    .doWhile hd hhs hxs (by simp [hp, hq]) hys hes⟩

theorem sound_loopStep : Sound loopStep Stepped := by
  intro ts step rest hts
  rcases (accept_bind_ok_iff (by simp)).mp hts with ⟨t, mid, ht, rfl, hstep⟩ | ⟨-, hnone⟩
  · obtain ⟨xs, e, mid, rfl, hxs, hlast⟩ := sound_expr.of_bind hstep
    obtain ⟨rfl, rfl⟩ := pure_ok_iff.mp hlast
    exact ⟨t :: xs, rfl, .given ht hxs⟩
  · obtain ⟨rfl, rfl⟩ := pure_ok_iff.mp hnone
    exact ⟨[], rfl, .absent⟩

theorem sound_loopRest (h : Sound nested Group) {d : Token} (hd : d.kind = .keyword .DO) :
    Sound (loopRest nested d.loc) fun xs => Statement (d :: xs) := by
  intro ts s rest hts
  rw [loopRest, peek_bind] at hts
  -- only a name may follow `DO` here
  cases hk : (front ts).kind with
  | name n =>
    simp only [hk, bind_ok_iff, symbol_ok_iff, keyword_ok_iff, closing_ok_iff, pure_ok_iff] at hts
    obtain ⟨v, _, hv, _, _, ⟨q, hq, rfl⟩, start, _, hstart, _, _, ⟨t, ht, rfl⟩, limit, _, hlimit,
      step, _, hstep, _, _, ⟨c, hc, rfl⟩, body, _, hbody, _, _, ⟨es, hes, rfl⟩, rfl, rfl⟩ := hts
    -- the stretches of the parts, put together in their order
    obtain ⟨vs, rfl, hvs⟩ := sound_reference hv
    obtain ⟨xs, rfl, hxs⟩ := sound_expr hstart
    obtain ⟨ys, rfl, hys⟩ := sound_expr hlimit
    obtain ⟨ks, rfl, hks⟩ := sound_loopStep hstep
    obtain ⟨zs, rfl, bodies, hzs, rfl⟩ := sound_statementsOf h hbody
    exact ⟨vs ++ q :: xs ++ t :: ys ++ ks ++ c :: zs ++ es, by simp,
      .doLoop hd hvs hq hxs ht hys hks hc hzs hes⟩
  | _ =>
    simp only [hk] at hts
    exact absurd hts (unexpected_ne_ok _ _ _ _ _)

/-- A round of `SELECT` reads a `WHEN` with its body, or stops in front of another keyword. -/
theorem sound_when? (h : Sound nested Group) : SoundRound (when? nested) When := by
  intro ts a? rest hts
  rw [when?, peek_bind] at hts
  rcases (accept_bind_ok_iff (by simp)).mp hts with ⟨w, mid, hw, rfl, hwhen⟩ | ⟨-, hnone⟩
  · simp only [if_true, bind_ok_iff, symbol_ok_iff, pure_ok_iff] at hwhen
    obtain ⟨_, _, ⟨o, ho, rfl⟩, values, _, hvalues, _, _, ⟨c, hc, rfl⟩, body, _, hbody, rfl, rfl⟩ :=
      hwhen
    obtain ⟨xs, rfl, hxs⟩ := sound_commaList sound_expr hvalues
    obtain ⟨ys, rfl, hys⟩ := h hbody
    exact ⟨w :: o :: xs ++ c :: ys, by simp, .intro hw ho hxs hc hys⟩
  · obtain ⟨rfl, rfl⟩ := pure_ok_iff.mp hnone
    rfl

/-- What comes behind the last `WHEN`: an `OTHER` branch or nothing. -/
theorem sound_lastBranch (h : Sound nested Group) : Sound (lastBranch nested) Otherwise := by
  intro ts last rest hts
  rcases (accept_bind_ok_iff (by simp)).mp hts with ⟨t, mid, ht, rfl, hother⟩ | ⟨-, hnone⟩
  · obtain ⟨xs, body, mid, rfl, hxs, hlast⟩ := h.of_bind hother
    obtain ⟨rfl, rfl⟩ := pure_ok_iff.mp hlast
    exact ⟨t :: xs, rfl, .other ht hxs⟩
  · obtain ⟨rfl, rfl⟩ := pure_ok_iff.mp hnone
    exact ⟨[], rfl, .absent⟩

/-- The same behind `SELECT`; that there is a `WHEN` is checked once all have been read. -/
theorem sound_selectRest (h : Sound nested Group) {k : Token} (hk : k.kind = .keyword .SELECT) :
    Sound (selectRest nested k.loc) fun xs => Statement (k :: xs) := by
  intro ts s rest hts
  simp only [selectRest, bind_ok_iff, symbol_ok_iff] at hts
  obtain ⟨_, _, ⟨o, ho, rfl⟩, subject, _, hsubject, _, _, ⟨p, hp, rfl⟩, _, _, ⟨q, hq, rfl⟩, whens,
    mid, hwhens, hts⟩ := hts
  -- a `SELECT` without branches is refused
  by_cases hempty : whens.isEmpty = true
  · simp [hempty, bind_ok_iff] at hts
  rw [if_neg hempty, bind_ok_iff] at hts
  obtain ⟨last, mid, hlast, hts⟩ := hts
  rw [peek_bind] at hts
  -- so is a `WHEN` behind `OTHERWISE`
  by_cases hlate : (front mid).kind = .keyword .WHEN
  · simp [hlate, bind_ok_iff] at hts
  simp only [if_neg hlate, bind_ok_iff, closing_ok_iff, pure_ok_iff] at hts
  obtain ⟨_, _, ⟨es, hes, rfl⟩, rfl, rfl⟩ := hts
  obtain ⟨xs, rfl, hxs⟩ := sound_expr hsubject
  obtain ⟨ws, rfl, hws⟩ := sound_many (sound_when? h) hwhens
  obtain ⟨os, rfl, hos⟩ := sound_lastBranch h hlast
  exact ⟨o :: xs ++ [p, q] ++ ws ++ os ++ es, by simp,
    .select hk ho hxs (by simp [hp, hq]) hws (by simpa using hempty) hos hes⟩

variable {t : Token} {ts rest : List Token} {s : Stmt}

theorem sound_putRest (ht : t.kind = .keyword .PUT) :
    Sound (putRest t.loc) fun xs => Statement (t :: xs) := by
  intro ts s rest hts
  simp only [putRest, bind_ok_iff, symbol_ok_iff, pure_ok_iff] at hts
  obtain ⟨skip, mid, hskip, items, last, hitems, _, _, ⟨q, hq, hlast⟩, rfl, rfl⟩ := hts
  have hlisted : ∃ xs, ts = xs ++ last ∧ Listed xs items := by
    rcases (accept_bind_ok_iff (by simp)).mp hitems with ⟨l, mid, hl, rfl, hlist⟩ | ⟨-, hnone⟩
    · simp only [if_true, bind_ok_iff, symbol_ok_iff, pure_ok_iff] at hlist
      obtain ⟨_, _, ⟨o, ho, rfl⟩, es, _, hes, _, _, ⟨c, hc, rfl⟩, rfl, rfl⟩ := hlist
      obtain ⟨xs, rfl, hxs⟩ := sound_commaList sound_expr hes
      obtain ⟨skips, rfl, hskips⟩ := optional_of_accept (by simp) hskip
      exact ⟨skips ++ [l, o] ++ xs ++ [c], by simp, .items hskips (by simp [hl, ho]) hxs hc⟩
    · cases skip with
      | true =>
        obtain ⟨rfl, rfl⟩ := pure_ok_iff.mp hnone
        obtain ⟨k, hk, rfl⟩ := (accept_true_iff (by simp)).mp hskip
        exact ⟨[k], rfl, .skip hk⟩
      -- `PUT` has to say something: `SKIP`, a list, or both
      | false => exact absurd hnone (unexpected_ne_ok _ _ _ _ _)
  obtain ⟨xs, rfl, hxs⟩ := hlisted
  exact ⟨xs ++ [q], by simp [hlast], .put ht hxs hq⟩

theorem sound_getRest (ht : t.kind = .keyword .GET) :
    Sound (getRest t.loc) fun xs => Statement (t :: xs) := by
  intro ts s rest hts
  simp only [getRest, bind_ok_iff, keyword_ok_iff, symbol_ok_iff, pure_ok_iff] at hts
  obtain ⟨_, _, ⟨l, hl, rfl⟩, _, _, ⟨o, ho, rfl⟩, targets, _, htargets, _, _, ⟨p, hp, rfl⟩, _, _,
    ⟨q, hq, rfl⟩, rfl, rfl⟩ := hts
  obtain ⟨xs, rfl, hxs⟩ := sound_commaList sound_reference htargets
  exact ⟨[l, o] ++ xs ++ [p, q], by simp, .get ht (by simp [hl, ho]) hxs (by simp [hp, hq])⟩

theorem sound_openRest (ht : t.kind = .keyword .OPEN) :
    Sound (openRest t.loc) fun xs => Statement (t :: xs) := by
  intro ts s rest hts
  simp only [openRest, bind_ok_iff, fileMode_ok_iff, symbol_ok_iff, pure_ok_iff] at hts
  obtain ⟨name, _, hname, mode, _, ⟨m, k, hk, hopens, rfl⟩, _, _, ⟨q, hq, rfl⟩, rfl, rfl⟩ := hts
  obtain ⟨xs, rfl, hxs⟩ := sound_file hname
  exact ⟨xs ++ [m, q], by simp, .openFile ht hxs hk hopens hq⟩

/-- What `READ` and `WRITE` have in common: a file, a word, and a variable in
parentheses. -/
theorem transfer_ok {k : Keyword} {wordPlace endPlace : Place} {make : String → Reference → Stmt}
    (hts : (do
      let name ← file
      keyword k wordPlace
      let r ← enclosedReference
      symbol .semicolon endPlace
      return make name r : Parser Stmt) ts = .ok s rest) :
    ∃ (xs hs ys es : List Token) (name : String) (r : Reference), FileGiven xs name ∧
      hs.map Token.kind = [.keyword k, .symbol .lparen] ∧ Referenced ys r ∧
      es.map Token.kind = [.symbol .rparen, .symbol .semicolon] ∧
      ts = xs ++ hs ++ ys ++ es ++ rest ∧ s = make name r := by
  simp only [enclosedReference, bind_ok_iff, keyword_ok_iff, symbol_ok_iff, pure_ok_iff] at hts
  obtain ⟨name, _, hname, _, _, ⟨w, hw, rfl⟩, _, _, ⟨_, _, ⟨o, ho, rfl⟩, r, _, hr, _, _,
    ⟨p, hp, rfl⟩, rfl, rfl⟩, _, _, ⟨q, hq, rfl⟩, rfl, rfl⟩ := hts
  obtain ⟨xs, rfl, hxs⟩ := sound_file hname
  obtain ⟨ys, rfl, hys⟩ := sound_reference hr
  exact ⟨xs, [w, o], ys, [p, q], name, r, hxs, by simp [hw, ho], hys, by simp [hp, hq],
    by simp, rfl⟩

theorem sound_readRest (ht : t.kind = .keyword .READ) :
    Sound (readRest t.loc) fun xs => Statement (t :: xs) := by
  intro ts s rest hts
  obtain ⟨xs, hs, ys, es, name, r, hxs, hhs, hys, hes, rfl, rfl⟩ := transfer_ok hts
  exact ⟨xs ++ hs ++ ys ++ es, rfl, .read ht hxs hhs hys hes⟩

theorem sound_writeRest (ht : t.kind = .keyword .WRITE) :
    Sound (writeRest t.loc) fun xs => Statement (t :: xs) := by
  intro ts s rest hts
  obtain ⟨xs, hs, ys, es, name, r, hxs, hhs, hys, hes, rfl, rfl⟩ := transfer_ok hts
  exact ⟨xs ++ hs ++ ys ++ es, rfl, .write ht hxs hhs hys hes⟩

theorem sound_closeRest (ht : t.kind = .keyword .CLOSE) :
    Sound (closeRest t.loc) fun xs => Statement (t :: xs) := by
  intro ts s rest hts
  simp only [closeRest, bind_ok_iff, symbol_ok_iff, pure_ok_iff] at hts
  obtain ⟨name, _, hname, _, _, ⟨q, hq, rfl⟩, rfl, rfl⟩ := hts
  obtain ⟨xs, rfl, hxs⟩ := sound_file hname
  exact ⟨xs ++ [q], by simp, .closeFile ht hxs hq⟩

theorem sound_execRest (ht : t.kind = .keyword .EXEC) :
    Sound (execRest t.loc) fun xs => Statement (t :: xs) := by
  intro ts s rest hts
  obtain ⟨w, mid, hw, rfl, hquery⟩ := keyword_bind_ok_iff.mp hts
  rw [peek_bind] at hquery
  -- the query is one token, which has its text in it
  cases hk : (front mid).kind with
  | query sql =>
    obtain ⟨q, tail, rfl⟩ := exists_cons_of_front (show (front mid).kind ≠ .eof by simp [hk])
    rw [front_cons] at hk
    simp only [front_cons, hk] at hquery
    rw [advance_bind (by simp [hk])] at hquery
    simp only [bind_ok_iff, keyword_ok_iff, symbol_ok_iff, pure_ok_iff] at hquery
    obtain ⟨_, _, ⟨i, hi, rfl⟩, colon, _, hcolon, target, _, htarget, _, _, ⟨s, hs, rfl⟩, rfl,
      rfl⟩ := hquery
    obtain ⟨cs, rfl, hcs⟩ := optional_of_accept (by simp) hcolon
    obtain ⟨xs, rfl, hxs⟩ := sound_reference htarget
    exact ⟨w :: q :: i :: cs ++ xs ++ [s], by simp, .query ht hw hk hi hcs hxs hs⟩
  | _ =>
    simp only [hk] at hquery
    exact absurd hquery (unexpected_ne_ok _ _ _ _ _)

/-- A reference starts with a name, at whose place it stands. -/
theorem Referenced.exists_name {xs : List Token} {r : Reference} (h : Referenced xs r) :
    ∃ (t : Token) (us : List Token) (n : String), xs = t :: us ∧ t.kind = .name n ∧
      r.loc = t.loc := by
  cases h with
  | scalar ht | element ht => exact ⟨_, _, _, rfl, ht, rfl⟩

/-- An assignment has the place of the token in front, which is that of its reference. -/
theorem sound_assignment (hts : assignment (front ts).loc ts = .ok s rest) :
    ∃ xs, ts = xs ++ rest ∧ Statement xs s := by
  simp only [assignment, bind_ok_iff, symbol_ok_iff, pure_ok_iff] at hts
  obtain ⟨r, _, hr, _, _, ⟨q, hq, rfl⟩, e, _, he, _, _, ⟨c, hc, rfl⟩, rfl, rfl⟩ := hts
  obtain ⟨xs, rfl, hxs⟩ := sound_reference hr
  obtain ⟨ys, rfl, hys⟩ := sound_expr he
  -- the statement is placed where its target is
  obtain ⟨t, us, n, rfl, -, hloc⟩ := hxs.exists_name
  refine ⟨t :: us ++ q :: ys ++ [c], by simp, ?_⟩
  show Statement _ (.assign r e t.loc)
  rw [← hloc]
  exact .assign hxs hq hys hc

/-- What is read behind the keyword that a statement opens with. -/
def statementRest (nested : Parser (List Stmt)) (loc : Location) : Keyword → Parser Stmt
  | .IF => ifRest nested loc
  | .DO => do
    if ← accept (.keyword .WHILE) then whileRest nested loc else loopRest nested loc
  | .SELECT => selectRest nested loc
  | .PUT => putRest loc
  | .GET => getRest loc
  | .OPEN => openRest loc
  | .READ => readRest loc
  | .WRITE => writeRest loc
  | .CLOSE => closeRest loc
  | .EXEC => execRest loc
  | _ => unexpected .statement .unspecified

/-- The keywords at the front of statements. -/
def opening : List Keyword :=
  [.IF, .DO, .SELECT, .PUT, .GET, .OPEN, .READ, .WRITE, .CLOSE, .EXEC]

/-- The token can begin a statement. -/
def Begins (k : Token.Kind) : Prop := (∃ n, k = .name n) ∨ ∃ w ∈ opening, k = .keyword w

/-- A statement that opens with a keyword is decided by it. -/
theorem statementOf_keyword {k : Keyword} (ht : t.kind = .keyword k)
    (hk : k ∈ opening) (ts : List Token) :
    statementOf nested (t :: ts) = statementRest nested t.loc k ts := by
  have hne : t.kind ≠ .eof := by simp [ht]
  rw [statementOf, peek_bind, front_cons, ht]
  fin_cases hk <;> exact advance_bind hne ts _

/-- No statement is read in front of a token that begins none. -/
theorem begins_of_statementOf
    (h : statementOf nested ts = .ok s rest) : Begins (front ts).kind := by
  rw [statementOf, peek_bind] at h
  cases hk : (front ts).kind with
  | name n => exact .inl ⟨n, rfl⟩
  | keyword k =>
    by_contra hnot
    have hk' : k ∉ opening := fun hk' => hnot (.inr ⟨k, hk', rfl⟩)
    cases k <;> first
      | exact absurd (by decide) hk'
      | simp [hk] at h
  | _ => simp [hk] at h

/-- Each of the ten forms is sound, so the rest of a statement is. -/
theorem sound_statementRest (h : Sound nested Group) {k : Keyword} (hk : t.kind = .keyword k) :
    Sound (statementRest nested t.loc k) fun xs => Statement (t :: xs) := by
  cases k with
  | IF => exact sound_ifRest h hk
  -- the word behind `DO` tells the two loops apart
  | DO =>
    intro ts s rest hts
    rcases (accept_bind_ok_iff (by simp)).mp hts with ⟨w, mid, hw, rfl, hwhile⟩ | ⟨-, hloop⟩
    · obtain ⟨xs, rfl, hxs⟩ := sound_whileRest h hk hw hwhile
      exact ⟨w :: xs, rfl, hxs⟩
    · exact sound_loopRest h hk hloop
  | SELECT => exact sound_selectRest h hk
  | PUT => exact sound_putRest hk
  | GET => exact sound_getRest hk
  | OPEN => exact sound_openRest hk
  | READ => exact sound_readRest hk
  | WRITE => exact sound_writeRest hk
  | CLOSE => exact sound_closeRest hk
  | EXEC => exact sound_execRest hk
  | _ => exact fun _ _ _ hts => absurd hts (unexpected_ne_ok _ _ _ _ _)

/-- What is read as a statement is one, if what is nested in it is a group. -/
theorem sound_statementOf (h : Sound nested Group) : Sound (statementOf nested) Statement := by
  intro ts s rest hts
  rcases begins_of_statementOf hts with ⟨n, hn⟩ | ⟨k, hk, hkind⟩
  · rw [statementOf, peek_bind] at hts
    simp only [hn] at hts
    exact sound_assignment hts
  · obtain ⟨t, tail, rfl⟩ := exists_cons_of_front (show (front ts).kind ≠ .eof by simp [hkind])
    rw [front_cons] at hkind
    rw [statementOf_keyword hkind hk] at hts
    obtain ⟨xs, rfl, hxs⟩ := sound_statementRest h hkind hts
    exact ⟨t :: xs, rfl, hxs⟩

/-- A group is a statement or a block without a condition. -/
theorem sound_groupOf (h : Sound nested Group) : Sound (groupOf nested) Group := by
  intro ts ss rest hts
  obtain ⟨b, mid, hat, hts⟩ := bind_ok_iff.mp hts
  injection hat with hb hmid
  subst hmid
  cases b with
  | true =>
    rw [decide_eq_true_iff] at hb
    -- `atGroup` has looked at two tokens, which are now taken one by one
    obtain ⟨hd, hs⟩ := hb
    obtain ⟨d, tail, rfl⟩ := exists_cons_of_front (show (front ts).kind ≠ .eof by simp [hd])
    rw [front_cons] at hd
    have hdne : d.kind ≠ .eof := by simp [hd]
    rw [behind_cons hdne] at hs
    obtain ⟨s, tail, rfl⟩ := exists_cons_of_front (show (front tail).kind ≠ .eof by simp [hs])
    rw [front_cons] at hs
    have hsne : s.kind ≠ .eof := by simp [hs]
    simp only [if_true] at hts
    rw [advance_bind hdne, advance_bind hsne] at hts
    simp only [bind_ok_iff, closing_ok_iff, pure_ok_iff] at hts
    obtain ⟨body, _, hbody, _, _, ⟨es, hes, rfl⟩, rfl, rfl⟩ := hts
    obtain ⟨xs, rfl, bodies, hxs, rfl⟩ := sound_statementsOf h hbody
    exact ⟨[d, s] ++ xs ++ es, by simp, .block (by simp [hd, hs]) hxs hes⟩
  | false =>
    obtain ⟨xs, s, mid, rfl, hxs, hlast⟩ := (sound_statementOf h).of_bind hts
    obtain ⟨rfl, rfl⟩ := pure_ok_iff.mp hlast
    exact ⟨xs, rfl, .single hxs⟩

end

/-- Whatever is read as a group is one, at every depth. -/
theorem sound_group : Sound group Group := by
  -- soundness holds at every depth; the length of the input is only one of them
  have hwithin : ∀ depth, Sound (groupWithin depth) Group := by
    intro depth
    induction depth with
    | zero => exact fun ts ss rest hts => absurd hts (unexpected_ne_ok _ _ _ _ _)
    | succ depth ih => exact sound_groupOf ih
  exact fun ts _ _ hts => hwithin ts.length hts

/-- Whatever is read as the statements of a program is a body. -/
theorem sound_statements : Sound statements Body := sound_statementsOf sound_group

/-! ## How statements begin -/

/-- A statement begins with one of its keywords or with a name. -/
theorem Statement.exists_begins {s : Stmt} (h : Statement xs s) :
    ∃ t us, xs = t :: us ∧ Begins t.kind := by
  cases h with
  | assign hxs =>
    obtain ⟨t, us, n, rfl, ht, -⟩ := hxs.exists_name
    exact ⟨t, _, rfl, .inl ⟨n, ht⟩⟩
  | ifElse ht => exact ⟨_, _, rfl, .inr ⟨.IF, by decide, ht⟩⟩
  | doWhile ht | doLoop ht => exact ⟨_, _, rfl, .inr ⟨.DO, by decide, ht⟩⟩
  | select ht => exact ⟨_, _, rfl, .inr ⟨.SELECT, by decide, ht⟩⟩
  | put ht => exact ⟨_, _, rfl, .inr ⟨.PUT, by decide, ht⟩⟩
  | get ht => exact ⟨_, _, rfl, .inr ⟨.GET, by decide, ht⟩⟩
  | openFile ht => exact ⟨_, _, rfl, .inr ⟨.OPEN, by decide, ht⟩⟩
  | read ht => exact ⟨_, _, rfl, .inr ⟨.READ, by decide, ht⟩⟩
  | write ht => exact ⟨_, _, rfl, .inr ⟨.WRITE, by decide, ht⟩⟩
  | closeFile ht => exact ⟨_, _, rfl, .inr ⟨.CLOSE, by decide, ht⟩⟩
  | query ht => exact ⟨_, _, rfl, .inr ⟨.EXEC, by decide, ht⟩⟩

theorem Group.exists_begins {xs : List Token} {ss : List Stmt} (h : Group xs ss) :
    ∃ t us, xs = t :: us ∧ Begins t.kind := by
  cases h with
  | single hs => exact hs.exists_begins
  | block hhs =>
    obtain ⟨d, s, rfl, hd, -⟩ := exists_pair hhs
    exact ⟨d, _, rfl, .inr ⟨.DO, by decide, hd⟩⟩

/-- A group has tokens, so a row of groups ends. -/
theorem Group.ne_nil {ss : List Stmt} (h : Group xs ss) : xs ≠ [] := by
  obtain ⟨t, us, rfl, -⟩ := h.exists_begins
  simp

/-- A statement is not taken for a group: behind a `DO` of its own stands
`WHILE` or a name. -/
theorem Statement.not_atGroup {s : Stmt} (h : Statement xs s) (rest : List Token) :
    ¬((front (xs ++ rest)).kind = .keyword .DO ∧
      (front (behind (xs ++ rest))).kind = .symbol .semicolon) := by
  rintro ⟨hd, hs⟩
  cases h with
  | assign hxs =>
    obtain ⟨t, us, n, rfl, ht, -⟩ := hxs.exists_name
    simp [ht] at hd
  -- behind the `DO` of a loop stands `WHILE` or a name, never a semicolon
  | doWhile hdo hhs =>
    obtain ⟨w, o, rfl, hw, -⟩ := exists_pair hhs
    simp [behind, hdo, hw] at hs
  | doLoop hdo hvs =>
    obtain ⟨t, us, n, rfl, ht, -⟩ := hvs.exists_name
    simp [behind, hdo, ht] at hs
  | ifElse ht | select ht | put ht | get ht | openFile ht | read ht | write ht | closeFile ht
  | query ht => simp [ht] at hd

/-! ## Completeness -/

section

variable {n : Nat} {nested : Parser (List Stmt)}

/-- Every body in front of `END` is read as such. The rounds do not stop early, since each group
begins as one. -/
theorem complete_statementsOf (h : Complete n nested Group (fun _ => True)) :
    Complete n (statementsOf nested) Body (fun rest => (front rest).kind = .keyword .END) := by
  have hmany := complete_many (n := n) (R := Group) (p := groupRound nested)
    (F := fun rest => (front rest).kind = .keyword .END) (G := fun _ => True)
    ?round ?stop (fun _ _ hR => hR.ne_nil) (fun _ _ _ _ => trivial) (fun _ _ => trivial)
  case round =>
    intro xs ss rest hlength hxs _
    have hnested : (do return some (← nested) : Parser (Option (List Stmt))) (xs ++ rest) =
        .ok (some ss) rest := by
      rw [bind_of_ok (h hlength hxs trivial)]
      rfl
    obtain ⟨t, us, rfl, hbegins⟩ := hxs.exists_begins
    rw [groupRound, peek_bind, List.cons_append, front_cons]
    obtain ⟨m, ht⟩ | ⟨w, hw, ht⟩ := hbegins
    · simp only [ht]
      exact hnested
    · cases w with
      -- neither `END` nor a declaration begins a group, so the round reads on
      | END | DCL => exact absurd hw (by decide)
      | _ =>
        simp only [ht]
        exact hnested
  case stop =>
    intro rest hend
    rw [groupRound, peek_bind]
    simp only [hend]
    rfl
  rintro xs _ rest hlength ⟨bodies, hxs, rfl⟩ hend
  rw [statementsOf_eq, bind_of_ok (hmany hlength hxs hend)]
  rfl

variable {xs es : List Token} {s q : Token}

/-- A row of groups with the `END;` behind it. -/
theorem complete_body (h : Complete n nested Group (fun _ => True))
    {bodies : List (List Stmt)} (hlength : xs.length ≤ n) (hxs : Repeated Group xs bodies)
    (hes : es.map Token.kind = [.keyword .END, .symbol .semicolon]) (place : Place)
    {α : Type} (f : List Stmt → α) (rest : List Token) : (do
      let body ← statementsOf nested
      closing place
      return f body : Parser α) (xs ++ (es ++ rest)) = .ok (f bodies.flatten) rest := by
  -- the statements end at the `END`, which begins none
  have hend : (front (es ++ rest)).kind = .keyword .END := by
    obtain ⟨e, s, rfl, he, -⟩ := exists_pair hes
    exact he
  rw [bind_of_ok (complete_statementsOf h hlength ⟨bodies, hxs, rfl⟩ hend),
    bind_of_ok (closing_ok_iff (u := ()).mpr ⟨es, hes, rfl⟩)]
  rfl

/-- Every file that is given is read, whatever follows. -/
theorem complete_file (n : Nat) : Complete n file FileGiven (fun _ => True) := by
  rintro _ name rest - ⟨hhs, hv, hname, hc⟩ -
  obtain ⟨f, o, rfl, hf, ho⟩ := exists_pair hhs
  rw [file]
  simp only [List.cons_append, List.nil_append]
  rw [keyword_bind hf, symbol_bind ho, bind_of_ok (fileName_ok_iff.mpr ⟨_, _, hv, hname, rfl⟩),
    symbol_bind hc]
  rfl

/-- A step ends in front of the semicolon, and so does a loop without one. -/
theorem complete_loopStep (n : Nat) : Complete n loopStep Stepped
    (fun rest => (front rest).kind = .symbol .semicolon) := by
  intro xs step rest hlength hxs hend
  rw [loopStep]
  cases hxs with
  | absent =>
    rw [List.nil_append, bind_of_ok (accept_other (by simp [hend]))]
    rfl
  | @given t us e ht hus =>
    -- the step ends at the semicolon, as every expression does there
    have hends : Ends .concat rest := by
      intro m hm
      rw [hend] at hm
      injection hm with hm
      exact hm ▸ rfl
    rw [List.cons_append, bind_of_ok (accept_cons (by simp) ht _)]
    show (expr >>= _) _ = _
    rw [bind_of_ok (complete_expr _ (Nat.le_refl _) hus hends)]
    rfl

/-- With a step or without one, no expression goes on behind the limit. -/
theorem Stepped.ends {ks : List Token} {step : Option Expr} (h : Stepped ks step)
    (hs : s.kind = .symbol .semicolon) (rest : List Token) : Ends .concat (ks ++ s :: rest) := by
  cases h with
  | absent => exact ends_of_symbol hs rfl _
  | given ht => exact ends_of_keyword ht _

/-- A loop that counts is read with its variable, bounds, step and body. -/
theorem complete_loopRest (h : Complete n nested Group (fun _ => True)) {t : Token}
    {vs ys ks zs : List Token} {v : Reference} {start limit : Expr} {step : Option Expr}
    {bodies : List (List Stmt)} (hvs : Referenced vs v) (hq : q.kind = .symbol .eq)
    (hxs : Expression .concat xs start) (ht : t.kind = .keyword .TO)
    (hys : Expression .concat ys limit) (hks : Stepped ks step)
    (hs : s.kind = .symbol .semicolon) (hzs : Repeated Group zs bodies)
    (hes : es.map Token.kind = [.keyword .END, .symbol .semicolon]) (hlength : zs.length ≤ n)
    (loc : Location) (rest : List Token) : loopRest nested loc
      (vs ++ q :: (xs ++ t :: (ys ++ (ks ++ s :: (zs ++ (es ++ rest)))))) =
      .ok (.doLoop v start limit step bodies.flatten loc) rest := by
  -- read the variable before its first token is exposed for the test of `loopRest`
  have hreference := complete_reference vs.length (Nat.le_refl _) hvs
    (ends_of_symbol hq rfl (xs ++ t :: (ys ++ (ks ++ s :: (zs ++ (es ++ rest))))))
  obtain ⟨w, us, m, rfl, hw, -⟩ := hvs.exists_name
  rw [loopRest, peek_bind, List.cons_append, front_cons]
  simp only [hw]
  rw [← List.cons_append, bind_of_ok hreference, symbol_bind hq,
    bind_of_ok (complete_expr _ (Nat.le_refl _) hxs (ends_of_keyword ht _)), keyword_bind ht,
    bind_of_ok (complete_expr _ (Nat.le_refl _) hys (hks.ends hs _)),
    bind_of_ok (complete_loopStep _ (Nat.le_refl _) hks (by simp [hs])), symbol_bind hs]
  exact complete_body h hlength hzs hes _ (fun body => Stmt.doLoop v start limit step body loc) rest

/-- The last branch is no `WHEN`, so the rounds end in front of it. -/
theorem Otherwise.front_ne_when {os : List Token} {last : Branches} (h : Otherwise os last)
    {rest : List Token} (hend : (Parser.front rest).kind = .keyword .END) :
    (Parser.front (os ++ rest)).kind ≠ .keyword .WHEN := by
  cases h with
  | absent => simp [hend]
  | other ht => simp [ht]

/-- All branches are read in front of something that is no `WHEN`. -/
theorem complete_whens (h : Complete n nested Group (fun _ => True)) :
    Complete n (many (when? nested)) (Repeated When)
      (fun rest => (front rest).kind ≠ .keyword .WHEN) := by
  refine complete_many (G := fun _ => True) ?round ?stop ?ne (fun _ _ _ _ => trivial)
    (fun _ _ => trivial)
  -- a `WHEN` is read up to the end of its body, whatever comes next
  case round =>
    rintro _ _ rest hlength ⟨hw, ho, hxs, hc, hys⟩ -
    simp only [List.length_append, List.length_cons] at hlength
    simp only [List.cons_append, List.append_assoc]
    rw [when?, peek_bind, front_cons, bind_of_ok (accept_cons (by simp) hw _)]
    simp only [if_true]
    rw [symbol_bind ho, bind_of_ok (complete_arguments (complete_expr _) (Nat.le_refl _) hxs hc _),
      symbol_bind hc, bind_of_ok (h (by omega) hys trivial)]
    rfl
  -- without the keyword the round ends and takes nothing
  case stop =>
    intro rest hrest
    rw [when?, peek_bind, bind_of_ok (accept_other hrest)]
    rfl
  case ne =>
    rintro _ _ ⟨-⟩
    simp

/-- The last branch is read, and so is its absence. -/
theorem complete_lastBranch (h : Complete n nested Group (fun _ => True)) :
    Complete n (lastBranch nested) Otherwise
      (fun rest => (front rest).kind = .keyword .END) := by
  intro os last rest hlength hos hend
  rw [lastBranch]
  cases hos with
  -- without the keyword nothing is taken, since an `END` follows
  | absent =>
    rw [List.nil_append, bind_of_ok (accept_other (by simp [hend]))]
    rfl
  | other ht hxs =>
    rw [List.length_cons] at hlength
    rw [List.cons_append, bind_of_ok (accept_cons (by simp) ht _)]
    show (nested >>= _) _ = _
    rw [bind_of_ok (h (by omega) hxs trivial)]
    rfl

/-- A selection with at least one `WHEN` is read. -/
theorem complete_selectRest (h : Complete n nested Group (fun _ => True)) {o p : Token}
    {ws os : List Token} {subject : Expr} {whens : List (List Expr × List Stmt × Location)}
    {last : Branches} (ho : o.kind = .symbol .lparen) (hxs : Expression .concat xs subject)
    (hp : p.kind = .symbol .rparen) (hq : q.kind = .symbol .semicolon)
    (hws : Repeated When ws whens) (hne : whens ≠ []) (hos : Otherwise os last)
    (hes : es.map Token.kind = [.keyword .END, .symbol .semicolon])
    (hwlength : ws.length ≤ n) (holength : os.length ≤ n) (loc : Location) (rest : List Token) :
    selectRest nested loc (o :: (xs ++ p :: q :: (ws ++ (os ++ (es ++ rest))))) =
      .ok (.select subject (branchesOf whens last) loc) rest := by
  have hend : (front (es ++ rest)).kind = .keyword .END := by
    obtain ⟨e, s, rfl, he, -⟩ := exists_pair hes
    exact he
  rw [selectRest, symbol_bind ho,
    bind_of_ok (complete_expr _ (Nat.le_refl _) hxs (ends_of_symbol hp rfl _)),
    symbol_bind hp, symbol_bind hq,
    bind_of_ok (complete_whens h hwlength hws (hos.front_ne_when hend)),
    -- behind the last branch stands `OTHERWISE` or `END`, so the row of branches stops there
    if_neg (by simpa using hne)]
  show (lastBranch nested >>= _) _ = _
  rw [bind_of_ok (complete_lastBranch h holength hos hend), peek_bind, if_neg (by simp [hend])]
  show (closing _ >>= _) _ = _
  rw [bind_of_ok (closing_ok_iff (u := ()).mpr ⟨es, hes, rfl⟩)]
  rfl

/-- Both forms of the items of `PUT` are read. -/
theorem complete_putRest {items : List Expr} (hxs : Listed xs items)
    (hs : s.kind = .symbol .semicolon) (loc : Location) (rest : List Token) :
    putRest loc (xs ++ s :: rest) = .ok (.put items loc) rest := by
  rw [putRest]
  cases hxs with
  | skip hk =>
    have hitems : putItems true (s :: rest) = .ok [] (s :: rest) := by
      rw [putItems, bind_of_ok (accept_other (by simp [hs]))]
      rfl
    rw [List.singleton_append, bind_of_ok (accept_cons (by simp) hk _), bind_of_ok hitems,
      symbol_bind hs]
    rfl
  | @items skips hs' us c _ hskips hhs hus hc =>
    obtain ⟨l, o, rfl, hl, ho⟩ := exists_pair hhs
    -- a list is read in the same way with and without `SKIP` before it
    have hitems : ∀ skip, putItems skip (l :: o :: (us ++ c :: s :: rest)) =
        .ok items (s :: rest) := by
      intro skip
      rw [putItems, bind_of_ok (accept_cons (by simp) hl _)]
      simp only [if_true]
      rw [symbol_bind ho,
        bind_of_ok (complete_arguments (complete_expr _) (Nat.le_refl _) hus hc _), symbol_bind hc]
      rfl
    simp only [List.append_assoc, List.cons_append, List.nil_append]
    cases hskips with
    | absent =>
      rw [List.nil_append, bind_of_ok (accept_other (by simp [hl])), bind_of_ok (hitems _),
        symbol_bind hs]
      rfl
    | given hk =>
      rw [List.singleton_append, bind_of_ok (accept_cons (by simp) hk _), bind_of_ok (hitems _),
        symbol_bind hs]
      rfl

/-- `READ` and `WRITE` differ in one keyword and in what is made of the two parts. -/
theorem complete_transfer {w o p : Token} {ys : List Token} {name : String} {r : Reference}
    {k : Keyword} (hxs : FileGiven xs name) (hw : w.kind = .keyword k)
    (ho : o.kind = .symbol .lparen) (hys : Referenced ys r) (hp : p.kind = .symbol .rparen)
    (hq : q.kind = .symbol .semicolon) (wordPlace endPlace : Place)
    (make : String → Reference → Stmt) (rest : List Token) : (do
      let name ← file
      keyword k wordPlace
      let r ← enclosedReference
      symbol .semicolon endPlace
      return make name r : Parser Stmt) (xs ++ w :: o :: (ys ++ p :: q :: rest)) =
      .ok (make name r) rest := by
  -- a name in parentheses is a reference that ends at the parenthesis
  have henclosed : enclosedReference (o :: (ys ++ p :: q :: rest)) = .ok r (q :: rest) := by
    rw [enclosedReference, symbol_bind ho,
      bind_of_ok (complete_reference _ (Nat.le_refl _) hys (ends_of_symbol hp rfl _)),
      symbol_bind hp]
    rfl
  rw [bind_of_ok (complete_file _ (Nat.le_refl _) hxs trivial), keyword_bind hw,
    bind_of_ok henclosed, symbol_bind hq]
  rfl

/-- A query is read with its target, with a colon in front of it or without. -/
theorem complete_execRest {w i : Token} {cs : List Token} {sql : String}
    {target : Reference} (hw : w.kind = .keyword .SQL) (hq : q.kind = .query sql)
    (hi : i.kind = .keyword .INTO) (hcs : Optional (.symbol .colon) cs)
    (hxs : Referenced xs target) (hs : s.kind = .symbol .semicolon) (loc : Location)
    (rest : List Token) :
    execRest loc (w :: q :: i :: (cs ++ (xs ++ s :: rest))) = .ok (.query sql target loc) rest := by
  have hreference := complete_reference _ (Nat.le_refl _) hxs (ends_of_symbol hs rfl rest)
  have hcolon : ∃ b, accept (.symbol .colon) (cs ++ (xs ++ s :: rest)) =
      .ok b (xs ++ s :: rest) := by
    cases hcs with
    -- without the colon the name of the target is at the front
    | absent =>
      obtain ⟨t, us, n, rfl, ht, -⟩ := hxs.exists_name
      exact ⟨false, accept_other (by simp [ht])⟩
    | given ht => exact ⟨true, accept_cons (by simp) ht _⟩
  obtain ⟨b, hb⟩ := hcolon
  rw [execRest, keyword_bind hw, peek_bind, front_cons]
  simp only [hq]
  rw [advance_bind (by simp [hq]), keyword_bind hi, bind_of_ok hb, bind_of_ok hreference,
    symbol_bind hs]
  rfl

theorem complete_assignment {ys : List Token} {r : Reference} {e : Expr} (hxs : Referenced xs r)
    (hq : q.kind = .symbol .eq) (hys : Expression .concat ys e) (hs : s.kind = .symbol .semicolon)
    (loc : Location) (rest : List Token) :
    assignment loc (xs ++ q :: (ys ++ s :: rest)) = .ok (.assign r e loc) rest := by
  rw [assignment, bind_of_ok (complete_reference _ (Nat.le_refl _) hxs (ends_of_symbol hq rfl _)),
    symbol_bind hq, bind_of_ok (complete_expr _ (Nat.le_refl _) hys (ends_of_symbol hs rfl _)),
    symbol_bind hs]
  rfl

/-- A choice is read with both of its branches. -/
theorem complete_ifRest (h : Complete n nested Group (fun _ => True)) {t e : Token}
    {ys zs : List Token} {c : Condition} {yes no : List Stmt} (hxs : Tested xs c)
    (ht : t.kind = .keyword .THEN) (hys : Group ys yes) (he : e.kind = .keyword .ELSE)
    (hzs : Group zs no) (hyes : ys.length ≤ n) (hno : zs.length ≤ n) (loc : Location)
    (rest : List Token) : ifRest nested loc (xs ++ t :: (ys ++ e :: (zs ++ rest))) =
      .ok (.ifElse c yes no loc) rest := by
  rw [ifRest, bind_of_ok (complete_condition _ (Nat.le_refl _) hxs (ends_of_keyword ht _)),
    keyword_bind ht, bind_of_ok (h hyes hys trivial), keyword_bind he,
    bind_of_ok (h hno hzs trivial)]
  rfl

/-- A loop with a condition is read with its body. -/
theorem complete_whileRest (h : Complete n nested Group (fun _ => True)) {o : Token}
    {ms ys : List Token} {c : Condition} {bodies : List (List Stmt)}
    (ho : o.kind = .symbol .lparen) (hxs : Tested xs c)
    (hms : ms.map Token.kind = [.symbol .rparen, .symbol .semicolon])
    (hys : Repeated Group ys bodies)
    (hes : es.map Token.kind = [.keyword .END, .symbol .semicolon]) (hlength : ys.length ≤ n)
    (loc : Location) (rest : List Token) :
    whileRest nested loc (o :: (xs ++ (ms ++ (ys ++ (es ++ rest))))) =
      .ok (.doWhile c bodies.flatten loc) rest := by
  obtain ⟨p, q, rfl, hp, hq⟩ := exists_pair hms
  simp only [List.cons_append, List.nil_append]
  rw [whileRest, symbol_bind ho,
    bind_of_ok (complete_condition _ (Nat.le_refl _) hxs (ends_of_symbol hp rfl _)),
    symbol_bind hp, symbol_bind hq]
  exact complete_body h hlength hys hes _ (fun body => Stmt.doWhile c body loc) rest

theorem complete_getRest {hs : List Token} {targets : List Reference}
    (hhs : hs.map Token.kind = [.keyword .LIST, .symbol .lparen])
    (hxs : Separated Referenced xs targets)
    (hes : es.map Token.kind = [.symbol .rparen, .symbol .semicolon]) (loc : Location)
    (rest : List Token) : getRest loc (hs ++ (xs ++ (es ++ rest))) = .ok (.get targets loc) rest := by
  obtain ⟨l, o, rfl, hl, ho⟩ := exists_pair hhs
  obtain ⟨p, q, rfl, hp, hq⟩ := exists_pair hes
  -- the list ends at the closing parenthesis, which is no comma
  have htargets := complete_commaList (complete_reference _)
    (fun t ts ht => ends_of_symbol ht rfl ts) (Nat.le_refl _) hxs
    ⟨ends_of_symbol hp rfl (q :: rest), by simp [hp]⟩
  simp only [List.cons_append, List.nil_append]
  rw [getRest, keyword_bind hl, symbol_bind ho, bind_of_ok htargets, symbol_bind hp, symbol_bind hq]
  rfl

/-- A file is opened with the mode that its keyword says. -/
theorem complete_openRest {m : Token} {k : Keyword} {name : String} {mode : FileMode}
    (hxs : FileGiven xs name) (hm : m.kind = .keyword k) (hopens : Opens k mode)
    (hs : s.kind = .symbol .semicolon) (loc : Location) (rest : List Token) :
    openRest loc (xs ++ m :: s :: rest) = .ok (.openFile name mode loc) rest := by
  rw [openRest, bind_of_ok (complete_file _ (Nat.le_refl _) hxs trivial),
    bind_of_ok (fileMode_ok_iff.mpr ⟨_, _, hm, hopens, rfl⟩), symbol_bind hs]
  rfl

theorem complete_closeRest {name : String} (hxs : FileGiven xs name)
    (hs : s.kind = .symbol .semicolon) (loc : Location) (rest : List Token) :
    closeRest loc (xs ++ s :: rest) = .ok (.closeFile name loc) rest := by
  rw [closeRest, bind_of_ok (complete_file _ (Nat.le_refl _) hxs trivial), symbol_bind hs]
  rfl

/-- Every statement of the rules is read as it is derived, if what is nested in it is. Its first
token tells which reader comes to it. -/
theorem complete_statementOf (h : Complete n nested Group (fun _ => True)) :
    Complete (n + 1) (statementOf nested) Statement (fun _ => True) := by
  rintro xs s rest hlength hxs -
  cases hxs with
  | @assign xs ys q s r e hvs hq hys hs =>
    have hassign := complete_assignment hvs hq hys hs r.loc rest
    -- only an assignment begins with a name
    obtain ⟨t, us, n, rfl, ht, hloc⟩ := hvs.exists_name
    simp only [List.cons_append, List.append_assoc, List.nil_append] at hassign ⊢
    rw [statementOf, peek_bind, front_cons]
    simp only [ht, ← hloc]
    exact hassign
  | ifElse hi hxs ht hys he hzs =>
    simp only [List.length_append, List.length_cons] at hlength
    simp only [List.cons_append, List.append_assoc]
    rw [statementOf_keyword hi (by decide)]
    exact complete_ifRest h hxs ht hys he hzs (by omega) (by omega) _ rest
  | doWhile hd hhs hxs hms hys hes =>
    obtain ⟨w, o, rfl, hw, ho⟩ := exists_pair hhs
    simp only [List.length_append, List.length_cons] at hlength
    simp only [List.cons_append, List.append_assoc, List.nil_append]
    rw [statementOf_keyword hd (by decide), statementRest, bind_of_ok (accept_cons (by simp) hw _)]
    exact complete_whileRest h ho hxs hms hys hes (by omega) _ rest
  | doLoop hd hvs hq hxs ht hys hks hs hzs hes =>
    have hloop := complete_loopRest h hvs hq hxs ht hys hks hs hzs hes
    obtain ⟨w, us, m, rfl, hw, -⟩ := hvs.exists_name
    simp only [List.length_append, List.length_cons] at hlength
    simp only [List.cons_append, List.append_assoc] at hloop ⊢
    -- the name of the variable is not `WHILE`
    rw [statementOf_keyword hd (by decide), statementRest, bind_of_ok (accept_other (by simp [hw]))]
    exact hloop (by omega) _ rest
  | select hk ho hxs hms hws hne hos hes =>
    obtain ⟨p, q, rfl, hp, hq⟩ := exists_pair hms
    simp only [List.length_append, List.length_cons] at hlength
    simp only [List.cons_append, List.append_assoc, List.nil_append]
    rw [statementOf_keyword hk (by decide)]
    exact complete_selectRest h ho hxs hp hq hws hne hos hes (by omega) (by omega) _ rest
  | put ht hxs hs =>
    simp only [List.cons_append, List.append_assoc, List.nil_append]
    rw [statementOf_keyword ht (by decide)]
    exact complete_putRest hxs hs _ rest
  | get ht hhs hxs hes =>
    simp only [List.cons_append, List.append_assoc]
    rw [statementOf_keyword ht (by decide)]
    exact complete_getRest hhs hxs hes _ rest
  | openFile ht hxs hm hopens hs =>
    simp only [List.cons_append, List.append_assoc, List.nil_append]
    rw [statementOf_keyword ht (by decide)]
    exact complete_openRest hxs hm hopens hs _ rest
  | read ht hxs hhs hys hes =>
    obtain ⟨w, o, rfl, hw, ho⟩ := exists_pair hhs
    obtain ⟨p, q, rfl, hp, hq⟩ := exists_pair hes
    simp only [List.cons_append, List.append_assoc, List.nil_append]
    rw [statementOf_keyword ht (by decide)]
    exact complete_transfer hxs hw ho hys hp hq _ _ (fun name r => Stmt.read name r _) rest
  | write ht hxs hhs hys hes =>
    obtain ⟨w, o, rfl, hw, ho⟩ := exists_pair hhs
    obtain ⟨p, q, rfl, hp, hq⟩ := exists_pair hes
    simp only [List.cons_append, List.append_assoc, List.nil_append]
    rw [statementOf_keyword ht (by decide)]
    exact complete_transfer hxs hw ho hys hp hq _ _ (fun name r => Stmt.write name r _) rest
  | closeFile ht hxs hs =>
    simp only [List.cons_append, List.append_assoc, List.nil_append]
    rw [statementOf_keyword ht (by decide)]
    exact complete_closeRest hxs hs _ rest
  | query ht hw hq hi hcs hxs hs =>
    simp only [List.cons_append, List.append_assoc, List.nil_append]
    rw [statementOf_keyword ht (by decide)]
    exact complete_execRest hw hq hi hcs hxs hs _ rest

/-- Every group is read at a depth that its length leaves room for, if those nested in it are. -/
theorem complete_groupOf (h : Complete n nested Group (fun _ => True)) :
    Complete (n + 1) (groupOf nested) Group (fun _ => True) := by
  rintro xs ss rest hlength hxs -
  rw [groupOf]
  cases hxs with
  | single hs =>
    -- the test for `DO;` lets every other statement through
    have hat : atGroup (xs ++ rest) = .ok false (xs ++ rest) := by
      rw [atGroup, decide_eq_false (hs.not_atGroup rest)]
    rw [bind_of_ok hat]
    show (statementOf nested >>= _) _ = _
    rw [bind_of_ok (complete_statementOf h hlength hs trivial)]
    rfl
  | block hhs hus hes =>
    obtain ⟨d, s, rfl, hd, hs⟩ := exists_pair hhs
    have hdne : d.kind ≠ .eof := by simp [hd]
    have hsne : s.kind ≠ .eof := by simp [hs]
    simp only [List.length_append, List.length_cons] at hlength
    simp only [List.cons_append, List.append_assoc, List.nil_append]
    rename_i us es bodies
    have hat : atGroup (d :: s :: (us ++ (es ++ rest))) =
        .ok true (d :: s :: (us ++ (es ++ rest))) := by
      rw [atGroup, decide_eq_true (by simp [behind, hd, hs])]
    rw [bind_of_ok hat]
    simp only [if_true]
    rw [advance_bind hdne, advance_bind hsne]
    exact complete_body h (by omega) hus hes _ id rest

end

/-- So a depth is enough for all groups that are no longer than it. -/
theorem complete_groupWithin (depth : Nat) :
    Complete depth (groupWithin depth) Group (fun _ => True) := by
  induction depth with
  | zero =>
    intro xs ss rest hlength hxs
    -- no group is empty, so nothing is asked at depth zero
    exact absurd (List.length_eq_zero_iff.mp (Nat.le_zero.mp hlength)) hxs.ne_nil
  | succ depth ih => exact complete_groupOf ih

/-- The number of tokens left is always enough. -/
theorem complete_group (n : Nat) : Complete n group Group (fun _ => True) := by
  intro xs ss rest _ hxs
  rw [group]
  apply complete_groupWithin _ _ hxs
  rw [List.length_append]
  omega

/-- Every body in front of `END` is read. -/
theorem complete_statements (n : Nat) :
    Complete n statements Body (fun rest => (front rest).kind = .keyword .END) :=
  complete_statementsOf (complete_group n)

end Plic.Grammar
