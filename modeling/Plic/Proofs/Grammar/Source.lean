import Plic.Proofs.Grammar.Offending
import Plic.Proofs.Grammar.Parsed
import Plic.Proofs.Grammar.Parts
import Plic.Proofs.Token.Tiling

/-!
# Programs and the order of their source

A source may be read on after a program or a fault. Whatever was asked of its
reader before, the tokens that are left are an end of the source's tokens, so
every program that is read comes from well-formed tokens in the order of their
places.

The references of a program are listed here as they stand in the source: those
of a statement before those of the next, the values of a `WHEN` before its body,
a variable before its subscripts. Each starts at a token of its own, so their
places increase along the list.

Main results:

* `Reader.Reached.program_declared` — every program that is read is well formed.
* `Program.mem_references` — the list holds every reference of the program.
* `Reader.Reached.pairwise_references` — its places increase.
-/

namespace Plic

/-! ## Readers of a source -/

/-- The states of a reader of the source, whatever was asked of it before. -/
inductive Reader.Reached (source : String) : Reader → Prop where
  | start : Reached source (Reader.ofSource source)
  | program {r : Reader} : Reached source r → Reached source r.program.2
  | takeDiagnostics {r : Reader} : Reached source r → Reached source r.takeDiagnostics.2

namespace Grammar

open Plic.Parser

/-- The tokens that a program leaves, read or refused, are an end of those it began with. -/
theorem suffix_of_halts {ts rest : List Token} {o : Except Fault Program}
    (h : Halts program ts o rest) : rest <:+ ts := by
  obtain ⟨xs, hxs⟩ := settledAt_program 0 ts h
  exact ⟨xs, hxs.split.symm⟩

end Grammar

namespace Reader

/-- What a request for a program answers and leaves is one run of the parser. -/
theorem halts_program (r : Reader) :
    Parser.Halts Grammar.program r.rest r.program.1 r.program.2.rest := by
  unfold Reader.program
  cases h : Grammar.program r.rest with
  | ok p rest => exact .ok h
  | error f rest => exact .error h

variable {source : String} {r : Reader}

/-- Whatever was asked of a reader, an end of the source's tokens is left. -/
theorem Reached.suffix (h : Reached source r) : r.rest <:+ (Lexer.ofSource source).tokenize.1 := by
  induction h with
  | start => exact List.suffix_refl _
  | @program r _ ih => exact (Grammar.suffix_of_halts r.halts_program).trans ih
  | takeDiagnostics _ ih => exact ih

/-- Every program that is read from a source is well formed, and so are its declarations. -/
theorem Reached.program_declared (h : Reached source r)
    {p : Program} (hp : r.program.1 = .ok p) : p.Formed ∧ ∀ d ∈ p.declarations, d.Formed := by
  have hrun := r.halts_program
  rw [hp, Parser.halts_ok_iff] at hrun
  have htokens : ∀ t ∈ r.rest, t.Formed :=
    fun t ht => Lexer.formed_tokens source t (h.suffix.subset ht)
  exact (Grammar.keeps_program htokens hrun).1

theorem Reached.program_formed (h : Reached source r) {p : Program}
    (hp : r.program.1 = .ok p) : p.Formed :=
  (h.program_declared hp).1

end Reader

/-! ## References in order -/

/-- The reference that an expression is, if it is one. -/
def Expr.reference? : Expr → Option Reference
  | .var name subscripts loc => some ⟨name, subscripts, loc⟩
  | _ => none

theorem Expr.reference?_eq_some_iff {e : Expr} {r : Reference} :
    e.reference? = some r ↔ e = r.toExpr := by
  obtain ⟨name, subscripts, loc⟩ := r
  cases e <;> simp [Expr.reference?, Reference.toExpr]

/-- The references in an expression in the order of the source, a variable before its subscripts. -/
def Expr.references (e : Expr) : List Reference := e.parts.filterMap Expr.reference?

/-- The references in a list of expressions. -/
def referencesOfAll (es : List Expr) : List Reference := (partsOfAll es).filterMap Expr.reference?

mutual

/-- The references of a statement, as they stand in the source. -/
def Stmt.references : Stmt → List Reference
  | .ifElse c yes no _ =>
    referencesOfAll [c.left, c.right] ++ (blockReferences yes ++ blockReferences no)
  | .doWhile c body _ => referencesOfAll [c.left, c.right] ++ blockReferences body
  | .doLoop var start limit step body _ =>
    referencesOfAll (var.toExpr :: start :: limit :: step.toList) ++ blockReferences body
  | .select subject branches _ => subject.references ++ branches.references
  | s => referencesOfAll s.roots

/-- The references of statements in a row. -/
def blockReferences : List Stmt → List Reference
  | [] => []
  | s :: ss => s.references ++ blockReferences ss

/-- The references in branches, the values of each before its body. -/
def Branches.references : Branches → List Reference
  | .done => []
  | .other body => blockReferences body
  | .when values body _ rest => referencesOfAll values ++ (blockReferences body ++ rest.references)

end

/-- The references in the statements of a program. -/
def Program.references (p : Program) : List Reference := blockReferences p.statements

section

variable {r : Reference}

theorem Expr.mem_references {e : Expr} : r ∈ e.references ↔ r.toExpr ∈ e.parts := by
  simp [Expr.references, List.mem_filterMap, Expr.reference?_eq_some_iff]

/-- An expression has the references of its operands. -/
theorem Expr.references_of_operand {o e : Expr} (h : o ∈ e.operands) :
    o.references ⊆ e.references := by
  intro r hr
  rw [Expr.mem_references] at hr ⊢
  exact Expr.mem_parts_iff.mpr (.inr ⟨o, h, hr⟩)

theorem mem_referencesOfAll {es : List Expr} :
    r ∈ referencesOfAll es ↔ r.toExpr ∈ partsOfAll es := by
  simp [referencesOfAll, List.mem_filterMap, Expr.reference?_eq_some_iff]

mutual

/-- The references of a statement are those of all statements nested in it. -/
theorem Stmt.mem_references (s : Stmt) :
    r ∈ s.references ↔ ∃ t ∈ s.nested, r.toExpr ∈ t.parts := by
  match s with
  | .ifElse c yes no loc =>
    simp only [Stmt.references, List.mem_append, mem_referencesOfAll, mem_blockReferences yes,
      mem_blockReferences no, Stmt.nested, List.exists_mem_cons_iff, or_and_right, exists_or,
      Stmt.parts, Stmt.roots]
  | .doWhile c body loc | .doLoop var start limit step body loc =>
    simp only [Stmt.references, List.mem_append, mem_referencesOfAll, mem_blockReferences body,
      Stmt.nested, List.exists_mem_cons_iff, Stmt.parts, Stmt.roots]
  | .select subject branches loc =>
    -- the values of the branches are told as expressions of the `SELECT` itself
    simp only [Stmt.references, List.mem_append, Expr.mem_references, branches.mem_references,
      Stmt.nested, List.exists_mem_cons_iff, Stmt.parts, Stmt.roots, partsOfAll, or_assoc]
  | .assign .. | .put .. | .get .. | .openFile .. | .read .. | .write .. | .closeFile ..
  | .query .. =>
    simp only [Stmt.references, mem_referencesOfAll, Stmt.nested, List.exists_mem_cons_iff,
      List.not_mem_nil, false_and, exists_false, or_false, Stmt.parts]

theorem mem_blockReferences (ss : List Stmt) :
    r ∈ blockReferences ss ↔ ∃ t ∈ nestedOfAll ss, r.toExpr ∈ t.parts := by
  match ss with
  | [] => simp [blockReferences, nestedOfAll]
  | s :: ss =>
    simp only [blockReferences, List.mem_append, s.mem_references, mem_blockReferences ss,
      nestedOfAll, or_and_right, exists_or]

theorem Branches.mem_references (b : Branches) :
    r ∈ b.references ↔
      r.toExpr ∈ partsOfAll b.values ∨ ∃ t ∈ b.nested, r.toExpr ∈ t.parts := by
  match b with
  | .done => simp [Branches.references, Branches.values, Branches.nested, partsOfAll]
  | .other body =>
    simp [Branches.references, Branches.values, Branches.nested, partsOfAll,
      mem_blockReferences body]
  | .when values body loc rest =>
    simp only [Branches.references, List.mem_append, mem_referencesOfAll,
      mem_blockReferences body, rest.mem_references, Branches.values, Branches.nested,
      mem_partsOfAll, or_and_right, exists_or]
    rw [← or_assoc]
    exact or_or_or_comm

end

/-- The list holds every reference of the program. -/
theorem Program.mem_references {p : Program} : r ∈ p.references ↔ r.toExpr ∈ p.parts := by
  simp [Program.references, mem_blockReferences, Program.parts, Program.nested]

end

/-! ## References in the order of their places -/

/-- The references start at tokens of the stretch, in its order. -/
def StartAt (rs : List Reference) (xs : List Token) : Prop :=
  (rs.map Reference.loc).Sublist (xs.map Token.loc)

namespace StartAt

variable {rs ss : List Reference} {xs ys : List Token}

theorem nil (xs : List Token) : StartAt [] xs := List.nil_sublist _

/-- Stretches that are put together have their references one after the other. -/
theorem append (hrs : StartAt rs xs) (hss : StartAt ss ys) : StartAt (rs ++ ss) (xs ++ ys) := by
  unfold StartAt
  rw [List.map_append, List.map_append]
  exact List.Sublist.append hrs hss

/-- A reference that starts at the token in front. -/
theorem cons {r : Reference} {t : Token} (hloc : r.loc = t.loc) (hrs : StartAt rs xs) :
    StartAt (r :: rs) (t :: xs) := by
  unfold StartAt
  rw [List.map_cons, List.map_cons, hloc]
  exact List.Sublist.cons_cons _ hrs

/-- The list may be written in another way. -/
theorem of_eq (hrs : StartAt rs xs) (h : ss = rs) : StartAt ss xs := h ▸ hrs

/-- No reference starts at the tokens in front. -/
theorem lead (us : List Token) (hrs : StartAt rs xs) : StartAt rs (us ++ xs) :=
  (nil us).append hrs

/-- A token in front at which nothing starts. -/
theorem skip (t : Token) (hrs : StartAt rs xs) : StartAt rs (t :: xs) := hrs.lead [t]

/-- No reference starts at the tokens behind. -/
theorem trail (hrs : StartAt rs xs) (vs : List Token) : StartAt rs (xs ++ vs) := by
  simpa using hrs.append (nil vs)

end StartAt

@[simp] theorem referencesOfAll_nil : referencesOfAll [] = [] := rfl

@[simp] theorem referencesOfAll_cons (e : Expr) (es : List Expr) :
    referencesOfAll (e :: es) = e.references ++ referencesOfAll es := by
  simp [referencesOfAll, partsOfAll, Expr.references]

/-- A reference stands before its subscripts. -/
theorem Reference.references_toExpr (r : Reference) :
    r.toExpr.references = r :: referencesOfAll r.subscripts := rfl

/-- The left operand stands before the right one. -/
theorem Expr.references_binary (op : Operator) (l r : Expr) (loc : Location) :
    (Expr.binary op l r loc).references = l.references ++ r.references := by
  rw [Expr.references, Expr.parts, List.filterMap_cons_none rfl, List.filterMap_append]
  rfl

namespace Grammar

open Plic.Parser

mutual

/-- Each reference of an expression starts at a token of its own, in the order of the list, by
induction along the rules. -/
theorem Expression.startAt {tier : Tier} {xs : List Token} {e : Expr} (h : Expression tier xs e) :
    StartAt e.references xs := by
  match h with
  | .operand _ h => exact h.startAt
  | .binary (t := t) _ hl _ hr =>
    rw [Expr.references_binary]
    exact hl.startAt.append (hr.startAt.skip t)
  | .minus (t := t) _ h => exact h.startAt.skip t
  | .plus (t := t) _ h => exact h.startAt.skip t
  | .number _ => exact .nil _
  | .text _ => exact .nil _
  | .reference h => exact h.startAt
  | .enclosed (o := o) (c := c) _ h _ => exact (h.startAt.skip o).trail [c]
  | .call (t := t) (o := o) (c := c) _ _ _ hargs _ _ =>
    exact (((startAt_of_separated hargs).skip o).skip t).trail [c]
  | .endfile .. => exact .nil _

theorem Referenced.startAt {xs : List Token} {r : Reference} (h : Referenced xs r) :
    StartAt r.toExpr.references xs := by
  match h with
  | .scalar _ => exact .cons rfl (.nil _)
  | .element (o := o) (c := c) _ _ hsubscripts _ =>
    rw [Reference.references_toExpr]
    exact .cons rfl (((startAt_of_separated hsubscripts).skip o).trail [c])

theorem startAt_of_separated {xs : List Token} {es : List Expr}
    (h : Separated (Expression .concat) xs es) : StartAt (referencesOfAll es) xs := by
  match h with
  | .one h => simpa using h.startAt
  | .more h _ hs =>
    rw [referencesOfAll_cons]
    exact h.startAt.append ((startAt_of_separated hs).skip _)

end

theorem Compared.startAt {xs : List Token} {c : Condition} (h : Compared xs c) :
    StartAt (referencesOfAll [c.left, c.right]) xs := by
  cases h with
  | intro hl _ _ hr => simpa using hl.startAt.append (hr.startAt.skip _)

theorem Tested.startAt {xs : List Token} {c : Condition} (h : Tested xs c) :
    StartAt (referencesOfAll [c.left, c.right]) xs := by
  cases h with
  | bare h => exact h.startAt
  | enclosed _ h _ => exact (h.startAt.skip _).trail _

theorem startAt_of_separated_referenced {xs : List Token} {rs : List Reference}
    (h : Separated Referenced xs rs) : StartAt (referencesOfAll (rs.map Reference.toExpr)) xs := by
  induction h with
  | one h => simpa using h.startAt
  | more h _ _ ih =>
    rw [List.map_cons, referencesOfAll_cons]
    exact h.startAt.append (ih.skip _)

theorem Listed.startAt {xs : List Token} {items : List Expr} (h : Listed xs items) :
    StartAt (referencesOfAll items) xs := by
  cases h with
  | skip _ => exact .nil _
  | items _ _ hitems _ => exact ((startAt_of_separated hitems).lead _).trail _

theorem Stepped.startAt {xs : List Token} {step : Option Expr} (h : Stepped xs step) :
    StartAt (referencesOfAll step.toList) xs := by
  cases h with
  | absent => exact .nil _
  | given _ h => simpa using h.startAt.skip _

/-- Blocks that are put together have their references one after the other. -/
theorem blockReferences_append (ss ts : List Stmt) :
    blockReferences (ss ++ ts) = blockReferences ss ++ blockReferences ts := by
  induction ss with
  | nil => rfl
  | cons s ss ih => rw [List.cons_append, blockReferences, blockReferences, ih, List.append_assoc]

/-- The references in a `WHEN`, its values before its body. -/
def whenReferences (w : List Expr × List Stmt × Location) : List Reference :=
  referencesOfAll w.1 ++ blockReferences w.2.1

/-- Branches are built from the last one, and yet their references are in order. -/
theorem references_branchesOf (whens : List (List Expr × List Stmt × Location))
    (last : Branches) :
    (branchesOf whens last).references = whens.flatMap whenReferences ++ last.references := by
  induction whens with
  | nil => rfl
  | cons w ws ih =>
    have hcons : (branchesOf (w :: ws) last).references =
        referencesOfAll w.1 ++ (blockReferences w.2.1 ++ (branchesOf ws last).references) := rfl
    rw [hcons, ih, List.flatMap_cons, whenReferences]
    simp only [List.append_assoc]

mutual

/-- Each reference of a statement starts at a token of its own, by induction along the rules. -/
theorem Statement.startAt {xs : List Token} {s : Stmt} (h : Statement xs s) :
    StartAt s.references xs := by
  match h with
  | .assign hr _ he _ =>
    -- the stretches of the parts in the order of the tokens, which is the order of the list
    refine .of_eq ((hr.startAt.append (he.startAt.skip _)).trail _) ?_
    simp [Stmt.references, Stmt.roots]
  | .ifElse _ hc _ hyes _ hno =>
    refine .of_eq
      (((hc.startAt.skip _).append (hyes.startAt.skip _)).append (hno.startAt.skip _)) ?_
    simp [Stmt.references]
  | .doWhile _ _ hc _ hbody _ =>
    refine .of_eq
      ((((hc.startAt.lead _).trail _).append (startAt_of_repeated hbody)).trail _) ?_
    simp [Stmt.references]
  | .doLoop _ hv _ hs _ hl hk _ hbody _ =>
    -- the head of a loop in its order: variable, start, limit, step
    have hbounds := fun d q t => (((hv.startAt.skip d).append (hs.startAt.skip q)).append
      (hl.startAt.skip t)).append hk.startAt
    refine .of_eq (((hbounds _ _ _).append ((startAt_of_repeated hbody).skip _)).trail _) ?_
    simp [Stmt.references]
  | .select _ _ hs _ hws _ hlast _ =>
    refine .of_eq ((((((hs.startAt.skip _).skip _).trail _).append
      (startAt_of_repeated_when hws)).append hlast.startAt).trail _) ?_
    simp [Stmt.references, references_branchesOf]
  | .put _ hitems _ => exact (hitems.startAt.skip _).trail _
  | .get _ _ htargets _ => exact ((startAt_of_separated_referenced htargets).lead _).trail _
  | .openFile .. => exact .nil _
  | .read _ _ _ hr _ | .write _ _ _ hr _ =>
    refine .of_eq ((hr.startAt.lead _).trail _) ?_
    simp [Stmt.references, Stmt.roots]
  | .closeFile .. => exact .nil _
  | .query _ _ _ _ _ hr _ =>
    refine .of_eq ((hr.startAt.lead _).trail _) ?_
    simp [Stmt.references, Stmt.roots]

theorem Group.startAt {xs : List Token} {ss : List Stmt} (h : Group xs ss) :
    StartAt (blockReferences ss) xs := by
  match h with
  | .single h => simpa [blockReferences] using h.startAt
  | .block _ hbodies _ => exact ((startAt_of_repeated hbodies).lead _).trail _

theorem startAt_of_repeated {xs : List Token} {bodies : List (List Stmt)}
    (h : Repeated Group xs bodies) : StartAt (blockReferences bodies.flatten) xs := by
  match h with
  | .nil => exact .nil _
  | .cons h hs =>
    rw [List.flatten_cons, blockReferences_append]
    exact h.startAt.append (startAt_of_repeated hs)

theorem startAt_of_repeated_when {xs : List Token}
    {whens : List (List Expr × List Stmt × Location)} (h : Repeated When xs whens) :
    StartAt (whens.flatMap whenReferences) xs := by
  match h with
  | .nil => exact .nil _
  | .cons h hs =>
    rw [List.flatMap_cons]
    exact h.startAt.append (startAt_of_repeated_when hs)

theorem When.startAt {xs : List Token} {w : List Expr × List Stmt × Location} (h : When xs w) :
    StartAt (whenReferences w) xs := by
  match h with
  | .intro _ _ hvalues _ hbody =>
    exact (((startAt_of_separated hvalues).skip _).skip _).append (hbody.startAt.skip _)

theorem Otherwise.startAt {xs : List Token} {last : Branches} (h : Otherwise xs last) :
    StartAt last.references xs := by
  match h with
  | .absent => exact .nil _
  | .other _ h => exact h.startAt.skip _

end

/-- The statements of a program are derived from a stretch of its tokens. -/
theorem exists_body_of_program {ts rest : List Token} {p : Program}
    (h : program ts = .ok p rest) :
    ∃ before xs behind, ts = before ++ xs ++ behind ∧ Body xs p.statements := by
  rw [program, peek_bind] at h
  obtain ⟨name, mid, hheader, h⟩ := bind_ok_iff.mp h
  obtain ⟨n, hs, -, -, rfl⟩ := header_ok_iff.mp hheader
  obtain ⟨ds, last, hdeclarations, h⟩ := bind_ok_iff.mp h
  obtain ⟨xs, rfl, -⟩ := Definite.exists_stop (fun _ => definite_declarations) (.ok hdeclarations)
  obtain ⟨ys, ss, mid, rfl, hys, h⟩ := sound_statements.of_bind h
  -- what comes behind the statements does not change them
  obtain ⟨_, mid', -, h⟩ := bind_ok_iff.mp h
  obtain ⟨b, mid'', -, h⟩ := bind_ok_iff.mp h
  cases b with
  | true =>
    injection h with hp
    subst hp
    exact ⟨n :: (hs ++ xs), ys, mid, by simp, hys⟩
  | false =>
    obtain ⟨_, _, hunexpected, -⟩ := bind_ok_iff.mp h
    exact absurd hunexpected (unexpected_ne_ok _ _ _ _ _)

end Grammar

namespace Lexer

/-- Every piece of a text starts before the text ends. -/
theorem before_end_of_mem_placed {cs : List Char} {ps : List Piece} (h : Cut cs ps)
    (l : Location) : ∀ q ∈ placed l ps, q.1.Before (l.after cs) := by
  induction h generalizing l with
  | nil =>
    intro q hq
    simp [placed] at hq
  -- a piece has at least one character, so the end lies behind its start
  | @cons p rest ps hne _ _ ih =>
    intro q hq
    rw [placed] at hq
    rcases List.mem_cons.mp hq with rfl | hq
    · exact Location.before_after (by simp [hne]) l
    · rw [Location.after_append]
      exact ih (l.after p.text) q hq

/-- A token has the place of the piece that it comes from. -/
theorem tokenOf_loc {q : Location × Piece} {t : Token} (h : t ∈ tokenOf q) : t.loc = q.1 := by
  obtain ⟨l, p⟩ := q
  cases p with
  | token kind text =>
    rw [tokenOf, Option.mem_def, Option.some.injEq] at h
    rw [← h]
  | blank c | comment text | dropped problem text => simp [tokenOf] at h

/-- The places of the tokens of a source increase, up to and with its end. -/
theorem pairwise_tokens (source : String) :
    (ofSource source).tokenize.1.Pairwise fun s t => s.loc.Before t.loc := by
  have hcut := cut_pieces source.toList
  show ((placed .start (pieces source.toList)).filterMap tokenOf ++
    [Token.endOfSource (Location.start.after source.toList)]).Pairwise _
  rw [List.pairwise_append]
  refine ⟨?_, List.pairwise_singleton _ _, ?_⟩
  -- tokens stand where their pieces stand, and these follow one another
  · apply (pairwise_placed hcut .start).filterMap
    intro a b hab s hs t ht
    rw [tokenOf_loc hs, tokenOf_loc ht]
    exact hab
  -- the end of the source is behind every piece
  · intro s hs t ht
    obtain ⟨q, hq, hs⟩ := List.mem_filterMap.mp hs
    rw [List.mem_singleton] at ht
    subst ht
    rw [tokenOf_loc hs]
    exact before_end_of_mem_placed hcut .start q hq

end Lexer

/-- The references of a program start at tokens of its source, in their order. -/
theorem Reader.Reached.startAt_references {source : String} {r : Reader}
    (h : Reader.Reached source r) {p : Program} (hp : r.program.1 = .ok p) :
    StartAt p.references (Lexer.ofSource source).tokenize.1 := by
  have hrun := r.halts_program
  rw [hp, Parser.halts_ok_iff] at hrun
  obtain ⟨before, xs, behind, hts, bodies, hxs, hss⟩ := Grammar.exists_body_of_program hrun
  -- each reference starts at a token of its own
  have hstart : StartAt p.references r.rest := by
    rw [Program.references, hss, hts]
    exact ((Grammar.startAt_of_repeated hxs).lead before).trail behind
  exact List.Sublist.trans hstart (h.suffix.sublist.map _)

/-- The places of the references of a program increase. -/
theorem Reader.Reached.pairwise_references {source : String} {r : Reader}
    (h : Reader.Reached source r) {p : Program} (hp : r.program.1 = .ok p) :
    p.references.Pairwise fun x y => x.loc.Before y.loc := by
  have htokens := List.pairwise_map.mpr (Lexer.pairwise_tokens source)
  exact List.pairwise_map.mp (List.Pairwise.sublist (h.startAt_references hp) htokens)

end Plic
