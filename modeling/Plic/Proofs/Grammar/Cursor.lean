import Plic.Proofs.Grammar.Source
import Plic.Proofs.Grammar.Walks

/-!
# The cursor stays on the row

Every parser of the grammar is walked to where it ends, with the cursor on a token
of the row at each step. Nested parsers are entered behind a token that the outer
one has taken, so the number of tokens that are left bounds how deep they go, and
each of their successful runs takes a token, which ends the loops around them.

Main result: `Reader.cursor_on_row`.
-/

namespace Plic

namespace Grammar

open Plic.Parser

variable {n : Nat}

/-- Parsers that are bounded by the number of tokens that are left: a row has at least one. -/
theorem follows_sized {α : Type} {q q' p : Parser α} {w : Nat → Parser α}
    (hp : ∀ ts, p ts = w ts.length ts)
    (hwalks : ∀ ts o rest, Walks q' ts o rest → Walks q ts o rest)
    (h : ∀ k, Follows ⊤ k q (w k) → Follows ⊤ (k + 1) q' (w (k + 1))) : Follows ⊤ n q p := by
  have hwithin : ∀ k, Follows ⊤ k q (w k) := by
    intro k
    induction k with
    | zero =>
      -- no row is this short
      intro ts hrow hle
      obtain ⟨t, us, rfl⟩ := hrow.exists_cons
      exact absurd hle (by simp)
    | succ k ih => exact fun ts hrow hle => (h k ih hrow hle).imp (hwalks ts)
  exact fun ts hrow _ => (hwithin ts.length hrow (Nat.le_refl _)).congr (hp ts)

/-! ## Expressions and conditions -/

/-- The name of a file is one token, and it is taken only if it is well formed. -/
theorem follows_fileName : Follows ⊤ n fileName fileName := by
  refine .peek fun t => ?_
  split
  · rename_i value hk
    dsimp only
    split
    · exact .advance (by simp [hk]) (follows_done _)
    · exact (follows_refuse _ _).from t
  · exact (follows_unexpected _ _).from t

section

variable {q p : Parser Expr}

/-- A row of operators goes on at an operator only. The token at the end is none, so the rounds stop
at it at the latest. -/
theorem follows_tier (h : Follows ⊤ n q p) (operator : Token.Kind → Option Operator)
    (hoperator : operator .eof = none) : Follows ⊤ n (tier operator q) (tier operator p) := by
  refine h.after fun _ => (Follows.many (.peek fun t => ?_)).bind fun _ => follows_done _
  cases hop : operator t.kind with
  | none => exact (follows_pure (by simp)).from t
  | some op =>
    refine .advance (fun heof => ?_) (h.after fun _ => follows_done _)
    rw [heof, hoperator] at hop
    cases hop

/-- Signs are taken as long as there are any. -/
theorem follows_signed (h : Follows ⊤ n q p) : Follows ⊤ n (signed q) (signed p) := by
  refine (Follows.many (.peek fun t => ?_)).bind fun _ => h.after fun _ => follows_done _
  split
  · rename_i hk
    exact .advance (by simp [hk]) (follows_done _)
  · rename_i hk
    exact .advance (by simp [hk]) (follows_done _)
  · exact (follows_pure (by simp)).from t

/-- A reference takes its name, so its subscripts are in a shorter row. -/
theorem follows_referenceOf (h : Follows ⊤ n q p) :
    Follows ⊤ (n + 1) (referenceOf q) (referenceOf p) :=
  (follows_look .peek).bind fun _ => follows_identifier.after_of_le (Nat.le_refl _) fun _ =>
    .accept (by simp)
      (h.commaList.after fun _ => (follows_symbol _ _).after fun _ => follows_done _)
      (follows_done _)

/-- A call takes its keyword before its arguments. -/
theorem follows_callOf (h : Follows ⊤ n q p) (function : Builtin) :
    Follows ⊤ (n + 1) (callOf q function) (callOf p function) :=
  (follows_look .peek).bind fun _ => (follows_look .advance).bind fun _ =>
    (follows_symbol _ _).after_of_le (Nat.le_refl _) fun _ => h.commaList.after fun _ =>
      (follows_symbol _ _).after fun _ => .ite (follows_done _) (follows_refuse _ _)

/-- The test for the end of a file takes its keyword. -/
theorem follows_endfile : Follows ⊤ n endfile endfile :=
  (follows_look .peek).bind fun _ => (follows_look .advance).bind fun _ =>
    (follows_symbol _ _).after fun _ => follows_fileName.after fun _ =>
      (follows_symbol _ _).after fun _ => follows_done _

/-- Whatever a primary expression starts with is taken before something nested is entered. -/
theorem follows_primary (h : Follows ⊤ n q p) : Follows ⊤ (n + 1) (primary q) (primary p) := by
  refine .peek fun t => ?_
  split
  case h_1 hk => exact .advance (by simp [hk]) (follows_done _)
  case h_2 hk => exact .advance (by simp [hk]) (follows_done _)
  case h_3 => exact ((follows_referenceOf h).after fun _ => follows_done _).from t
  case h_4 hk =>
    -- the parenthesis is taken, so the bound may be smaller inside
    exact .advance_of_le (by simp [hk]) (Nat.le_refl _)
      (h.after fun _ => (follows_symbol _ _).after fun _ => follows_done _)
  case h_5 => exact follows_endfile.from t
  case h_6 word _ hk =>
    cases builtinOf word with
    | none => exact (follows_unexpected _ _).from t
    | some function => exact (follows_callOf h function).from t
  case h_7 => exact (follows_unexpected _ _).from t

end

/-- The bound on the depth of an expression is the number of tokens left, which is enough. -/
theorem follows_expr : Follows ⊤ n expr expr := by
  refine follows_sized (w := exprWithin) (fun _ => rfl) (fun _ _ _ => Walks.expr) fun k ih => ?_
  have hproduct := follows_tier (follows_signed (follows_primary ih)) productOperator rfl
  exact follows_tier (follows_tier hproduct sumOperator rfl) concatOperator rfl

/-- A reference takes at least its name. -/
theorem follows_reference : Follows ⊤ n reference reference :=
  (follows_referenceOf follows_expr).mono (Nat.le_succ n)

/-- A comparison takes at least its first operand. -/
theorem follows_comparison : Follows ⊤ n comparison comparison := by
  refine (follows_look .peek).bind fun _ => follows_expr.after fun _ => .peek fun t => ?_
  split
  · rename_i op hop
    refine .advance (fun heof => ?_) (follows_expr.after fun _ => follows_done _)
    rw [heof] at hop
    cases hop
  · exact (follows_unexpected _ _).from t

theorem follows_enclosedComparison : Follows ⊤ n enclosedComparison enclosedComparison :=
  (follows_symbol _ _).after fun _ => follows_comparison.after fun _ =>
    (follows_symbol _ _).after fun _ => follows_done _

/-- A condition that is tried in parentheses first may be read again from the same token, where the
cursor is back on the row. -/
theorem follows_condition : Follows ⊤ n condition condition := by
  intro ts hrow hle o rest hhalts
  cases henclosed : enclosedComparison ts with
  | ok c mid =>
    obtain ⟨rfl, rfl⟩ := hhalts.unique (.ok (condition_of_enclosed henclosed))
    obtain ⟨hwalk, hlt⟩ := follows_enclosedComparison hrow hle (.ok henclosed)
    exact ⟨.enclosed hwalk, hlt⟩
  | error e mid =>
    -- the attempt comes to an end too, and the comparison starts where the attempt did
    obtain ⟨hattempt, -⟩ := follows_enclosedComparison hrow hle (.error henclosed)
    rw [halts_congr (condition_of_error henclosed)] at hhalts
    obtain ⟨hwalk, hlt⟩ := follows_comparison hrow hle hhalts
    exact ⟨.bare hattempt hwalk, hlt⟩

/-! ## Declarations -/

/-- Extents may be absent, so nothing need be taken. -/
theorem follows_extents? : Follows ⊥ n extents? extents? :=
  (follows_look (.check _)).bind fun _ => .ite
    ((follows_symbol _ _).after fun _ => follows_integer.commaList.after fun _ =>
      (follows_symbol _ _).after fun _ => follows_done _)
    (follows_done _)

/-- Items are nested in parentheses, each of which is a token. -/
theorem follows_items : Follows ⊤ n items items := by
  refine follows_sized (w := itemsWithin) (fun _ => rfl) (fun _ _ _ => Walks.items) fun k ih => ?_
  refine .accept_of_le (by simp) (Nat.le_refl _) ?_ ?_
  -- a list in parentheses, or a name with nothing nested in it
  · exact ih.commaList.after fun _ => (follows_symbol _ _).after fun _ =>
      follows_extents?.bind fun _ => follows_done _
  · exact (follows_look .peek).bind fun _ => follows_identifier.after fun _ =>
      follows_extents?.bind fun _ => follows_done _

theorem follows_precision : Follows ⊤ n precision precision := by
  have hscale : Follows ⊥ n scale? scale? :=
    .accept (by simp) (follows_integer.after fun _ => follows_done _) (follows_done _)
  refine (follows_look .peek).bind fun _ => (follows_symbol _ _).after fun _ =>
    follows_integer.after fun _ => hscale.bind fun scale => (follows_symbol _ _).after fun _ =>
      .ite ?_ (follows_refuse_bind _ _)
  cases scale with
  | none => exact follows_done _
  | some q => exact .ite (follows_done _) (follows_refuse_bind _ _)

/-- The length of a text may be absent. -/
theorem follows_characterLength (loc : Location) :
    Follows ⊥ n (characterLength loc) (characterLength loc) := by
  have hwritten : Follows ⊥ n writtenLength writtenLength :=
    .accept (by simp)
      (follows_integer.after fun _ => (follows_symbol _ _).after fun _ => follows_done _)
      (follows_done _)
  exact hwritten.bind fun _ => .ite (follows_done _) (follows_refuse_bind _ _)

/-- An attribute that is found has taken its keyword. -/
theorem follows_attribute? (a : Attributes) :
    Follows (fun b? => b?.isSome) n (attribute? a) (attribute? a) := by
  refine .peek fun t => ?_
  split
  case h_6 hk =>
    exact .advance (by simp [hk]) ((follows_characterLength _).bind fun _ => follows_done _)
  case h_7 => exact (follows_pure (by simp)).from t
  all_goals
    rename_i hk
    exact .advance (by simp [hk]) (follows_done _)

/-- A precision behind the attributes may be absent. -/
theorem follows_attributePrecision (a : Attributes) :
    Follows ⊥ n (attributePrecision a) (attributePrecision a) :=
  (follows_look .peek).bind fun _ => .ite
    (.ite (follows_refuse_bind _ _) (follows_precision.after fun _ => follows_done _))
    (follows_done _)

/-- The rounds of attributes end, since each takes a keyword. -/
theorem follows_attributes : Follows ⊥ n attributes attributes := by
  have hnext : ∀ a, Follows (fun b? => b?.isSome) n (nextAttribute a) (nextAttribute a) := by
    intro a
    -- a round that goes on has taken the word of an attribute
    refine (follows_look .peek).bind fun t =>
      (follows_attribute? a).bind_of_le (Nat.le_succ n) (fun b? hb? => ?_) fun b? hb? => ?_
    · obtain ⟨⟨b, repeated⟩, rfl⟩ := Option.isSome_iff_exists.mp hb?
      exact .ite (follows_refuse_bind _ _)
        ((follows_attributePrecision _).bind fun _ => follows_done _)
    · obtain rfl := Option.not_isSome_iff_eq_none.mp hb?
      exact follows_pure (by simp)
  exact (Follows.fold hnext _).bind fun _ => .ite (follows_unexpected _ _) (follows_done _)

theorem follows_declaration : Follows ⊤ n declaration declaration := by
  refine (follows_look .peek).bind fun _ => (follows_keyword _ _).after fun _ =>
    follows_items.commaList.after fun _ => follows_attributes.bind fun a => ?_
  cases a.resolve with
  | error cause => exact follows_refuse _ _
  | ok type => exact (follows_symbol _ _).after fun _ => follows_done _

theorem follows_declarations : Follows ⊥ n declarations declarations :=
  Follows.many ((follows_look (.check _)).bind fun _ => .ite
    (follows_declaration.after fun _ => follows_done _) (follows_pure (by simp)))

/-! ## Statements -/

/-- The end of a group takes two tokens. -/
theorem follows_closing (place : Place) : Follows ⊤ n (closing place) (closing place) :=
  (follows_keyword _ _).after fun _ => follows_symbol _ _

/-- The file of a statement takes its keyword. -/
theorem follows_file : Follows ⊤ n file file :=
  (follows_keyword _ _).after fun _ => (follows_symbol _ _).after fun _ =>
    follows_fileName.after fun _ => (follows_symbol _ _).after fun _ => follows_done _

/-- A reference in parentheses takes its parenthesis. -/
theorem follows_enclosedReference : Follows ⊤ n enclosedReference enclosedReference :=
  (follows_symbol _ _).after fun _ => follows_reference.after fun _ =>
    (follows_symbol _ _).after fun _ => follows_done _

/-- The rest of `PUT`, in each of its two forms. -/
theorem follows_putRest (loc : Location) : Follows ⊥ n (putRest loc) (putRest loc) := by
  have hitems : ∀ skip, Follows ⊥ n (putItems skip) (putItems skip) := by
    intro skip
    refine .accept (by simp) ?_ ?_
    · exact (follows_symbol _ _).after fun _ => follows_expr.commaList.after fun _ =>
        (follows_symbol _ _).after fun _ => follows_done _
    · cases skip with
      | true => exact follows_done _
      | false => exact follows_unexpected _ _
  exact (follows_look (.accept _)).bind fun _ => (hitems _).bind fun _ =>
    (follows_symbol _ _).after fun _ => follows_done _

theorem follows_getRest (loc : Location) : Follows ⊥ n (getRest loc) (getRest loc) :=
  (follows_keyword _ _).after fun _ => (follows_symbol _ _).after fun _ =>
    follows_reference.commaList.after fun _ => (follows_symbol _ _).after fun _ =>
      (follows_symbol _ _).after fun _ => follows_done _

/-- The rest of `OPEN`, with the mode that it names. -/
theorem follows_openRest (loc : Location) : Follows ⊥ n (openRest loc) (openRest loc) := by
  have hmode : Follows ⊤ n fileMode fileMode := by
    refine .peek fun t => ?_
    split
    · rename_i hk
      exact .advance (by simp [hk]) (follows_done _)
    · rename_i hk
      exact .advance (by simp [hk]) (follows_done _)
    · exact (follows_unexpected _ _).from t
  exact follows_file.after fun _ => hmode.after fun _ =>
    (follows_symbol _ _).after fun _ => follows_done _

theorem follows_readRest (loc : Location) : Follows ⊥ n (readRest loc) (readRest loc) :=
  follows_file.after fun _ => (follows_keyword _ _).after fun _ =>
    follows_enclosedReference.after fun _ => (follows_symbol _ _).after fun _ => follows_done _

theorem follows_writeRest (loc : Location) : Follows ⊥ n (writeRest loc) (writeRest loc) :=
  follows_file.after fun _ => (follows_keyword _ _).after fun _ =>
    follows_enclosedReference.after fun _ => (follows_symbol _ _).after fun _ => follows_done _

theorem follows_closeRest (loc : Location) : Follows ⊥ n (closeRest loc) (closeRest loc) :=
  follows_file.after fun _ => (follows_symbol _ _).after fun _ => follows_done _

/-- The rest of a query, with the colon in front of its target or without. -/
theorem follows_execRest (loc : Location) : Follows ⊥ n (execRest loc) (execRest loc) := by
  refine (follows_keyword _ _).after fun _ => .peek fun t => ?_
  split
  · rename_i hk
    exact .advance (by simp [hk]) <| (follows_keyword _ _).after fun _ =>
      (follows_look (.accept _)).bind fun _ => follows_reference.after fun _ =>
        (follows_symbol _ _).after fun _ => follows_done _
  · exact (follows_unexpected _ _).from t

/-- An assignment takes the reference in front. -/
theorem follows_assignment (loc : Location) : Follows ⊤ n (assignment loc) (assignment loc) :=
  follows_reference.after fun _ => (follows_symbol _ _).after fun _ => follows_expr.after fun _ =>
    (follows_symbol _ _).after fun _ => follows_done _

section

variable {q p : Parser (List Stmt)}

/-- Groups are read until `END`, and each takes a token. -/
theorem follows_statementsOf (h : Follows ⊤ n q p) :
    Follows ⊥ n (statementsOf q) (statementsOf p) := by
  refine (Follows.many (.peek fun t => ?_)).bind fun _ => follows_done _
  split
  · exact (follows_pure (by simp)).from t
  · exact (follows_pure (by simp)).from t
  · exact (follows_refuse _ _).from t
  · exact (h.after fun _ => follows_done _).from t

/-- The statements of a block and its end. -/
theorem follows_body (h : Follows ⊤ n q p) (place : Place) {α : Type} (f : List Stmt → α) :
    Follows ⊥ n (do let body ← statementsOf q; closing place; return f body)
      (do let body ← statementsOf p; closing place; return f body) :=
  (follows_statementsOf h).bind fun _ => (follows_closing _).after fun _ => follows_done _

/-- The rest of `IF`, whose branches are nested. -/
theorem follows_ifRest (h : Follows ⊤ n q p) (loc : Location) :
    Follows ⊥ n (ifRest q loc) (ifRest p loc) :=
  follows_condition.after fun _ => (follows_keyword _ _).after fun _ => h.after fun _ =>
    (follows_keyword _ _).after fun _ => h.after fun _ => follows_done _

/-- The rest of a loop with a condition. -/
theorem follows_whileRest (h : Follows ⊤ n q p) (loc : Location) :
    Follows ⊥ n (whileRest q loc) (whileRest p loc) :=
  (follows_symbol _ _).after fun _ => follows_condition.after fun _ =>
    (follows_symbol _ _).after fun _ => (follows_symbol _ _).after fun _ => follows_body h _ _

theorem follows_loopRest (h : Follows ⊤ n q p) (loc : Location) :
    Follows ⊥ n (loopRest q loc) (loopRest p loc) := by
  have hstep : Follows ⊥ n loopStep loopStep :=
    .accept (by simp) (follows_expr.after fun _ => follows_done _) (follows_done _)
  refine (follows_look .peek).bind fun t => ?_
  split
  · exact follows_reference.after fun _ => (follows_symbol _ _).after fun _ =>
      follows_expr.after fun _ => (follows_keyword _ _).after fun _ => follows_expr.after fun _ =>
        hstep.bind fun _ => (follows_symbol _ _).after fun _ => follows_body h _ _
  · exact follows_unexpected _ _

/-- The rest of `SELECT`: each `WHEN` takes its keyword, so the rounds end. -/
theorem follows_selectRest (h : Follows ⊤ n q p) (loc : Location) :
    Follows ⊥ n (selectRest q loc) (selectRest p loc) := by
  -- a branch starts with its keyword, so each one reads a token
  have hwhen : Follows (fun b? => b?.isSome) n (when? q) (when? p) :=
    (follows_look .peek).bind fun _ => .accept (by simp)
      ((follows_symbol _ _).after fun _ => follows_expr.commaList.after fun _ =>
        (follows_symbol _ _).after fun _ => h.after fun _ => follows_done _)
      (follows_pure (by simp))
  have hlast : Follows ⊥ n (lastBranch q) (lastBranch p) :=
    .accept (by simp) (h.after fun _ => follows_done _) (follows_done _)
  refine (follows_symbol _ _).after fun _ => follows_expr.after fun _ =>
    (follows_symbol _ _).after fun _ => (follows_symbol _ _).after fun _ => hwhen.many.bind fun _ =>
      .ite (follows_unexpected_bind _ _) ?_
  exact hlast.bind fun _ => (follows_look .peek).bind fun _ =>
    .ite (follows_refuse_bind _ _) ((follows_closing _).after fun _ => follows_done _)

/-- Every statement takes its first token before what is nested in it. -/
theorem follows_statementOf (h : Follows ⊤ n q p) :
    Follows ⊤ (n + 1) (statementOf q) (statementOf p) := by
  refine .peek fun t => ?_
  -- a statement takes its first word, and its parts have the shorter row
  have hword {word : Keyword} (hk : t.kind = .keyword word) {g f : Unit → Parser Stmt}
      (hrest : Follows ⊥ n (g ()) (f ())) :
      FollowsFrom ⊤ (n + 1) t (advance >>= g) (advance >>= f) :=
    .advance_of_le (by simp [hk]) (Nat.le_refl _) hrest
  split
  case h_1 hk => exact hword hk (follows_ifRest h _)
  case h_2 hk => exact hword hk (.accept (by simp) (follows_whileRest h _) (follows_loopRest h _))
  case h_3 hk => exact hword hk (follows_selectRest h _)
  case h_4 hk => exact hword hk (follows_putRest _)
  case h_5 hk => exact hword hk (follows_getRest _)
  case h_6 hk => exact hword hk (follows_openRest _)
  case h_7 hk => exact hword hk (follows_readRest _)
  case h_8 hk => exact hword hk (follows_writeRest _)
  case h_9 hk => exact hword hk (follows_closeRest _)
  case h_10 hk => exact hword hk (follows_execRest _)
  case h_11 => exact (follows_assignment _).from t
  case h_12 => exact (follows_unexpected _ _).from t

/-- Where a group is at the front, so is its `DO`. -/
theorem follows_atGroup {α : Type} {S : α → Prop} {g f : Bool → Parser α}
    (h : ∀ t, t.kind = .keyword .DO → FollowsFrom S n t (g true) (f true))
    (h' : Follows S n (g false) (f false)) : Follows S n (atGroup >>= g) (atGroup >>= f) := by
  intro ts hrow hle o rest hhalts
  obtain ⟨t, us, rfl⟩ := hrow.exists_cons
  -- the look takes no token, and it tells that the first one is a `DO`
  obtain ⟨b, hb, hdo⟩ : ∃ b, atGroup (t :: us) = .ok b (t :: us) ∧
      (b = true → t.kind = .keyword .DO) :=
    ⟨_, rfl, fun hb => (of_decide_eq_true hb).1⟩
  have hnext : FollowsAt S (g b) (f b) (t :: us) := by
    cases b with
    | true => exact h t (hdo rfl) hrow hle
    | false => exact h' hrow hle
  obtain ⟨hwalk, hlt⟩ := hnext ((halts_congr (bind_of_ok hb)).mp hhalts)
  exact ⟨.bind (.look .atGroup (.ok hb)) hwalk, hlt⟩

theorem follows_groupOf (h : Follows ⊤ n q p) : Follows ⊤ (n + 1) (groupOf q) (groupOf p) := by
  refine follows_atGroup (fun t hk => ?_) ?_
  -- `DO` is taken for sure; of the semicolon nothing needs to be known
  · exact .advance_of_le (by simp [hk]) (Nat.le_refl _)
      ((follows_look .advance).bind fun _ => follows_body h _ id)
  · exact (follows_statementOf h).after fun _ => follows_done _

end

/-- Groups are bounded by the number of tokens left. -/
theorem follows_group : Follows ⊤ n group group :=
  follows_sized (w := groupWithin) (fun _ => rfl) (fun _ _ _ => Walks.group) fun _ =>
    follows_groupOf

/-- A statement takes at least one token. -/
theorem follows_statement : Follows ⊤ n (statementOf group) (statementOf group) :=
  (follows_statementOf follows_group).mono (Nat.le_succ n)

/-! ## Programs -/

/-- The header of a program takes its label. -/
theorem follows_header : Follows ⊤ n header header :=
  follows_name.after fun _ => (follows_symbol _ _).after fun _ => (follows_keyword _ _).after fun _ =>
    (follows_keyword _ _).after fun _ => (follows_symbol _ _).after fun _ =>
      (follows_keyword _ _).after fun _ => (follows_symbol _ _).after fun _ =>
        (follows_symbol _ _).after fun _ => follows_done _

/-- The end of a program takes its keyword. -/
theorem follows_ending (label : String) : Follows ⊤ n (ending label) (ending label) :=
  (follows_keyword _ _).after fun _ => (follows_look .peek).bind fun _ => .ite
    (follows_symbol _ _)
    (follows_name.after fun _ => .ite (follows_refuse_bind _ _) (follows_symbol _ _))

/-- A program is read with the cursor on the row from its header to its end. -/
theorem follows_program : Follows ⊤ n program program :=
  (follows_look .peek).bind fun _ => follows_header.after fun _ =>
    follows_declarations.bind fun _ => (follows_statementsOf follows_group).bind fun _ =>
      (follows_ending _).after fun _ => (follows_look (.check _)).bind fun _ =>
        .ite (follows_done _) (follows_unexpected_bind _ _)

end Grammar

/-! ## Positions -/

namespace Parser

variable {α : Type} {row rest : List Token} {k : Nat}

/-- From every position of the row a run of the parser comes to its end, with the cursor on a token
at each step. It ends at a position of the row that is no earlier, and a later one if it succeeds.
-/
def Proceeds (row : List Token) (p : Parser α) : Prop :=
  ∀ k < row.length, ∃ o, ∃ l < row.length,
    Halts p (row.drop k) o (row.drop l) ∧ Walks p (row.drop k) o (row.drop l) ∧
      k ≤ l ∧ ∀ a, o = .ok a → k < l

/-- What is left of a row in front of its end is a row again. -/
theorem Row.drop (h : Row row) (hk : k < row.length) : Row (row.drop k) := by
  rw [← List.take_append_drop k row] at h
  refine h.of_append fun hnil => ?_
  rw [List.drop_eq_nil_iff] at hnil
  omega

/-- An end of what is left behind `k` tokens is what is left behind some more. -/
theorem exists_drop_of_suffix (hsuffix : rest <:+ row.drop k) (hne : rest ≠ []) :
    ∃ l, k ≤ l ∧ l < row.length ∧ rest = row.drop l := by
  have hpos := List.length_pos_iff.mpr hne
  have hle := hsuffix.length_le
  rw [List.length_drop] at hle
  refine ⟨row.length - rest.length, by omega, by omega, ?_⟩
  exact List.suffix_iff_eq_drop.mp (hsuffix.trans (List.drop_suffix k row))

/-- A parser that follows every row never leaves it. -/
theorem proceeds_of_follows {p : Parser α} (h : ∀ n, Follows ⊤ n p p) (hrow : Row row) :
    Proceeds row p := by
  intro k hk
  have hstart := hrow.drop hk
  obtain ⟨o, rest, hhalts⟩ : ∃ o rest, Halts p (row.drop k) o rest := by
    cases hrun : p (row.drop k) with
    | ok a rest => exact ⟨_, _, .ok hrun⟩
    | error f rest => exact ⟨_, _, .error hrun⟩
  obtain ⟨hwalk, hlt⟩ := h _ hstart (Nat.le_refl _) hhalts
  obtain ⟨hrest, hsuffix⟩ := hwalk.row hstart
  -- the end of the row is still there, so what is left is a place in the row
  obtain ⟨t, us, hcons⟩ := hrest.exists_cons
  obtain ⟨l, hkl, hl, rfl⟩ := exists_drop_of_suffix hsuffix (hcons ▸ List.cons_ne_nil t us)
  refine ⟨o, l, hl, hhalts, hwalk, hkl, fun a ha => ?_⟩
  have hlength := hlt a ha trivial
  rw [List.length_drop, List.length_drop] at hlength
  omega

end Parser

namespace Reader

open Plic.Parser

/-- One request for a program takes the cursor from a position of the row to another. -/
theorem exists_drop_program {row : List Token} (h : Proceeds row Grammar.program) {r : Reader}
    {k : Nat} (hk : k < row.length) (hr : r.rest = row.drop k) :
    ∃ l < row.length, k ≤ l ∧ r.program.2.rest = row.drop l ∧
      Walks Grammar.program r.rest r.program.1 r.program.2.rest := by
  obtain ⟨o, l, hl, hhalts, hwalk, hkl, -⟩ := h k hk
  -- the request is the one run of the parser from there
  rw [← hr] at hhalts hwalk
  obtain ⟨ho, hrest⟩ := r.halts_program.unique hhalts
  rw [ho, hrest]
  exact ⟨l, hl, hkl, rfl, hwalk⟩

/-- Whatever was asked of a reader, it stands at some token of the row, by induction on what was
asked. -/
theorem Reached.exists_drop {source : String} {r : Reader} {row : List Token}
    (htokens : (Lexer.ofSource source).tokenize.1 = row) (hpos : 0 < row.length)
    (hprogram : Proceeds row Grammar.program) (h : Reached source r) :
    ∃ k < row.length, r.rest = row.drop k := by
  induction h with
  | start => exact ⟨0, hpos, htokens⟩
  | @program r _ ih =>
    obtain ⟨k, hk, hr⟩ := ih
    obtain ⟨l, hl, -, hrest, -⟩ := exists_drop_program hprogram hk hr
    exact ⟨l, hl, hrest⟩
  | takeDiagnostics _ ih => exact ih

/-- The tokens of a source are a row with its end behind it and nowhere else. Whatever was asked of
its reader before, the cursor is on the row, and a request for a program is walked to its end, which
is at a position no earlier. So is every part of a program, from every position, and a part that is
read takes a token. -/
theorem cursor_on_row (source : String) :
    ∃ body eof, (Lexer.ofSource source).tokenize.1 = body ++ [eof] ∧
      eof.kind = .eof ∧ (∀ t ∈ body, t.kind ≠ .eof) ∧
      (∀ r, Reached source r → ∃ k l, k ≤ l ∧ l ≤ body.length ∧
        r.rest = (body ++ [eof]).drop k ∧ r.program.2.rest = (body ++ [eof]).drop l ∧
        Walks Grammar.program r.rest r.program.1 r.program.2.rest) ∧
      Proceeds (body ++ [eof]) Grammar.expr ∧ Proceeds (body ++ [eof]) Grammar.condition ∧
      Proceeds (body ++ [eof]) Grammar.reference ∧
      Proceeds (body ++ [eof]) (Grammar.statementOf Grammar.group) ∧
      Proceeds (body ++ [eof]) Grammar.group ∧ Proceeds (body ++ [eof]) Grammar.declaration := by
  obtain ⟨body, eof, htokens, hbody, heof⟩ := Lexer.exists_tokens source
  have hne : ∀ t ∈ body, t.kind ≠ .eof := fun t ht => (hbody t ht).ne_eof
  -- the tokens of a source have their end at the end and nowhere else
  have hrow : Row (body ++ [eof]) := row_append heof hne
  have hlength : (body ++ [eof]).length = body.length + 1 := by simp
  have hprogram := proceeds_of_follows (fun _ => Grammar.follows_program) hrow
  refine ⟨body, eof, htokens, heof, hne, fun r hr => ?_, ?_, ?_, ?_, ?_, ?_, ?_⟩
  -- a reader that was asked before stands somewhere on the row
  · obtain ⟨k, hk, hrest⟩ := hr.exists_drop htokens (by omega) hprogram
    obtain ⟨l, hl, hkl, hrest', hwalk⟩ := exists_drop_program hprogram hk hrest
    exact ⟨k, l, hkl, by omega, hrest, hrest', hwalk⟩
  · exact proceeds_of_follows (fun _ => Grammar.follows_expr) hrow
  · exact proceeds_of_follows (fun _ => Grammar.follows_condition) hrow
  · exact proceeds_of_follows (fun _ => Grammar.follows_reference) hrow
  · exact proceeds_of_follows (fun _ => Grammar.follows_statement) hrow
  · exact proceeds_of_follows (fun _ => Grammar.follows_group) hrow
  · exact proceeds_of_follows (fun _ => Grammar.follows_declaration) hrow

end Reader

end Plic
