import Plic.Proofs.Lowering.Expr
import Plic.Proofs.Python.Lines

/-!
# Statements keep their order and nesting

The blocks that a statement is to be shown as are said directly on its tree
(`Stmt.Shown`), with the texts of their lines; the numbers count the temporaries
before and behind the statement. The code for a well-formed statement has these
blocks, and its lines can be read.

Main results:

* `Stmt.HasCode.shown` — the code for a statement can be read and is shown as it.
* `HasCodes.shown` — the same for statements in a row.
-/

namespace Plic

open Python (Reads temporaryName)
open Python.Layout (Block Unbroken orPass)

/-! ## How statements are shown -/

/-- The text is read as what the expression is to be. -/
def Expr.Shown (e : Expr) (text : String) : Prop := Reads text e.intended

/-- A comparison is shown by its sides with the relation between them. -/
inductive Condition.Shown : Condition → String → Prop where
  | intro {left right : Expr} {op : Relation} {loc : Location} {l r : String} :
      left.Shown l → right.Shown r →
      Shown ⟨left, op, right, loc⟩ (l ++ " " ++ op.lower.text ++ " " ++ r)

/-- What is stored into a variable: the value, cut to an integer where a
fraction would be stored into an integer variable. -/
def storedText (scope : Scope) (target : Reference) (value : Expr) (text : String) : String :=
  if scope.kindOf target.name = .integer ∧ value.valueKind scope = .decimal then
    "int(" ++ text ++ ")"
  else text

/-- The line that reads a variable from the input. -/
def getLine (target : Reference) (text : String) : Block :=
  .line (text ++ " = _pli_get(" ++ Python.quote target.name ++ ")")

/-- The test of a `WHEN`: one value is compared, several are looked through. -/
def whenText (subject : String) : List String → String
  | [value] => subject ++ " == " ++ value
  | values => subject ++ " in (" ++ ", ".intercalate values ++ ")"

/-- A value that is needed in every round of a loop: a literal is shown in its
place, anything else is stored into a new temporary ahead of the loop. -/
inductive Expr.Hoisted (role : String) : Nat → Expr → List Block → String → Nat → Prop where
  | literal {n : Nat} {e : Expr} {text : String} :
      e.value?.isSome → e.Shown text → Hoisted role n e [] text n
  | stored {n : Nat} {e : Expr} {text : String} :
      e.value? = none → e.Shown text →
      Hoisted role n e [.line (temporaryName role (n + 1) ++ " = " ++ text)]
        (temporaryName role (n + 1)) (n + 1)

/-- The test of an iterative `DO` and the line that ends each of its rounds. The
step is 1 if none is given; the sign of a literal settles the direction of the
test, that of any other step is asked for in every round. -/
inductive Rounds (var limit : String) :
    Nat → Option Expr → List Block → (test advance : String) → Nat → Prop where
  | one {n : Nat} : Rounds var limit n none [] (var ++ " <= " ++ limit) (var ++ " += 1") n
  | up {n k : Nat} {e : Expr} :
      e.value? = some (k : Int) →
      Rounds var limit n (some e) [] (var ++ " <= " ++ limit) (var ++ " += " ++ toString k) n
  | down {n k : Nat} {e : Expr} :
      e.value? = some (-k : Int) → 0 < k →
      Rounds var limit n (some e) [] (var ++ " >= " ++ limit) (var ++ " -= " ++ toString k) n
  | computed {n m : Nat} {e : Expr} {ahead : List Block} {text : String} :
      e.value? = none → e.Hoisted "by" n ahead text m →
      Rounds var limit n (some e) ahead
        ("(" ++ var ++ " <= " ++ limit ++ " if " ++ text ++ " >= 0 else " ++ var ++ " >= " ++ limit
          ++ ")")
        (var ++ " += " ++ text) m

/-- The word for the direction in which a file is opened. -/
def FileMode.text : FileMode → String
  | input => "'r'"
  | output => "'w'"

mutual

/-- The blocks that a statement is shown as. -/
inductive Stmt.Shown (scope : Scope) : Nat → Stmt → List Block → Nat → Prop where
  | assign {n : Nat} {target : Reference} {value : Expr} {loc : Location} {t v : String} :
      target.toExpr.Shown t → value.Shown v →
      Stmt.Shown scope n (.assign target value loc)
        [.line (t ++ " = " ++ storedText scope target value v)] n
  | ifElse {n m k : Nat} {c : Condition} {yes no : List Stmt} {loc : Location} {test : String}
      {ys ns : List Block} :
      c.Shown test → ShownAll scope n yes ys m → ShownAll scope m no ns k →
      Stmt.Shown scope n (.ifElse c yes no loc) [.branch test (orPass ys) (some (orPass ns))] k
  | doWhile {n m : Nat} {c : Condition} {body : List Stmt} {loc : Location} {test : String}
      {bs : List Block} :
      c.Shown test → ShownAll scope n body bs m →
      Stmt.Shown scope n (.doWhile c body loc) [.loop test (orPass bs)] m
  | doLoop {n m k j : Nat} {var : Reference} {start limit : Expr} {step : Option Expr}
      {body : List Stmt} {loc : Location} {v s l test advance : String}
      {ahead ahead' bs : List Block} :
      var.toExpr.Shown v → start.Shown s → limit.Hoisted "to" n ahead l m →
      Rounds v l m step ahead' test advance k → ShownAll scope k body bs j →
      Stmt.Shown scope n (.doLoop var start limit step body loc)
        (.line (v ++ " = " ++ s) :: ahead ++ ahead' ++ [.loop test (bs ++ [.line advance])]) j
  | select {n m : Nat} {subject : Expr} {branches : Branches} {loc : Location} {s : String}
      {bs : List Block} :
      subject.Shown s → Branches.Shown scope s n branches (some bs) m →
      Stmt.Shown scope n (.select subject branches loc) bs m
  | put {n : Nat} {items : List Expr} {loc : Location} {texts : List String} :
      List.Forall₂ Expr.Shown items texts →
      Stmt.Shown scope n (.put items loc) [.line ("print(" ++ ", ".intercalate texts ++ ")")] n
  | get {n : Nat} {targets : List Reference} {loc : Location} {texts : List String} :
      List.Forall₂ (fun r t => r.toExpr.Shown t) targets texts →
      Stmt.Shown scope n (.get targets loc) (List.zipWith getLine targets texts) n
  | openFile {n : Nat} {file : String} {mode : FileMode} {loc : Location} :
      Stmt.Shown scope n (.openFile file mode loc)
        [.line ("_pli_open(" ++ Python.quote file ++ ", " ++ mode.text ++ ")")] n
  | read {n : Nat} {file : String} {target : Reference} {loc : Location} {t : String} :
      target.toExpr.Shown t →
      Stmt.Shown scope n (.read file target loc)
        [.line (t ++ " = _pli_read(" ++ Python.quote file ++ ")")] n
  | write {n : Nat} {file : String} {source : Reference} {loc : Location} {t : String} :
      source.toExpr.Shown t →
      Stmt.Shown scope n (.write file source loc)
        [.line ("_pli_write(" ++ Python.quote file ++ ", " ++ t ++ ")")] n
  | closeFile {n : Nat} {file : String} {loc : Location} :
      Stmt.Shown scope n (.closeFile file loc)
        [.line ("_pli_close(" ++ Python.quote file ++ ")")] n
  | query {n : Nat} {sql : String} {target : Reference} {loc : Location} {t : String} :
      target.toExpr.Shown t →
      Stmt.Shown scope n (.query sql target loc)
        [.line (t ++ " = _pli_sql(" ++ Python.quote sql ++ ")")] n

/-- The blocks that statements in a row are shown as. -/
inductive ShownAll (scope : Scope) : Nat → List Stmt → List Block → Nat → Prop where
  | nil {n : Nat} : ShownAll scope n [] [] n
  | cons {n m k : Nat} {s : Stmt} {ss : List Stmt} {bs cs : List Block} :
      Stmt.Shown scope n s bs m → ShownAll scope m ss cs k →
      ShownAll scope n (s :: ss) (bs ++ cs) k

/-- The `else` that the branches of a `SELECT` are shown as: each `WHEN` is a
branch that holds what follows it in its own `else`. -/
inductive Branches.Shown (scope : Scope) :
    String → Nat → Branches → Option (List Block) → Nat → Prop where
  | done {subject : String} {n : Nat} : Branches.Shown scope subject n .done none n
  | other {subject : String} {n m : Nat} {body : List Stmt} {bs : List Block} :
      ShownAll scope n body bs m →
      Branches.Shown scope subject n (.other body) (some (orPass bs)) m
  | when {subject : String} {n m k : Nat} {values : List Expr} {body : List Stmt} {loc : Location}
      {rest : Branches} {texts : List String} {bs : List Block} {no : Option (List Block)} :
      List.Forall₂ Expr.Shown values texts → ShownAll scope n body bs m →
      Branches.Shown scope subject m rest no k →
      Branches.Shown scope subject n (.when values body loc rest)
        (some [.branch (whenText subject texts) (orPass bs) no]) k

end

/-! ## Expressions and conditions -/

section

variable {scope : Scope} {n m : Nat}

/-- The code for a well-formed expression is shown as it. -/
theorem Expr.HasCode.shown {e : Expr} {code : Python.Expr} (h : e.HasCode scope code)
    (hformed : e.Formed) : e.Shown code.render :=
  ((hformed.plain h).reads_iff _).mpr (h.tree_eq hformed).symm

/-- The same for a list of expressions, whose codes can all be read. -/
theorem shown_of_forall {es : List Expr} {codes : List Python.Expr}
    (h : List.Forall₂ (Expr.HasCode scope) es codes) (hformed : ∀ e ∈ es, e.Formed) :
    List.Forall₂ Expr.Shown es (Python.renderAll codes) ∧ ∀ c ∈ codes, Python.Plain c := by
  induction h with
  | nil => exact ⟨.nil, by simp⟩
  | cons hcode _ ih =>
    rw [List.forall_mem_cons] at hformed ⊢
    obtain ⟨hshown, hplain⟩ := ih hformed.2
    exact ⟨.cons (hcode.shown hformed.1) hshown, hformed.1.plain hcode, hplain⟩

/-- The code for a reference can be stored into. -/
theorem Reference.Formed.isTarget {r : Reference} (h : r.Formed) {code : Python.Expr}
    (hcode : r.toExpr.HasCode scope code) : code.IsTarget := by
  refine ⟨(Expr.Formed.plain h hcode).unbroken, ?_⟩
  unfold Reference.toExpr at hcode
  cases h with
  | var hname _ =>
    cases hcode with
    | @var _ _ _ codes _ _ _ =>
      -- an element begins with the name of its array
      have hbase := Python.Expr.isTarget_name (Python.isName_safeName hname.word)
      exact Python.led_foldl_index hbase.led rfl codes

theorem Condition.HasCode.shown {c : Condition} {test : Python.Comparison}
    (h : c.HasCode scope test) (hformed : c.Formed) :
    c.Shown test.render ∧ Unbroken test.render := by
  cases h with
  | intro hl hr =>
    refine ⟨.intro (hl.shown hformed.left) (hr.shown hformed.right), ?_⟩
    exact Python.unbroken_comparison _ (hformed.left.plain hl).unbroken
      (hformed.right.plain hr).unbroken

/-! ## Loops -/

/-- A value that is computed ahead of a loop. -/
theorem Expr.HasHoist.shown {role : String} (hrole : role.toList.all Lexer.isNameRest) {e : Expr}
    {ahead : List Python.Stmt} {code : Python.Expr} (h : e.HasHoist scope role n ahead code m)
    (hformed : e.Formed) :
    (∀ c ∈ ahead, c.Legible) ∧ Python.Plain code ∧
      e.Hoisted role n (Python.blocksAll ahead) code.render m := by
  cases h with
  | literal hliteral hcode =>
    rw [hformed.literal?_eq.1] at hliteral
    exact ⟨by simp, hformed.plain hcode, .literal hliteral (hcode.shown hformed)⟩
  | stored hliteral hcode =>
    rw [hformed.literal?_eq.1] at hliteral
    -- the temporary is a name of its own, which may be assigned to
    have hname := Python.isName_temporary hrole (n + 1)
    refine ⟨?_, .name hname, .stored hliteral (hcode.shown hformed)⟩
    exact List.forall_mem_singleton.mpr
      (Python.legible_assign (Python.Expr.isTarget_name hname) (hformed.plain hcode).unbroken)

/-- A number that is not negative is written with its digits. -/
theorem render_nat (k : Nat) : (Python.Expr.int k).render = toString k := by
  rw [Python.render_int, if_neg (by omega), Int.natAbs_natCast]

/-- Texts can be put together in any order of grouping. -/
theorem append_between (a b c d e : String) : a ++ b ++ c ++ d ++ e = a ++ (b ++ c ++ d) ++ e := by
  simp only [String.append_assoc]

theorem render_le (v l : Python.Expr) :
    (Python.Test.holds ⟨v, .le, l⟩).render = v.render ++ " <= " ++ l.render :=
  append_between _ _ _ _ _

theorem render_ge (v l : Python.Expr) :
    (Python.Test.holds ⟨v, .ge, l⟩).render = v.render ++ " >= " ++ l.render :=
  append_between _ _ _ _ _

/-- The test of a loop whose direction is known only when it runs. -/
theorem render_choice (v l b : Python.Expr) :
    (Python.Test.choice ⟨v, .le, l⟩ ⟨b, .ge, .int 0⟩ ⟨v, .ge, l⟩).render =
      "(" ++ v.render ++ " <= " ++ l.render ++ " if " ++ b.render ++ " >= 0 else " ++ v.render
        ++ " >= " ++ l.render ++ ")" := by
  have hzero : (Python.Expr.int 0).render = "0" := render_nat 0
  apply String.toList_inj.mp
  simp [Python.Test.render, Python.Comparison.render, Python.Relation.text, hzero]

theorem blocks_add (v b : Python.Expr) :
    (Python.Stmt.update v .add b).blocks = [.line (v.render ++ " += " ++ b.render)] :=
  congrArg (fun text => [Block.line text]) (append_between _ _ _ _ _)

/-- The advance of a loop by a negative literal. -/
theorem blocks_sub (v b : Python.Expr) :
    (Python.Stmt.update v .sub b).blocks = [.line (v.render ++ " -= " ++ b.render)] :=
  congrArg (fun text => [Block.line text]) (append_between _ _ _ _ _)

/-- The code for the step of a loop. -/
theorem HasStep.shown {var limit : Python.Expr} {step : Option Expr} {ahead : List Python.Stmt}
    {test : Python.Test} {advance : Python.Stmt}
    (h : HasStep scope var limit n step ahead test advance m) (hvar : var.IsTarget)
    (hlimit : Python.Plain limit) (hformed : ∀ e ∈ step, e.Formed) :
    ((∀ c ∈ ahead, c.Legible) ∧ Unbroken test.render ∧ advance.Legible) ∧
      ∃ text, advance.blocks = [.line text] ∧
        Rounds var.render limit.render n step (Python.blocksAll ahead) test.render text m := by
  have hle : Unbroken (Python.Comparison.mk var .le limit).render :=
    Python.unbroken_comparison _ hvar.unbroken hlimit.unbroken
  have hge : Unbroken (Python.Comparison.mk var .ge limit).render :=
    Python.unbroken_comparison _ hvar.unbroken hlimit.unbroken
  cases h with
  | one =>
    refine ⟨⟨by simp, hle, Python.legible_update hvar .add (Python.Plain.int 1).unbroken⟩, _,
      blocks_add _ _, ?_⟩
    have hone : var.render ++ " += " ++ (Python.Expr.int 1).render = var.render ++ " += 1" := by
      rw [show (Python.Expr.int 1).render = "1" from render_nat 1, String.append_assoc]
      rfl
    rw [render_le, hone]
    exact .one
  -- a literal step is written without its sign
  | @up k e hliteral hk =>
    rw [(hformed e rfl).literal?_eq.1] at hliteral
    refine ⟨⟨by simp, hle, Python.legible_update hvar .add (Python.Plain.int _).unbroken⟩, _,
      blocks_add _ _, ?_⟩
    obtain ⟨k, rfl⟩ := Int.eq_ofNat_of_zero_le hk
    rw [render_le, render_nat]
    exact .up hliteral
  | @down k e hliteral hk =>
    rw [(hformed e rfl).literal?_eq.1] at hliteral
    refine ⟨⟨by simp, hge, Python.legible_update hvar .sub (Python.Plain.int _).unbroken⟩, _,
      blocks_sub _ _, ?_⟩
    rw [render_ge, render_nat]
    exact .down (by rw [hliteral]; congr 1; omega) (by omega)
  | @computed _ e _ code hliteral hhoist =>
    rw [(hformed e rfl).literal?_eq.1] at hliteral
    obtain ⟨hlegible, hplain, hhoisted⟩ := hhoist.shown rfl (hformed e rfl)
    have hsign : Unbroken (Python.Comparison.mk code .ge (.int 0)).render :=
      Python.unbroken_comparison _ hplain.unbroken (Python.Plain.int 0).unbroken
    refine ⟨⟨hlegible, Python.unbroken_choice hle hsign hge,
      Python.legible_update hvar .add hplain.unbroken⟩, _, blocks_add _ _, ?_⟩
    rw [render_choice]
    exact .computed hliteral hhoisted

/-! ## Branches -/

/-- An `ELSE` that continues the chain is read as one that holds a branch. -/
theorem elseArms_legible {no : List Stmt} {code : List Python.Stmt} (h : ∀ c ∈ code, c.Legible) :
    (elseArms no code).Legible := by
  unfold elseArms
  split
  -- the chain goes on with the arms of one branch, which can be read in its own place
  · cases h _ List.mem_cons_self with
    | branch htest hbody hrest => exact .arm htest hbody hrest
  · exact .otherwise h

/-- An empty branch is shown as an `else` with nothing to do, and so is one whose code is empty. -/
theorem elseArms_blocks {no : List Stmt} {code : List Python.Stmt} (h : ∀ c ∈ code, c.Legible) :
    (elseArms no code).blocks = some (orPass (Python.blocksAll code)) := by
  unfold elseArms
  split
  · cases h _ List.mem_cons_self with
    | branch _ _ _ => rfl
  · rfl

/-- The test of a branch: an equation for one value, and `in` for several. -/
theorem whenTest_ok {subject : Python.Expr} (hsubject : Unbroken subject.render)
    {values : List Python.Expr} (hvalues : ∀ c ∈ values, Python.Plain c) :
    Unbroken (whenTest subject values).render ∧
      (whenTest subject values).render = whenText subject.render (Python.renderAll values) := by
  match values with
  | [] => exact ⟨Python.unbroken_oneOf hsubject hvalues, rfl⟩
  | [value] =>
    have hvalue := List.forall_mem_singleton.mp hvalues
    exact ⟨Python.unbroken_comparison _ hsubject hvalue.unbroken, append_between _ _ _ _ _⟩
  | _ :: _ :: _ => exact ⟨Python.unbroken_oneOf hsubject hvalues, rfl⟩

/-! ## Statements without a body -/

theorem blocks_assign_call (t : Python.Expr) (f : Python.Function) (e : Python.Expr) :
    (Python.Stmt.assign t (.call f [e])).blocks =
      [.line (t.render ++ (" = " ++ f.name ++ "(") ++ e.render ++ ")")] := by
  rw [Python.Stmt.blocks, Python.Expr.render, Python.renderAll, Python.renderAll,
    String.intercalate_singleton]
  simp only [String.append_assoc]

theorem blocks_run_call (f : Python.Function) (a b : Python.Expr) :
    (Python.Stmt.run (.call f [a, b])).blocks =
      [.line (f.name ++ "(" ++ a.render ++ ", " ++ b.render ++ ")")] := by
  rw [Python.Stmt.blocks, Python.Expr.render, Python.renderAll, Python.renderAll,
    Python.renderAll, String.intercalate_cons_cons, String.intercalate_singleton]
  simp only [String.append_assoc]

/-- The code that stores the result of a function of one argument. -/
theorem legible_assign_call {t e : Python.Expr} (ht : t.IsTarget) (f : Python.Function)
    (he : Python.Plain e) : Python.Stmt.Legible (.assign t (.call f [e])) :=
  Python.legible_assign ht (Python.Plain.call (List.forall_mem_singleton.mpr he)).unbroken

/-- An assignment can be read, whether its value is cut off or not. -/
theorem legible_stored {target : Reference} {value : Expr} {t v : Python.Expr} (ht : t.IsTarget)
    (hv : Python.Plain v) :
    Python.Stmt.Legible (.assign t (storedCode scope target value v)) ∧
      (Python.Stmt.assign t (storedCode scope target value v)).blocks =
        [.line (t.render ++ " = " ++ storedText scope target value v.render)] := by
  unfold storedCode storedText
  split
  · refine ⟨legible_assign_call ht .int hv, ?_⟩
    rw [blocks_assign_call]
    simp only [String.append_assoc]
    rfl
  · exact ⟨Python.legible_assign ht hv.unbroken, rfl⟩

/-- `GET` is shown as one line for each target. -/
theorem shown_get {targets : List Reference} {codes : List Python.Expr}
    (h : List.Forall₂ (fun r c => r.toExpr.HasCode scope c) targets codes)
    (hformed : ∀ r ∈ targets, r.Formed) :
    (∀ c ∈ List.zipWith getCode targets codes, c.Legible) ∧
      ∃ texts, List.Forall₂ (fun r t => r.toExpr.Shown t) targets texts ∧
        Python.blocksAll (List.zipWith getCode targets codes) =
          List.zipWith getLine targets texts := by
  induction h with
  | nil => exact ⟨by simp, [], .nil, rfl⟩
  | @cons r code rs codes hcode _ ih =>
    rw [List.forall_mem_cons] at hformed
    obtain ⟨hlegible, texts, hshown, hblocks⟩ := ih hformed.2
    rw [List.zipWith_cons_cons, List.forall_mem_cons]
    -- one line for this target, in front of those for the others
    refine ⟨⟨legible_assign_call (hformed.1.isTarget hcode) .get (.str _), hlegible⟩,
      code.render :: texts, .cons (hcode.shown hformed.1) hshown, ?_⟩
    rw [Python.blocksAll, getCode, blocks_assign_call, hblocks]
    rfl

/-! ## Statements -/

mutual

/-- The code for a well-formed statement can be read, and is shown as the
statement is to be. -/
theorem Stmt.HasCode.shown {n m : Nat} {s : Stmt} {code : List Python.Stmt}
    (h : s.HasCode scope n code m) (hformed : s.Formed) :
    (∀ c ∈ code, c.Legible) ∧ s.Shown scope n (Python.blocksAll code) m := by
  match h, hformed with
  | .assign ht hv, .assign htarget hvalue =>
    obtain ⟨hlegible, hblocks⟩ := legible_stored (htarget.isTarget ht) (hvalue.plain hv)
    refine ⟨List.forall_mem_singleton.mpr hlegible, ?_⟩
    rw [Python.blocksAll, hblocks]
    exact .assign (ht.shown htarget) (hv.shown hvalue)
  | .ifElse htest hyes hno, .ifElse hc hyesFormed hnoFormed =>
    obtain ⟨hshown, hunbroken⟩ := htest.shown hc
    obtain ⟨hyesLegible, hyesShown⟩ := hyes.shown hyesFormed
    obtain ⟨hnoLegible, hnoShown⟩ := hno.shown hnoFormed
    refine ⟨List.forall_mem_singleton.mpr
      (.branch hunbroken hyesLegible (elseArms_legible hnoLegible)), ?_⟩
    rw [Python.blocksAll, Python.Stmt.blocks, Python.Arms.blocks, elseArms_blocks hnoLegible]
    exact .ifElse hshown hyesShown hnoShown
  | .doWhile htest hbody, .doWhile hc hbodyFormed =>
    obtain ⟨hshown, hunbroken⟩ := htest.shown hc
    obtain ⟨hlegible, hbodyShown⟩ := hbody.shown hbodyFormed
    exact ⟨List.forall_mem_singleton.mpr (.loop hunbroken hlegible), .doWhile hshown hbodyShown⟩
  | .doLoop hv hs hhoist hstep hbody, .doLoop hvar hstart hlimit hstepFormed hbodyFormed =>
    have htarget := hvar.isTarget hv
    obtain ⟨haheadLegible, hlplain, hhoisted⟩ := hhoist.shown rfl hlimit
    obtain ⟨⟨hahead'Legible, hunbroken, hadvance⟩, text, htext, hrounds⟩ :=
      hstep.shown htarget hlplain hstepFormed
    obtain ⟨hlegible, hbodyShown⟩ := hbody.shown hbodyFormed
    refine ⟨?_, ?_⟩
    · simp only [List.cons_append, List.forall_mem_cons, List.forall_mem_append]
      refine ⟨Python.legible_assign htarget (hstart.plain hs).unbroken,
        ⟨haheadLegible, hahead'Legible⟩, .loop hunbroken ?_, by simp⟩
      exact List.forall_mem_append.mpr ⟨hlegible, List.forall_mem_singleton.mpr hadvance⟩
    -- the advance is the last line of the body, so the body is never empty
    · simp only [List.cons_append, Python.blocksAll_append, Python.blocksAll, Python.Stmt.blocks,
        htext, List.append_nil, List.nil_append, Python.Layout.orPass_concat]
      exact .doLoop (hv.shown hvar) (hs.shown hstart) hhoisted hrounds hbodyShown
  | .select hs hbranches, .select hsubject hbranchesFormed =>
    obtain ⟨hlegible, hshown⟩ := hbranches.shown (hsubject.plain hs).unbroken hbranchesFormed
    -- a well-formed `SELECT` has a `WHEN`, so its chain can stand as a statement
    cases hbranches with
    | when =>
      cases hlegible with
      | arm htest hcode hmore =>
        exact ⟨List.forall_mem_singleton.mpr (.branch htest hcode hmore),
          .select (hs.shown hsubject) hshown⟩
  | .put hitems, .put hitemsFormed =>
    obtain ⟨hshown, hplain⟩ := shown_of_forall hitems hitemsFormed
    exact ⟨List.forall_mem_singleton.mpr (Python.legible_call hplain), .put hshown⟩
  | .get htargets, .get _ htargetsFormed =>
    obtain ⟨hlegible, texts, hshown, hblocks⟩ := shown_get htargets htargetsFormed
    rw [hblocks]
    exact ⟨hlegible, .get hshown⟩
  | @Stmt.HasCode.openFile _ _ _ mode _, .openFile _ =>
    have hplain : Python.Plain mode.lower := by cases mode <;> exact .str _
    have htext : mode.lower.render = mode.text := by cases mode <;> rfl
    refine ⟨List.forall_mem_singleton.mpr
      (Python.legible_call (by simp [hplain, Python.Plain.str])), ?_⟩
    rw [Python.blocksAll, blocks_run_call, htext]
    exact .openFile
  | .read ht, .read _ htarget =>
    refine ⟨List.forall_mem_singleton.mpr
      (legible_assign_call (htarget.isTarget ht) .read (.str _)), ?_⟩
    rw [Python.blocksAll, blocks_assign_call]
    exact .read (ht.shown htarget)
  | .write ht, .write _ hsource =>
    have hplain := Expr.Formed.plain hsource ht
    refine ⟨List.forall_mem_singleton.mpr
      (Python.legible_call (by simp [hplain, Python.Plain.str])), ?_⟩
    rw [Python.blocksAll, blocks_run_call]
    exact .write (ht.shown hsource)
  | .closeFile, .closeFile _ =>
    exact ⟨List.forall_mem_singleton.mpr (Python.legible_call (by simp [Python.Plain.str])),
      .closeFile⟩
  | .query ht, .query _ htarget =>
    refine ⟨List.forall_mem_singleton.mpr
      (legible_assign_call (htarget.isTarget ht) .sql (.str _)), ?_⟩
    rw [Python.blocksAll, blocks_assign_call]
    exact .query (ht.shown htarget)

/-- The code for statements in a row is shown as they are, in order. -/
theorem HasCodes.shown {n m : Nat} {ss : List Stmt} {code : List Python.Stmt}
    (h : HasCodes scope n ss code m) (hformed : ∀ s ∈ ss, s.Formed) :
    (∀ c ∈ code, c.Legible) ∧ ShownAll scope n ss (Python.blocksAll code) m := by
  match h with
  | .nil => exact ⟨by simp, .nil⟩
  | .cons hs hss =>
    rw [List.forall_mem_cons] at hformed
    obtain ⟨hlegible, hshown⟩ := hs.shown hformed.1
    obtain ⟨hmoreLegible, hmoreShown⟩ := hss.shown hformed.2
    rw [Python.blocksAll_append]
    exact ⟨List.forall_mem_append.mpr ⟨hlegible, hmoreLegible⟩, .cons hshown hmoreShown⟩

/-- Branches are shown as a chain of tests in their order. -/
theorem Branches.HasCode.shown {subject : Python.Expr} {n m : Nat} {b : Branches}
    {arms : Python.Arms} (h : b.HasCode scope subject n arms m) (hsubject : Unbroken subject.render)
    (hformed : b.Formed) : arms.Legible ∧ b.Shown scope subject.render n arms.blocks m := by
  match h, hformed with
  | .done, _ => exact ⟨.done, .done⟩
  | .other hbody, .other hbodyFormed =>
    obtain ⟨hlegible, hshown⟩ := hbody.shown hbodyFormed
    exact ⟨.otherwise hlegible, .other hshown⟩
  | .when hvalues hbody hrest, .when _ hvaluesFormed hbodyFormed hrestFormed =>
    obtain ⟨hshown, hplain⟩ := shown_of_forall hvalues hvaluesFormed
    obtain ⟨hunbroken, htext⟩ := whenTest_ok hsubject hplain
    obtain ⟨hlegible, hbodyShown⟩ := hbody.shown hbodyFormed
    obtain ⟨hmoreLegible, hmoreShown⟩ := hrest.shown hsubject hrestFormed
    refine ⟨.arm hunbroken hlegible hmoreLegible, ?_⟩
    rw [Python.Arms.blocks, htext]
    exact .when hshown hbodyShown hmoreShown

end

end

end Plic
