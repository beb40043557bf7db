import Plic.Proofs.Python.Layout

/-!
# The lines of statements are read back

The lines of a statement make up a forest (`Stmt.nodes`), and the layout rule
reads them as the blocks of the statement (`Stmt.blocks`): a chain of branches
becomes branches nested in one another's `else`, and an empty body is `pass`.
The induction carries what stands behind a statement, since a further branch is
only a branch together with the lines before it.

Main results:

* `lines_outlineAll` — the lines of statements are those of their forest.
* `readNodes_nodesAll` — the forest is read as their blocks.
* `Procedure.Legible.read_render` — both together, for a procedure with its call.
-/

namespace Plic.Python

open Layout

/-! ## Headers -/

namespace Layout

open Lexer (isNameRest takeWhile_append_of_head)

/-- What a line opens is decided by the word at its start, which ends where the name characters do.
-/
theorem headOf_append {w : String} (hw : w.toList.all isNameRest) {rest : List Char}
    (hrest : ∀ c ∈ rest.head?, isNameRest c = false) :
    headOf (w ++ String.ofList rest) = opened w rest := by
  obtain ⟨htake, hdrop⟩ := takeWhile_append_of_head (List.all_eq_true.mp hw) hrest
  have hlist : (w ++ String.ofList rest).toList = w.toList ++ rest := by simp
  rw [headOf, hlist, htake, hdrop, String.ofList_toList]

/-- What stands between the word and the colon can be any text. -/
theorem inner_header (test : String) : inner (' ' :: (test.toList ++ [':'])) = some test := by
  rw [inner, if_pos (by simp), List.dropLast_concat, String.ofList_toList]

/-- A header is a word, a text between a blank and a colon. -/
theorem headOf_header {w : String} (hw : w.toList.all isNameRest) (test : String) :
    headOf (w ++ " " ++ test ++ ":") = opened w (' ' :: (test.toList ++ [':'])) := by
  have htext : w ++ " " ++ test ++ ":" = w ++ String.ofList (' ' :: (test.toList ++ [':'])) := by
    apply String.toList_inj.mp
    simp
  rw [htext, headOf_append hw]
  rintro _ ⟨⟩
  decide

theorem headOf_if (test : String) : headOf ("if " ++ test ++ ":") = some (.branch test) :=
  (headOf_header (w := "if") rfl test).trans (congrArg (Option.map Head.branch) (inner_header test))

theorem headOf_elif (test : String) : headOf ("elif " ++ test ++ ":") = some (.further test) :=
  (headOf_header (w := "elif") rfl test).trans
    (congrArg (Option.map Head.further) (inner_header test))

theorem headOf_while (test : String) : headOf ("while " ++ test ++ ":") = some (.loop test) :=
  (headOf_header (w := "while") rfl test).trans
    (congrArg (Option.map Head.loop) (inner_header test))

theorem headOf_def (head : String) : headOf ("def " ++ head ++ ":") = some (.procedure head) :=
  (headOf_header (w := "def") rfl head).trans
    (congrArg (Option.map Head.procedure) (inner_header head))

theorem headOf_else : headOf "else:" = some .otherwise := rfl

/-! ## Bodies -/

/-- A body of trees that is not empty. -/
def nodesOrPass : List Node → List Node
  | [] => [.node "pass" []]
  | ns => ns

/-- A body of blocks that is not empty. -/
def orPass : List Block → List Block
  | [] => [.line "pass"]
  | bs => bs

theorem orPass_concat (bs : List Block) (b : Block) : orPass (bs ++ [b]) = bs ++ [b] := by
  cases bs <;> rfl

/-- Every tree adds a block, or an `else` that waits for its branch. -/
theorem attach_ne_empty {head : Head} {body : List Block} {seen : Seen} :
    attach head body seen ≠ some ⟨none, []⟩ := by
  cases head <;> cases body <;> obtain ⟨_ | no, bs⟩ := seen <;> simp [attach]

/-- An empty body is read as the word that stands for it. -/
theorem readNodes_orPass {ns : List Node} {bs : List Block}
    (h : readNodes ns = some ⟨none, bs⟩) :
    readNodes (nodesOrPass ns) = some ⟨none, orPass bs⟩ := by
  cases ns with
  | nil =>
    injection h with h
    injection h with _ hbs
    subst hbs
    rfl
  | cons n ns =>
    obtain ⟨text, kids⟩ := n
    have hne : bs ≠ [] := by
      rintro rfl
      -- the first tree was attached last, and that leaves no empty block
      obtain ⟨seen, -, h⟩ := Option.bind_eq_some_iff.mp h
      simp only [readNode, bind, Option.bind_eq_some_iff] at h
      obtain ⟨_, -, _, -, _, -, hattach⟩ := h
      exact attach_ne_empty hattach
    obtain ⟨b, bs, rfl⟩ := List.exists_cons_of_ne_nil hne
    exact h

/-- A header with its body in front of what has been read. -/
theorem readNodes_header {text : String} {head : Head} (hhead : headOf text = some head)
    {kids ns : List Node} {bs : List Block} (hkids : readNodes kids = some ⟨none, bs⟩)
    {seen : Seen} (hns : readNodes ns = some seen) :
    readNodes (.node text (nodesOrPass kids) :: ns) = attach head (orPass bs) seen := by
  rw [readNodes, hns, Option.bind_some, readNode, readNodes_orPass hkids, hhead]
  rfl

/-! A header has a body. -/

/-- A branch takes what its `else` left over. -/
theorem attach_branch (test : String) (bs : List Block) (no : Option (List Block))
    (rest : List Block) : attach (.branch test) (orPass bs) ⟨no, rest⟩ =
      some ⟨none, .branch test (orPass bs) no :: rest⟩ := by
  cases bs <;> rfl

/-- A further branch is a branch in the `else` of the one before it. -/
theorem attach_further (test : String) (bs : List Block) (no : Option (List Block))
    (rest : List Block) : attach (.further test) (orPass bs) ⟨no, rest⟩ =
      some ⟨some [.branch test (orPass bs) no], rest⟩ := by
  cases bs <;> rfl

/-- An `else` waits for the branch that it belongs to. -/
theorem attach_otherwise (bs rest : List Block) :
    attach .otherwise (orPass bs) ⟨none, rest⟩ = some ⟨some (orPass bs), rest⟩ := by
  cases bs <;> rfl

theorem attach_loop (test : String) (bs rest : List Block) :
    attach (.loop test) (orPass bs) ⟨none, rest⟩ =
      some ⟨none, .loop test (orPass bs) :: rest⟩ := by
  cases bs <;> rfl

theorem attach_procedure (head : String) (bs rest : List Block) :
    attach (.procedure head) (orPass bs) ⟨none, rest⟩ =
      some ⟨none, .procedure head (orPass bs) :: rest⟩ := by
  cases bs <;> rfl

/-- The lines of a body stand one level deeper. -/
theorem lines_block {o : Outline} {ns : List Node} (h : o.lines = linesAll 0 ns) :
    Outline.block o = linesAll 1 (nodesOrPass ns) := by
  rw [Outline.block, h]
  cases ns with
  | nil => rfl
  | cons n ns =>
    rw [if_neg (by simp [linesAll_eq_nil]), map_deeper_linesAll]
    rfl

end Layout

/-! ## Forest and blocks of a statement -/

mutual

/-- The forest of the lines of a statement. -/
def Stmt.nodes : Stmt → List Node
  | .assign t v => [.node (t.render ++ " = " ++ v.render) []]
  | .update t op v => [.node (t.render ++ " " ++ op.text ++ "= " ++ v.render) []]
  | .run e => [.node e.render []]
  | .branch arms => arms.nodes "if "
  | .loop t body => [.node ("while " ++ t.render ++ ":") (nodesOrPass (nodesAll body))]

/-- The forest of the lines of statements in a row. -/
def nodesAll : List Stmt → List Node
  | [] => []
  | s :: ss => s.nodes ++ nodesAll ss

/-- The forest of the lines of a chain whose first test is written behind the
given word. -/
def Arms.nodes (word : String) : Arms → List Node
  | .done => []
  | .otherwise body => [.node "else:" (nodesOrPass (nodesAll body))]
  | .arm t body rest =>
    .node (word ++ t.render ++ ":") (nodesOrPass (nodesAll body)) :: rest.nodes "elif "

end

mutual

/-- The blocks that a statement is read as. A chain of branches is one block, nested in its `else`
parts. -/
def Stmt.blocks : Stmt → List Block
  | .assign t v => [.line (t.render ++ " = " ++ v.render)]
  | .update t op v => [.line (t.render ++ " " ++ op.text ++ "= " ++ v.render)]
  | .run e => [.line e.render]
  | .branch arms => arms.blocks.getD []
  | .loop t body => [.loop t.render (orPass (blocksAll body))]

/-- The blocks of statements in a row. -/
def blocksAll : List Stmt → List Block
  | [] => []
  | s :: ss => s.blocks ++ blocksAll ss

/-- The `else` that a chain of branches makes up, if it has a branch. -/
def Arms.blocks : Arms → Option (List Block)
  | .done => none
  | .otherwise body => some (orPass (blocksAll body))
  | .arm t body rest => some [.branch t.render (orPass (blocksAll body)) rest.blocks]

end

/-- Statements that are put together have their blocks one after the other. -/
theorem blocksAll_append (ss ss' : List Stmt) :
    blocksAll (ss ++ ss') = blocksAll ss ++ blocksAll ss' := by
  induction ss with
  | nil => rfl
  | cons s ss ih => rw [List.cons_append, blocksAll, blocksAll, ih, List.append_assoc]

mutual

/-- The lines of a statement are those of its forest. -/
theorem Stmt.lines_outline (s : Stmt) : s.outline.lines = linesAll 0 s.nodes := by
  match s with
  | .assign t v => rfl
  | .update t op v => rfl
  | .run e => rfl
  | .branch arms => exact arms.lines_outline "if "
  | .loop t body =>
    rw [Stmt.outline, Outline.lines_nest, lines_block (lines_outlineAll body), Stmt.nodes]
    simp [linesAll, Node.lines]

theorem lines_outlineAll (ss : List Stmt) : (outlineAll ss).lines = linesAll 0 (nodesAll ss) := by
  match ss with
  | [] => rfl
  | s :: ss =>
    rw [outlineAll, Outline.lines_append, s.lines_outline, lines_outlineAll ss, nodesAll,
      linesAll_append]

theorem Arms.lines_outline (arms : Arms) (word : String) :
    (arms.outline word).lines = linesAll 0 (arms.nodes word) := by
  match arms with
  | .done => rfl
  | .otherwise body =>
    rw [Arms.outline, Outline.lines_nest, lines_block (lines_outlineAll body), Arms.nodes]
    simp [linesAll, Node.lines]
  | .arm t body rest =>
    rw [Arms.outline, Outline.lines_append, Outline.lines_nest, lines_block (lines_outlineAll body),
      rest.lines_outline "elif ", Arms.nodes]
    simp [linesAll, Node.lines]

end

/-! ## Statements that can be read -/

/-- A text that stands alone on a line and opens nothing. -/
structure Simple (text : String) : Prop extends Tidy text where
  head : headOf text = some (.simple text)

mutual

/-- No line of the statement is broken or taken for a header that it is not,
and a chain of branches starts with a test. -/
inductive Stmt.Legible : Stmt → Prop where
  | assign {t v : Expr} :
      Simple (t.render ++ " = " ++ v.render) → Stmt.Legible (.assign t v)
  | update {t v : Expr} {op : Operator} :
      Simple (t.render ++ " " ++ op.text ++ "= " ++ v.render) → Stmt.Legible (.update t op v)
  | run {e : Expr} : Simple e.render → Stmt.Legible (.run e)
  | branch {t : Test} {body : List Stmt} {rest : Arms} :
      Unbroken t.render → (∀ s ∈ body, s.Legible) → rest.Legible →
      Stmt.Legible (.branch (.arm t body rest))
  | loop {t : Test} {body : List Stmt} :
      Unbroken t.render → (∀ s ∈ body, s.Legible) → Stmt.Legible (.loop t body)

/-- No line of the branches is broken or taken for a header that it is not. -/
inductive Arms.Legible : Arms → Prop where
  | done : Arms.Legible .done
  | otherwise {body : List Stmt} : (∀ s ∈ body, s.Legible) → Arms.Legible (.otherwise body)
  | arm {t : Test} {body : List Stmt} {rest : Arms} :
      Unbroken t.render → (∀ s ∈ body, s.Legible) → rest.Legible → Arms.Legible (.arm t body rest)

end

/-- A line that opens nothing is a block of its own. -/
theorem readNodes_simple {text : String} (h : Simple text) {ns : List Node} {bs : List Block}
    (hns : readNodes ns = some ⟨none, bs⟩) :
    readNodes (.node text [] :: ns) = some ⟨none, .line text :: bs⟩ := by
  rw [readNodes, hns, Option.bind_some, readNode, h.head]
  rfl

mutual

/-- A statement in front of anything that is read is read as its blocks, by induction on the
statement. -/
theorem Stmt.readNodes_nodes (s : Stmt) (h : s.Legible) {ns : List Node} {bs : List Block}
    (hns : readNodes ns = some ⟨none, bs⟩) :
    readNodes (s.nodes ++ ns) = some ⟨none, s.blocks ++ bs⟩ := by
  match s, h with
  | .assign t v, .assign hsimple => exact readNodes_simple hsimple hns
  | .update t op v, .update hsimple => exact readNodes_simple hsimple hns
  | .run e, .run hsimple => exact readNodes_simple hsimple hns
  | .branch (.arm t body rest), .branch _ hbody hrest =>
    -- the branches behind the first are read into the `else` that it takes
    exact (readNodes_header (headOf_if t.render) (readNodes_nodesAll body hbody)
      (rest.readNodes_nodes hrest hns)).trans (attach_branch _ _ _ _)
  | .loop t body, .loop _ hbody =>
    exact (readNodes_header (headOf_while t.render) (readNodes_nodesAll body hbody) hns).trans
      (attach_loop _ _ _)

/-- The forest of statements is read as their blocks. -/
theorem readNodes_nodesAll (ss : List Stmt) (h : ∀ s ∈ ss, s.Legible) :
    readNodes (nodesAll ss) = some ⟨none, blocksAll ss⟩ := by
  match ss with
  | [] => rfl
  | s :: ss =>
    rw [List.forall_mem_cons] at h
    exact s.readNodes_nodes h.1 (readNodes_nodesAll ss h.2)

/-- Behind the first branch, what a chain leaves is an `else`. -/
theorem Arms.readNodes_nodes (arms : Arms) (h : arms.Legible) {ns : List Node} {bs : List Block}
    (hns : readNodes ns = some ⟨none, bs⟩) :
    readNodes (arms.nodes "elif " ++ ns) = some ⟨arms.blocks, bs⟩ := by
  match arms, h with
  | .done, .done => exact hns
  | .otherwise body, .otherwise hbody =>
    exact (readNodes_header headOf_else (readNodes_nodesAll body hbody) hns).trans
      (attach_otherwise _ _)
  | .arm t body rest, .arm _ hbody hrest =>
    -- the branch becomes the only statement of an `else`
    exact (readNodes_header (headOf_elif t.render) (readNodes_nodesAll body hbody)
      (rest.readNodes_nodes hrest hns)).trans (attach_further _ _ _ _)

end

/-! ## The texts of the lines -/

/-- The text of every line of the forest can stand on a line. -/
def TidyAll (ns : List Node) : Prop := ∀ depth, ∀ l ∈ linesAll depth ns, Tidy l.text

theorem tidyAll_nil : TidyAll [] := fun _ _ h => absurd h List.not_mem_nil

theorem TidyAll.append {ns ms : List Node} (hns : TidyAll ns) (hms : TidyAll ms) :
    TidyAll (ns ++ ms) := by
  intro depth
  rw [linesAll_append, List.forall_mem_append]
  exact ⟨hns depth, hms depth⟩

/-- A line with tidy text and tidy lines below it. -/
theorem TidyAll.cons {text : String} {kids ns : List Node} (htext : Tidy text)
    (hkids : TidyAll kids) (hns : TidyAll ns) : TidyAll (.node text kids :: ns) := by
  intro depth
  rw [linesAll, Node.lines, List.cons_append, List.forall_mem_cons, List.forall_mem_append]
  exact ⟨htext, hkids (depth + 1), hns depth⟩

/-- The word for an empty body is tidy. -/
theorem TidyAll.orPass {ns : List Node} (h : TidyAll ns) : TidyAll (nodesOrPass ns) := by
  cases ns with
  | nil => exact .cons ⟨by simp [Unbroken], 'p', _, rfl, by decide⟩ tidyAll_nil tidyAll_nil
  | cons n ns => exact h

/-- No line of such a forest is empty. -/
theorem TidyAll.filter {ns : List Node} (h : TidyAll ns) (depth : Nat) :
    (linesAll depth ns).filter (·.text ≠ "") = linesAll depth ns := by
  rw [List.filter_eq_self]
  intro l hl
  obtain ⟨c, cs, hlist, -⟩ := (h depth l hl).begins
  rw [decide_eq_true_eq]
  intro hempty
  simp [hempty] at hlist

/-- A header is on one line if its test is. -/
theorem tidy_header {word test : String} (hword : Tidy word) (htest : Unbroken test) :
    Tidy (word ++ test ++ ":") where
  unbroken := (hword.unbroken.append htest).append (by simp [Unbroken])
  begins := by
    obtain ⟨c, cs, hlist, hc⟩ := hword.begins
    exact ⟨c, cs ++ (test ++ ":").toList, by simp [hlist], hc⟩

theorem tidy_if : Tidy "if " := ⟨by simp [Unbroken], 'i', _, rfl, by decide⟩

theorem tidy_elif : Tidy "elif " := ⟨by simp [Unbroken], 'e', _, rfl, by decide⟩

theorem tidy_else : Tidy "else:" := ⟨by simp [Unbroken], 'e', _, rfl, by decide⟩

theorem tidy_while : Tidy "while " := ⟨by simp [Unbroken], 'w', _, rfl, by decide⟩

theorem tidy_def : Tidy "def " := ⟨by simp [Unbroken], 'd', _, rfl, by decide⟩

mutual

/-- The lines of a legible statement have no line ends in them and do not start with a blank. -/
theorem Stmt.tidy_nodes (s : Stmt) (h : s.Legible) : TidyAll s.nodes := by
  match s, h with
  | .assign t v, .assign hsimple => exact .cons hsimple.toTidy tidyAll_nil tidyAll_nil
  | .update t op v, .update hsimple => exact .cons hsimple.toTidy tidyAll_nil tidyAll_nil
  | .run e, .run hsimple => exact .cons hsimple.toTidy tidyAll_nil tidyAll_nil
  | .branch (.arm t body rest), .branch htest hbody hrest =>
    exact .cons (tidy_header tidy_if htest) (tidy_nodesAll body hbody).orPass
      (rest.tidy_nodes hrest)
  | .loop t body, .loop htest hbody =>
    exact .cons (tidy_header tidy_while htest) (tidy_nodesAll body hbody).orPass tidyAll_nil

theorem tidy_nodesAll (ss : List Stmt) (h : ∀ s ∈ ss, s.Legible) : TidyAll (nodesAll ss) := by
  match ss with
  | [] => exact tidyAll_nil
  | s :: ss =>
    rw [List.forall_mem_cons] at h
    exact (s.tidy_nodes h.1).append (tidy_nodesAll ss h.2)

theorem Arms.tidy_nodes (arms : Arms) (h : arms.Legible) : TidyAll (arms.nodes "elif ") := by
  match arms, h with
  | .done, .done => exact tidyAll_nil
  | .otherwise body, .otherwise hbody =>
    exact .cons tidy_else (tidy_nodesAll body hbody).orPass tidyAll_nil
  | .arm t body rest, .arm htest hbody hrest =>
    exact .cons (tidy_header tidy_elif htest) (tidy_nodesAll body hbody).orPass
      (rest.tidy_nodes hrest)

end

/-! ## Procedures -/

/-- The tree of the lines of a procedure. -/
def Procedure.node (p : Procedure) : Node :=
  .node ("def " ++ (p.name ++ "()") ++ ":") (nodesOrPass (nodesAll p.body))

/-- The tree of the lines of its call. -/
def Procedure.callNode (p : Procedure) : Node :=
  .node "if __name__ == '__main__':" (nodesOrPass [.node (p.name ++ "()") []])

/-- The name and body of the procedure can be read. -/
structure Procedure.Legible (p : Procedure) : Prop where
  call : Simple (p.name ++ "()")
  body : ∀ s ∈ p.body, s.Legible

/-- The lines of a procedure: its forest, two empty lines, and the forest of its call. -/
theorem Procedure.lines_outline (p : Procedure) :
    p.outline.lines = linesAll 0 [p.node] ++ [⟨0, ""⟩, ⟨0, ""⟩] ++ linesAll 0 [p.callNode] := by
  have hblock := lines_block (lines_outlineAll p.body)
  have hcall : Outline.block (.line (p.name ++ "()")) =
      linesAll 1 (nodesOrPass [.node (p.name ++ "()") []]) := lines_block rfl
  have hdef : "def " ++ p.name ++ "():" = "def " ++ (p.name ++ "()") ++ ":" := by
    apply String.toList_inj.mp
    simp
  rw [Procedure.outline, Procedure.node, Procedure.callNode, hdef]
  simp [hblock, hcall, linesAll, Node.lines]

namespace Procedure.Legible

variable {p : Procedure} (h : p.Legible)
include h

/-- The forest of a legible procedure is tidy. -/
theorem tidy_node : TidyAll [p.node] :=
  .cons (tidy_header tidy_def h.call.unbroken) (tidy_nodesAll p.body h.body).orPass tidyAll_nil

theorem tidy_callNode : TidyAll [p.callNode] := by
  refine .cons ?_ (TidyAll.cons h.call.toTidy tidyAll_nil tidyAll_nil).orPass tidyAll_nil
  exact ⟨by simp [Unbroken], 'i', _, rfl, by decide⟩

/-- Both are read as a procedure and a branch. -/
theorem readNodes_nodes :
    readNodes [p.node, p.callNode] =
      some ⟨none, [.procedure (p.name ++ "()") (orPass (blocksAll p.body)),
        .branch "__name__ == '__main__'" [.line (p.name ++ "()")] none]⟩ := by
  have hnil : readNodes [] = some ⟨none, []⟩ := rfl
  -- the call is read first: a block is read from its end on
  have hcall := readNodes_header (headOf_if "__name__ == '__main__'")
    (readNodes_simple h.call hnil) hnil
  rw [attach_branch] at hcall
  exact (readNodes_header (headOf_def _) (readNodes_nodesAll p.body h.body) hcall).trans
    (attach_procedure _ _ _)

/-- A procedure is written so that it is read as its name and the blocks of its
body, with its call behind it, whatever the width of a level is. -/
theorem read_render {width : Nat} (hwidth : 0 < width) :
    read (p.outline.render width) =
      some [.procedure (p.name ++ "()") (orPass (blocksAll p.body)),
        .branch "__name__ == '__main__'" [.line (p.name ++ "()")] none] := by
  -- only the two lines between the procedure and its call are empty
  have hlines : p.outline.lines.filter (·.text ≠ "") = linesAll 0 [p.node, p.callNode] := by
    rw [p.lines_outline, List.filter_append, List.filter_append, h.tidy_node.filter,
      h.tidy_callNode.filter]
    show linesAll 0 [p.node] ++ [] ++ linesAll 0 [p.callNode] = _
    rw [List.append_nil, ← linesAll_append]
    rfl
  rw [Layout.read_render hlines ((h.tidy_node.append h.tidy_callNode) 0) hwidth, h.readNodes_nodes]
  rfl

end Procedure.Legible

end Plic.Python
