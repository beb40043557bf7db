import Plic.Python.Stmt
import Plic.Proofs.Token.Pieces

/-!
# How Python reads the lines of a program

The layout rule, said without the printer. A text is split into lines, and how
far a line is indented decides where it belongs: a line owns the deeper lines
behind it (`grow`), up to the next one that is not deeper. What a line opens is
told by its first word (`headOf`), and an `elif` is an `if` that stands alone in
the `else` of the one before it (`attach`).

Main results:

* `grow_linesAll` — a forest is grown again from its rows, whatever the width of
  a level is.
* `read_render` — an outline is read as the forest that its lines make up.
-/

namespace Plic.Python.Layout

open Lexer (isNameRest takeWhile_append_of_head)

/-! ## Lines -/

/-- The lines of a text. A line ends with a line feed, a carriage return, or
both. -/
def breakLines : List Char → List (List Char)
  | [] => [[]]
  | '\r' :: '\n' :: cs => [] :: breakLines cs
  | c :: cs =>
    if c = '\n' ∨ c = '\r' then [] :: breakLines cs
    else
      match breakLines cs with
      | [] => [[c]]
      | l :: ls => (c :: l) :: ls

/-- A line that is not blank: how far it is indented, and its text. -/
structure Row where
  indent : Nat
  text : String

/-- The row of a line; a blank line has none. -/
def rowOf (line : List Char) : Option Row :=
  match line.dropWhile (· = ' ') with
  | [] => none
  | rest => some ⟨(line.takeWhile (· = ' ')).length, String.ofList rest⟩

/-- The rows of a text: its lines that are not empty, with how far they are indented. -/
def rows (text : String) : List Row := (breakLines text.toList).filterMap rowOf

/-! ## Indentation -/

/-- A line with the lines that it owns. -/
inductive Node where
  | node (text : String) (kids : List Node)

/-- A row in front of trees that start at the given indents: it owns the deeper
ones that come first. They have to be indented alike. -/
def plant (r : Row) (roots : List (Nat × Node)) : Option (List (Nat × Node)) :=
  let kids := roots.takeWhile (r.indent < ·.1)
  if ∀ k ∈ kids, ∀ first ∈ kids.head?, k.1 = first.1 then
    some ((r.indent, .node r.text (kids.map Prod.snd)) :: roots.dropWhile (r.indent < ·.1))
  else none

/-- The trees of some rows, with their indents. -/
def grow : List Row → Option (List (Nat × Node))
  | [] => some []
  | r :: rs => (grow rs).bind (plant r)

/-- The trees of some rows, all of which start at the margin. -/
def forest (rs : List Row) : Option (List Node) :=
  (grow rs).bind fun roots => if ∀ r ∈ roots, r.1 = 0 then some (roots.map Prod.snd) else none

/-! ## Blocks -/

/-- The statements of a program, as far as lines show them. -/
inductive Block where
  /-- A statement on a line of its own. -/
  | line (text : String)
  | branch (test : String) (yes : List Block) (no : Option (List Block))
  | loop (test : String) (body : List Block)
  | procedure (head : String) (body : List Block)

/-- What a line opens. -/
inductive Head where
  | simple (text : String)
  | branch (test : String)
  /-- A further branch, written with `elif`. -/
  | further (test : String)
  | otherwise
  | loop (test : String)
  | procedure (head : String)

/-- What stands between the word and the colon of a header. -/
def inner : List Char → Option String
  | ' ' :: cs => if cs.getLast? = some ':' then some (String.ofList cs.dropLast) else none
  | _ => none

/-- What a line opens whose first word is given, with what follows it. -/
def opened (word : String) (rest : List Char) : Option Head :=
  match word with
  | "if" => (inner rest).map .branch
  | "elif" => (inner rest).map .further
  | "else" => if rest = [':'] then some .otherwise else none
  | "while" => (inner rest).map .loop
  | "def" => (inner rest).map .procedure
  | _ => some (.simple (word ++ String.ofList rest))

/-- What a line opens, by its first word. -/
def headOf (text : String) : Option Head :=
  opened (String.ofList (text.toList.takeWhile isNameRest)) (text.toList.dropWhile isNameRest)

/-- What has been read of a block from its end on: its statements, and before
them the `else` of a branch that is still to come. -/
structure Seen where
  no : Option (List Block)
  blocks : List Block

/-- A line with its body in front of what has been read. Headers have a body
and other lines have none; an `else` belongs to a branch. -/
def attach : Head → List Block → Seen → Option Seen
  | .simple text, [], ⟨none, bs⟩ => some ⟨none, .line text :: bs⟩
  | .branch test, b :: body, ⟨no, bs⟩ => some ⟨none, .branch test (b :: body) no :: bs⟩
  | .further test, b :: body, ⟨no, bs⟩ => some ⟨some [.branch test (b :: body) no], bs⟩
  | .otherwise, b :: body, ⟨none, bs⟩ => some ⟨some (b :: body), bs⟩
  | .loop test, b :: body, ⟨none, bs⟩ => some ⟨none, .loop test (b :: body) :: bs⟩
  | .procedure head, b :: body, ⟨none, bs⟩ => some ⟨none, .procedure head (b :: body) :: bs⟩
  | _, _, _ => none

/-- The statements of a block that is read to its beginning. -/
def Seen.closed? : Seen → Option (List Block)
  | ⟨none, bs⟩ => some bs
  | ⟨some _, _⟩ => none

mutual

/-- A tree in front of what has been read. -/
def readNode : Node → Seen → Option Seen
  | .node text kids, seen => do
    let body ← (← readNodes kids).closed?
    attach (← headOf text) body seen

/-- The trees of a block. -/
def readNodes : List Node → Option Seen
  | [] => some ⟨none, []⟩
  | n :: ns => (readNodes ns).bind (readNode n)

end

/-- The blocks of a text, if its layout is good. -/
def read (text : String) : Option (List Block) := do
  (← readNodes (← forest (rows text))).closed?

/-! ## Texts of lines -/

/-- The text has no line break. -/
def Unbroken (text : String) : Prop := ∀ c ∈ text.toList, c ≠ '\n' ∧ c ≠ '\r'

/-- The text can stand on a line: it has no line break, and its first character
is not a blank. -/
structure Tidy (text : String) : Prop where
  unbroken : Unbroken text
  begins   : ∃ c cs, text.toList = c :: cs ∧ c ≠ ' '

/-- Texts without line ends can be put together. -/
theorem Unbroken.append {a b : String} (ha : Unbroken a) (hb : Unbroken b) :
    Unbroken (a ++ b) := by
  intro c hc
  rw [String.toList_append, List.mem_append] at hc
  rcases hc with hc | hc
  · exact ha c hc
  · exact hb c hc

theorem breakLines_append {cs : List Char} (h : ∀ c ∈ cs, c ≠ '\n' ∧ c ≠ '\r')
    (rest : List Char) : breakLines (cs ++ '\n' :: rest) = cs :: breakLines rest := by
  induction cs with
  | nil => simp [breakLines]
  | cons c cs ih =>
    obtain ⟨hfeed, hreturn⟩ := h c List.mem_cons_self
    rw [List.cons_append, breakLines]
    -- no carriage return, so the equation of the two-character break is not taken
    · rw [ih fun d hd => h d (List.mem_cons_of_mem _ hd), if_neg (by simp [hfeed, hreturn])]
    · exact fun _ hc _ => hreturn hc

/-- A tidy text behind blanks is a row that is indented by them. -/
theorem rowOf_line {text : String} (h : Tidy text) (n : Nat) :
    rowOf (List.replicate n ' ' ++ text.toList) = some ⟨n, text⟩ := by
  obtain ⟨c, cs, htext, hc⟩ := h.begins
  have hhead : ∀ d ∈ text.toList.head?, decide (d = ' ') = false := by simp [htext, hc]
  obtain ⟨htake, hdrop⟩ := takeWhile_append_of_head (w := List.replicate n ' ') (by simp) hhead
  rw [rowOf, htake, hdrop, htext]
  simp only [List.length_replicate, ← htext, String.ofList_toList]

/-- The row of a line, for a width of a level. -/
def rowAt (width : Nat) (l : Line) : Row := ⟨l.depth * width, l.text⟩

/-- The rows of an outline are its lines that are not empty. -/
theorem rows_render {o : Outline} (h : ∀ l ∈ o.lines, l.text ≠ "" → Tidy l.text) (width : Nat) :
    rows (o.render width) = (o.lines.filter (·.text ≠ "")).map (rowAt width) := by
  obtain ⟨lines⟩ := o
  simp only [rows, Outline.render] at h ⊢
  induction lines with
  | nil => simp [breakLines, rowOf]
  | cons l ls ih =>
    have ih := ih fun l hl => h l (List.mem_cons_of_mem _ hl)
    rw [List.map_cons, String.join_cons, String.toList_append]
    by_cases hempty : l.text = ""
    -- an empty line is written without its indent and leaves no row
    · have hline : (l.render width).toList = [] ++ ['\n'] := by simp [Line.render, hempty]
      rw [hline, List.append_assoc, List.singleton_append, breakLines_append (by simp),
        List.filterMap_cons_none (by rfl), ih, List.filter_cons_of_neg (by simp [hempty])]
    · have htidy := h l List.mem_cons_self hempty
      have hline : (l.render width).toList =
          List.replicate (l.depth * width) ' ' ++ l.text.toList ++ ['\n'] := by
        simp [Line.render, hempty]
      have hunbroken : ∀ c ∈ List.replicate (l.depth * width) ' ' ++ l.text.toList,
          c ≠ '\n' ∧ c ≠ '\r' := by
        rw [List.forall_mem_append]
        refine ⟨fun c hc => ?_, htidy.unbroken⟩
        rw [List.eq_of_mem_replicate hc]
        decide
      rw [hline, List.append_assoc, List.singleton_append, breakLines_append hunbroken,
        List.filterMap_cons_some (rowOf_line htidy _), ih,
        List.filter_cons_of_pos (by simpa using hempty)]
      rfl

/-! ## Writing and growing a forest -/

mutual

/-- The lines of a node, its own before those below it. -/
def Node.lines (depth : Nat) : Node → List Line
  | .node text kids => ⟨depth, text⟩ :: linesAll (depth + 1) kids

/-- The lines of a forest. -/
def linesAll (depth : Nat) : List Node → List Line
  | [] => []
  | n :: ns => n.lines depth ++ linesAll depth ns

end

/-- Forests that are put together have their lines one after the other. -/
theorem linesAll_append (depth : Nat) (ns ms : List Node) :
    linesAll depth (ns ++ ms) = linesAll depth ns ++ linesAll depth ms := by
  induction ns with
  | nil => rfl
  | cons n ns ih => rw [List.cons_append, linesAll, linesAll, ih, List.append_assoc]

theorem linesAll_eq_nil {depth : Nat} {ns : List Node} : linesAll depth ns = [] ↔ ns = [] := by
  cases ns with
  | nil => simp [linesAll]
  | cons n ns =>
    obtain ⟨text, kids⟩ := n
    simp [linesAll, Node.lines]

mutual

/-- Lines one level deeper are those of the same node at the next depth. -/
theorem Node.map_deeper_lines (depth : Nat) (n : Node) :
    (n.lines depth).map Line.deeper = n.lines (depth + 1) := by
  match n with
  | .node text kids =>
    rw [Node.lines, Node.lines, List.map_cons, map_deeper_linesAll (depth + 1) kids, Line.deeper]

theorem map_deeper_linesAll (depth : Nat) (ns : List Node) :
    (linesAll depth ns).map Line.deeper = linesAll (depth + 1) ns := by
  match ns with
  | [] => rfl
  | n :: ns =>
    rw [linesAll, linesAll, List.map_append, n.map_deeper_lines depth, map_deeper_linesAll depth ns]

end

/-- A row owns the trees that start one level deeper and stand first. -/
theorem plant_append {width : Nat} (hwidth : 0 < width) (depth : Nat) (text : String)
    (kids : List Node) {roots : List (Nat × Node)}
    (hroots : ∀ r ∈ roots.head?, r.1 ≤ depth * width) :
    plant ⟨depth * width, text⟩ (kids.map ((depth + 1) * width, ·) ++ roots) =
      some ((depth * width, .node text kids) :: roots) := by
  have hdeeper : depth * width < (depth + 1) * width := by
    rw [Nat.add_mul]
    omega
  obtain ⟨htake, hdrop⟩ := takeWhile_append_of_head
    (p := fun r : Nat × Node => decide (depth * width < r.1))
    (w := kids.map ((depth + 1) * width, ·)) (by simpa using fun _ _ => hdeeper)
    (show ∀ r ∈ roots.head?, _ from fun r hr => by simpa using hroots r hr)
  -- all of them stand one level deeper, and so at one indent
  have halike : ∀ k ∈ kids.map ((depth + 1) * width, ·),
      ∀ first ∈ (kids.map ((depth + 1) * width, ·)).head?, k.1 = first.1 := by
    intro k hk first hfirst
    obtain ⟨_, _, rfl⟩ := List.mem_map.mp hk
    obtain ⟨_, _, rfl⟩ := List.mem_map.mp (List.mem_of_mem_head? hfirst)
    rfl
  simp only [plant, htake, hdrop]
  rw [if_pos halike, List.map_map]
  simp

mutual

/-- The lines of a node in front of rows that are not deeper grow into the node again. -/
theorem Node.grow_lines {width : Nat} (hwidth : 0 < width) (depth : Nat) (n : Node)
    {rs : List Row} {roots : List (Nat × Node)} (hrs : grow rs = some roots)
    (hroots : ∀ r ∈ roots.head?, r.1 ≤ depth * width) :
    grow ((n.lines depth).map (rowAt width) ++ rs) = some ((depth * width, n) :: roots) := by
  match n with
  | .node text kids =>
    -- what comes behind the tree is not deeper than it, and so not than its kids
    have hdeeper : ∀ r ∈ roots.head?, r.1 ≤ (depth + 1) * width := fun r hr => by
      have := hroots r hr
      rw [Nat.add_mul]
      omega
    rw [Node.lines, List.map_cons, List.cons_append, grow,
      grow_linesAll hwidth (depth + 1) kids hrs hdeeper, Option.bind_some]
    exact plant_append hwidth depth text kids hroots

/-- A forest is grown again from its rows, in front of trees that are not
deeper. -/
theorem grow_linesAll {width : Nat} (hwidth : 0 < width) (depth : Nat) (ns : List Node)
    {rs : List Row} {roots : List (Nat × Node)} (hrs : grow rs = some roots)
    (hroots : ∀ r ∈ roots.head?, r.1 ≤ depth * width) :
    grow ((linesAll depth ns).map (rowAt width) ++ rs) =
      some (ns.map (depth * width, ·) ++ roots) := by
  match ns with
  | [] => exact hrs
  | n :: ns =>
    rw [linesAll, List.map_append, List.append_assoc]
    -- behind the first tree stands the next one at the same depth, or the given trees
    refine n.grow_lines hwidth depth (grow_linesAll hwidth depth ns hrs hroots) ?_
    cases ns with
    | nil => exact hroots
    | cons m ns =>
      rintro _ ⟨⟩
      exact Nat.le_refl _

end

/-- The lines of a forest are read as the forest is, whatever the width of a
level is and wherever empty lines stand between them. -/
theorem read_render {o : Outline} {ns : List Node}
    (hlines : o.lines.filter (·.text ≠ "") = linesAll 0 ns)
    (htidy : ∀ l ∈ linesAll 0 ns, Tidy l.text) {width : Nat} (hwidth : 0 < width) :
    read (o.render width) = (readNodes ns).bind Seen.closed? := by
  -- empty lines are skipped, and each other line keeps its depth
  have hrows : rows (o.render width) = (linesAll 0 ns).map (rowAt width) ++ [] := by
    rw [rows_render, hlines, List.append_nil]
    intro l hl hne
    exact htidy l (hlines ▸ List.mem_filter.mpr ⟨hl, by simpa using hne⟩)
  have hgrow := grow_linesAll hwidth 0 ns (show grow [] = some [] from rfl) (by simp)
  have hforest : forest (rows (o.render width)) = some ns := by
    rw [forest, hrows, hgrow, Option.bind_some, if_pos (by simp)]
    simp
  rw [read, hforest]
  rfl

end Plic.Python.Layout
