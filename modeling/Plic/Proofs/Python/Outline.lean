import Plic.Python.Outline
import Plic.Proofs.Token.Pieces

/-!
# Outlines are well nested

However an outline is put together, its depths read like the depths of blocks:
the first line is at the margin, no line is more than one level deeper than the
one before it, and a header has its body directly behind it. Nothing that is done
to an outline later on comes between the two.

Depths are therefore not lost when an outline is written out: they are the
indents divided by the width of a level, except on lines without text, which have
no indent.

Main result: `Assembly.outline_nested`.
-/

namespace Plic.Python

open Lexer (takeWhile_append_of_head)

/-! ## How outlines are put together -/

/-- The steps by which an outline is put together. What is appended or nested was
put together by such steps too. -/
inductive Assembly where
  | empty
  | line (text : String)
  | push (a : Assembly) (text : String)
  | blank (a : Assembly)
  | append (a b : Assembly)
  | nest (a : Assembly) (header : String) (body : Assembly)

namespace Assembly

/-- The outline that the steps lead to. -/
def outline : Assembly → Outline
  | empty => .empty
  | line text => .line text
  | push a text => a.outline.push text
  | blank a => a.outline.blank
  | append a b => a.outline.append b.outline
  | nest a header body => a.outline.nest header body.outline

/-- The lines that were added as headers: their numbers in the outline, and the
texts they were added with. -/
def headers : Assembly → List (Nat × String)
  | empty | line _ => []
  | push a _ | blank a => a.headers
  | append a b => a.headers ++ b.headers.map (Prod.map (a.outline.lines.length + ·) id)
  | nest a header body =>
    let number := a.outline.lines.length
    a.headers ++ (number, header) :: body.headers.map (Prod.map (number + 1 + ·) id)

end Assembly

/-! ## Depths -/

/-- The lines of well nested blocks. -/
structure WellNested (ls : List Line) : Prop where
  first : ∀ l ∈ ls.head?, l.depth = 0
  steps : ls.IsChain fun l next => next.depth ≤ l.depth + 1

theorem wellNested_nil : WellNested [] := ⟨by simp, .nil⟩

/-- A line at the margin is well nested. -/
theorem wellNested_singleton (text : String) : WellNested [⟨0, text⟩] :=
  ⟨by simp, .singleton _⟩

/-- Well-nested lines can be put together. -/
theorem WellNested.append {ls ms : List Line} (hls : WellNested ls) (hms : WellNested ms) :
    WellNested (ls ++ ms) := by
  constructor
  · cases ls with
    | nil => exact hms.first
    | cons l ls => exact hls.first
  · refine List.isChain_append.mpr ⟨hls.steps, hms.steps, fun l _ next hnext => ?_⟩
    -- back at the margin, from whatever depth
    have hmargin := hms.first next hnext
    omega

/-- What stands under a header begins one level deeper and goes on as the body does. -/
theorem WellNested.block {body : Outline} (h : WellNested body.lines) :
    (∀ l ∈ body.block.head?, l.depth = 1) ∧
      body.block.IsChain fun l next => next.depth ≤ l.depth + 1 := by
  unfold Outline.block
  split
  -- an empty body is shown as one line
  · simp
  · constructor
    · intro l hl
      rw [List.head?_map] at hl
      obtain ⟨first, hfirst, rfl⟩ := Option.map_eq_some_iff.mp hl
      simp [Line.deeper, h.first first hfirst]
    · rw [List.isChain_map]
      exact h.steps.imp fun l next hstep => Nat.succ_le_succ hstep

/-- A header with its block is well nested. -/
theorem WellNested.headed {body : Outline} (h : WellNested body.lines) (header : String) :
    WellNested (⟨0, header⟩ :: body.block) := by
  obtain ⟨hfirst, hsteps⟩ := h.block
  refine ⟨by simp, List.isChain_cons.mpr ⟨fun l hl => ?_, hsteps⟩⟩
  rw [hfirst l hl]

/-- Whatever is put together from lines and blocks is well nested, by induction on how. -/
theorem Assembly.wellNested (a : Assembly) : WellNested a.outline.lines := by
  induction a with
  | empty => exact wellNested_nil
  | line text => exact wellNested_singleton text
  | push a text ih => exact ih.append (wellNested_singleton text)
  | blank a ih => exact ih.append (wellNested_singleton "")
  | append a b iha ihb => exact iha.append ihb
  | nest a header body iha ihbody => exact iha.append (ihbody.headed header)

/-! ## Headers -/

/-- The line with the number `i` has the text, and the line behind it is one level deeper. -/
def Heads (ls : List Line) (i : Nat) (text : String) : Prop :=
  ∃ depth next, ls[i]? = some ⟨depth, text⟩ ∧ ls[i + 1]? = some next ∧ next.depth = depth + 1

section

variable {ls : List Line} {i : Nat} {text : String}

/-- A header keeps its block if lines are put behind. -/
theorem Heads.before (h : Heads ls i text) (ms : List Line) : Heads (ls ++ ms) i text := by
  obtain ⟨depth, next, hi, hnext, hdepth⟩ := h
  have hlt : i + 1 < ls.length := (List.getElem?_eq_some_iff.mp hnext).1
  refine ⟨depth, next, ?_, ?_, hdepth⟩
  · rw [List.getElem?_append_left (by omega), hi]
  · rw [List.getElem?_append_left hlt, hnext]

theorem Heads.behind (h : Heads ls i text) (ms : List Line) :
    Heads (ms ++ ls) (ms.length + i) text := by
  obtain ⟨depth, next, hi, hnext, hdepth⟩ := h
  refine ⟨depth, next, ?_, ?_, hdepth⟩
  · rw [List.getElem?_append_right (by omega), Nat.add_sub_cancel_left, hi]
  · rw [Nat.add_assoc, List.getElem?_append_right (by omega), Nat.add_sub_cancel_left, hnext]

/-- A header in a body is one under the header of the body. -/
theorem Heads.block {body : Outline} (h : Heads body.lines i text) : Heads body.block i text := by
  obtain ⟨depth, next, hi, hnext, hdepth⟩ := h
  have hne : body.lines ≠ [] := by
    intro hnil
    simp [hnil] at hi
  refine ⟨depth + 1, next.deeper, ?_, ?_, ?_⟩
  · rw [Outline.block, if_neg hne, List.getElem?_map, hi]
    rfl
  · rw [Outline.block, if_neg hne, List.getElem?_map, hnext]
    rfl
  · rw [Line.deeper, hdepth]

end

/-- A header has its body behind it, or `pass`. -/
theorem heads_block {body : Outline} (h : WellNested body.lines) (header : String) :
    Heads (⟨0, header⟩ :: body.block) 0 header := by
  obtain ⟨next, rest, hblock⟩ := List.exists_cons_of_ne_nil (Outline.block_ne_nil body)
  have hnext : next.depth = 1 := h.block.1 next (by simp [hblock])
  exact ⟨0, next, rfl, by simp [hblock], hnext⟩

/-- Each header opens a block of deeper lines. -/
theorem Assembly.heads (a : Assembly) : ∀ p ∈ a.headers, Heads a.outline.lines p.1 p.2 := by
  induction a with
  | empty | line _ => simp [headers]
  | push a text ih => exact fun p hp => (ih p hp).before _
  | blank a ih => exact fun p hp => (ih p hp).before _
  | append a b iha ihb =>
    rw [headers, List.forall_mem_append, List.forall_mem_map]
    exact ⟨fun p hp => (iha p hp).before _, fun p hp => (ihb p hp).behind _⟩
  -- headers in front, the new one, and those of the body one level deeper
  | nest a header body iha ihbody =>
    rw [headers, List.forall_mem_append, List.forall_mem_cons, List.forall_mem_map]
    refine ⟨fun p hp => (iha p hp).before _, ?_, fun p hp => ?_⟩
    · exact (heads_block body.wellNested header).behind a.outline.lines
    · have hbody := (ihbody p hp).block.behind (a.outline.lines ++ [⟨0, header⟩])
      rw [List.append_assoc, List.length_append] at hbody
      exact hbody

/-! ## Reading an outline back -/

/-- The lines of a text as depths and texts. A line ends at a line feed; its depth is the number of
blanks in front, divided by the width of a level. -/
def Outline.readBack (width : Nat) (text : String) : List (Nat × String) :=
  (text.toList.splitOn '\n').dropLast.map fun l =>
    ((l.takeWhile (· = ' ')).length / width, String.ofList (l.dropWhile (· = ' ')))

/-- The text can be told from the indent in front of it and from the lines around it. -/
def Line.Legible (l : Line) : Prop := '\n' ∉ l.text.toList ∧ l.text.toList.head? ≠ some ' '

/-- A line is written as blanks, its text and a line end. -/
theorem Line.exists_render (l : Line) (width : Nat) :
    ∃ n, (l.render width).toList = List.replicate n ' ' ++ l.text.toList ++ ['\n'] ∧
      n = (if l.text = "" then 0 else l.depth) * width := by
  unfold Line.render
  split
  · rename_i hempty
    exact ⟨0, by simp [hempty], by simp⟩
  · exact ⟨l.depth * width, by simp, rfl⟩

/-- The lines of a text give back depths and texts, for every width of a level. -/
theorem Outline.readBack_render {width : Nat} (hwidth : 1 ≤ width) {o : Outline}
    (h : ∀ l ∈ o.lines, l.Legible) :
    readBack width (o.render width) =
      o.lines.map fun l => (if l.text = "" then 0 else l.depth, l.text) := by
  obtain ⟨lines⟩ := o
  unfold readBack Outline.render
  induction lines with
  | nil => rfl
  | cons l ls ih =>
    obtain ⟨hl, hls⟩ := List.forall_mem_cons.mp h
    obtain ⟨n, hrender, hn⟩ := l.exists_render width
    have hfeed : ∀ c ∈ List.replicate n ' ' ++ l.text.toList, (c == '\n') = false := by
      intro c hc
      rcases List.mem_append.mp hc with hc | hc
      · rw [List.eq_of_mem_replicate hc]
        rfl
      · rw [beq_eq_false_iff_ne]
        rintro rfl
        exact hl.1 hc
    -- the blanks in front are those of the indent, since the text begins with none
    have hhead : ∀ c ∈ l.text.toList.head?, decide (c = ' ') = false := by
      intro c hc
      rw [decide_eq_false_iff_not]
      rintro rfl
      exact hl.2 hc
    obtain ⟨htake, hdrop⟩ := takeWhile_append_of_head (w := List.replicate n ' ') (by simp) hhead
    rw [List.map_cons, String.join_cons, String.toList_append, hrender, List.append_assoc,
      List.singleton_append, List.splitOn,
      List.splitOnP_append_cons_of_forall_mem hfeed '\n' rfl,
      List.dropLast_cons_of_ne_nil (List.splitOnP_ne_nil _ _), List.map_cons, List.map_cons,
      htake, hdrop, List.length_replicate, hn, Nat.mul_div_cancel _ hwidth, String.ofList_toList]
    exact congrArg _ (ih hls)

/-- **Outlines are well nested and stay readable.** However an outline is put together, its first
line is at the margin, each line is at most one level deeper than the one before it, and every line
that was added as a header is directly followed by a line one level deeper. If no text contains a
line feed or begins with a blank, the lines are read back from what is written out, whatever the
width of a level is; only lines without text lose their depth. -/
theorem Assembly.outline_nested (a : Assembly) :
    (∀ l ∈ a.outline.lines.head?, l.depth = 0) ∧
    a.outline.lines.IsChain (fun l next => next.depth ≤ l.depth + 1) ∧
    (∀ p ∈ a.headers, Heads a.outline.lines p.1 p.2) ∧
    ∀ width, 1 ≤ width → (∀ l ∈ a.outline.lines, l.Legible) →
      Outline.readBack width (a.outline.render width) =
        a.outline.lines.map fun l => (if l.text = "" then 0 else l.depth, l.text) :=
  ⟨a.wellNested.first, a.wellNested.steps, a.heads,
    fun _ hwidth hlegible => Outline.readBack_render hwidth hlegible⟩

/-- A loop in a procedure with an empty body, a blank line in between, and a line behind. -/
theorem Assembly.outline_nested_blank :
    ∃ a : Assembly, a.headers = [(0, "def p():"), (3, "while x:")] ∧
      (∀ l ∈ a.outline.lines, l.Legible) ∧
      a.outline.render 2 = "def p():\n  x = 1\n\n  while x:\n    pass\np()\n" ∧
      Outline.readBack 2 (a.outline.render 2) =
        [(0, "def p():"), (1, "x = 1"), (0, ""), (1, "while x:"), (2, "pass"), (0, "p()")] := by
  -- a block in a block, with an empty line in front of it and a line behind both
  let a : Assembly :=
    .append (.nest .empty "def p():" (.nest (.blank (.line "x = 1")) "while x:" .empty))
      (.push .empty "p()")
  have hlegible : ∀ l ∈ a.outline.lines, l.Legible := by
    unfold Line.Legible
    decide
  exact ⟨a, rfl, hlegible, by decide, a.outline_nested.2.2.2 2 (by decide) hlegible⟩

end Plic.Python
