import Plic.Text.Lines
import Plic.Proofs.Token.Pieces

/-!
# Trimmed texts and lines

What is left of a text without the blanks at its ends, and which lines a text has, said without the
functions that find them.

Main results:

* `trim_eq_iff` — a text is trimmed to what stands between blanks and neither begins nor ends with
  one.
* `lined_lines`, `Lined.lines_eq` — a text has the lines that end at its line feeds, each without
  one carriage return in front of the feed, and no others.
-/

namespace Plic.Text

open Lexer (takeWhile_append_of_head)

/-! ## Blanks at the ends -/

/-- `t` is the text `s` without the blanks at its ends. -/
structure Trims (s t : List Char) : Prop where
  between : ∃ before behind, s = before ++ t ++ behind ∧
    (∀ c ∈ before, isBlank c) ∧ ∀ c ∈ behind, isBlank c
  head : ∀ c ∈ t.head?, isBlank c = false
  last : ∀ c ∈ t.getLast?, isBlank c = false

/-- A text is what is left when it is trimmed, between blanks. -/
theorem exists_trim (s : List Char) :
    ∃ before behind, s = before ++ trim s ++ behind ∧
      (∀ c ∈ before, isBlank c) ∧ ∀ c ∈ behind, isBlank c := by
  refine ⟨s.takeWhile isBlank, ((s.dropWhile isBlank).reverse.takeWhile isBlank).reverse,
    ?_, ?_, ?_⟩
  · rw [trim, trimEnd, trimStart, List.append_assoc, ← List.reverse_append,
      List.takeWhile_append_dropWhile, List.reverse_reverse, List.takeWhile_append_dropWhile]
  · exact fun c hc => List.mem_takeWhile_imp hc
  · intro c hc
    rw [List.mem_reverse] at hc
    exact List.mem_takeWhile_imp hc

/-- Trimming takes off the blanks at both ends. -/
theorem trims_trim (s : List Char) : Trims s (trim s) := by
  have hend : ∀ c ∈ (trim s).getLast?, isBlank c = false := by
    intro c hc
    rw [trim, trimEnd, List.getLast?_reverse] at hc
    have := List.head?_dropWhile_not isBlank (trimStart s).reverse
    rw [hc] at this
    simpa using this
  refine ⟨exists_trim s, ?_, hend⟩
  intro c hc
  -- the first character is also the first one behind the blanks that were cut off in front
  obtain ⟨cut, hcut⟩ : ∃ cut, trimStart s = trim s ++ cut := by
    refine ⟨((trimStart s).reverse.takeWhile isBlank).reverse, ?_⟩
    rw [trim, trimEnd, ← List.reverse_append, List.takeWhile_append_dropWhile,
      List.reverse_reverse]
  have hhead : (trimStart s).head? = some c := by
    rw [hcut, List.head?_append, hc]
    rfl
  have := List.head?_dropWhile_not isBlank s
  rw [← trimStart, hhead] at this
  simpa using this

variable {s l : List Char} {ls : List (List Char)}

theorem Trims.trim_eq {t : List Char} (h : Trims s t) : trim s = t := by
  obtain ⟨before, behind, rfl, hbefore, hbehind⟩ := h.between
  by_cases hempty : t = []
  · -- nothing but blanks: all of them go at the start
    subst hempty
    have hall : ∀ c ∈ before ++ [] ++ behind, isBlank c := by
      intro c hc
      rcases List.mem_append.mp hc with hc | hc
      · exact hbefore c (by simpa using hc)
      · exact hbehind c hc
    rw [trim, trimStart, List.dropWhile_eq_nil_iff.mpr hall]
    rfl
  · have hstart : trimStart (before ++ t ++ behind) = t ++ behind := by
      rw [trimStart, List.append_assoc]
      refine (takeWhile_append_of_head hbefore fun c hc => ?_).2
      rw [List.head?_append_of_ne_nil _ hempty] at hc
      exact h.head c hc
    -- the end is trimmed as the start of the reversed text
    have hend : (behind.reverse ++ t.reverse).dropWhile isBlank = t.reverse := by
      refine (takeWhile_append_of_head (fun c hc => ?_) fun c hc => ?_).2
      · exact hbehind c (List.mem_reverse.mp hc)
      · rw [List.head?_reverse] at hc
        exact h.last c hc
    rw [trim, hstart, trimEnd, List.reverse_append, hend, List.reverse_reverse]

theorem trim_eq_iff {t : List Char} : trim s = t ↔ Trims s t :=
  ⟨fun h => h ▸ trims_trim s, Trims.trim_eq⟩

/-- Blanks at the ends of a text make no difference to what is left of it. -/
theorem trim_append {before behind : List Char} (s : List Char) (hbefore : ∀ c ∈ before, isBlank c)
    (hbehind : ∀ c ∈ behind, isBlank c) : trim (before ++ s ++ behind) = trim s := by
  obtain ⟨a, b, hs, ha, hb⟩ := exists_trim s
  obtain ⟨-, hhead, hlast⟩ := trims_trim s
  refine Trims.trim_eq ⟨⟨before ++ a, b ++ behind, ?_, ?_, ?_⟩, hhead, hlast⟩
  · nth_rewrite 1 [hs]
    simp only [List.append_assoc]
  · exact List.forall_mem_append.mpr ⟨hbefore, ha⟩
  · exact List.forall_mem_append.mpr ⟨hb, hbehind⟩

/-- A text that neither begins nor ends with a blank is left as it is. -/
theorem trim_eq_self (hhead : ∀ c ∈ s.head?, isBlank c = false)
    (hlast : ∀ c ∈ s.getLast?, isBlank c = false) : trim s = s :=
  Trims.trim_eq ⟨⟨[], [], by simp, by simp, by simp⟩, hhead, hlast⟩

/-! ## Lines -/

/-- The text has the lines. Each ends at a line feed, except that nothing need end the last one; a
carriage return in front of the feed belongs to the end. -/
inductive Lined : List Char → List (List Char) → Prop where
  | nil : Lined [] []
  | last {l : List Char} : l ≠ [] → '\n' ∉ l → Lined l [l]
  | feed {l rest : List Char} {ls : List (List Char)} :
      '\n' ∉ l → l.getLast? ≠ some '\r' → Lined rest ls → Lined (l ++ '\n' :: rest) (l :: ls)
  | returnFeed {l rest : List Char} {ls : List (List Char)} :
      '\n' ∉ l → Lined rest ls → Lined (l ++ '\r' :: '\n' :: rest) (l :: ls)

/-- A character in front of a text goes to the front of its first line. -/
theorem lines_cons {c : Char} {cs : List Char} (hfeed : c ≠ '\n')
    (hreturn : ¬ (c = '\r' ∧ cs.head? = some '\n')) :
    lines (c :: cs) = (c :: (lines cs).headD []) :: (lines cs).tail := by
  rw [lines]
  · cases lines cs <;> rfl
  · exact hfeed
  · rintro rest rfl rfl
    exact hreturn ⟨rfl, rfl⟩

theorem lines_feed (hl : '\n' ∉ l) (hreturn : l.getLast? ≠ some '\r')
    (rest : List Char) : lines (l ++ '\n' :: rest) = l :: lines rest := by
  induction l with
  | nil => rw [List.nil_append, lines]
  | cons c l ih =>
    rw [List.mem_cons, not_or] at hl
    have hlast : l.getLast? ≠ some '\r' := by
      intro hlast
      exact hreturn (by rw [List.getLast?_cons, hlast]; rfl)
    rw [List.cons_append, lines_cons (Ne.symm hl.1), ih hl.2 hlast]
    · rfl
    -- a return directly in front of the feed would be the last character of the line
    rintro ⟨rfl, hhead⟩
    cases l with
    | nil => exact hreturn rfl
    | cons d l =>
      rw [List.cons_append, List.head?_cons, Option.some.injEq] at hhead
      exact hl.2 (by simp [hhead])

/-- Together with a carriage return in front of it. -/
theorem lines_returnFeed (hl : '\n' ∉ l) (rest : List Char) :
    lines (l ++ '\r' :: '\n' :: rest) = l :: lines rest := by
  induction l with
  | nil => rw [List.nil_append, lines]
  | cons c l ih =>
    rw [List.mem_cons, not_or] at hl
    rw [List.cons_append, lines_cons (Ne.symm hl.1), ih hl.2]
    · rfl
    -- a feed inside of the line would have ended it
    rintro ⟨-, hhead⟩
    cases l with
    | nil => exact absurd hhead (by simp)
    | cons d l =>
      rw [List.cons_append, List.head?_cons, Option.some.injEq] at hhead
      exact hl.2 (by simp [hhead])

theorem lines_last (hne : l ≠ []) (hl : '\n' ∉ l) : lines l = [l] := by
  induction l with
  | nil => exact absurd rfl hne
  | cons c l ih =>
    rw [List.mem_cons, not_or] at hl
    have hreturn : ¬ (c = '\r' ∧ l.head? = some '\n') := by
      rintro ⟨-, hhead⟩
      exact hl.2 (List.mem_of_mem_head? hhead)
    rw [lines_cons (Ne.symm hl.1) hreturn]
    by_cases hempty : l = []
    · subst hempty
      rfl
    · rw [ih hempty hl.2]
      rfl

/-- The lines of a text are those that it has. -/
theorem Lined.lines_eq {text : List Char} (h : Lined text ls) : lines text = ls := by
  induction h with
  | nil => rfl
  | last hne hl => exact lines_last hne hl
  | feed hl hreturn _ ih => rw [lines_feed hl hreturn, ih]
  | returnFeed hl _ ih => rw [lines_returnFeed hl, ih]

/-- The first line takes a further character in, and its end stays what it was. -/
theorem Lined.cons {c : Char} {cs : List Char} (h : Lined cs ls)
    (hfeed : c ≠ '\n') (hreturn : ¬ (c = '\r' ∧ cs.head? = some '\n')) :
    Lined (c :: cs) ((c :: ls.headD []) :: ls.tail) := by
  -- the character goes to the front of the first line and ends none
  have hmem : ∀ {l : List Char}, '\n' ∉ l → '\n' ∉ c :: l := by
    intro l hl
    rw [List.mem_cons, not_or]
    exact ⟨Ne.symm hfeed, hl⟩
  cases h with
  | nil => exact .last (by simp) (hmem (by simp))
  | last _ hl => exact .last (by simp) (hmem hl)
  | @feed l rest ls hl hlast hrest =>
    refine Lined.feed (l := c :: l) (hmem hl) ?_ hrest
    -- the new character is the last of its line only where the line was empty
    cases l with
    | nil =>
      intro hc
      exact hreturn ⟨by simpa using hc, rfl⟩
    | cons d l => simpa [List.getLast?_cons_cons] using hlast
  | @returnFeed l rest ls hl hrest => exact Lined.returnFeed (l := c :: l) (hmem hl) hrest

theorem lined_lines (text : List Char) : Lined text (lines text) := by
  match text with
  | [] => exact .nil
  | c :: cs =>
    have ih := lined_lines cs
    by_cases hfeed : c = '\n'
    · subst hfeed
      rw [lines]
      exact Lined.feed (l := []) (by simp) (by simp) ih
    -- a return counts only together with its feed
    by_cases hreturn : c = '\r' ∧ cs.head? = some '\n'
    · obtain ⟨rfl, hhead⟩ := hreturn
      obtain ⟨rest, rfl⟩ := List.head?_eq_some_iff.mp hhead
      rw [lines]
      exact Lined.returnFeed (l := []) (by simp) (lined_lines rest)
    · rw [lines_cons hfeed hreturn]
      exact ih.cons hfeed hreturn

end Plic.Text
