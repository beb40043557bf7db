import Plic.Viewer.Highlight
import Plic.Proofs.Token.Pieces

/-!
# Highlighting loses nothing

The spans of a line, put together, are the line again. A highlighter works on the bytes of the
line, though: it walks over the characters with the bytes where they begin, looks ahead by slices
of the line, cuts spans out by slices, and has a word pending while it walks. A slice that begins
or ends inside a character is a crash, and an offset that is out of step with the walk doubles or
drops text. So the walk is written out here with its offsets (`walk`), where a slice that is not at
the borders of characters gives nothing at all, and it is shown to find the spans of the line.

Main results:

* `slice?_eq_some_iff` — a slice is what stands between two borders of characters.
* `flatMap_spans`, `ne_nil_of_mem_spans` — spans put together are the text, and none is empty.
* `walk_eq` — the walk over the bytes never takes a slice elsewhere, and finds the same spans.
* `highlighting_loses_nothing` — all of this for every line and both languages.
-/

namespace Plic.Viewer.Highlight

open String (utf8Len utf8Len_append utf8Len_cons)

/-! ## Slices -/

/-- The text of a line from one byte to before another. There is none unless each of the two is the
first byte of a character or the end of the line. -/
def slice? (line : String) (a b : Nat) : Option (List Char) :=
  if String.Pos.Raw.isValid line ⟨a⟩ && String.Pos.Raw.isValid line ⟨b⟩ && a ≤ b then
    some (String.Pos.Raw.extract line ⟨a⟩ ⟨b⟩).toList
  else none

/-- Where a character ends, a slice may begin. -/
theorem isValid_utf8Len {line : String} {before behind : List Char}
    (h : line.toList = before ++ behind) :
    String.Pos.Raw.isValid line ⟨utf8Len before⟩ = true := by
  rw [String.Pos.Raw.isValid_eq_true_iff, String.Pos.Raw.isValid_iff_exists_append]
  refine ⟨String.ofList before, String.ofList behind, ?_, (String.rawEndPos_ofList before).symm⟩
  rw [← String.ofList_append, ← h, String.ofList_toList]

/-- What stands between two parts of a line is a slice of it. -/
theorem slice?_append {line : String} {before text behind : List Char}
    (h : line.toList = before ++ text ++ behind) :
    slice? line (utf8Len before) (utf8Len before + utf8Len text) = some text := by
  have hstart : String.Pos.Raw.isValid line ⟨utf8Len before⟩ = true :=
    isValid_utf8Len (h.trans (List.append_assoc _ _ _))
  have hstop : String.Pos.Raw.isValid line ⟨utf8Len before + utf8Len text⟩ = true := by
    rw [← utf8Len_append]
    exact isValid_utf8Len h
  rw [slice?, hstart, hstop, if_pos (by simp)]
  have hline : line = String.ofList (before ++ text ++ behind) := by
    rw [← h, String.ofList_toList]
  rw [hline, String.extract_of_valid, String.toList_ofList]

/-- And nowhere else: every border has whole characters before it. -/
theorem exists_of_isValid {line : String} {a : Nat} (h : String.Pos.Raw.isValid line ⟨a⟩ = true) :
    ∃ before, before <+: line.toList ∧ a = utf8Len before := by
  rw [String.Pos.Raw.isValid_eq_true_iff, String.Pos.Raw.isValid_iff_exists_append] at h
  obtain ⟨before, behind, rfl, hend⟩ := h
  refine ⟨before.toList, by rw [String.toList_append]; exact List.prefix_append _ _, ?_⟩
  rw [String.utf8Len_toList]
  exact congrArg String.Pos.Raw.byteIdx hend

/-- Of two parts that a line begins with, the one of fewer bytes begins the other. -/
theorem prefix_of_utf8Len_le {l m cs : List Char} (hl : l <+: cs) (hm : m <+: cs)
    (h : utf8Len l ≤ utf8Len m) : l <+: m := by
  rcases List.prefix_or_prefix_of_prefix hl hm with hlm | ⟨rest, rfl⟩
  · exact hlm
  · have hrest : utf8Len rest = 0 := by
      rw [utf8Len_append] at h
      omega
    rw [String.utf8Len_eq_zero.mp hrest, List.append_nil]

/-- A slice is what stands between two borders of characters, and only that. -/
theorem slice?_eq_some_iff {line : String} {a b : Nat} {text : List Char} :
    slice? line a b = some text ↔ ∃ before behind, line.toList = before ++ text ++ behind ∧
      a = utf8Len before ∧ b = utf8Len before + utf8Len text := by
  constructor
  · intro h
    have hborders := h
    rw [slice?] at hborders
    split at hborders
    case isFalse => cases hborders
    rename_i hvalid
    simp only [Bool.and_eq_true, decide_eq_true_eq] at hvalid
    obtain ⟨⟨hstart, hstop⟩, hle⟩ := hvalid
    obtain ⟨before, hbefore, rfl⟩ := exists_of_isValid hstart
    obtain ⟨both, hboth, rfl⟩ := exists_of_isValid hstop
    -- what stands between the two borders is the slice, so it is the text
    obtain ⟨between, rfl⟩ := prefix_of_utf8Len_le hbefore hboth hle
    obtain ⟨behind, hline⟩ := hboth
    rw [utf8Len_append, slice?_append hline.symm] at h
    obtain rfl := Option.some.inj h
    exact ⟨before, behind, hline.symm, rfl, utf8Len_append _ _⟩
  · rintro ⟨before, behind, hline, rfl, rfl⟩
    exact slice?_append hline

/-! ## The walk over the bytes -/

/-- The characters of a text with the bytes where they begin, counted from `i`. -/
def indices : Nat → List Char → List (Nat × Char)
  | _, [] => []
  | i, c :: cs => (i, c) :: indices (i + c.utf8Size) cs

/-- The first byte of the first end of a comment. -/
def closeAt? : List Char → Option Nat
  | [] => none
  | c :: cs =>
    if c = '*' && cs.head? = some '/' then some 0 else (closeAt? cs).map (c.utf8Size + ·)

/-- The byte behind the quote that closes a literal. In Python a backslash protects the character
behind it. -/
def closedBy? (language : Language) (quote : Char) : (escaped : Bool) → List Char → Option Nat
  | _, [] => none
  | true, c :: cs => (closedBy? language quote false cs).map (c.utf8Size + ·)
  | false, c :: cs =>
    if c = '\\' && language = .python then
      (closedBy? language quote true cs).map (c.utf8Size + ·)
    else if c = quote then some c.utf8Size
    else (closedBy? language quote false cs).map (c.utf8Size + ·)

/-- Whether a comment begins at a byte, told by a slice of the line from there on. -/
def commentAt? (language : Language) (line : String) (i : Nat) (c : Char) : Option Bool :=
  match language with
  | .pli =>
    if c = '/' then (slice? line (i + 1) line.utf8ByteSize).map fun t => t.head? = some '*'
    else some false
  | .python => some (c = '#')

/-- The byte behind the comment that begins at byte `i`. -/
def commentStop? (language : Language) (line : String) (i : Nat) : Option Nat :=
  match language with
  | .pli => (slice? line (i + 2) line.utf8ByteSize).map fun t =>
      ((closeAt? t).map (i + 2 + · + 2)).getD line.utf8ByteSize
  | .python => some line.utf8ByteSize

/-- The byte behind the literal that begins at byte `i` with a quote. -/
def literalStop? (language : Language) (line : String) (i : Nat) (quote : Char) : Option Nat :=
  (slice? line (i + 1) line.utf8ByteSize).map fun t =>
    ((closedBy? language quote false t).map (i + 1 + ·)).getD line.utf8ByteSize

/-- What a walk has found: spans, and the beginning of a word. -/
structure Found where
  spans : List (List Char × Role) := []
  word : List Char := []

/-- Makes a span of the word that was begun. -/
def Found.flush (f : Found) (language : Language) (called : Bool) : Found :=
  if f.word.isEmpty then f
  else { spans := f.spans ++ [(f.word, wordRole language f.word called)] }

/-- A span is added behind those that were found. -/
def Found.push (f : Found) (span : List Char × Role) : Found :=
  { f with spans := f.spans ++ [span] }

/-- Walks over characters with the bytes where they begin. There is no answer if a slice is not at
the borders of characters. -/
def walk (language : Language) (line : String) (f : Found) :
    List (Nat × Char) → Option (List (List Char × Role))
  | [] => some (f.flush language false).spans
  | (i, c) :: ahead => do
    if ← commentAt? language line i c then
      let stop ← commentStop? language line i
      let text ← slice? line i stop
      walk language line ((f.flush language false).push (text, .comment))
        (ahead.dropWhile fun p => p.1 < stop)
    else if c = '\x27' || c = '\x22' then
      let stop ← literalStop? language line i c
      let text ← slice? line i stop
      walk language line ((f.flush language false).push (text, .literal))
        (ahead.dropWhile fun p => p.1 < stop)
    else if isWordChar c then walk language line { f with word := f.word ++ [c] } ahead
    else walk language line ((f.flush language (c = '(')).push ([c], .plain)) ahead
termination_by ahead => ahead.length
decreasing_by
  · exact Nat.lt_succ_of_le (List.dropWhile_suffix _).length_le
  · exact Nat.lt_succ_of_le (List.dropWhile_suffix _).length_le
  · exact Nat.lt_succ_self _
  · exact Nat.lt_succ_self _

/-! ## Spans of a text -/

/-- The spans of a text. -/
def spans (language : Language) (cs : List Char) : List (List Char × Role) :=
  spansAfter language 0 cs

/-- Skipping characters is the same as dropping them. -/
theorem spansAfter_eq_drop (language : Language) (skip : Nat) (cs : List Char) :
    spansAfter language skip cs = spans language (cs.drop skip) := by
  induction skip generalizing cs with
  | zero => rfl
  | succ skip ih =>
    cases cs with
    | nil => rfl
    | cons c cs =>
      rw [spansAfter, List.drop_succ_cons]
      exact ih cs

theorem literalBody_prefix (language : Language) (quote : Char) (cs : List Char) :
    literalBody language quote cs <+: cs := by
  fun_induction literalBody language quote cs with
  | case1 | case2 c => exact List.prefix_refl _
  | case3 c d cs _ ih => exact List.prefix_cons_inj _ |>.mpr (List.prefix_cons_inj _ |>.mpr ih)
  | case4 d cs _ => exact ⟨d :: cs, rfl⟩
  | case5 c d cs _ _ ih => exact List.prefix_cons_inj _ |>.mpr ih

theorem commentRest_prefix (language : Language) (rest : List Char) :
    commentRest language rest <+: rest := by
  cases language with
  | python => exact List.prefix_refl _
  | pli =>
    rw [commentRest]
    cases hbody : Lexer.commentBody rest.tail with
    -- an open comment goes to the end of the line
    | none => exact List.prefix_refl _
    | some body =>
      obtain ⟨_, -, hbody, -⟩ := Lexer.commentBody_ends hbody
      cases rest with
      | nil => simpa using hbody
      | cons c rest => exact List.prefix_cons_inj _ |>.mpr hbody

/-- The first span is not empty, and it is what the text begins with. -/
theorem exists_firstSpan (language : Language) (c : Char) (rest : List Char) :
    ∃ more, (firstSpan language c rest).1 = c :: more ∧ more <+: rest := by
  unfold firstSpan
  split_ifs
  · exact ⟨_, rfl, commentRest_prefix language rest⟩
  · exact ⟨_, rfl, literalBody_prefix language c rest⟩
  · exact ⟨_, rfl, List.takeWhile_prefix _⟩
  · exact ⟨[], rfl, List.nil_prefix⟩

/-- The spans of a text are its first one and those of what comes behind it. -/
theorem spans_of_firstSpan {language : Language} {c : Char} {rest more behind : List Char} {r : Role}
    (hfirst : firstSpan language c rest = (c :: more, r)) (hrest : rest = more ++ behind) :
    spans language (c :: rest) = (c :: more, r) :: spans language behind := by
  rw [spans, spansAfter]
  show firstSpan language c rest :: spansAfter language _ rest = _
  rw [hfirst, spansAfter_eq_drop, List.length_cons, Nat.add_sub_cancel, hrest, List.drop_left]

/-- The spans of a text, put together, are the text. -/
theorem flatMap_spans (language : Language) (cs : List Char) :
    (spans language cs).flatMap Prod.fst = cs := by
  induction hn : cs.length using Nat.strong_induction_on generalizing cs with
  | _ n ih =>
    cases cs with
    | nil => rfl
    | cons c rest =>
      obtain ⟨more, hfirst, behind, rfl⟩ := exists_firstSpan language c rest
      rw [spans_of_firstSpan (Prod.ext hfirst rfl) rfl, List.flatMap_cons,
        ih behind.length (by simp at hn; omega) behind rfl]
      rfl

/-- No span is empty, so highlighting makes progress. -/
theorem ne_nil_of_mem_spans {language : Language} {cs : List Char} {s : List Char × Role}
    (h : s ∈ spans language cs) : s.1 ≠ [] := by
  induction hn : cs.length using Nat.strong_induction_on generalizing cs with
  | _ n ih =>
    cases cs with
    | nil => exact absurd h List.not_mem_nil
    | cons c rest =>
      obtain ⟨more, hfirst, behind, rfl⟩ := exists_firstSpan language c rest
      rw [spans_of_firstSpan (Prod.ext hfirst rfl) rfl] at h
      rcases List.mem_cons.mp h with rfl | h
      · simp
      · exact ih behind.length (by simp at hn; omega) h rfl

/-! ## The walk finds the spans -/

theorem utf8Len_literalBody (language : Language) (quote : Char) (cs : List Char) :
    utf8Len (literalBody language quote cs) =
      (closedBy? language quote false cs).getD (utf8Len cs) := by
  fun_induction literalBody language quote cs with
  | case1 => rfl
  | case2 c =>
    rw [closedBy?]
    split_ifs <;> simp [closedBy?]
  | case3 c d cs hescape ih =>
    rw [closedBy?, if_pos hescape, closedBy?, utf8Len_cons, utf8Len_cons, ih]
    -- the end is found behind the escaped character, which is counted with its bytes
    cases closedBy? language quote false cs with
    | none => rfl
    | some n =>
      simp only [Option.map_some, Option.getD_some]
      omega
  | case4 d cs hescape =>
    rw [closedBy?, if_neg hescape, if_pos rfl]
    simp
  | case5 c d cs hescape hquote ih =>
    rw [closedBy?, if_neg hescape, if_neg hquote, utf8Len_cons, ih]
    cases closedBy? language quote false (d :: cs) with
    | none => rfl
    | some n =>
      simp only [Option.map_some, Option.getD_some]
      omega

/-- Where a comment ends, in bytes: behind its two closing characters. -/
theorem utf8Len_commentBody (cs : List Char) :
    (Lexer.commentBody cs).map utf8Len = (closeAt? cs).map (· + 2) := by
  induction cs with
  | nil => rfl
  | cons c cs ih =>
    rw [Lexer.commentBody, closeAt?]
    -- the two marks at the front close the comment; otherwise one character more is inside
    split
    · rfl
    · cases hbody : Lexer.commentBody cs with
      | none =>
        rw [hbody] at ih
        cases hclose : closeAt? cs with
        | none => rfl
        | some n => simp [hclose] at ih
      | some body =>
        rw [hbody] at ih
        cases hclose : closeAt? cs with
        | none => simp [hclose] at ih
        | some n =>
          simp only [hclose, Option.map_some, Option.some.injEq] at ih
          simp only [Option.map_some, utf8Len_cons, ih, Option.some.injEq]
          omega

/-- Going on where a text ends means to skip its characters. -/
theorem dropWhile_indices (i : Nat) (text behind : List Char) :
    (indices i (text ++ behind)).dropWhile (fun p => p.1 < i + utf8Len text) =
      indices (i + utf8Len text) behind := by
  induction text generalizing i with
  | nil =>
    cases behind with
    | nil => rfl
    | cons c behind => simp [indices]
  | cons c text ih =>
    -- each character takes at least one byte, so its index is below the end of the text
    have hpos : 0 < c.utf8Size := c.utf8Size_pos
    have hlen : i + utf8Len (c :: text) = i + c.utf8Size + utf8Len text := by
      rw [utf8Len_cons]
      omega
    rw [List.cons_append, indices, List.dropWhile_cons_of_pos (by simp only [hlen]; simp; omega),
      hlen]
    exact ih (i + c.utf8Size)

section Walk

variable {language : Language} {line : String} {before rest more behind : List Char} {c : Char}

/-- The rest of a line from a border of characters is a slice. -/
theorem slice?_rest (h : line.toList = before ++ rest) :
    slice? line (utf8Len before) line.utf8ByteSize = some rest := by
  rw [← String.utf8Len_toList, h, utf8Len_append]
  exact slice?_append (h.trans (List.append_nil _).symm)

/-- The slice behind a character of one byte. -/
theorem slice?_behind (h : line.toList = before ++ c :: rest) (hc : c.utf8Size = 1) :
    slice? line (utf8Len before + 1) line.utf8ByteSize = some rest := by
  have hlen : utf8Len (before ++ [c]) = utf8Len before + 1 := by
    rw [utf8Len_append, utf8Len_cons, String.utf8Len_nil, hc]
  rw [← hlen]
  exact slice?_rest (by rw [h, List.append_assoc, List.singleton_append])

/-- At a border, the slice decides as the characters do. -/
theorem commentAt?_eq (h : line.toList = before ++ c :: rest) :
    commentAt? language line (utf8Len before) c = some (beginsComment language c rest) := by
  cases language with
  | python => rfl
  | pli =>
    rw [commentAt?, beginsComment]
    split_ifs with hc
    · rw [slice?_behind h (hc ▸ rfl)]
      simp [hc]
    · simp [hc]

/-- The byte behind a comment is the border behind its characters. -/
theorem commentStop?_eq (h : line.toList = before ++ c :: rest)
    (hbegins : beginsComment language c rest = true) :
    commentStop? language line (utf8Len before) =
      some (utf8Len before + utf8Len (c :: commentRest language rest)) := by
  have hsize : line.utf8ByteSize = utf8Len before + utf8Len (c :: rest) := by
    rw [← String.utf8Len_toList, h, utf8Len_append]
  -- a comment of Python goes to the end of the line
  cases language with
  | python => exact congrArg some hsize
  | pli =>
    simp only [beginsComment, Bool.and_eq_true, decide_eq_true_eq] at hbegins
    obtain ⟨rfl, hstar⟩ := hbegins
    obtain ⟨text, rfl⟩ : ∃ text, rest = '*' :: text := List.head?_eq_some_iff.mp hstar
    have hlen : utf8Len (before ++ ['/', '*']) = utf8Len before + 2 := by
      rw [utf8Len_append]
      rfl
    -- behind the two opening marks the line is searched for the closing ones
    have hslice : slice? line (utf8Len before + 2) line.utf8ByteSize = some text := by
      rw [← hlen]
      exact slice?_rest (by rw [h, List.append_assoc]; rfl)
    have hclose := utf8Len_commentBody text
    rw [commentStop?, hslice, commentRest, List.tail_cons, Option.map_some, Option.some.injEq]
    -- a comment that is not closed goes to the end of the line as well
    cases hbody : Lexer.commentBody text with
    | none =>
      rw [hbody, Option.map_none, eq_comm, Option.map_eq_none_iff] at hclose
      rw [hclose]
      exact hsize
    | some body =>
      rw [hbody, Option.map_some, eq_comm, Option.map_eq_some_iff] at hclose
      obtain ⟨n, hn, hbodyLen⟩ := hclose
      have hmarks : utf8Len ('/' :: '*' :: body) = utf8Len body + 2 := rfl
      rw [hn]
      show utf8Len before + 2 + n + 2 = utf8Len before + utf8Len ('/' :: '*' :: body)
      omega

/-- So is the byte behind a literal, since its quote is one byte long. -/
theorem literalStop?_eq (h : line.toList = before ++ c :: rest) (hc : c.utf8Size = 1) :
    literalStop? language line (utf8Len before) c =
      some (utf8Len before + utf8Len (c :: literalBody language c rest)) := by
  have hsize : line.utf8ByteSize = utf8Len before + utf8Len (c :: rest) := by
    rw [← String.utf8Len_toList, h, utf8Len_append]
  rw [literalStop?, slice?_behind h hc, Option.map_some, utf8Len_cons, utf8Len_literalBody, hc]
  rw [utf8Len_cons, hc] at hsize
  cases closedBy? language c false rest with
  | none => exact congrArg some (hsize.trans rfl)
  | some n => exact congrArg some (by simp only [Option.map_some, Option.getD_some]; omega)

/-- Behind a character and what belongs to it the walk goes on with the character that follows. -/
theorem dropWhile_indices_cons (i : Nat) (c : Char) (more behind : List Char) :
    (indices (i + c.utf8Size) (more ++ behind)).dropWhile
        (fun p => p.1 < i + utf8Len (c :: more)) =
      indices (i + utf8Len (c :: more)) behind := by
  have hlen : i + utf8Len (c :: more) = i + c.utf8Size + utf8Len more := by
    rw [utf8Len_cons]
    omega
  rw [hlen]
  exact dropWhile_indices _ more behind

/-- A quote ends a pending word and is one byte long. -/
theorem of_quote (h : (c = '\x27' || c = '\x22') = true) :
    isWordChar c = false ∧ c ≠ '(' ∧ c.utf8Size = 1 := by
  simp only [Bool.or_eq_true, decide_eq_true_eq] at h
  rcases h with rfl | rfl <;> decide +kernel

theorem of_beginsComment (h : beginsComment language c rest = true) :
    isWordChar c = false ∧ c ≠ '(' := by
  cases language with
  | pli =>
    simp only [beginsComment, Bool.and_eq_true, decide_eq_true_eq] at h
    rw [h.1]
    decide +kernel
  | python =>
    rw [of_decide_eq_true h]
    decide +kernel

/-- A character of a word begins neither. -/
theorem not_beginsComment_or_quote (language : Language) (rest : List Char)
    (hc : isWordChar c = true) :
    ¬ beginsComment language c rest = true ∧ ¬ (c = '\x27' || c = '\x22') = true := by
  constructor
  · intro h
    simp [(of_beginsComment h).1] at hc
  · intro h
    simp [(of_quote h).1] at hc

/-- A word is a span, which ends where no character of a word follows. -/
theorem spans_word {w cs : List Char} (hne : w ≠ []) (hw : ∀ c ∈ w, isWordChar c = true)
    (hcs : ∀ c ∈ cs.head?, isWordChar c = false) :
    spans language (w ++ cs) =
      (w, wordRole language w (cs.head? = some '(')) :: spans language cs := by
  obtain ⟨c, more, rfl⟩ := List.exists_cons_of_ne_nil hne
  rw [List.forall_mem_cons] at hw
  obtain ⟨htake, hdrop⟩ := Lexer.takeWhile_append_of_head hw.2 hcs
  obtain ⟨hcomment, hquote⟩ := not_beginsComment_or_quote language (more ++ cs) hw.1
  refine @spans_of_firstSpan language c (more ++ cs) more cs _ ?_ rfl
  rw [firstSpan, if_neg hcomment, if_neg hquote, if_pos hw.1, htake, hdrop]

namespace Found

variable {f : Found} {r : Role}

@[simp]
theorem word_flush (f : Found) (language : Language) (called : Bool) :
    (f.flush language called).word = [] := by
  rw [flush]
  split_ifs with hword
  · exact List.isEmpty_iff.mp hword
  · rfl

theorem spans_flush_append {cs : List Char} (hword : ∀ c ∈ f.word, isWordChar c = true)
    (hcs : ∀ c ∈ cs.head?, isWordChar c = false) :
    (f.flush language (cs.head? = some '(')).spans ++ Highlight.spans language cs =
      f.spans ++ Highlight.spans language (f.word ++ cs) := by
  rw [flush]
  split_ifs with hempty
  · rw [List.isEmpty_iff.mp hempty, List.nil_append]
  · rw [spans_word (fun h => hempty (List.isEmpty_iff.mpr h)) hword hcs, List.append_assoc,
      List.singleton_append]

/-- A span that is found behind a word goes behind the span of the word. -/
theorem spans_push_append (hword : ∀ c ∈ f.word, isWordChar c = true)
    (hc : isWordChar c = false) (hfirst : firstSpan language c (more ++ behind) = (c :: more, r)) :
    ((f.flush language (c = '(')).push (c :: more, r)).spans ++ Highlight.spans language behind =
      f.spans ++ Highlight.spans language (f.word ++ c :: (more ++ behind)) := by
  rw [← spans_flush_append hword (by simpa using hc), spans_of_firstSpan hfirst rfl, push,
    List.append_assoc, List.singleton_append]
  simp

end Found

/-- A step of the walk on a character of a word makes the word longer. -/
theorem walk_word {f : Found} (h : line.toList = before ++ c :: rest) (hc : isWordChar c = true) :
    walk language line f (indices (utf8Len before) (c :: rest)) =
      walk language line { f with word := f.word ++ [c] } (indices (utf8Len (before ++ [c])) rest) := by
  obtain ⟨hcomment, hquote⟩ := not_beginsComment_or_quote language rest hc
  rw [indices, walk, commentAt?_eq h, Option.bind_eq_bind, Option.bind_some, if_neg hcomment,
    if_neg hquote, if_pos hc, utf8Len_append, utf8Len_cons, String.utf8Len_nil, Nat.zero_add]

/-- A step of the walk on any other character closes the word, adds the first span of what lies
ahead, and goes on behind that span. -/
theorem walk_span {f : Found} {r : Role} (h : line.toList = before ++ c :: (more ++ behind))
    (hc : isWordChar c = false) (hfirst : firstSpan language c (more ++ behind) = (c :: more, r)) :
    walk language line f (indices (utf8Len before) (c :: (more ++ behind))) =
      walk language line ((f.flush language (c = '(')).push (c :: more, r))
        (indices (utf8Len before + utf8Len (c :: more)) behind) := by
  -- the span that is to be found is a slice, as it stands between two borders
  have hslice : slice? line (utf8Len before) (utf8Len before + utf8Len (c :: more)) =
      some (c :: more) := @slice?_append line before (c :: more) behind (by simpa using h)
  rw [indices, walk, commentAt?_eq h, Option.bind_eq_bind, Option.bind_some]
  rw [firstSpan] at hfirst
  -- a comment, a literal, a word (which the hypothesis excludes) or a single character
  split_ifs at hfirst with hcomment hquote hword
  · obtain ⟨hmore, rfl⟩ := Prod.mk.inj hfirst
    rw [if_pos hcomment, commentStop?_eq h hcomment, hmore,
      decide_eq_false (of_beginsComment hcomment).2]
    simp only [Option.bind_eq_bind, Option.bind_some, hslice, dropWhile_indices_cons]
  · obtain ⟨hmore, rfl⟩ := Prod.mk.inj hfirst
    obtain ⟨-, hparen, hsize⟩ := of_quote hquote
    rw [if_neg hcomment, if_pos hquote, literalStop?_eq h hsize, hmore, decide_eq_false hparen]
    simp only [Option.bind_eq_bind, Option.bind_some, hslice, dropWhile_indices_cons]
  · rw [hc] at hword
    cases hword
  · obtain ⟨hmore, rfl⟩ := Prod.mk.inj hfirst
    obtain rfl := (List.cons.inj hmore).2
    rw [if_neg hcomment, if_neg hquote, if_neg hword, utf8Len_cons, String.utf8Len_nil,
      Nat.zero_add, List.nil_append]

/-- The walk over the bytes of a line finds the spans of the line: with `before` behind it, `cs`
ahead of it and a word begun, it finds the spans of the word and `cs`. -/
theorem walk_eq {cs : List Char} {f : Found} (h : line.toList = before ++ cs)
    (hword : ∀ c ∈ f.word, isWordChar c = true) :
    walk language line f (indices (utf8Len before) cs) =
      some (f.spans ++ spans language (f.word ++ cs)) := by
  -- a span takes more than one character, so the induction is on the length
  induction hn : cs.length using Nat.strong_induction_on generalizing before cs f with
  | _ n ih =>
    cases cs with
    | nil =>
      rw [indices, walk, ← f.spans_flush_append hword (by simp)]
      exact congrArg some (List.append_nil _).symm
    | cons c rest =>
      cases hc : isWordChar c with
      | true =>
        rw [walk_word h hc, ih rest.length (by simp at hn; omega) (by simpa using h)
          (by simpa [or_imp, forall_and, hc] using hword) rfl]
        simp
      | false =>
        obtain ⟨more, hfirst, behind, rfl⟩ := exists_firstSpan language c rest
        rw [walk_span h hc (Prod.ext hfirst rfl), ← utf8Len_append,
          ih behind.length (by simp at hn; omega) (by simpa using h) (by simp [Found.push]) rfl,
          ← Found.spans_push_append hword hc (Prod.ext hfirst rfl)]
        simp [Found.push]

end Walk

/-! ## Lines -/

/-- Highlighting loses nothing. For every line and both languages the spans, put together, are the
line, and none of them is empty. The walk over the bytes of the line finds these spans: all slices
that it takes are there, and a slice is there only between borders of characters of the line. -/
theorem highlighting_loses_nothing (language : Language) (line : String) :
    (highlight language line.toList).flatMap Span.text = line.toList ∧
      (∀ s ∈ highlight language line.toList, s.text ≠ []) ∧
      (∀ a b text, slice? line a b = some text ↔ ∃ before behind,
        line.toList = before ++ text ++ behind ∧
          a = utf8Len before ∧ b = utf8Len before + utf8Len text) ∧
      ∃ found, walk language line {} (indices 0 line.toList) = some found ∧
        highlight language line.toList = found.map fun s => ⟨s.1, s.2.style⟩ := by
  refine ⟨?_, ?_, fun _ _ _ => slice?_eq_some_iff, spans language line.toList, ?_, rfl⟩
  · rw [highlight, List.flatMap_map]
    exact flatMap_spans language line.toList
  · intro s hs
    obtain ⟨t, ht, rfl⟩ := List.mem_map.mp hs
    exact ne_nil_of_mem_spans ht
  · exact @walk_eq language line [] line.toList {} (List.nil_append _).symm (by simp)

/-- Characters of two and three bytes, and a literal that nothing closes: its last quote is
protected. -/
theorem highlighting_loses_nothing_unclosed :
    (⟨"'ü\\'€".toList, Role.literal.style⟩ : Span) ∈ highlight .python "é='ü\\'€".toList ∧
      "'ü\\'€".toList ≠ [] ∧
      ∃ found, walk .python "é='ü\\'€" {} (indices 0 "é='ü\\'€".toList) = some found ∧
        found.map Prod.fst = ["é".toList, ['='], "'ü\\'€".toList] := by
  -- characters of two and three bytes, in front of and inside of a literal without an end
  have hspans : highlight .python "é='ü\\'€".toList =
      [⟨"é".toList, Role.plain.style⟩, ⟨['='], Role.plain.style⟩,
        ⟨"'ü\\'€".toList, Role.literal.style⟩] := by decide +kernel
  obtain ⟨-, hne, -, found, hwalk, hfound⟩ := highlighting_loses_nothing .python "é='ü\\'€"
  have hmem : (⟨"'ü\\'€".toList, Role.literal.style⟩ : Span) ∈
      highlight .python "é='ü\\'€".toList := hspans ▸ .tail _ (.tail _ (.head _))
  refine ⟨hmem, hne _ hmem, found, hwalk, ?_⟩
  have htexts := congrArg (List.map Span.text) (hfound.symm.trans hspans)
  rwa [List.map_map] at htexts

end Plic.Viewer.Highlight
