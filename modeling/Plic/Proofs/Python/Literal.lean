import Plic.Proofs.Python.Render

/-!
# How Python reads a string literal

The rules for a literal between single quotes, with all escapes. The literal is
cut off first (`extent`): it goes up to the next quote that no backslash stands
before, and a raw line break ends the line before that. Then its escapes are
replaced (`decode`).

Not modelled: names of characters (`\N`) are refused, as are the numbers of code
points that are no characters. A null character, which no source of Python may
hold, is read like any other.

Main results:

* `exists_extent_of_literalBody` — the literals of expressions are read by these rules.
* `read_quote` — what `quote` writes is read back, whatever stands behind it.
-/

namespace Plic.Python.Literal

/-! ## Where a literal ends -/

/-- Characters in front of a literal that is cut off already. -/
def ahead (front : List Char) (o : Option (List Char × List Char)) :
    Option (List Char × List Char) :=
  o.map fun (raw, rest) => (front ++ raw, rest)

/-- The characters of a literal behind its opening quote, and what comes behind
its closing quote. A backslash takes the next character with it, be it a quote, a
backslash or a line break. -/
def extent : List Char → Option (List Char × List Char)
  | [] => none
  | '\x27' :: cs => some ([], cs)
  | '\\' :: '\r' :: '\n' :: cs => ahead ['\\', '\r', '\n'] (extent cs)
  | '\\' :: e :: cs => ahead ['\\', e] (extent cs)
  | c :: cs => if c = '\n' ∨ c = '\r' then none else ahead [c] (extent cs)

variable {raw rest cs : List Char} {e c : Char}

/-- What was read before is put in front. -/
theorem ahead_eq_some {front : List Char} {o : Option (List Char × List Char)} :
    ahead front o = some (raw, rest) ↔ ∃ tail, o = some (tail, rest) ∧ front ++ tail = raw := by
  simp [ahead, Option.map_eq_some_iff]

/-- A literal consists of its characters and the closing quote. -/
theorem eq_of_extent (h : extent cs = some (raw, rest)) : cs = raw ++ '\x27' :: rest := by
  fun_induction extent cs generalizing raw with
  | case1 => simp at h
  | case2 cs => simp_all
  | case3 cs ih | case4 e cs _ ih =>
    obtain ⟨raw, hraw, rfl⟩ := ahead_eq_some.mp h
    simp [ih hraw]
  | case5 => simp at h
  | case6 c cs _ _ _ _ ih =>
    obtain ⟨raw, hraw, rfl⟩ := ahead_eq_some.mp h
    simp [ih hraw]

/-- Behind a backslash the next character belongs to the literal, also if it is a quote. -/
theorem extent_escaped (h : ¬ ['\r', '\n'] <+: e :: cs) :
    extent ('\\' :: e :: cs) = ahead ['\\', e] (extent cs) := by
  rw [extent]
  rintro cs rfl rfl
  exact h (by simp)

/-- So does every character that is neither a quote, a backslash nor a line end. -/
theorem extent_plain (hquote : c ≠ '\x27') (hescape : c ≠ '\\')
    (hbreak : ¬ (c = '\n' ∨ c = '\r')) (cs : List Char) :
    extent (c :: cs) = ahead [c] (extent cs) := by
  rw [extent, if_neg hbreak]
  · exact hquote
  · intro _ hc
    exact absurd hc hescape
  · intro _ _ hc
    exact absurd hc hescape

/-- Where a literal ends does not depend on what stands behind it. -/
theorem extent_append (h : extent cs = some (raw, rest))
    (more : List Char) : extent (cs ++ more) = some (raw, rest ++ more) := by
  fun_induction extent cs generalizing raw with
  | case1 => simp at h
  | case2 cs => simp_all [extent]
  | case3 cs ih =>
    obtain ⟨raw, hraw, rfl⟩ := ahead_eq_some.mp h
    exact ahead_eq_some.mpr ⟨raw, ih hraw, rfl⟩
  | case4 e cs hbreak ih =>
    obtain ⟨raw, hraw, rfl⟩ := ahead_eq_some.mp h
    -- the characters behind the escape are not at their end, so nothing joins the escape
    rw [List.cons_append, List.cons_append, extent_escaped]
    · exact ahead_eq_some.mpr ⟨raw, ih hraw, rfl⟩
    · intro hprefix
      cases cs with
      | nil => simp [extent] at hraw
      | cons d cs =>
        obtain ⟨he, htail⟩ := List.cons_prefix_cons.mp hprefix
        obtain ⟨rfl, -⟩ := List.cons_prefix_cons.mp htail
        exact hbreak cs he.symm rfl
  | case5 => simp at h
  | case6 c cs hquote hfeed hescape hbreak ih =>
    obtain ⟨raw, hraw, rfl⟩ := ahead_eq_some.mp h
    have hc : c ≠ '\\' := by
      rintro rfl
      cases cs with
      | nil => simp [extent] at hraw
      | cons e cs => exact hescape e cs rfl rfl
    rw [List.cons_append, extent_plain hquote hc hbreak]
    exact ahead_eq_some.mpr ⟨raw, ih hraw, rfl⟩

/-! ## Escapes -/

/-- The value of a digit to the base 16. -/
def hexDigit (c : Char) : Option Nat :=
  if c.isDigit then some (c.toNat - '0'.toNat)
  else if 'a' ≤ c ∧ c ≤ 'f' then some (c.toNat - 'a'.toNat + 10)
  else if 'A' ≤ c ∧ c ≤ 'F' then some (c.toNat - 'A'.toNat + 10)
  else none

/-- The character with a code point. -/
def charOf? (n : Nat) : Option Char := if n.isValidChar then some (Char.ofNat n) else none

/-- The character of a number that is written with so many digits. -/
def codePoint (count : Nat) (cs : List Char) : Option Char := do
  let digits ← (cs.take count).mapM hexDigit
  if digits.length = count then charOf? (digits.foldl (16 * · + ·) 0) else none

/-- Whether the character is a digit to the base 8. -/
def isOctal (c : Char) : Bool := '0' ≤ c && c ≤ '7'

/-- What a backslash stands for together with the single character behind it. A
line break there is passed over. -/
def simpleEscape : Char → Option (List Char)
  | '\n' => some []
  | '\r' => some []
  | '\\' => some ['\\']
  | '\x27' => some ['\x27']
  | '\x22' => some ['\x22']
  | 'a' => some ['\x07']
  | 'b' => some ['\x08']
  | 'f' => some ['\x0c']
  | 'n' => some ['\n']
  | 'r' => some ['\r']
  | 't' => some ['\t']
  | 'v' => some ['\x0b']
  | _ => none

/-- What a backslash in front of the given characters stands for, and how many of
them belong to it. A backslash in front of any other character is kept. -/
def escapeAt : List Char → Option (List Char × Nat)
  | [] => none
  | '\r' :: '\n' :: _ => some ([], 2)
  | 'x' :: cs => (codePoint 2 cs).map fun c => ([c], 3)
  | 'u' :: cs => (codePoint 4 cs).map fun c => ([c], 5)
  | 'U' :: cs => (codePoint 8 cs).map fun c => ([c], 9)
  | 'N' :: _ => none
  | c :: cs =>
    match simpleEscape c with
    | some value => some (value, 1)
    | none =>
      if isOctal c then
        -- one to three digits
        let digits := ((c :: cs).take 3).takeWhile isOctal
        let n := digits.foldl (fun n d => 8 * n + (d.toNat - '0'.toNat)) 0
        some ([Char.ofNat n], digits.length)
      else some (['\\', c], 1)

/-- The value of the characters of a literal, after `skip` of them that an earlier
escape covers. -/
def decodeAfter : Nat → List Char → Option (List Char)
  | _, [] => some []
  | skip + 1, _ :: cs => decodeAfter skip cs
  | 0, c :: cs =>
    if c = '\\' then do
      let (value, count) ← escapeAt cs
      return value ++ (← decodeAfter count cs)
    else (decodeAfter 0 cs).map (c :: ·)

/-- The value of the characters of a literal. -/
def decode (raw : List Char) : Option (List Char) := decodeAfter 0 raw

/-- Reads a literal from the front of a text: its value, and what comes behind. -/
def read : List Char → Option (String × List Char)
  | '\x27' :: cs => do
    let (raw, rest) ← extent cs
    return (String.ofList (← decode raw), rest)
  | _ => none

example : read "'a\\x41\\101\\'\\q' + b".toList = some ("aAA'\\q", " + b".toList) := by
  decide +kernel

/-- A literal is read in two steps: how far it goes, and what its characters mean. -/
theorem read_eq_some {value : String} (h : read ('\x27' :: cs) = some (value, rest)) :
    ∃ raw, extent cs = some (raw, rest) ∧ decode raw = some value.toList := by
  obtain ⟨⟨raw, rest'⟩, hraw, h⟩ := Option.bind_eq_some_iff.mp h
  obtain ⟨decoded, hdecoded, h⟩ := Option.bind_eq_some_iff.mp h
  obtain ⟨rfl, rfl⟩ := Prod.mk.inj (Option.some.inj h)
  exact ⟨raw, hraw, by rw [hdecoded, String.toList_ofList]⟩

theorem read_of_extent {value : List Char} (hraw : extent cs = some (raw, rest))
    (hvalue : decode raw = some value) :
    read ('\x27' :: cs) = some (String.ofList value, rest) := by
  simp [read, hraw, hvalue]

/-- A literal is read no further than to its closing quote. -/
theorem suffix_of_read {value : String}
    (h : read ('\x27' :: cs) = some (value, rest)) : ∃ front, cs = front ++ rest := by
  obtain ⟨raw, hraw, -⟩ := read_eq_some h
  exact ⟨raw ++ ['\x27'], by rw [eq_of_extent hraw]; simp⟩

/-- What comes behind the closing quote has no bearing. -/
theorem read_append {value : String}
    (h : read ('\x27' :: cs) = some (value, rest)) (more : List Char) :
    read ('\x27' :: (cs ++ more)) = some (value, rest ++ more) := by
  obtain ⟨raw, hraw, hvalue⟩ := read_eq_some h
  rw [read_of_extent (extent_append hraw more) hvalue, String.ofList_toList]

/-! ## The literals of expressions -/

/-- A character without a backslash means itself. -/
theorem decode_plain (h : c ≠ '\\') (cs : List Char) :
    decode (c :: cs) = (decode cs).map (c :: ·) := by
  rw [decode, decodeAfter, if_neg h]
  rfl

/-- The escapes that generated code uses are among those of Python. -/
theorem escapeAt_of_unescape (h : unescape e = some c) (cs : List Char) :
    escapeAt (e :: cs) = some ([c], 1) := by
  unfold unescape at h
  split at h <;> cases h <;> rfl

/-- A character behind a backslash means what the table says. -/
theorem decode_escape (h : unescape e = some c) (cs : List Char) :
    decode ('\\' :: e :: cs) = (decode cs).map (c :: ·) := by
  rw [decode, decodeAfter, if_pos rfl, escapeAt_of_unescape h]
  show (decodeAfter 1 (e :: cs)).bind _ = _
  rw [decodeAfter]
  cases hcs : decodeAfter 0 cs with
  | none | some value => simp [decode, hcs]

/-- The literals that expressions are made of are read by these rules. -/
theorem exists_extent_of_literalBody {value : List Char} (h : literalBody cs = some (value, rest)) :
    ∃ raw, extent cs = some (raw, rest) ∧ decode raw = some value := by
  fun_induction literalBody cs generalizing value with
  | case1 => simp at h
  | case2 cs =>
    obtain ⟨rfl, rfl⟩ := Prod.mk.inj (Option.some.inj h)
    exact ⟨[], by simp [extent], rfl⟩
  | case3 => simp at h
  | case4 e cs ih =>
    obtain ⟨c, hc, h⟩ := Option.bind_eq_some_iff.mp h
    obtain ⟨⟨value, rest⟩, hcs, hpair⟩ := Option.map_eq_some_iff.mp h
    obtain ⟨rfl, rfl⟩ := Prod.mk.inj hpair
    obtain ⟨raw, hraw, hvalue⟩ := ih hcs
    -- an escaped line break is no escape that the reader knows
    have hbreak : ¬ ['\r', '\n'] <+: e :: cs := by
      intro hprefix
      obtain ⟨rfl, -⟩ := List.cons_prefix_cons.mp hprefix
      simp [unescape] at hc
    refine ⟨'\\' :: e :: raw, ?_, by rw [decode_escape hc, hvalue]; rfl⟩
    rw [extent_escaped hbreak, hraw]
    rfl
  | case5 => simp at h
  | case6 c cs hquote hend hescape hbreak ih =>
    obtain ⟨⟨value, rest⟩, hcs, hpair⟩ := Option.map_eq_some_iff.mp h
    obtain ⟨rfl, rfl⟩ := Prod.mk.inj hpair
    obtain ⟨raw, hraw, hvalue⟩ := ih hcs
    -- a backslash would have been the first of an escape, or the end of the text
    have hc : c ≠ '\\' := by
      rintro rfl
      cases cs with
      | nil => exact hend rfl rfl
      | cons e cs => exact hescape e cs rfl rfl
    refine ⟨c :: raw, ?_, by rw [decode_plain hc, hvalue]; rfl⟩
    rw [extent_plain hquote hc hbreak, hraw]
    rfl

/-- Reading and writing of literals fit together, whatever stands behind. -/
theorem read_quote (text : String) (rest : List Char) :
    read ((quote text).toList ++ rest) = some (text, rest) := by
  obtain ⟨raw, hraw, hvalue⟩ := exists_extent_of_literalBody (literalBody_escape text.toList rest)
  have hread := read_of_extent hraw hvalue
  rw [String.ofList_toList] at hread
  simpa [quote] using hread

/-- Different texts are written differently, as each is read back. -/
theorem quote_injective : Function.Injective quote := by
  intro a b h
  have hread := read_quote b []
  rw [← h, read_quote] at hread
  exact (Prod.mk.inj (Option.some.inj hread)).1

end Plic.Python.Literal
