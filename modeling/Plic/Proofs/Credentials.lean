import Plic.Proofs.Lowering.Quoting

/-!
# Credentials as a table

A file of credentials is a table in which the last value given for a key counts. What is at stake
is that no stage alters a value on its way: a line is trimmed, cut at its first equals sign, both
sides are trimmed again, and one pair of quotes is taken off the value. A password that is changed
by one of them is a wrong password that nobody sees.

What a line says is described on the line itself (`Idle`, `Assigns`, `Faulty`), and what a text is
read as on its lines (`Table`): the first faulty line counts, then the first missing key, and
without either the last value of each key.

Main results:

* `entries_of_sound` — lines without a fault give the last value of each key.
* `entries_append_faulty` — the first faulty line is the one that is told.
* `parse_iff_table` — a text is read as its table, and the lines `key = "value"` give every value back.
-/

namespace Plic.Credentials

open Text (Trims trim_eq_iff trims_trim trim_append trim_eq_self lined_lines
  lines_last lines_feed lines_returnFeed isBlank)

/-! ## What a line says -/

/-- A line without an entry: it is blank or a comment. -/
def Idle (line : List Char) : Prop := Trims line [] ∨ ∃ comment, Trims line ('#' :: comment)

/-- The marks between which a value may stand. -/
def IsQuote (c : Char) : Prop := c = '\x22' ∨ c = '\x27'

/-- A value without one pair of quotes around it, if it has one. -/
inductive Bare : List Char → List Char → Prop where
  | quoted {q : Char} {inner : List Char} : IsQuote q → Bare (q :: inner ++ [q]) inner
  | plain {value : List Char} :
      (∀ q inner, IsQuote q → value ≠ q :: inner ++ [q]) → Bare value value

/-- The line gives a value to a key. The key stands in front of the first equals sign, in letters of
any case. -/
inductive Assigns (line : List Char) : String → String → Prop where
  | intro {before behind key value inner : List Char} :
      ¬ Idle line → Trims line (before ++ '=' :: behind) → '=' ∉ before → Trims before key →
      Trims behind value → Bare value inner →
      Assigns line (String.ofList (key.map Char.toLower)) (String.ofList inner)

/-- What is wrong with line number `n`. -/
inductive Faulty (n : Nat) (line : List Char) : Fault → Prop where
  | malformed {t : List Char} :
      ¬ Idle line → Trims line t → '=' ∉ t → Faulty n line (.malformed n (String.ofList t))
  | unknownKey {name value : String} :
      Assigns line name value → (∀ k : Key, k.name ≠ name) → Faulty n line (.unknownKey n name)

/-- Nothing is wrong with the line. -/
def Sound (line : List Char) : Prop := Idle line ∨ ∃ (k : Key) (v : String), Assigns line k.name v

/-- Some line gives a value to the key. -/
def Given (ls : List (List Char)) (k : Key) : Prop := ∃ line ∈ ls, ∃ v, Assigns line k.name v

/-- The last line that gives a value to the key gives it `v`. -/
def LastGiven (ls : List (List Char)) (k : Key) (v : String) : Prop :=
  ∃ before line behind, ls = before ++ line :: behind ∧ Assigns line k.name v ∧
    ¬ Given behind k

/-- What a text is read as: the fault of its first faulty line; without one, the first key that no
line gives a value to; without one, the last value of each key. -/
inductive Table (text : List Char) : Except Fault Credentials → Prop where
  | faulty {before behind : List (List Char)} {line : List Char} {f : Fault} :
      Text.Lined text (before ++ line :: behind) → (∀ l ∈ before, Sound l) →
      Faulty (before.length + 1) line f → Table text (.error f)
  | missing {ls : List (List Char)} {k : Key} :
      Text.Lined text ls → (∀ l ∈ ls, Sound l) →
      (∀ j, Key.all.idxOf j < Key.all.idxOf k → Given ls j) → ¬ Given ls k →
      Table text (.error (.missingKey k))
  | complete {ls : List (List Char)} {c : Credentials} :
      Text.Lined text ls → (∀ l ∈ ls, Sound l) → (∀ k, LastGiven ls k (c.part k)) → Table text (.ok c)

/-! ## Quotes and the first equals sign -/

/-- A text is between quotes if it begins and ends with the quote, at two places. -/
theorem between?_eq_some_iff {q : Char} {text inner : List Char} :
    between? q text = some inner ↔ text = q :: inner ++ [q] := by
  cases text with
  | nil => simp [between?]
  | cons c cs =>
    rw [between?]
    constructor
    · intro h
      split at h
      · rename_i hends
        -- the last character is asked of what is behind the first, so one quote is no pair
        obtain ⟨rfl, hlast⟩ := hends
        obtain ⟨front, rfl⟩ := List.getLast?_eq_some_iff.mp hlast
        rw [List.dropLast_concat, Option.some.injEq] at h
        rw [h, List.cons_append]
      · exact absurd h (by simp)
    · intro h
      obtain ⟨rfl, rfl⟩ := List.cons.inj h
      simp

/-- One pair of quotes is taken off, whatever is between them. -/
theorem unquote_quoted {q : Char} (hq : IsQuote q) (inner : List Char) :
    unquote (q :: inner ++ [q]) = inner := by
  rcases hq with rfl | rfl
  · rw [unquote, between?_eq_some_iff.mpr rfl]
  · -- a value in single quotes does not begin with a double one
    have hdouble : between? '\x22' ('\x27' :: inner ++ ['\x27']) = none := by
      simp [between?]
    rw [unquote, hdouble, between?_eq_some_iff.mpr rfl]
    rfl

theorem unquote_plain {value : List Char} (h : ∀ q inner, IsQuote q → value ≠ q :: inner ++ [q]) :
    unquote value = value := by
  have hnone : ∀ q, IsQuote q → between? q value = none := by
    intro q hq
    rw [Option.eq_none_iff_forall_ne_some]
    exact fun inner hinner => h q inner hq (between?_eq_some_iff.mp hinner)
  rw [unquote, hnone _ (.inl rfl), hnone _ (.inr rfl)]
  rfl

/-- What is left is the value without its pair of quotes. -/
theorem bare_unquote (value : List Char) : Bare value (unquote value) := by
  by_cases hends : ∃ q inner, IsQuote q ∧ value = q :: inner ++ [q]
  · obtain ⟨q, inner, hq, rfl⟩ := hends
    rw [unquote_quoted hq]
    exact .quoted hq
  · push Not at hends
    rw [unquote_plain hends]
    exact .plain hends

theorem Bare.unquote_eq {value inner : List Char} (h : Bare value inner) :
    unquote value = inner := by
  cases h with
  | quoted hq => exact unquote_quoted hq inner
  | plain hends => exact unquote_plain hends

variable {line : List Char} {n : Nat} {ls rows : List (List Char)} {k : Key} {v : String}

/-- A line without an equals sign is no entry. -/
theorem splitEntry_of_not_mem (h : '=' ∉ line) : splitEntry line = none :=
  if_neg h

/-- A line is cut at its first equals sign, so the value may have others. -/
theorem splitEntry_append {before : List Char} (h : '=' ∉ before) (behind : List Char) :
    splitEntry (before ++ '=' :: behind) = some (before, behind) := by
  have hbefore : ∀ c ∈ before, decide (c ≠ '=') = true := by
    intro c hc
    rw [decide_eq_true_eq]
    rintro rfl
    exact h hc
  rw [splitEntry, if_pos (by simp),
    List.takeWhile_append_of_pos hbefore, List.dropWhile_append_of_pos hbefore]
  simp

/-! ## Keys -/

theorem Key.ofName?_name (k : Key) : Key.ofName? k.name = some k := by
  cases k <;> decide

theorem Key.ofName?_eq_none {name : String} (h : ∀ k : Key, k.name ≠ name) :
    Key.ofName? name = none := by
  rw [Key.ofName?, List.find?_eq_none]
  intro k _
  simpa using h k

/-! ## One line -/

/-- Whether a line has an entry is decided after trimming. -/
theorem isIdle_trim_iff (line : List Char) : isIdle (Text.trim line) = true ↔ Idle line := by
  rw [isIdle, Bool.or_eq_true, List.isEmpty_iff, decide_eq_true_eq, trim_eq_iff, Idle,
    List.head?_eq_some_iff]
  simp only [trim_eq_iff]

/-- Blanks around a line are no part of what it says. -/
theorem entries_cons_congr {l m : List Char} {ms : List (List Char)}
    (htrim : Text.trim l = Text.trim m) (hrest : entries (n + 1) ls = entries (n + 1) ms) :
    entries n (l :: ls) = entries n (m :: ms) := by
  rw [entries, entries, htrim, hrest]

/-- A line without an entry is counted and passed over. -/
theorem entries_idle (h : Idle line) (n : Nat) (rest : List (List Char)) :
    entries n (line :: rest) = entries (n + 1) rest := by
  rw [entries, if_pos ((isIdle_trim_iff line).mpr h)]

/-- Any other line gives an entry or a fault, before the lines behind it are read. -/
theorem entries_busy (h : ¬ Idle line) (n : Nat) (rest : List (List Char)) :
    entries n (line :: rest) =
      (entry n (Text.trim line)).bind fun e => (entries (n + 1) rest).map (e :: ·) := by
  rw [entries, if_neg (fun hidle => h ((isIdle_trim_iff line).mp hidle))]
  cases entry n (Text.trim line) with
  | error f => rfl
  | ok e => cases entries (n + 1) rest <;> rfl

theorem Assigns.not_idle {name value : String} (h : Assigns line name value) : ¬ Idle line := by
  cases h with
  | intro hidle => exact hidle

/-- The entry is what the line assigns, as it is written. -/
theorem Assigns.entry_eq (h : Assigns line k.name v)
    (n : Nat) : entry n (Text.trim line) = .ok (k, v) := by
  generalize hname : k.name = name at h
  cases h with
  | intro _ hline hbefore hkey hvalue hbare =>
    rw [entry, hline.trim_eq, splitEntry_append hbefore]
    simp only [hkey.trim_eq, hvalue.trim_eq, hbare.unquote_eq, ← hname, Key.ofName?_name]

/-- A faulty line is told with its number. -/
theorem Faulty.entry_eq {f : Fault} (h : Faulty n line f) :
    entry n (Text.trim line) = .error f := by
  cases h with
  | malformed _ ht hequals => rw [entry, ht.trim_eq, splitEntry_of_not_mem hequals]
  | unknownKey hassigns hunknown =>
    cases hassigns with
    | intro _ hline hbefore hkey _ _ =>
      rw [entry, hline.trim_eq, splitEntry_append hbefore]
      simp only [hkey.trim_eq, Key.ofName?_eq_none hunknown]

theorem Faulty.not_idle {line : List Char} {n : Nat} {f : Fault} (h : Faulty n line f) :
    ¬ Idle line := by
  cases h with
  | malformed hidle _ _ => exact hidle
  | unknownKey hassigns _ => exact hassigns.not_idle

/-- A line with which nothing is right has a fault. -/
theorem exists_faulty (h : ¬ Sound line) (n : Nat) : ∃ f, Faulty n line f := by
  obtain ⟨hidle, hknown⟩ := not_or.mp h
  by_cases hequals : '=' ∈ Text.trim line
  · -- it is cut at the equals sign, so only its key can be unknown
    obtain ⟨before, behind, hline, hbefore⟩ := List.eq_append_cons_of_mem hequals
    have hassigns : Assigns line _ _ := .intro hidle (hline ▸ trims_trim line) hbefore
      (trims_trim before) (trims_trim behind) (bare_unquote _)
    exact ⟨_, .unknownKey hassigns fun k hk => hknown ⟨k, _, hk.symm ▸ hassigns⟩⟩
  · exact ⟨_, .malformed hidle (trims_trim line) hequals⟩

/-! ## The last value of a key -/

/-- A later value counts more than an earlier one. -/
theorem lastValue_cons (e : Key × String) (es : List (Key × String)) (k : Key) :
    lastValue (e :: es) k = (lastValue es k).or (if k = e.1 then some e.2 else none) := by
  rw [lastValue, lastValue, List.reverse_cons, List.lookup_append]
  congr 1
  by_cases hk : k = e.1
  · simp [List.lookup, hk]
  · have hne : (k == e.1) = false := by simpa using hk
    simp [List.lookup, hk, hne]

theorem lastGiven_cons {l : List Char} :
    LastGiven (l :: ls) k v ↔ LastGiven ls k v ∨ Assigns l k.name v ∧ ¬ Given ls k := by
  constructor
  · rintro ⟨before, line, behind, hls, hassigns, hlast⟩
    -- the line that gives the value is the first one, or one of the others
    cases before with
    | nil =>
      obtain ⟨rfl, rfl⟩ := List.cons.inj hls
      exact .inr ⟨hassigns, hlast⟩
    | cons b before =>
      obtain ⟨rfl, rfl⟩ := List.cons.inj hls
      exact .inl ⟨before, line, behind, rfl, hassigns, hlast⟩
  · rintro (⟨before, line, behind, rfl, hassigns, hlast⟩ | ⟨hassigns, hlast⟩)
    · exact ⟨l :: before, line, behind, rfl, hassigns, hlast⟩
    · exact ⟨[], l, ls, rfl, hassigns, hlast⟩

theorem LastGiven.given (h : LastGiven ls k v) : Given ls k := by
  obtain ⟨before, line, behind, rfl, hassigns, -⟩ := h
  exact ⟨line, by simp, v, hassigns⟩

/-- A key that is given a value is given a last one. -/
theorem Given.exists_last (h : Given ls k) : ∃ v, LastGiven ls k v := by
  induction ls with
  | nil => simp [Given] at h
  | cons l ls ih =>
    by_cases hrest : Given ls k
    · obtain ⟨v, hv⟩ := ih hrest
      exact ⟨v, lastGiven_cons.mpr (.inl hv)⟩
    · obtain ⟨line, hmem, v, hassigns⟩ := h
      rcases List.mem_cons.mp hmem with rfl | hmem
      · exact ⟨v, lastGiven_cons.mpr (.inr ⟨hassigns, hrest⟩)⟩
      · exact absurd ⟨line, hmem, v, hassigns⟩ hrest

/-! ## All lines -/

/-- Lines without a fault give the last value of each key. -/
theorem entries_of_sound (h : ∀ l ∈ ls, Sound l) (n : Nat) :
    ∃ es, entries n ls = .ok es ∧ ∀ k v, lastValue es k = some v ↔ LastGiven ls k v := by
  induction ls generalizing n with
  | nil => exact ⟨[], rfl, fun k v => by simp [lastValue, LastGiven]⟩
  | cons l ls ih =>
    obtain ⟨hl, hls⟩ := List.forall_mem_cons.mp h
    obtain ⟨es, hes, hlast⟩ := ih hls (n + 1)
    rcases hl with hidle | ⟨j, w, hassigns⟩
    · refine ⟨es, by rw [entries_idle hidle, hes], fun k v => ?_⟩
      have hnot : ¬ (Assigns l k.name v ∧ ¬ Given ls k) := fun h => h.1.not_idle hidle
      rw [hlast, lastGiven_cons, or_iff_left hnot]
    · refine ⟨(j, w) :: es, ?_, fun k v => ?_⟩
      · rw [entries_busy hassigns.not_idle, hassigns.entry_eq, hes]
        rfl
      -- the line says what its entry is, and only that
      have hentry : Assigns l k.name v ↔ k = j ∧ w = v := by
        constructor
        · intro hk
          have := (hk.entry_eq 0).symm.trans (hassigns.entry_eq 0)
          injection this with this
          injection this with hkey hvalue
          exact ⟨hkey, hvalue.symm⟩
        · rintro ⟨rfl, rfl⟩
          exact hassigns
      rw [lastValue_cons, lastGiven_cons, hentry]
      cases hrest : lastValue es k with
      | some u =>
        have hu : LastGiven ls k u := (hlast k u).mp hrest
        have hv : LastGiven ls k v ↔ u = v := by rw [← hlast, hrest, Option.some.injEq]
        simp [hv, hu.given]
      | none =>
        have hnone : ¬ Given ls k := by
          intro hgiven
          obtain ⟨u, hu⟩ := hgiven.exists_last
          rw [← hlast, hrest] at hu
          exact absurd hu (by simp)
        have hv : ¬ LastGiven ls k v := fun hv => hnone hv.given
        by_cases hk : k = j
        · simp [hk] at hv hnone ⊢
          simp [hv, hnone]
        · simp [hk, hv]

/-- The first faulty line is the one that is told. -/
theorem entries_append_faulty {before behind : List (List Char)}
    {f : Fault} (hbefore : ∀ l ∈ before, Sound l) (hline : Faulty (n + before.length) line f) :
    entries n (before ++ line :: behind) = .error f := by
  induction before generalizing n with
  | nil =>
    rw [List.nil_append, entries_busy hline.not_idle, List.length_nil, Nat.add_zero] at *
    rw [hline.entry_eq]
    rfl
  | cons l before ih =>
    obtain ⟨hl, hrest⟩ := List.forall_mem_cons.mp hbefore
    have hnumber : n + (l :: before).length = n + 1 + before.length := by
      rw [List.length_cons]
      omega
    have ih := ih hrest (hnumber ▸ hline)
    rw [List.cons_append]
    -- the lines before are passed over or give entries, which the fault discards
    rcases hl with hidle | ⟨k, v, hassigns⟩
    · rw [entries_idle hidle, ih]
    · rw [entries_busy hassigns.not_idle, hassigns.entry_eq, ih]
      rfl

/-! ## The four parts -/

/-- If all parts are there, they are the credentials. -/
theorem ofParts_eq_ok {ε : Type} {missing : Key → ε} {part : Key → Option String} {c : Credentials}
    (h : ∀ k, part k = some (c.part k)) : ofParts missing part = .ok c := by
  simp only [ofParts, h]
  rfl

/-- The first missing key is told, in the order of the keys. -/
theorem ofParts_eq_error {ε : Type} {missing : Key → ε} {part : Key → Option String}
    (hearlier : ∀ j, Key.all.idxOf j < Key.all.idxOf k → (part j).isSome) (hk : part k = none) :
    ofParts missing part = .error (missing k) := by
  have hsome : ∀ j, Key.all.idxOf j < Key.all.idxOf k → ∃ v, part j = some v := fun j hj =>
    Option.isSome_iff_exists.mp (hearlier j hj)
  unfold ofParts
  -- the keys are asked in a fixed order, and the first one without a value counts
  cases k with
  | host => simp only [hk]; rfl
  | user =>
    obtain ⟨a, ha⟩ := hsome .host (by decide)
    simp only [ha, hk]
    rfl
  | password =>
    obtain ⟨a, ha⟩ := hsome .host (by decide)
    obtain ⟨b, hb⟩ := hsome .user (by decide)
    simp only [ha, hb, hk]
    rfl
  | database =>
    obtain ⟨a, ha⟩ := hsome .host (by decide)
    obtain ⟨b, hb⟩ := hsome .user (by decide)
    obtain ⟨c, hc⟩ := hsome .password (by decide)
    simp only [ha, hb, hc, hk]
    rfl

/-- Without faulty lines, what counts is the last value of each key. -/
theorem parse_of_entries {text : String} {es : List (Key × String)}
    (h : entries 1 (Text.lines text.toList) = .ok es) :
    parse text = ofParts .missingKey (lastValue es) := by
  rw [parse, h]
  rfl

theorem Table.parse_eq {text : String} {r : Except Fault Credentials}
    (h : Table text.toList r) : parse text = r := by
  cases h with
  | faulty hlined hbefore hline =>
    -- lines are counted from one
    rw [Nat.add_comm] at hline
    rw [parse, hlined.lines_eq, entries_append_faulty hbefore hline]
    rfl
  | missing hlined hsound hearlier hk =>
    obtain ⟨es, hes, hlast⟩ := entries_of_sound hsound 1
    rw [parse_of_entries (hlined.lines_eq ▸ hes)]
    -- a key is missing if no line gives it a last value
    apply ofParts_eq_error
    · intro j hj
      obtain ⟨v, hv⟩ := (hearlier j hj).exists_last
      rw [(hlast j v).mpr hv]
      rfl
    · rw [Option.eq_none_iff_forall_ne_some]
      exact fun v hv => hk ((hlast _ v).mp hv).given
  | complete hlined hsound hparts =>
    obtain ⟨es, hes, hlast⟩ := entries_of_sound hsound 1
    rw [parse_of_entries (hlined.lines_eq ▸ hes)]
    exact ofParts_eq_ok fun k => (hlast k _).mpr (hparts k)

/-- Every text is read as something. -/
theorem exists_table (text : List Char) : ∃ r, Table text r := by
  classical
  have hlined := lined_lines text
  by_cases hsound : ∀ l ∈ Text.lines text, Sound l
  · by_cases hall : ∀ k, Given (Text.lines text) k
    · choose value hvalue using fun k => (hall k).exists_last
      refine ⟨.ok ⟨value .host, value .user, value .password, value .database⟩,
        .complete hlined hsound fun k => ?_⟩
      cases k <;> exact hvalue _
    · -- the first key that is missing
      push Not at hall
      obtain ⟨k, hk, hfirst⟩ := Finset.exists_min_image
        ((Key.all.toFinset).filter fun k => ¬ Given (Text.lines text) k) (fun k => Key.all.idxOf k)
        (by
          obtain ⟨k, hk⟩ := hall
          exact ⟨k, by cases k <;> simp [Key.all, hk]⟩)
      rw [Finset.mem_filter] at hk
      refine ⟨_, .missing hlined hsound (fun j hj => ?_) hk.2⟩
      by_contra hj'
      have hmem : j ∈ (Key.all.toFinset).filter fun k => ¬ Given (Text.lines text) k := by
        cases j <;> simp [Key.all, hj']
      have := hfirst j hmem
      omega
  · push Not at hsound
    obtain ⟨l, hl, hfaulty⟩ := hsound
    obtain ⟨line, hfind⟩ : ∃ line, (Text.lines text).find? (fun l => decide (¬ Sound l)) = some line := by
      rw [← Option.isSome_iff_exists, List.find?_isSome]
      exact ⟨l, hl, by simpa using hfaulty⟩
    obtain ⟨hline, before, behind, hsplit, hbefore⟩ := List.find?_eq_some_iff_append.mp hfind
    obtain ⟨f, hf⟩ := exists_faulty (of_decide_eq_true hline) (before.length + 1)
    refine ⟨_, .faulty (hsplit ▸ hlined) (fun l hl => ?_) hf⟩
    simpa using hbefore l hl

/-! ## Written files -/

/-- The line that assigns a value to a key, in quotes. -/
def assignment (k : Key) (value : String) : List Char :=
  k.name.toList ++ " = \"".toList ++ value.toList ++ "\"".toList

/-- Rows among which the entries stand in their order, with blank lines and comments between them.
-/
inductive Interleaved : List (List Char) → List (List Char) → Prop where
  | nil : Interleaved [] []
  | idle {row : List Char} {es rows : List (List Char)} :
      Idle row → '\n' ∉ row → Interleaved es rows → Interleaved es (row :: rows)
  | entry {e : List Char} {es rows : List (List Char)} :
      Interleaved es rows → Interleaved (e :: es) (e :: rows)

/-- The text of a file with the rows. A row ends with a line feed, with or without a carriage return
in front of it; the last row need not end. -/
inductive Written : List (List Char) → List Char → Prop where
  | nil : Written [] []
  | last (row : List Char) : Written [row] row
  | feed {row text : List Char} {rows : List (List Char)} :
      Written rows text → Written (row :: rows) (row ++ '\n' :: text)
  | returnFeed {row text : List Char} {rows : List (List Char)} :
      Written rows text → Written (row :: rows) (row ++ '\r' :: '\n' :: text)

/-- The lines of a written file say what its rows say. -/
theorem Written.entries_eq {text : List Char} (h : Written rows text)
    (hrows : ∀ row ∈ rows, '\n' ∉ row) (n : Nat) :
    entries n (Text.lines text) = entries n rows := by
  induction h generalizing n with
  | nil => rfl
  | last row =>
    by_cases hempty : row = []
    · -- an empty last row is no line at all
      subst hempty
      have hidle : Idle [] := .inl (trims_trim [])
      rw [entries_idle hidle]
      rfl
    · rw [lines_last hempty (hrows row (by simp))]
  | @feed row text rows _ ih =>
    obtain ⟨hrow, hrest⟩ := List.forall_mem_cons.mp hrows
    by_cases hreturn : row.getLast? = some '\r'
    · -- the return at the end of the row is taken for a part of the end of the line
      obtain ⟨front, rfl⟩ := List.getLast?_eq_some_iff.mp hreturn
      have hfront : '\n' ∉ front := fun hmem => hrow (by simp [hmem])
      have htrim : Text.trim front = Text.trim (front ++ ['\r']) := by
        have := @trim_append [] ['\r'] front (by simp)
          (List.forall_mem_singleton.mpr (by decide))
        simpa using this.symm
      rw [List.append_assoc, List.singleton_append, lines_returnFeed hfront]
      exact entries_cons_congr htrim (ih hrest _)
    · rw [lines_feed hrow hreturn]
      exact entries_cons_congr rfl (ih hrest _)
  | returnFeed _ ih =>
    obtain ⟨hrow, hrest⟩ := List.forall_mem_cons.mp hrows
    rw [lines_returnFeed hrow]
    exact entries_cons_congr rfl (ih hrest _)

/-- The line of a key says its value, whatever the value is. -/
theorem assigns_assignment (k : Key) (value : String) : Assigns (assignment k value) k.name value := by
  -- the line begins with a letter and ends with a quote, so nothing is trimmed
  have hhead : ∀ c ∈ (assignment k value).head?, isBlank c = false ∧ c ≠ '#' := by
    intro c hc
    cases k <;> simp [assignment, Key.name] at hc <;> subst hc <;> decide
  have hlast : (assignment k value).getLast? = some '\x22' := by
    rw [assignment, show "\"".toList = ['\x22'] from rfl, List.getLast?_concat]
  have htrim : Text.trim (assignment k value) = assignment k value := by
    refine trim_eq_self (fun c hc => (hhead c hc).1) ?_
    rw [hlast]
    rintro _ ⟨⟩
    decide
  have hidle : ¬ Idle (assignment k value) := by
    rintro (hblank | ⟨comment, hcomment⟩)
    · rw [← trim_eq_iff, htrim] at hblank
      rw [hblank] at hlast
      exact absurd hlast (by simp)
    · rw [← trim_eq_iff, htrim] at hcomment
      exact (hhead '#' (by rw [hcomment]; rfl)).2 rfl
  have hline : assignment k value =
      (k.name.toList ++ [' ']) ++ '=' :: (' ' :: ('\x22' :: value.toList ++ ['\x22'])) := by
    simp [assignment]
  have hkey : Trims (k.name.toList ++ [' ']) k.name.toList := by
    rw [← trim_eq_iff]
    cases k <;> decide
  have hvalue : Trims (' ' :: ('\x22' :: value.toList ++ ['\x22']))
      ('\x22' :: value.toList ++ ['\x22']) := by
    refine ⟨⟨[' '], [], by simp, List.forall_mem_singleton.mpr (by decide), by simp⟩, ?_, ?_⟩
    · rintro _ ⟨⟩
      decide
    · rw [List.getLast?_concat]
      rintro _ ⟨⟩
      decide
  have hequals : '=' ∉ k.name.toList ++ [' '] := by
    cases k <;> decide
  have hassigns := Assigns.intro hidle (hline ▸ trim_eq_iff.mp htrim) hequals hkey hvalue
    (.quoted (.inl rfl))
  have hname : String.ofList (k.name.toList.map Char.toLower) = k.name := by
    cases k <;> decide
  rwa [hname, String.ofList_toList] at hassigns

/-- Assignments with idle lines between them give their entries in order. -/
theorem Interleaved.entries_eq {value : Key → String} {order : List Key}
    (h : Interleaved (order.map fun k => assignment k (value k)) rows) (n : Nat) :
    entries n rows = .ok (order.map fun k => (k, value k)) := by
  -- the induction is on the rows, so the assignments among them must be any
  generalize hes : (order.map fun k => assignment k (value k)) = es at h
  induction h generalizing order n with
  | nil =>
    rw [List.map_eq_nil_iff.mp hes]
    rfl
  | idle hidle _ _ ih => rw [entries_idle hidle, ih _ hes]
  | entry _ ih =>
    obtain ⟨k, order, rfl, rfl, hrest⟩ := List.map_eq_cons_iff.mp hes
    have hassigns := assigns_assignment k (value k)
    rw [entries_busy hassigns.not_idle, hassigns.entry_eq, ih _ hrest]
    rfl

/-- Such lines have no line ends in them if the assignments have none. -/
theorem Interleaved.not_mem {es : List (List Char)} (h : Interleaved es rows)
    (hes : ∀ e ∈ es, '\n' ∉ e) : ∀ row ∈ rows, '\n' ∉ row := by
  induction h with
  | nil => simp
  | idle _ hrow _ ih => exact List.forall_mem_cons.mpr ⟨hrow, ih hes⟩
  | entry _ ih =>
    obtain ⟨he, hrest⟩ := List.forall_mem_cons.mp hes
    exact List.forall_mem_cons.mpr ⟨he, ih hrest⟩

/-- If each key is assigned one value, that is its last. -/
theorem lastValue_map {order : List Key} (hk : k ∈ order) (value : Key → String) :
    lastValue (order.map fun k => (k, value k)) k = some (value k) := by
  induction order with
  | nil => simp at hk
  | cons j order ih =>
    rw [List.map_cons, lastValue_cons]
    -- a later entry for the same key has the same value
    by_cases hrest : k ∈ order
    · rw [ih hrest]
      rfl
    · obtain rfl : k = j := (List.mem_cons.mp hk).resolve_right hrest
      have hnone : lastValue (order.map fun k => (k, value k)) k = none := by
        rw [lastValue, List.lookup_eq_none_iff]
        intro p hp
        obtain ⟨j, hj, rfl⟩ := List.mem_map.mp (List.mem_reverse.mp hp)
        have hne : k ≠ j := fun h => hrest (h ▸ hj)
        simpa using hne
      rw [hnone, if_pos rfl]
      rfl

/-- **Credentials are a table in which the last value counts.** A text is read as its table and as
nothing else. So a file that gives each key its value in double quotes, in any order and among any
blank lines and comments, gives all four values back as they are. -/
theorem parse_iff_table :
    (∀ (text : String) (r : Except Fault Credentials),
      parse text = r ↔ Table text.toList r) ∧
    ∀ (c : Credentials) (order : List Key) (rows : List (List Char)) (text : String),
      (∀ k, '\n' ∉ (c.part k).toList) → order.Perm Key.all →
      Interleaved (order.map fun k => assignment k (c.part k)) rows → Written rows text.toList →
      parse text = .ok c := by
  refine ⟨fun text r => ⟨?_, Table.parse_eq⟩, ?_⟩
  · rintro rfl
    -- every text has a table, so what it is read as is that table
    obtain ⟨r, hr⟩ := exists_table text.toList
    rw [hr.parse_eq]
    exact hr
  · intro c order rows text hvalues horder hrows htext
    -- neither names nor values have line ends, so each assignment is one line
    have hentries : ∀ e ∈ order.map fun k => assignment k (c.part k), '\n' ∉ e := by
      rw [List.forall_mem_map]
      intro k _
      have hname : '\n' ∉ k.name.toList := by cases k <;> decide
      simp [assignment, hname, hvalues k]
    have hes : entries 1 (Text.lines text.toList) = .ok (order.map fun k => (k, c.part k)) := by
      rw [htext.entries_eq (hrows.not_mem hentries), hrows.entries_eq]
    rw [parse_of_entries hes]
    refine ofParts_eq_ok fun k => lastValue_map (horder.mem_iff.mpr ?_) c.part
    cases k <;> decide

/-- Values that are a quote, have quotes, an equals sign and a comment's mark in them, begin with a
blank and end with a carriage return, or are empty. -/
theorem parse_iff_table_quotes :
    (∀ k, '\n' ∉ (Credentials.part ⟨"\"", "a = 'b' # c", " s3\r", ""⟩ k).toList) ∧
      parse ("# keys\r\ndatabase = \"\"\r\n \t\npassword = \" s3\r\"\nhost = \"\"\"\n"
          ++ "user = \"a = 'b' # c\"")
        = .ok ⟨"\"", "a = 'b' # c", " s3\r", ""⟩ := by
  have hvalues : ∀ k, '\n' ∉ (Credentials.part ⟨"\"", "a = 'b' # c", " s3\r", ""⟩ k).toList := by
    intro k
    cases k <;> decide
  -- the values hold a quote, an equals sign, a hash and a carriage return
  have htext : ("# keys\r\ndatabase = \"\"\r\n \t\npassword = \" s3\r\"\nhost = \"\"\"\n"
      ++ "user = \"a = 'b' # c\"").toList =
      "# keys".toList ++ '\r' :: '\n' :: (assignment .database "" ++ '\r' :: '\n' ::
        (" \t".toList ++ '\n' :: (assignment .password " s3\r" ++ '\n' ::
          (assignment .host "\"" ++ '\n' :: assignment .user "a = 'b' # c")))) := by
    decide +kernel
  have hcomment : Idle "# keys".toList := .inr ⟨" keys".toList, trim_eq_iff.mp (by decide +kernel)⟩
  have hblank : Idle " \t".toList := .inl (trim_eq_iff.mp (by decide +kernel))
  refine ⟨hvalues, parse_iff_table.2 _ [.database, .password, .host, .user]
    ["# keys".toList, assignment .database "", " \t".toList, assignment .password " s3\r",
      assignment .host "\"", assignment .user "a = 'b' # c"] _ hvalues (by decide) ?_ ?_⟩
  · exact .idle hcomment (by decide +kernel) (.entry (.idle hblank (by decide +kernel)
      (.entry (.entry (.entry .nil)))))
  · rw [htext]
    exact .returnFeed (.returnFeed (.feed (.feed (.feed (.last _)))))

end Plic.Credentials
