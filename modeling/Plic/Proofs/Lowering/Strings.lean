import Plic.Proofs.Python.Strings

/-!
# Operands of string operations are strings

A variable can hold anything when it is read: a number where a text was declared,
or `None` at the end of a file. The operands of `||`, the first argument of
`SUBSTR` and both arguments of `INDEX` are converted unless they are strings by
their form alone. That form is enough: constants, `||`, `SUBSTR` and `DECIMAL`
have strings as values whatever their own operands are, as long as they have a
value at all.

Main results:

* `Expr.HasCode.yieldsText_asText` — the code for an operand has no value but
  strings.
* `Expr.HasCode.eval_asText` — this string is the one that is shown for the
  operand's value.
* `Expr.string_operands_are_strings` — the operands of all string operations.
-/

namespace Plic

open Python (Env Library Value findIn sliceList)

variable {φ : Type}

/-! ## Operands -/

section

variable {lib : Library φ} {env : Env φ} {scope : Scope}

variable {e start : Expr} {code b : Python.Expr} {n : Int}

/-- The code for an operand of a string operation has no value but strings. The
form of the operand alone decides whether it is converted, so this goes by
induction through operands of operands. -/
theorem Expr.HasCode.yieldsText_asText
    (h : e.HasCode scope code) : (e.asText code).YieldsText lib env := by
  induction h with
  | text => exact Python.Expr.yieldsText_str _
  | concat _ _ ihl ihr => exact Python.Expr.yieldsText_add ihl ihr
  | substr _ _ ihs _ => exact Python.Expr.yieldsText_sliceFrom ihs _
  | substrLength _ _ _ ihs _ _ => exact Python.Expr.yieldsText_slice ihs _ _
  | decimal _ _ => exact Python.Expr.yieldsText_call (.inl rfl) _
  | @binary op _ _ _ _ _ hop _ _ _ _ =>
    cases op with
    | concat => exact absurd rfl hop
    | _ => exact Python.Expr.yieldsText_call (.inr rfl) _
  -- the other forms are no texts, so they are converted
  | _ => exact Python.Expr.yieldsText_call (.inr rfl) _

/-- An operand that has a value has a string in its code: the one that is shown for the value. -/
theorem Expr.HasCode.eval_asText (h : e.HasCode scope code)
    {v : Value φ} (hv : code.eval lib env = .ok v) :
    (e.asText code).eval lib env = .ok (.str (lib.shown v)) := by
  have htext : (e.asText code).YieldsText lib env := h.yieldsText_asText
  unfold Expr.asText at htext ⊢
  by_cases hconstant : e.isText
  · rw [if_pos hconstant] at htext ⊢
    obtain ⟨s, rfl⟩ := htext v hv
    exact hv
  · rw [if_neg hconstant]
    simp only [Python.Expr.eval, Python.evalAll, hv]
    rfl

/-! ## Bounds of slices -/

theorem int64?_eq_some {k : Int} (h : int64? n = some k) : k = n := by
  unfold int64? at h
  split at h
  · exact (Option.some.inj h).symm
  · exact absurd h (by simp)

/-- The value of a literal is the number that it is taken for. -/
theorem Expr.HasCode.eval_literal (h : e.HasCode scope code) (hn : e.literal? = some n) :
    code.eval lib env = .ok (.int n) := by
  induction h generalizing n with
  | number =>
    obtain rfl := Option.some.inj hn
    rfl
  | neg _ ih =>
    rw [Expr.literal?] at hn
    obtain ⟨k, hk, hn⟩ := Option.bind_eq_some_iff.mp hn
    rw [Python.Expr.eval, ih hk, int64?_eq_some hn]
    rfl
  | _ => exact absurd hn (by simp [Expr.literal?])

/-- The lower bound is one less than the start, written out or not. -/
theorem Expr.HasCode.eval_lowFrom (h : start.HasCode scope b)
    {i : Int} (hi : b.eval lib env = .ok (.int i)) :
    (start.lowFrom b).eval lib env = .ok (.int (i - 1)) := by
  unfold Expr.lowFrom
  cases hlow : start.literalLow? with
  | none =>
    simp only [Python.Expr.eval, hi]
    rfl
  | some low =>
    -- the bound is computed ahead, from the value that the literal has
    obtain ⟨k, hk, hlow⟩ := Option.bind_eq_some_iff.mp hlow
    rw [h.eval_literal hk] at hi
    obtain rfl : k = i := by simpa using hi
    rw [int64?_eq_some hlow]
    rfl

/-- The upper bound is the length more than that. -/
theorem Expr.HasCode.eval_highFrom {length : Expr} {c : Python.Expr}
    (hb : start.HasCode scope b) (hc : length.HasCode scope c) {i : Int}
    (hi : b.eval lib env = .ok (.int i)) (hn : c.eval lib env = .ok (.int n)) :
    (start.highFrom length (start.lowFrom b) c).eval lib env = .ok (.int (i - 1 + n)) := by
  unfold Expr.highFrom
  cases hhigh : start.literalHigh? length with
  | none =>
    simp only [Python.Expr.eval, hb.eval_lowFrom hi, hn]
    rfl
  | some high =>
    -- the bound was folded: both parts are literals, whose codes have these values
    obtain ⟨low, hlow, hhigh⟩ := Option.bind_eq_some_iff.mp hhigh
    obtain ⟨k, hk, hhigh⟩ := Option.bind_eq_some_iff.mp hhigh
    obtain ⟨j, hj, hlow⟩ := Option.bind_eq_some_iff.mp hlow
    rw [hb.eval_literal hj] at hi
    rw [hc.eval_literal hk] at hn
    obtain rfl : j = i := by simpa using hi
    obtain rfl : k = n := by simpa using hn
    rw [int64?_eq_some hhigh, int64?_eq_some hlow]
    rfl

/-! ## The parts of code -/

theorem Expr.mem_parts_asText {x : Python.Expr} :
    x ∈ (e.asText code).parts → x ∈ code.parts ∨ x = .call .text [code] := by
  unfold Expr.asText
  split
  · exact .inl
  · simp only [Python.Expr.parts, Python.partsOfAll, List.append_nil, List.mem_cons]
    exact Or.symm

theorem Expr.parts_subset_asText (e : Expr) (code : Python.Expr) :
    code.parts ⊆ (e.asText code).parts := by
  intro x hx
  unfold Expr.asText
  split
  · exact hx
  · simp [Python.Expr.parts, Python.partsOfAll, hx]

/-- The new parts of a lower bound are a number or a difference. -/
theorem Expr.mem_parts_lowFrom {x : Python.Expr} (h : x ∈ (start.lowFrom b).parts) :
    x ∈ b.parts ∨ (∃ n, x = .int n) ∨ ∃ l r, x = .binary .sub l r := by
  unfold Expr.lowFrom at h
  split at h
  · exact .inr (.inl ⟨_, List.mem_singleton.mp h⟩)
  · simp only [Python.Expr.parts, List.mem_cons, List.mem_append, List.not_mem_nil, or_false] at h
    rcases h with rfl | hx | rfl
    · exact .inr (.inr ⟨_, _, rfl⟩)
    · exact .inl hx
    · exact .inr (.inl ⟨_, rfl⟩)

/-- Those of an upper bound are a number or a sum. -/
theorem Expr.mem_parts_highFrom {length : Expr} {low c x : Python.Expr}
    (h : x ∈ (start.highFrom length low c).parts) :
    x ∈ low.parts ∨ x ∈ c.parts ∨ (∃ n, x = .int n) ∨ ∃ l r, x = .binary .add l r := by
  unfold Expr.highFrom at h
  cases hhigh : start.literalHigh? length with
  | some n =>
    rw [hhigh] at h
    exact .inr (.inr (.inl ⟨n, List.mem_singleton.mp h⟩))
  | none =>
    rw [hhigh] at h
    simp only [Python.Expr.parts, List.mem_cons, List.mem_append] at h
    rcases h with rfl | hx | hx
    · exact .inr (.inr (.inr ⟨_, _, rfl⟩))
    · exact .inl hx
    · exact .inr (.inl hx)

/-- A conversion cuts nothing. -/
theorem Expr.textSafe_asText (h : ∀ x ∈ code.parts, x.TextSafe lib env) :
    ∀ x ∈ (e.asText code).parts, x.TextSafe lib env := by
  intro x hx
  rcases Expr.mem_parts_asText hx with hx | rfl
  · exact h x hx
  · trivial

theorem Expr.textSafe_lowFrom (h : ∀ x ∈ b.parts, x.TextSafe lib env) :
    ∀ x ∈ (start.lowFrom b).parts, x.TextSafe lib env := by
  intro x hx
  rcases Expr.mem_parts_lowFrom hx with hx | ⟨_, rfl⟩ | ⟨_, _, rfl⟩
  · exact h x hx
  · trivial
  · trivial

/-- What is cut out of or searched in the code for an expression is a string, and
so is what is searched for. -/
theorem Expr.HasCode.textSafe (h : e.HasCode scope code) :
    ∀ x ∈ code.parts, x.TextSafe lib env := by
  induction h with
  | number | text => exact List.forall_mem_singleton.mpr trivial
  | var _ hlength _ ih =>
    intro x hx
    rcases Python.mem_parts_foldl_index hx with hname | ⟨_, _, rfl⟩ | ⟨c, hc, hx⟩
    · obtain rfl := List.mem_singleton.mp hname
      trivial
    · trivial
    · obtain ⟨e, hpair⟩ := exists_mem_zip_right hlength hc
      exact ih _ hpair x hx
  | neg _ ih => exact List.forall_mem_cons.mpr ⟨trivial, ih⟩
  | concat _ _ ihl ihr =>
    exact List.forall_mem_cons.mpr ⟨trivial, List.forall_mem_append.mpr
      ⟨Expr.textSafe_asText ihl, Expr.textSafe_asText ihr⟩⟩
  | binary _ _ _ ihl ihr | mod _ _ ihl ihr =>
    exact List.forall_mem_cons.mpr ⟨trivial, List.forall_mem_append.mpr ⟨ihl, ihr⟩⟩
  | substr hs _ ihs ihstart =>
    exact List.forall_mem_cons.mpr ⟨hs.yieldsText_asText,
      List.forall_mem_append.mpr ⟨Expr.textSafe_asText ihs, Expr.textSafe_lowFrom ihstart⟩⟩
  | substrLength hs _ _ ihs ihstart ihlength =>
    refine List.forall_mem_cons.mpr ⟨hs.yieldsText_asText, List.forall_mem_append.mpr
      ⟨List.forall_mem_append.mpr ⟨Expr.textSafe_asText ihs, Expr.textSafe_lowFrom ihstart⟩,
        fun x hx => ?_⟩⟩
    -- the upper bound is made of the lower one and the length
    rcases Expr.mem_parts_highFrom hx with hx | hx | ⟨_, rfl⟩ | ⟨_, _, rfl⟩
    · exact Expr.textSafe_lowFrom ihstart x hx
    · exact ihlength x hx
    · trivial
    · trivial
  | index hs hpart ihs ihpart =>
    refine List.forall_mem_cons.mpr ⟨trivial,
      List.forall_mem_append.mpr ⟨?_, List.forall_mem_singleton.mpr trivial⟩⟩
    exact List.forall_mem_cons.mpr ⟨⟨hs.yieldsText_asText, hpart.yieldsText_asText⟩,
      List.forall_mem_append.mpr ⟨Expr.textSafe_asText ihs, Expr.textSafe_asText ihpart⟩⟩
  | decimal _ ih =>
    refine List.forall_mem_cons.mpr ⟨trivial, ?_⟩
    rwa [Python.partsOfAll, Python.partsOfAll, List.append_nil]
  | endfile =>
    refine List.forall_mem_cons.mpr ⟨trivial, ?_⟩
    rw [Python.partsOfAll, Python.partsOfAll, List.append_nil]
    exact List.forall_mem_singleton.mpr trivial

/-! ## Parts of the source in the code -/

/-- A literal consists of literals. -/
theorem Expr.isSome_literal?_of_mem_parts {x : Expr} (h : e.literal?.isSome)
    (hx : x ∈ e.parts) : x.literal?.isSome := by
  -- a literal is a number behind signs, so all its parts are literals
  induction e using Expr.literal?.induct with
  | case1 n loc =>
    obtain rfl := List.mem_singleton.mp hx
    rfl
  | case2 e loc ih =>
    rcases List.mem_cons.mp hx with rfl | hx
    · exact h
    · refine ih ?_ hx
      rw [Expr.literal?] at h
      cases hliteral : e.literal? with
      | none => simp [hliteral] at h
      | some n => rfl
  | case3 e hnumber hneg =>
    rw [Expr.literal?] at h
    · exact absurd h (by simp)
    · exact hnumber
    · exact hneg

/-- The code of the start is in the lower bound, unless the start is a literal. -/
theorem Expr.parts_subset_lowFrom (start : Expr) (b : Python.Expr) :
    b.parts ⊆ (start.lowFrom b).parts ∨ start.literal?.isSome := by
  unfold Expr.lowFrom
  cases hlow : start.literalLow? with
  | none => exact .inl fun x hx => by simp [hx]
  | some n =>
    obtain ⟨k, hk, -⟩ := Option.bind_eq_some_iff.mp hlow
    exact .inr (by rw [hk]; rfl)

/-- The code of the length is in the upper bound, unless the length is a literal. -/
theorem Expr.parts_subset_highFrom (start length : Expr) (low c : Python.Expr) :
    c.parts ⊆ (start.highFrom length low c).parts ∨ length.literal?.isSome := by
  unfold Expr.highFrom
  cases hhigh : start.literalHigh? length with
  | none => exact .inl fun x hx => by simp [hx]
  | some n =>
    obtain ⟨_, -, hhigh⟩ := Option.bind_eq_some_iff.mp hhigh
    obtain ⟨k, hk, -⟩ := Option.bind_eq_some_iff.mp hhigh
    exact .inr (by rw [hk]; rfl)

/-- Every part of the expression has a code, and it stands in the given code
unless the part is a literal, whose value may be written instead. -/
def Expr.Covered (scope : Scope) (e : Expr) (code : Python.Expr) : Prop :=
  ∀ x ∈ e.parts, ∃ c, x.HasCode scope c ∧ (x.literal? = none → c ∈ code.parts)

/-- An expression is covered if its operands are and their codes are parts of its own, or they are
literals. -/
theorem Expr.covered_of_operands (h : e.HasCode scope code)
    (hoperands : ∀ o ∈ e.operands, ∃ c, o.Covered scope c ∧
      (c.parts ⊆ code.parts ∨ o.literal?.isSome)) : e.Covered scope code := by
  intro x hx
  rcases Expr.mem_parts_iff.mp hx with rfl | ⟨o, ho, hx⟩
  · exact ⟨code, h, fun _ => code.mem_parts_self⟩
  · obtain ⟨c, hcovered, hwithin⟩ := hoperands o ho
    obtain ⟨d, hd, hmem⟩ := hcovered x hx
    refine ⟨d, hd, fun hnone => ?_⟩
    rcases hwithin with hsubset | hliteral
    · exact hsubset (hmem hnone)
    -- the parts of a literal are literals, and nothing is said of them
    · have hsome := Expr.isSome_literal?_of_mem_parts hliteral hx
      rw [hnone] at hsome
      exact absurd hsome (by simp)

theorem Expr.covered_of_pair {l r : Expr} {a b : Python.Expr} (h : e.HasCode scope code)
    (hoperands : e.operands = [l, r]) (hl : l.Covered scope a) (hr : r.Covered scope b)
    (ha : a.parts ⊆ code.parts ∨ l.literal?.isSome)
    (hb : b.parts ⊆ code.parts ∨ r.literal?.isSome) : e.Covered scope code := by
  refine Expr.covered_of_operands h ?_
  rw [hoperands]
  exact List.forall_mem_cons.mpr ⟨⟨a, hl, ha⟩, List.forall_mem_singleton.mpr ⟨b, hr, hb⟩⟩

/-- Every part of a well-formed expression has its code in the code of the whole, unless it is
inside a literal. -/
theorem Expr.HasCode.covered (h : e.HasCode scope code)
    (hformed : e.Formed) : e.Covered scope code := by
  have hcode := h
  induction h with
  | number | text | endfile => exact Expr.covered_of_operands hcode (by simp [Expr.operands])
  | @var name _ _ _ _ hlength hsubscripts ih =>
    cases hformed with
    | var _ hformed =>
      refine Expr.covered_of_operands hcode fun o ho => ?_
      obtain ⟨c, hpair⟩ := exists_mem_zip_left hlength ho
      have hwithin := (Python.parts_subset_foldl_index (.name (Python.safeName name))).2 c
        (List.of_mem_zip hpair).2
      exact ⟨c, ih _ hpair (hformed o ho) (hsubscripts _ hpair), .inl hwithin⟩
  | neg he ih =>
    cases hformed with
    | neg hformed =>
      refine Expr.covered_of_operands hcode (List.forall_mem_singleton.mpr ⟨_, ih hformed he, ?_⟩)
      exact .inl fun x hx => by simp [hx]
  | @concat l r _ a b hl hr ihl ihr =>
    cases hformed with
    | binary hlformed hrformed =>
      refine Expr.covered_of_pair hcode rfl (ihl hlformed hl) (ihr hrformed hr)
        (.inl fun x hx => ?_) (.inl fun x hx => ?_)
      · simp [l.parts_subset_asText a hx]
      · simp [r.parts_subset_asText b hx]
  | binary _ hl hr ihl ihr =>
    cases hformed with
    | binary hlformed hrformed =>
      refine Expr.covered_of_pair hcode rfl (ihl hlformed hl) (ihr hrformed hr)
        (.inl fun x hx => ?_) (.inl fun x hx => ?_)
      · simp [hx]
      · simp [hx]
  | @substr s start _ a b hs hstart ihs ihstart =>
    cases hformed with
    | call _ hargs =>
      simp only [List.forall_mem_cons] at hargs
      obtain ⟨hsformed, hstartformed, -⟩ := hargs
      refine Expr.covered_of_pair hcode rfl (ihs hsformed hs) (ihstart hstartformed hstart)
        (.inl fun x hx => ?_) ?_
      · simp [s.parts_subset_asText a hx]
      · exact (start.parts_subset_lowFrom b).imp_left fun hsubset x hx => by simp [hsubset hx]
  | @substrLength s start length more _ a b c hs hstart hlength ihs ihstart ihlength =>
    cases hformed with
    | call htakes hargs =>
      -- there is no fourth argument
      obtain rfl : more = [] := by
        cases exists_arguments htakes
        rfl
      simp only [List.forall_mem_cons] at hargs
      obtain ⟨hsformed, hstartformed, hlengthformed, -⟩ := hargs
      refine Expr.covered_of_operands hcode (List.forall_mem_cons.mpr
        ⟨⟨a, ihs hsformed hs, .inl fun x hx => ?_⟩, List.forall_mem_cons.mpr
          ⟨⟨b, ihstart hstartformed hstart, ?_⟩, List.forall_mem_singleton.mpr
            ⟨c, ihlength hlengthformed hlength, ?_⟩⟩⟩)
      · simp [s.parts_subset_asText a hx]
      · exact (start.parts_subset_lowFrom b).imp_left fun hsubset x hx => by simp [hsubset hx]
      · exact (start.parts_subset_highFrom length (start.lowFrom b) c).imp_left
          fun hsubset x hx => by simp [hsubset hx]
  | @index s part _ a b hs hpart ihs ihpart =>
    cases hformed with
    | call _ hargs =>
      simp only [List.forall_mem_cons] at hargs
      obtain ⟨hsformed, hpartformed, -⟩ := hargs
      refine Expr.covered_of_pair hcode rfl (ihs hsformed hs) (ihpart hpartformed hpart)
        (.inl fun x hx => ?_) (.inl fun x hx => ?_)
      · simp [s.parts_subset_asText a hx]
      · simp [part.parts_subset_asText b hx]
  | decimal he ih =>
    cases hformed with
    | call _ hargs =>
      refine Expr.covered_of_operands hcode (List.forall_mem_singleton.mpr
        ⟨_, ih (List.forall_mem_singleton.mp hargs) he, .inl fun x hx => ?_⟩)
      simp [hx]
  | mod hl hr ihl ihr =>
    cases hformed with
    | call _ hargs =>
      simp only [List.forall_mem_cons] at hargs
      obtain ⟨hlformed, hrformed, -⟩ := hargs
      refine Expr.covered_of_pair hcode rfl (ihl hlformed hl) (ihr hrformed hr)
        (.inl fun x hx => ?_) (.inl fun x hx => ?_)
      · simp [hx]
      · simp [hx]

/-! ## The string operations of an expression -/

variable (lib env scope)

/-- The expression has the value. -/
def Expr.Evaluates (e : Expr) (v : Value φ) : Prop :=
  ∃ code, e.lower scope = .ok code ∧ code.eval lib env = .ok v

/-- The code does with strings what the string operation is to do: what it joins,
cuts or searches are strings, and its value is made of what is shown for the
values of its operands. `SUBSTR` counts from 1, and so does `INDEX`. -/
def Expr.OnStrings : Expr → Python.Expr → Prop
  | .binary .concat l r _, code =>
    ∃ a b, code = .binary .add a b ∧ a.YieldsText lib env ∧ b.YieldsText lib env ∧
      ∀ u v, l.Evaluates lib env scope u → r.Evaluates lib env scope v →
        code.eval lib env = .ok (.str (lib.shown u ++ lib.shown v))
  | .call .substr [s, start] _, code =>
    ∃ a low, code = .sliceFrom a low ∧ a.YieldsText lib env ∧
      ∀ u i, s.Evaluates lib env scope u → start.Evaluates lib env scope (.int i) →
        code.eval lib env =
          .ok (.str (String.ofList (sliceList (lib.shown u).toList (some (i - 1)) none)))
  | .call .substr (s :: start :: length :: _) _, code =>
    -- arguments behind the third are not looked at
    ∃ a low high, code = .slice a low high ∧ a.YieldsText lib env ∧
      ∀ u i n, s.Evaluates lib env scope u → start.Evaluates lib env scope (.int i) →
        length.Evaluates lib env scope (.int n) →
        code.eval lib env =
          .ok (.str (String.ofList (sliceList (lib.shown u).toList (some (i - 1))
            (some (i - 1 + n)))))
  | .call .index [s, part] _, code =>
    ∃ a b, code = .binary .add (.find a b) (.int 1) ∧ a.YieldsText lib env ∧
      b.YieldsText lib env ∧
      ∀ u v, s.Evaluates lib env scope u → part.Evaluates lib env scope v →
        code.eval lib env = .ok (.int (findIn (lib.shown v).toList (lib.shown u).toList + 1))
  | _, _ => True

variable {lib env scope}

/-- The code of an expression has the value of the expression. -/
theorem Expr.HasCode.eval_of_evaluates (h : e.HasCode scope code)
    {v : Value φ} (hv : e.Evaluates lib env scope v) : code.eval lib env = .ok v := by
  obtain ⟨code', hlower, hv⟩ := hv
  rw [h.lower_eq] at hlower
  injection hlower with hcode
  exact hcode ▸ hv

/-- Each operand of a string operation is given as a string. -/
theorem Expr.HasCode.onStrings (h : e.HasCode scope code) : e.OnStrings lib env scope code := by
  -- in each form the operands are converted before they are used
  cases h with
  | concat hl hr =>
    refine ⟨_, _, rfl, hl.yieldsText_asText, hr.yieldsText_asText, fun u v hu hv => ?_⟩
    have hleft := hl.eval_asText (hl.eval_of_evaluates hu)
    have hright := hr.eval_asText (hr.eval_of_evaluates hv)
    rw [Python.Expr.eval, hleft, hright]
    rfl
  | substr hs hstart =>
    refine ⟨_, _, rfl, hs.yieldsText_asText, fun u i hu hi => ?_⟩
    have htext := hs.eval_asText (hs.eval_of_evaluates hu)
    have hlow := hstart.eval_lowFrom (hstart.eval_of_evaluates hi)
    rw [Python.Expr.eval, htext, hlow]
    rfl
  | substrLength hs hstart hlength =>
    refine ⟨_, _, _, rfl, hs.yieldsText_asText, fun u i n hu hi hn => ?_⟩
    have htext := hs.eval_asText (hs.eval_of_evaluates hu)
    have hlow := hstart.eval_lowFrom (hstart.eval_of_evaluates hi)
    have hhigh := hstart.eval_highFrom hlength (hstart.eval_of_evaluates hi)
      (hlength.eval_of_evaluates hn)
    rw [Python.Expr.eval, htext, hlow, hhigh]
    rfl
  | index hs hpart =>
    refine ⟨_, _, rfl, hs.yieldsText_asText, hpart.yieldsText_asText, fun u v hu hv => ?_⟩
    have htext := hs.eval_asText (hs.eval_of_evaluates hu)
    have hsought := hpart.eval_asText (hpart.eval_of_evaluates hv)
    simp only [Python.Expr.eval, htext, hsought]
    rfl
  | @binary op _ _ _ _ _ hop _ _ =>
    cases op with
    | concat => exact absurd rfl hop
    | _ => trivial
  | _ => trivial

/-- What holds for the string operations of an expression and its code. -/
structure Expr.StringSafe (lib : Library φ) (env : Env φ) (scope : Scope) (e : Expr)
    (code : Python.Expr) : Prop where
  /-- Whatever is cut out of or searched is a string, and so is what is searched for. -/
  cuts : ∀ x ∈ code.parts, x.TextSafe lib env
  /-- Every part does with strings what it is to do. -/
  joins : ∀ x ∈ e.parts, ∀ c, x.lower scope = .ok c → x.OnStrings lib env scope c
  /-- The codes of all parts stand in the code, those of literals aside. -/
  within : e.Formed → ∀ x ∈ e.parts, ∃ c, x.lower scope = .ok c ∧
    (x.literal? = none → c ∈ code.parts)

/-- **Operands of string operations are strings.** Whatever the variables hold,
every string operation of an expression works on strings, wherever in the
expression it stands, and fails only if one of its operands has no value or a
bound is no integer. -/
theorem Expr.string_operands_are_strings (lib : Library φ) (env : Env φ) {scope : Scope} {e : Expr}
    {code : Python.Expr} (h : e.lower scope = .ok code) : e.StringSafe lib env scope code := by
  have hcode := Expr.lower_eq_ok_iff.mp h
  refine ⟨hcode.textSafe, fun x _ c hc => (Expr.lower_eq_ok_iff.mp hc).onStrings,
    fun hformed x hx => ?_⟩
  obtain ⟨c, hc, hmem⟩ := hcode.covered hformed x hx
  exact ⟨c, hc.lower_eq, hmem⟩

/-- A library without fractions. -/
def Python.Library.wholes : Library Empty where
  ofInt _ := none
  neg := id
  add x _ := x
  sub x _ := x
  mul x _ := x
  div _ _ := none
  mod _ _ := none
  quotient _ _ := none
  truncate _ := none
  floatText x := x.elim
  listText _ := "[...]"
  parse _ := none
  format _ _ := none

/-- A variable that was to hold a text and holds a number, and one that holds `None`. -/
def Python.Env.mixed : Env Empty where
  value id := if id = "n" then some (.int 421) else if id = "t" then some .none else none
  atEnd _ := false

/-- `SUBSTR(n, 1, 2) || t` with a number and `None`. -/
theorem Expr.string_operands_are_strings_mixed :
    ∃ e code, e = Expr.binary .concat
        (.call .substr [.var "n" [] ⟨1, 1⟩, .number 1 ⟨1, 4⟩, .number 2 ⟨1, 7⟩] ⟨1, 1⟩)
        (.var "t" [] ⟨1, 10⟩) ⟨1, 9⟩ ∧
      e.lower Scope.empty = .ok code ∧ e.StringSafe .wholes .mixed Scope.empty code ∧
      code.eval .wholes .mixed = .ok (.str "42") :=
  ⟨_, _, rfl, rfl, Expr.string_operands_are_strings .wholes .mixed rfl, by rfl⟩

end

end Plic
