import Plic.Proofs.Lowering.Meaning

/-!
# The bounds of slices are exact

`SUBSTR` counts from 1 and goes by a length, a slice counts from 0 and goes by an
end. The bounds `start - 1` and `start - 1 + length` are computed ahead where the
numbers are literals, each of them on its own, and only as long as every number
on the way has 64 bits. Whether they are computed ahead or written out, they come
to the same, and that is what start and length amount to in integers without
limit.

Main result: `substr_bounds_exact`.
-/

namespace Plic

open Python (Env Library Plain TextEvaluates Value safeName)

variable {φ : Type} {scope : Scope}

/-! ## Amounts -/

/-- What an expression amounts to in integers of any size, from the integers that its variables
hold. -/
inductive Expr.Amounts (env : Env φ) : Expr → Int → Prop where
  | number {n : Int} {loc : Location} : Amounts env (.number n loc) n
  | var {name : String} {subscripts : List Expr} {loc : Location} {indices : List Int}
      {v : Value φ} {n : Int} :
      subscripts.length = indices.length → (∀ p ∈ subscripts.zip indices, Amounts env p.1 p.2) →
      env.value (safeName name) = some v → v.get indices = .ok (.int n) →
      Amounts env (.var name subscripts loc) n
  | neg {e : Expr} {loc : Location} {n : Int} : Amounts env e n → Amounts env (.neg e loc) (-n)
  | add {l r : Expr} {loc : Location} {m n : Int} :
      Amounts env l m → Amounts env r n → Amounts env (.binary .add l r loc) (m + n)
  | sub {l r : Expr} {loc : Location} {m n : Int} :
      Amounts env l m → Amounts env r n → Amounts env (.binary .sub l r loc) (m - n)
  | mul {l r : Expr} {loc : Location} {m n : Int} :
      Amounts env l m → Amounts env r n → Amounts env (.binary .mul l r loc) (m * n)
  /-- A remainder has the sign of the divisor. -/
  | mod {l r : Expr} {loc : Location} {m n : Int} :
      Amounts env l m → Amounts env r n → n ≠ 0 →
      Amounts env (.call .mod [l, r] loc) (m.fmod n)

/-- A literal amounts to its value, whatever signs it stands behind. -/
theorem Expr.amounts_of_value? {e : Expr} {n : Int} (h : e.value? = some n) (env : Env φ) :
    e.Amounts env n := by
  induction e using Expr.value?.induct generalizing n with
  | case1 k loc =>
    obtain rfl := Option.some.inj h
    exact .number
  | case2 e loc ih =>
    obtain ⟨k, hk, rfl⟩ := Option.map_eq_some_iff.mp h
    exact .neg (ih hk)
  | case3 e hnumber hneg =>
    rw [Expr.value?] at h
    · cases h
    · exact hnumber
    · exact hneg

/-- Two lists go together if their items do wherever they belong to the same item of a third. -/
theorem forall₂_of_zip {α β γ : Type} {R : β → γ → Prop} {as : List α} {bs : List β} {cs : List γ}
    (hbs : as.length = bs.length) (hcs : as.length = cs.length)
    (h : ∀ a b c, (a, b) ∈ as.zip bs → (a, c) ∈ as.zip cs → R b c) : List.Forall₂ R bs cs := by
  induction as generalizing bs cs with
  | nil =>
    obtain rfl := List.length_eq_zero_iff.mp hbs.symm
    obtain rfl := List.length_eq_zero_iff.mp hcs.symm
    exact .nil
  | cons a as ih =>
    obtain ⟨b, bs, rfl⟩ := List.exists_cons_of_length_eq_add_one hbs.symm
    obtain ⟨c, cs, rfl⟩ := List.exists_cons_of_length_eq_add_one hcs.symm
    have hrest : List.Forall₂ R bs cs := by
      refine ih (by simpa using hbs) (by simpa using hcs) fun a b c hb hc => ?_
      exact h a b c (List.mem_cons_of_mem _ hb) (List.mem_cons_of_mem _ hc)
    exact .cons (h a b c List.mem_cons_self List.mem_cons_self) hrest

section

variable {lib : Library φ} {env : Env φ}

/-- An element of an array is found at the values of its subscripts. -/
theorem Python.eval_foldl_index {base : Python.Expr} {codes : List Python.Expr}
    {indices : List Int} {v w : Value φ}
    (hcodes : List.Forall₂ (fun c i => c.eval lib env = .ok (.int i)) codes indices)
    (hv : base.eval lib env = .ok v) (hw : v.get indices = .ok w) :
    (codes.foldl .index base).eval lib env = .ok w := by
  induction hcodes generalizing base v with
  | nil =>
    injection hw with hw
    rw [List.foldl_nil, hv, hw]
  | cons hc _ ih =>
    rw [Value.get_cons] at hw
    obtain ⟨u, hu, hw⟩ := bind_eq_ok_iff.mp hw
    -- the first subscript is put on the base, and the others follow
    refine ih ?_ hw
    rw [Python.Expr.eval, hv, hc]
    exact hu

/-- An expression that amounts to a number has code with this value. -/
theorem Expr.HasCode.eval_of_amounts {e : Expr} {code : Python.Expr} (h : e.HasCode scope code)
    {n : Int} (hn : e.Amounts env n) : code.eval lib env = .ok (.int n) := by
  induction h generalizing n with
  | number =>
    cases hn with
    | number => rfl
  | var _ hlength _ ih =>
    cases hn with
    | @var _ _ _ indices v _ hindices hamounts hv hget =>
      have hcodes : List.Forall₂ (fun (c : Python.Expr) i => c.eval lib env = .ok (.int i)) _
          indices :=
        forall₂_of_zip hlength hindices fun s c i hc hi => ih (s, c) hc (hamounts (s, i) hi)
      refine Python.eval_foldl_index hcodes ?_ hget
      rw [Python.Expr.eval, hv]
      rfl
  | neg _ ih =>
    cases hn with
    | neg hn =>
      rw [Python.Expr.eval, ih hn]
      rfl
  | @binary op _ _ _ _ _ hop _ _ ihl ihr =>
    cases hn with
    | add hl hr | sub hl hr | mul hl hr =>
      rw [Python.Expr.eval, ihl hl, ihr hr]
      rfl
  | mod _ _ ihl ihr =>
    cases hn with
    | @mod _ _ _ m k hl hr hzero =>
      rw [Python.Expr.eval, ihl hl, ihr hr]
      show lib.integers .mod m k = _
      rw [Library.integers, if_neg hzero]
  -- the other forms have no amount
  | _ => cases hn

end

/-! ## Bounds -/

theorem fitsInt64_of_int64? {n k : Int} (h : int64? n = some k) : fitsInt64 k := by
  obtain rfl := int64?_eq_some h
  unfold int64? at h
  split at h
  · assumption
  · exact absurd h nofun

/-- What a bound of a slice has in common with the code that says the same without numbers that are
computed ahead. -/
structure Python.Expr.FoldOf (bound unfolded : Python.Expr) : Prop where
  /-- They have the same value, or fail in the same way. -/
  eval_eq : ∀ {φ : Type} (lib : Library φ) (env : Env φ),
    bound.eval lib env = unfolded.eval lib env
  plain : Plain unfolded → Plain bound
  /-- No number that is computed ahead has more than 64 bits. -/
  fits : ∀ k, bound = .int k → fitsInt64 k

section

variable {start length : Expr} {b c low : Python.Expr}

/-- The lower bound is a difference, folded if it can be. -/
theorem Expr.HasCode.foldOf_lowFrom (h : start.HasCode scope b) :
    (start.lowFrom b).FoldOf (.binary .sub b (.int 1)) := by
  unfold Expr.lowFrom
  cases hlow : start.literalLow? with
  | none => exact ⟨fun _ _ => rfl, id, nofun⟩
  | some k =>
    obtain ⟨i, hi, hk⟩ := Option.bind_eq_some_iff.mp hlow
    refine ⟨fun lib env => ?_, fun _ => .int k, ?_⟩
    · rw [Python.Expr.eval, Python.Expr.eval, h.eval_literal hi, int64?_eq_some hk]
      rfl
    · rintro _ ⟨⟩
      exact fitsInt64_of_int64? hk

/-- The upper bound comes to the same, whether or not the lower one in it is computed ahead. -/
theorem Expr.HasCode.foldOf_highFrom (hb : start.HasCode scope b) (hc : length.HasCode scope c) :
    (start.highFrom length (start.lowFrom b) c).FoldOf
      (.binary .add (.binary .sub b (.int 1)) c) := by
  have hlower := hb.foldOf_lowFrom
  unfold Expr.highFrom
  -- written out as a number, or as a sum with the lower bound, which may be folded by itself
  cases hhigh : start.literalHigh? length with
  | none =>
    refine ⟨fun lib env => ?_, fun hplain => ?_, nofun⟩
    · rw [Python.Expr.eval, hlower.eval_eq, ← Python.Expr.eval]
    · cases hplain with
      | binary hl hr => exact .binary (hlower.plain hl) hr
  | some k =>
    obtain ⟨low, hlow, hhigh⟩ := Option.bind_eq_some_iff.mp hhigh
    obtain ⟨n, hn, hk⟩ := Option.bind_eq_some_iff.mp hhigh
    obtain ⟨i, hi, hlow⟩ := Option.bind_eq_some_iff.mp hlow
    refine ⟨fun lib env => ?_, fun _ => .int k, ?_⟩
    · simp only [Python.Expr.eval, hb.eval_literal hi, hc.eval_literal hn, int64?_eq_some hk,
        int64?_eq_some hlow]
      rfl
    · rintro _ ⟨⟩
      exact fitsInt64_of_int64? hk

end

/-- The text of a folded bound has the value of the bound. -/
theorem Python.Expr.FoldOf.textEvaluates_iff {bound unfolded : Python.Expr}
    (h : bound.FoldOf unfolded) (hplain : Plain unfolded) {lib : Library φ} {env : Env φ} {n : Int}
    (hn : bound.eval lib env = .ok (.int n)) (v : Value φ) :
    TextEvaluates lib env bound.render v ↔ v = .int n := by
  rw [(h.plain hplain).textEvaluates_iff, hn]
  exact ⟨fun hv => (Except.ok.inj hv).symm, fun hv => congrArg _ hv.symm⟩

/-- What is to be said of a bound of a slice, in a state in which the bound is to be `n`. -/
structure Python.Expr.IsBound (bound : Python.Expr) (lib : Library φ) (env : Env φ) (worded : Prop)
    (n : Int) : Prop where
  eval_eq : bound.eval lib env = .ok (.int n)
  /-- The text of the bound is read as something with this value only. -/
  reads : worded → ∀ v, TextEvaluates lib env bound.render v ↔ v = .int n

section

variable {lib : Library φ} {env : Env φ} {start length : Expr} {b c : Python.Expr} {i n : Int}

/-- The lower bound is one less than the start. -/
theorem Expr.HasCode.isBound_lowFrom (h : start.HasCode scope b)
    (hi : start.Evaluates lib env scope (.int i)) :
    (start.lowFrom b).IsBound lib env start.Worded (i - 1) := by
  have hvalue := h.eval_lowFrom (h.eval_of_evaluates hi)
  refine ⟨hvalue, fun hworded => ?_⟩
  exact h.foldOf_lowFrom.textEvaluates_iff (.binary (h.plain hworded) (.int 1)) hvalue

/-- The upper bound is the length more than that. -/
theorem Expr.HasCode.isBound_highFrom (hb : start.HasCode scope b) (hc : length.HasCode scope c)
    (hi : start.Evaluates lib env scope (.int i)) (hn : length.Evaluates lib env scope (.int n)) :
    (start.highFrom length (start.lowFrom b) c).IsBound lib env (start.Worded ∧ length.Worded)
      (i - 1 + n) := by
  have hvalue := hb.eval_highFrom hc (hb.eval_of_evaluates hi) (hc.eval_of_evaluates hn)
  refine ⟨hvalue, fun hworded => ?_⟩
  have hplain : Plain (.binary .add (.binary .sub b (.int 1)) c) :=
    .binary (.binary (hb.plain hworded.1) (.int 1)) (hc.plain hworded.2)
  exact (hb.foldOf_highFrom hc).textEvaluates_iff hplain hvalue

theorem Expr.HasCode.evaluates_of_amounts (h : start.HasCode scope b) (hi : start.Amounts env i) :
    start.Evaluates lib env scope (.int i) := ⟨b, h.lower_eq, h.eval_of_amounts hi⟩

end

/-- **The bounds of a slice are exact.** Where the start of a `SUBSTR` has the value `i` and its
length the value `n`, the lower bound is `i - 1` and the upper one `i - 1 + n`. In all states both
have the value that they would have if nothing were computed ahead. The values of start and length
are what they amount to in integers of any size. -/
theorem substr_bounds_exact {s start : Expr} {rest : List Expr} {loc : Location}
    {code : Python.Expr}
    (hcode : (Expr.call .substr (s :: start :: rest) loc).lower scope = .ok code) :
    ∃ text low b, start.lower scope = .ok b ∧ low.FoldOf (.binary .sub b (.int 1)) ∧
      (∀ {φ : Type} (lib : Library φ) (env : Env φ) (i : Int),
        (start.Amounts env i → start.Evaluates lib env scope (.int i)) ∧
        (start.Evaluates lib env scope (.int i) → low.IsBound lib env start.Worded (i - 1))) ∧
      match rest with
      | [] => code = .sliceFrom text low
      | length :: _ => ∃ high c, length.lower scope = .ok c ∧ code = .slice text low high ∧
          high.FoldOf (.binary .add (.binary .sub b (.int 1)) c) ∧
          ∀ {φ : Type} (lib : Library φ) (env : Env φ) (i n : Int),
            (length.Amounts env n → length.Evaluates lib env scope (.int n)) ∧
            (start.Evaluates lib env scope (.int i) → length.Evaluates lib env scope (.int n) →
              high.IsBound lib env (start.Worded ∧ length.Worded) (i - 1 + n)) := by
  -- with and without a length the lower bound is the same
  cases Expr.hasCode_of_lower _ hcode with
  | @substr _ _ _ _ b _ hstart =>
    exact ⟨_, _, b, hstart.lower_eq, hstart.foldOf_lowFrom,
      fun _ _ _ => ⟨hstart.evaluates_of_amounts, hstart.isBound_lowFrom⟩, rfl⟩
  | @substrLength _ _ _ _ _ _ b c _ hstart hlength =>
    exact ⟨_, _, b, hstart.lower_eq, hstart.foldOf_lowFrom,
      fun _ _ _ => ⟨hstart.evaluates_of_amounts, hstart.isBound_lowFrom⟩,
      _, c, hlength.lower_eq, rfl, hstart.foldOf_highFrom hlength,
      fun _ _ _ _ => ⟨hlength.evaluates_of_amounts, hstart.isBound_highFrom hlength⟩⟩

/-- `SUBSTR(t, -(-9223372036854775807), 5)`: the lower bound is computed ahead, the upper one has
more than 64 bits. -/
theorem substr_bounds_exact_wide : ∃ (e : Expr) (text high : Python.Expr),
    e = .call .substr [.var "t" [] ⟨1, 8⟩, .neg (.neg (.number 9223372036854775807 ⟨1, 14⟩) ⟨1, 13⟩)
      ⟨1, 11⟩, .number 5 ⟨1, 36⟩] ⟨1, 1⟩ ∧
    e.lower Scope.empty = .ok (.slice text (.int 9223372036854775806) high) ∧
    high.render = "9223372036854775806 + 5" ∧
    high.eval .wholes .mixed = .ok (.int 9223372036854775811) := by
  -- the sum does not fit 63 bits, so it is left to be added at run time
  have hcode : (Expr.call .substr [.var "t" [] ⟨1, 8⟩,
      .neg (.neg (.number 9223372036854775807 ⟨1, 14⟩) ⟨1, 13⟩) ⟨1, 11⟩, .number 5 ⟨1, 36⟩]
      ⟨1, 1⟩).lower Scope.empty = .ok (.slice _ (.int 9223372036854775806)
        (.binary .add (.int 9223372036854775806) (.int 5))) := rfl
  obtain ⟨_, _, _, _, _, hlow, high, _, _, hslice, _, hhigh⟩ := substr_bounds_exact hcode
  injection hslice with _ _ hsame
  subst hsame
  have hstart := (hlow Library.wholes Env.mixed 9223372036854775807).1
    (Expr.amounts_of_value? rfl _)
  have hlength := (hhigh Library.wholes Env.mixed 9223372036854775807 5).1 .number
  have hbound := (hhigh Library.wholes Env.mixed 9223372036854775807 5).2 hstart hlength
  exact ⟨_, _, _, rfl, hcode, by decide +kernel, hbound.eval_eq⟩

end Plic
