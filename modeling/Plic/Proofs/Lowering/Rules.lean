import Mathlib
import Plic.Compile

/-!
# The rules that code follows

What the code for a tree is, as rules: one for each form of an expression and of
a statement, which builds its code from the codes of its parts. The numbers count
the temporaries before and behind a statement. Whatever is to be said of all
code is then shown rule by rule, without going through the work that may be
refused.

Both bounds of a slice have a code, also where they are literals and it is not
written.

Main results:

* `Expr.lower_eq_ok_iff` — an expression has the code that the rules give.
* `Stmt.hasCode_of_lower`, `hasCodes_of_lowerBlock` — so have statements.
-/

namespace Plic

open Python (safeName temporaryName)

/-! ## Pairs of expressions and codes -/

/-- Every expression has a code beside it. -/
theorem exists_mem_zip_left {α β : Type} {as : List α} {bs : List β} (h : as.length = bs.length)
    {a : α} (ha : a ∈ as) : ∃ b, (a, b) ∈ as.zip bs := by
  rw [← @List.map_fst_zip _ _ as bs h.le] at ha
  obtain ⟨⟨a, b⟩, hmem, rfl⟩ := List.mem_map.mp ha
  exact ⟨b, hmem⟩

theorem exists_mem_zip_right {α β : Type} {as : List α} {bs : List β} (h : as.length = bs.length)
    {b : β} (hb : b ∈ bs) : ∃ a, (a, b) ∈ as.zip bs := by
  rw [← @List.map_snd_zip _ _ as bs h.ge] at hb
  obtain ⟨⟨a, b⟩, hmem, rfl⟩ := List.mem_map.mp hb
  exact ⟨a, hmem⟩

/-! ## Work that may be refused -/

/-- Work in a row goes through if both parts do. -/
theorem bind_eq_ok_iff {ε α β : Type} {x : Except ε α} {f : α → Except ε β} {b : β} :
    (x >>= f) = .ok b ↔ ∃ a, x = .ok a ∧ f a = .ok b := by
  cases x with
  | error e | ok a => simp [bind, Except.bind]

/-- Work that goes through has a result. -/
theorem exists_of_isOk {α : Type} {x : Except Fault α} (h : x.isOk) : ∃ a, x = .ok a := by
  cases x with
  | ok a => exact ⟨a, rfl⟩
  | error f => exact absurd h (by simp [Except.isOk, Except.toBool])

namespace Lowering

variable {α β : Type} {n : Nat}

/-- The same for work that counts temporaries, which hands the count on. -/
theorem bind_eq_ok_iff {x : Lowering α} {f : α → Lowering β} {r : β × Nat} :
    (x >>= f) n = .ok r ↔ ∃ a m, x n = .ok (a, m) ∧ f a m = .ok r := by
  show (x n >>= fun p => f p.1 p.2) = .ok r ↔ _
  rw [Plic.bind_eq_ok_iff]
  exact ⟨fun ⟨⟨a, m⟩, hx, hf⟩ => ⟨a, m, hx, hf⟩, fun ⟨a, m, hx, hf⟩ => ⟨⟨a, m⟩, hx, hf⟩⟩

theorem pure_eq_ok_iff {a b : α} {m : Nat} :
    (pure a : Lowering α) n = .ok (b, m) ↔ b = a ∧ m = n := by
  show Except.ok (a, n) = .ok (b, m) ↔ _
  simp [eq_comm]

theorem lift_eq_ok_iff {x : Except Fault α} {a : α} {m : Nat} :
    (liftM x : Lowering α) n = .ok (a, m) ↔ x = .ok a ∧ m = n := by
  cases x with
  | error f => exact ⟨nofun, nofun⟩
  | ok b =>
    show Except.ok (b, n) = .ok (a, m) ↔ _
    simp [eq_comm]

/-- A part of the work that may be refused and uses no temporaries. -/
theorem lift_bind_eq_ok_iff {x : Except Fault α} {f : α → Lowering β} {r : β × Nat} :
    (liftM x >>= f : Lowering β) n = .ok r ↔ ∃ a, x = .ok a ∧ f a n = .ok r := by
  rw [bind_eq_ok_iff]
  constructor
  · rintro ⟨a, m, hlift, hf⟩
    obtain ⟨hx, rfl⟩ := lift_eq_ok_iff.mp hlift
    exact ⟨a, hx, hf⟩
  · rintro ⟨a, hx, hf⟩
    exact ⟨a, n, lift_eq_ok_iff.mpr ⟨hx, rfl⟩, hf⟩

end Lowering

/-! ## Expressions -/

/-- The lower bound of a slice, as a number where it is a literal. Its code is made in any case, so
that its references are checked. -/
def Expr.lowCode (scope : Scope) (start : Expr) : Except Fault Python.Expr :=
  match start.literalLow? with
  | some n => .ok (.int n)
  | none => (start.lower scope).map fun code => .binary .sub code (.int 1)

/-- The code for the upper bound of a slice with the given lower bound. -/
def Expr.highCode (scope : Scope) (start length : Expr) (low : Python.Expr) :
    Except Fault Python.Expr :=
  match start.literalHigh? length with
  | some n => .ok (.int n)
  | none => (length.lower scope).map fun code => .binary .add low code

/-- `SUBSTR` without a length goes to the end of the text. -/
theorem Expr.lower_substr_two (scope : Scope) (s start : Expr) (loc : Location) :
    (Expr.call .substr [s, start] loc).lower scope = (do
      let text := s.asText (← s.lower scope)
      let low ← start.lowCode scope
      return .sliceFrom text low) := by
  rw [Expr.lower]
  unfold Expr.lowCode
  cases s.lower scope with
  | error f => rfl
  | ok a => cases start.literalLow? <;> rfl

/-- No argument behind the third has a part in the code. -/
theorem Expr.lower_substr_more (scope : Scope) (s start length : Expr) (rest : List Expr)
    (loc : Location) :
    (Expr.call .substr (s :: start :: length :: rest) loc).lower scope = (do
      let text := s.asText (← s.lower scope)
      let low ← start.lowCode scope
      let high ← start.highCode scope length low
      return .slice text low high) := by
  rw [Expr.lower]
  unfold Expr.lowCode Expr.highCode
  -- the bounds are made behind the text, so a fault of the text comes first
  cases s.lower scope with
  | error f => rfl
  | ok a =>
    cases start.literalLow? with
    | some n => cases start.literalHigh? length <;> rfl
    | none =>
      cases start.lower scope with
      | error f => rfl
      | ok b => cases start.literalHigh? length <;> rfl

/-- The lower bound of a slice, from the code for the place where it starts. -/
def Expr.lowFrom (start : Expr) (code : Python.Expr) : Python.Expr :=
  match start.literalLow? with
  | some n => .int n
  | none => .binary .sub code (.int 1)

/-- The upper bound of a slice, from its lower bound and the code for its length. -/
def Expr.highFrom (start length : Expr) (low code : Python.Expr) : Python.Expr :=
  match start.literalHigh? length with
  | some n => .int n
  | none => .binary .add low code

/-- The code for an expression. -/
inductive Expr.HasCode (scope : Scope) : Expr → Python.Expr → Prop where
  | number {n : Int} {loc : Location} : HasCode scope (.number n loc) (.int n)
  | text {s : String} {loc : Location} : HasCode scope (.text s loc) (.str s)
  | var {name : String} {subscripts : List Expr} {loc : Location} {codes : List Python.Expr} :
      scope.rank name = subscripts.length → subscripts.length = codes.length →
      (∀ p ∈ subscripts.zip codes, HasCode scope p.1 p.2) →
      HasCode scope (.var name subscripts loc) (codes.foldl .index (.name (safeName name)))
  | neg {e : Expr} {loc : Location} {code : Python.Expr} :
      HasCode scope e code → HasCode scope (.neg e loc) (.neg code)
  | concat {l r : Expr} {loc : Location} {a b : Python.Expr} :
      HasCode scope l a → HasCode scope r b →
      HasCode scope (.binary .concat l r loc) (.binary .add (l.asText a) (r.asText b))
  | binary {op : Operator} {l r : Expr} {loc : Location} {a b : Python.Expr} :
      op ≠ .concat → HasCode scope l a → HasCode scope r b →
      HasCode scope (.binary op l r loc) (.binary op.lower a b)
  | substr {s start : Expr} {loc : Location} {a b : Python.Expr} :
      HasCode scope s a → HasCode scope start b →
      HasCode scope (.call .substr [s, start] loc) (.sliceFrom (s.asText a) (start.lowFrom b))
  /-- No argument behind the third has a part in the code. -/
  | substrLength {s start length : Expr} {more : List Expr} {loc : Location}
      {a b c : Python.Expr} :
      HasCode scope s a → HasCode scope start b → HasCode scope length c →
      HasCode scope (.call .substr (s :: start :: length :: more) loc)
        (.slice (s.asText a) (start.lowFrom b) (start.highFrom length (start.lowFrom b) c))
  | index {s part : Expr} {loc : Location} {a b : Python.Expr} :
      HasCode scope s a → HasCode scope part b →
      HasCode scope (.call .index [s, part] loc)
        (.binary .add (.find (s.asText a) (part.asText b)) (.int 1))
  | decimal {e : Expr} {loc : Location} {code : Python.Expr} :
      HasCode scope e code → HasCode scope (.call .decimal [e] loc) (.call .str [code])
  | mod {l r : Expr} {loc : Location} {a b : Python.Expr} :
      HasCode scope l a → HasCode scope r b →
      HasCode scope (.call .mod [l, r] loc) (.binary .mod a b)
  | endfile {file : String} {loc : Location} :
      HasCode scope (.endfile file loc) (.call .endfile [.str file])

section

variable {scope : Scope}

/-- The check passes exactly if the name has that many subscripts. -/
theorem Scope.checkSubscripts_eq_ok_iff {name : String} {count : Nat} {loc : Location} {u : Unit} :
    scope.checkSubscripts name count loc = .ok u ↔ scope.rank name = count := by
  unfold Scope.checkSubscripts
  by_cases hrank : scope.rank name = count
  · simp [hrank]
  · rw [if_neg hrank]
    cases scope.find? name with
    | none => simp [hrank]
    | some v =>
      simp only [hrank, iff_false]
      split <;> simp

/-- A literal always has a code. -/
theorem Expr.exists_lower_of_literal? {e : Expr} {n : Int} (h : e.literal? = some n) :
    ∃ code, e.lower scope = .ok code := by
  induction e using Expr.literal?.induct generalizing n with
  | case1 k loc => exact ⟨.int k, by rw [Expr.lower]; rfl⟩
  | case2 e loc ih =>
    rw [Expr.literal?] at h
    obtain ⟨k, hk, -⟩ := Option.bind_eq_some_iff.mp h
    obtain ⟨code, hcode⟩ := ih hk
    exact ⟨.neg code, by rw [Expr.lower, hcode]; rfl⟩
  | case3 e hnumber hneg =>
    rw [Expr.literal?] at h
    · exact absurd h (by simp)
    · exact hnumber
    · exact hneg

/-- The lower bound comes from the code of the start. -/
theorem Expr.lowCode_eq_ok_iff {start : Expr} {low : Python.Expr} :
    start.lowCode scope = .ok low ↔ ∃ b, start.lower scope = .ok b ∧ low = start.lowFrom b := by
  unfold Expr.lowCode Expr.lowFrom
  cases hlow : start.literalLow? with
  | some n =>
    obtain ⟨k, hk, -⟩ := Option.bind_eq_some_iff.mp hlow
    obtain ⟨b, hb⟩ := @Expr.exists_lower_of_literal? scope _ _ hk
    simp [hb, eq_comm]
  | none => cases start.lower scope <;> simp [Except.map, eq_comm]

/-- The upper bound comes from the code of the length. -/
theorem Expr.highCode_eq_ok_iff {start length : Expr} {low high : Python.Expr} :
    start.highCode scope length low = .ok high ↔
      ∃ c, length.lower scope = .ok c ∧ high = start.highFrom length low c := by
  unfold Expr.highCode Expr.highFrom
  cases hhigh : start.literalHigh? length with
  | some n =>
    obtain ⟨_, -, hhigh⟩ := Option.bind_eq_some_iff.mp hhigh
    obtain ⟨k, hk, -⟩ := Option.bind_eq_some_iff.mp hhigh
    obtain ⟨c, hc⟩ := @Expr.exists_lower_of_literal? scope _ _ hk
    simp [hc, eq_comm]
  | none => cases length.lower scope <;> simp [Except.map, eq_comm]

mutual

/-- What is made for an expression is its code by the rules. -/
theorem Expr.hasCode_of_lower (e : Expr) {code : Python.Expr} (h : e.lower scope = .ok code) :
    e.HasCode scope code := by
  match e with
  | .number n _ =>
    injection h with hcode
    exact hcode ▸ .number
  | .text s _ =>
    injection h with hcode
    exact hcode ▸ .text
  | .var name subscripts loc =>
    simp only [Expr.lower, bind_eq_ok_iff] at h
    obtain ⟨_, hrank, codes, hcodes, hcode⟩ := h
    injection hcode with hcode
    obtain ⟨hlength, hzip⟩ := List.forall₂_iff_zip.mp (hasCode_of_lowerAll subscripts hcodes)
    exact hcode ▸ .var (Scope.checkSubscripts_eq_ok_iff.mp hrank) hlength fun _ hp => hzip hp
  | .neg e _ =>
    simp only [Expr.lower, bind_eq_ok_iff] at h
    obtain ⟨a, ha, hcode⟩ := h
    injection hcode with hcode
    exact hcode ▸ .neg (e.hasCode_of_lower ha)
  | .binary .concat l r _ =>
    simp only [Expr.lower, bind_eq_ok_iff] at h
    obtain ⟨a, ha, b, hb, hcode⟩ := h
    injection hcode with hcode
    exact hcode ▸ .concat (l.hasCode_of_lower ha) (r.hasCode_of_lower hb)
  | .binary .add l r _ | .binary .sub l r _ | .binary .mul l r _ | .binary .div l r _ =>
    simp only [Expr.lower, bind_eq_ok_iff] at h
    obtain ⟨a, ha, b, hb, hcode⟩ := h
    injection hcode with hcode
    exact hcode ▸ .binary (by decide) (l.hasCode_of_lower ha) (r.hasCode_of_lower hb)
  | .call .substr [s, start] _ =>
    rw [Expr.lower_substr_two] at h
    simp only [bind_eq_ok_iff, Expr.lowCode_eq_ok_iff] at h
    obtain ⟨a, ha, _, ⟨b, hb, rfl⟩, hcode⟩ := h
    injection hcode with hcode
    exact hcode ▸ .substr (s.hasCode_of_lower ha) (start.hasCode_of_lower hb)
  | .call .substr (s :: start :: length :: more) _ =>
    rw [Expr.lower_substr_more] at h
    simp only [bind_eq_ok_iff, Expr.lowCode_eq_ok_iff, Expr.highCode_eq_ok_iff] at h
    obtain ⟨a, ha, _, ⟨b, hb, rfl⟩, _, ⟨c, hc, rfl⟩, hcode⟩ := h
    injection hcode with hcode
    exact hcode ▸ .substrLength (s.hasCode_of_lower ha) (start.hasCode_of_lower hb)
      (length.hasCode_of_lower hc)
  | .call .index [s, part] _ =>
    simp only [Expr.lower, bind_eq_ok_iff] at h
    obtain ⟨a, ha, b, hb, hcode⟩ := h
    injection hcode with hcode
    exact hcode ▸ .index (s.hasCode_of_lower ha) (part.hasCode_of_lower hb)
  | .call .decimal [e] _ =>
    simp only [Expr.lower, bind_eq_ok_iff] at h
    obtain ⟨a, ha, hcode⟩ := h
    injection hcode with hcode
    exact hcode ▸ .decimal (e.hasCode_of_lower ha)
  | .call .mod [l, r] _ =>
    simp only [Expr.lower, bind_eq_ok_iff] at h
    obtain ⟨a, ha, b, hb, hcode⟩ := h
    injection hcode with hcode
    exact hcode ▸ .mod (l.hasCode_of_lower ha) (r.hasCode_of_lower hb)
  | .endfile file _ =>
    injection h with hcode
    exact hcode ▸ .endfile
  -- the other numbers of arguments are faults
  | .call .substr [] _ | .call .substr [_] _ | .call .index [] _ | .call .index [_] _
  | .call .index (_ :: _ :: _ :: _) _ | .call .decimal [] _ | .call .decimal (_ :: _ :: _) _
  | .call .mod [] _ | .call .mod [_] _ | .call .mod (_ :: _ :: _ :: _) _ =>
    injection h

theorem hasCode_of_lowerAll (es : List Expr) {codes : List Python.Expr}
    (h : lowerAll scope es = .ok codes) : List.Forall₂ (Expr.HasCode scope) es codes := by
  match es with
  | [] =>
    injection h with hcodes
    exact hcodes ▸ .nil
  | e :: es =>
    simp only [lowerAll, bind_eq_ok_iff] at h
    obtain ⟨code, hcode, rest, hrest, hcodes⟩ := h
    injection hcodes with hcodes
    exact hcodes ▸ .cons (e.hasCode_of_lower hcode) (hasCode_of_lowerAll es hrest)

end

/-- If code is made for each expression of a list, it is made for the list. -/
theorem lowerAll_of_forall {es : List Expr} {codes : List Python.Expr}
    (h : List.Forall₂ (fun e c => Expr.lower scope e = .ok c) es codes) :
    lowerAll scope es = .ok codes := by
  induction h with
  | nil => rfl
  | cons hcode _ ih =>
    rw [lowerAll, hcode, ih]
    rfl

theorem Expr.HasCode.lower_eq {e : Expr} {code : Python.Expr} (h : e.HasCode scope code) :
    e.lower scope = .ok code := by
  induction h with
  | number | text | endfile => rw [Expr.lower]; rfl
  | var hrank hlength _ ih =>
    -- the rule pairs subscripts with codes, so that the induction reaches them
    have hcodes := lowerAll_of_forall (List.forall₂_iff_zip.mpr ⟨hlength, fun hp => ih _ hp⟩)
    rw [Expr.lower, Scope.checkSubscripts_eq_ok_iff (u := ()).mpr hrank, hcodes]
    rfl
  | neg _ ih | decimal _ ih =>
    rw [Expr.lower, ih]
    rfl
  | concat _ _ ihl ihr | index _ _ ihl ihr | mod _ _ ihl ihr =>
    rw [Expr.lower, ihl, ihr]
    rfl
  | @binary op _ _ _ _ _ hop _ _ ihl ihr =>
    cases op with
    | concat => exact absurd rfl hop
    | _ =>
      rw [Expr.lower, ihl, ihr]
      · rfl
      · exact hop
  | substr _ _ ihs ihstart =>
    rw [Expr.lower_substr_two, ihs, Expr.lowCode_eq_ok_iff.mpr ⟨_, ihstart, rfl⟩]
    rfl
  | substrLength _ _ _ ihs ihstart ihlength =>
    rw [Expr.lower_substr_more, ihs, Expr.lowCode_eq_ok_iff.mpr ⟨_, ihstart, rfl⟩]
    show ((_ >>= fun high => pure _ : Except Fault Python.Expr)) = _
    rw [Expr.highCode_eq_ok_iff.mpr ⟨_, ihlength, rfl⟩]
    rfl

/-- An expression has the code that the rules give, and no other. -/
theorem Expr.lower_eq_ok_iff {e : Expr} {code : Python.Expr} :
    e.lower scope = .ok code ↔ e.HasCode scope code :=
  ⟨e.hasCode_of_lower, HasCode.lower_eq⟩

end

/-! ## Statements -/

/-- The code for a condition. -/
inductive Condition.HasCode (scope : Scope) : Condition → Python.Comparison → Prop where
  | intro {left right : Expr} {op : Relation} {loc : Location} {l r : Python.Expr} :
      left.HasCode scope l → right.HasCode scope r →
      HasCode scope ⟨left, op, right, loc⟩ ⟨l, op.lower, r⟩

/-- What is stored for a value: one that may be a fraction is cut where it goes into an integer
variable. -/
def storedCode (scope : Scope) (target : Reference) (value : Expr) (code : Python.Expr) :
    Python.Expr :=
  if scope.kindOf target.name = .integer ∧ value.valueKind scope = .decimal then .call .int [code]
  else code

/-- The statement that reads a variable from the input. -/
def getCode (target : Reference) (code : Python.Expr) : Python.Stmt :=
  .assign code (.call .get [.str target.name])

/-- What is computed ahead of a loop for a value, and what stands for the value in the loop. -/
inductive Expr.HasHoist (scope : Scope) (role : String) :
    Nat → Expr → List Python.Stmt → Python.Expr → Nat → Prop where
  | literal {n : Nat} {e : Expr} {code : Python.Expr} :
      e.literal?.isSome → e.HasCode scope code → HasHoist scope role n e [] code n
  | stored {n : Nat} {e : Expr} {code : Python.Expr} :
      e.literal? = none → e.HasCode scope code →
      HasHoist scope role n e [.assign (.name (temporaryName role (n + 1))) code]
        (.name (temporaryName role (n + 1))) (n + 1)

/-- What is computed ahead of a loop for its step, the test of the loop, and what ends each
round. -/
inductive HasStep (scope : Scope) (var limit : Python.Expr) :
    Nat → Option Expr → List Python.Stmt → Python.Test → Python.Stmt → Nat → Prop where
  | one {n : Nat} :
      HasStep scope var limit n none [] (.holds ⟨var, .le, limit⟩) (.update var .add (.int 1)) n
  | up {n : Nat} {k : Int} {e : Expr} :
      e.literal? = some k → 0 ≤ k →
      HasStep scope var limit n (some e) [] (.holds ⟨var, .le, limit⟩) (.update var .add (.int k)) n
  | down {n : Nat} {k : Int} {e : Expr} :
      e.literal? = some k → k < 0 →
      HasStep scope var limit n (some e) [] (.holds ⟨var, .ge, limit⟩)
        (.update var .sub (.int k.natAbs)) n
  | computed {n m : Nat} {e : Expr} {ahead : List Python.Stmt} {code : Python.Expr} :
      e.literal? = none → e.HasHoist scope "by" n ahead code m →
      HasStep scope var limit n (some e) ahead
        (.choice ⟨var, .le, limit⟩ ⟨code, .ge, .int 0⟩ ⟨var, .ge, limit⟩) (.update var .add code) m

mutual

/-- The code for a statement. -/
inductive Stmt.HasCode (scope : Scope) : Nat → Stmt → List Python.Stmt → Nat → Prop where
  | assign {n : Nat} {target : Reference} {value : Expr} {loc : Location} {t v : Python.Expr} :
      target.toExpr.HasCode scope t → value.HasCode scope v →
      Stmt.HasCode scope n (.assign target value loc)
        [.assign t (storedCode scope target value v)] n
  | ifElse {n m k : Nat} {c : Condition} {yes no : List Stmt} {loc : Location}
      {test : Python.Comparison} {ys ns : List Python.Stmt} :
      c.HasCode scope test → HasCodes scope n yes ys m → HasCodes scope m no ns k →
      Stmt.HasCode scope n (.ifElse c yes no loc)
        [.branch (.arm (.holds test) ys (elseArms no ns))] k
  | doWhile {n m : Nat} {c : Condition} {body : List Stmt} {loc : Location}
      {test : Python.Comparison} {bs : List Python.Stmt} :
      c.HasCode scope test → HasCodes scope n body bs m →
      Stmt.HasCode scope n (.doWhile c body loc) [.loop (.holds test) bs] m
  | doLoop {n m k j : Nat} {var : Reference} {start limit : Expr} {step : Option Expr}
      {body : List Stmt} {loc : Location} {v s l : Python.Expr} {test : Python.Test}
      {advance : Python.Stmt} {ahead ahead' bs : List Python.Stmt} :
      var.toExpr.HasCode scope v → start.HasCode scope s →
      limit.HasHoist scope "to" n ahead l m → HasStep scope v l m step ahead' test advance k →
      HasCodes scope k body bs j →
      Stmt.HasCode scope n (.doLoop var start limit step body loc)
        (.assign v s :: ahead ++ ahead' ++ [.loop test (bs ++ [advance])]) j
  | select {n m : Nat} {subject : Expr} {branches : Branches} {loc : Location} {s : Python.Expr}
      {arms : Python.Arms} :
      subject.HasCode scope s → Branches.HasCode scope s n branches arms m →
      Stmt.HasCode scope n (.select subject branches loc) [.branch arms] m
  | put {n : Nat} {items : List Expr} {loc : Location} {codes : List Python.Expr} :
      List.Forall₂ (Expr.HasCode scope) items codes →
      Stmt.HasCode scope n (.put items loc) [.run (.call .print codes)] n
  | get {n : Nat} {targets : List Reference} {loc : Location} {codes : List Python.Expr} :
      List.Forall₂ (fun r c => r.toExpr.HasCode scope c) targets codes →
      Stmt.HasCode scope n (.get targets loc) (List.zipWith getCode targets codes) n
  | openFile {n : Nat} {file : String} {mode : FileMode} {loc : Location} :
      Stmt.HasCode scope n (.openFile file mode loc)
        [.run (.call .openFile [.str file, mode.lower])] n
  | read {n : Nat} {file : String} {target : Reference} {loc : Location} {t : Python.Expr} :
      target.toExpr.HasCode scope t →
      Stmt.HasCode scope n (.read file target loc) [.assign t (.call .read [.str file])] n
  | write {n : Nat} {file : String} {source : Reference} {loc : Location} {t : Python.Expr} :
      source.toExpr.HasCode scope t →
      Stmt.HasCode scope n (.write file source loc) [.run (.call .write [.str file, t])] n
  | closeFile {n : Nat} {file : String} {loc : Location} :
      Stmt.HasCode scope n (.closeFile file loc) [.run (.call .close [.str file])] n
  | query {n : Nat} {sql : String} {target : Reference} {loc : Location} {t : Python.Expr} :
      target.toExpr.HasCode scope t →
      Stmt.HasCode scope n (.query sql target loc) [.assign t (.call .sql [.str sql])] n

/-- The code for statements in a row. -/
inductive HasCodes (scope : Scope) : Nat → List Stmt → List Python.Stmt → Nat → Prop where
  | nil {n : Nat} : HasCodes scope n [] [] n
  | cons {n m k : Nat} {s : Stmt} {ss : List Stmt} {bs cs : List Python.Stmt} :
      Stmt.HasCode scope n s bs m → HasCodes scope m ss cs k →
      HasCodes scope n (s :: ss) (bs ++ cs) k

/-- The code for the branches of a `SELECT` whose subject has the given code. -/
inductive Branches.HasCode (scope : Scope) :
    Python.Expr → Nat → Branches → Python.Arms → Nat → Prop where
  | done {subject : Python.Expr} {n : Nat} : Branches.HasCode scope subject n .done .done n
  | other {subject : Python.Expr} {n m : Nat} {body : List Stmt} {bs : List Python.Stmt} :
      HasCodes scope n body bs m →
      Branches.HasCode scope subject n (.other body) (.otherwise bs) m
  | when {subject : Python.Expr} {n m k : Nat} {values : List Expr} {body : List Stmt}
      {loc : Location} {rest : Branches} {codes : List Python.Expr} {bs : List Python.Stmt}
      {arms : Python.Arms} :
      List.Forall₂ (Expr.HasCode scope) values codes → HasCodes scope n body bs m →
      Branches.HasCode scope subject m rest arms k →
      Branches.HasCode scope subject n (.when values body loc rest)
        (.arm (whenTest subject codes) bs arms) k

end

section

variable {scope : Scope} {n m : Nat}

theorem Reference.hasCode_of_lower {r : Reference} {code : Python.Expr}
    (h : r.lower scope = .ok code) : r.toExpr.HasCode scope code := Expr.lower_eq_ok_iff.mp h

theorem Condition.hasCode_of_lower {c : Condition} {test : Python.Comparison}
    (h : c.lower scope = .ok test) : c.HasCode scope test := by
  simp only [Condition.lower, bind_eq_ok_iff, Expr.lower_eq_ok_iff] at h
  obtain ⟨l, hl, r, hr, htest⟩ := h
  injection htest with htest
  exact htest ▸ .intro hl hr

/-- The code of an assignment stores the value's code into the target's. -/
theorem lowerAssign_hasCode {target : Reference} {value : Expr} {code : Python.Stmt}
    (h : lowerAssign scope target value = .ok code) :
    ∃ t v, target.toExpr.HasCode scope t ∧ value.HasCode scope v ∧
      code = .assign t (storedCode scope target value v) := by
  simp only [lowerAssign, bind_eq_ok_iff] at h
  obtain ⟨t, ht, v, hv, hcode⟩ := h
  refine ⟨t, v, Reference.hasCode_of_lower ht, Expr.lower_eq_ok_iff.mp hv, ?_⟩
  unfold storedCode
  by_cases hcut : scope.kindOf target.name = .integer ∧ value.valueKind scope = .decimal
  · rw [if_pos hcut] at hcode ⊢
    injection hcode with hcode
    exact hcode.symm
  · rw [if_neg hcut] at hcode ⊢
    injection hcode with hcode
    exact hcode.symm

/-- `GET` is one assignment for each target. -/
theorem lowerGet_hasCode {targets : List Reference} {code : List Python.Stmt}
    (h : targets.mapM (lowerGet scope) = .ok code) :
    ∃ codes, List.Forall₂ (fun r c => r.toExpr.HasCode scope c) targets codes ∧
      code = List.zipWith getCode targets codes := by
  induction targets generalizing code with
  | nil =>
    injection h with hcode
    exact ⟨[], .nil, hcode.symm⟩
  | cons r rs ih =>
    simp only [List.mapM_cons, lowerGet, bind_eq_ok_iff] at h
    obtain ⟨_, ⟨t, ht, hc⟩, cs, hcs, hcode⟩ := h
    injection hc with hc
    injection hcode with hcode
    obtain ⟨codes, hcodes, rfl⟩ := ih hcs
    refine ⟨t :: codes, .cons (Reference.hasCode_of_lower ht) hcodes, ?_⟩
    -- each target has its own statement, in the order of the list
    rw [← hcode, ← hc, List.zipWith_cons_cons, getCode]

/-- An expression is put in a temporary with the next number, or stands where it is. -/
theorem Expr.hasHoist_of_hoist {e : Expr} {role : String} {ahead : List Python.Stmt}
    {code : Python.Expr} (h : e.hoist scope role n = .ok ((ahead, code), m)) :
    e.HasHoist scope role n ahead code m := by
  obtain ⟨value, hvalue, h⟩ := Lowering.lift_bind_eq_ok_iff.mp h
  rw [Expr.lower_eq_ok_iff] at hvalue
  -- a literal is never stored
  by_cases hliteral : e.literal?.isSome
  · rw [if_pos hliteral] at h
    obtain ⟨⟨⟩, rfl⟩ := Lowering.pure_eq_ok_iff.mp h
    exact .literal hliteral hvalue
  · rw [if_neg hliteral] at h
    obtain ⟨⟨⟩, rfl⟩ : (ahead, code) = ([.assign (.name (temporaryName role (n + 1))) value],
        .name (temporaryName role (n + 1))) ∧ m = n + 1 := Lowering.pure_eq_ok_iff.mp h
    exact .stored (by simpa using hliteral) hvalue

/-- The form of a loop is decided by what its step is: absent, a literal, or anything else. -/
theorem hasStep_of_lowerStep {var limit : Python.Expr} {step : Option Expr}
    {ahead : List Python.Stmt} {test : Python.Test} {advance : Python.Stmt}
    (h : lowerStep scope var limit step n = .ok ((ahead, test, advance), m)) :
    HasStep scope var limit n step ahead test advance m := by
  cases step with
  | none =>
    obtain ⟨⟨⟩, rfl⟩ := Lowering.pure_eq_ok_iff.mp h
    exact .one
  | some step =>
    rw [lowerStep] at h
    -- the sign of a literal is known, which decides the comparison
    cases hliteral : step.literal? with
    | some k =>
      simp only [hliteral] at h
      by_cases hneg : k < 0
      · rw [if_pos hneg] at h
        obtain ⟨⟨⟩, rfl⟩ := Lowering.pure_eq_ok_iff.mp h
        exact .down hliteral hneg
      · rw [if_neg hneg] at h
        obtain ⟨⟨⟩, rfl⟩ := Lowering.pure_eq_ok_iff.mp h
        exact .up hliteral (Int.not_lt.mp hneg)
    | none =>
      simp only [hliteral] at h
      obtain ⟨⟨setup, by_⟩, k, hhoist, h⟩ := Lowering.bind_eq_ok_iff.mp h
      obtain ⟨⟨⟩, rfl⟩ := Lowering.pure_eq_ok_iff.mp h
      exact .computed hliteral (Expr.hasHoist_of_hoist hhoist)

mutual

/-- When there is code for a statement, it follows the rules. -/
theorem Stmt.hasCode_of_lower (s : Stmt) {n m : Nat} {code : List Python.Stmt}
    (h : s.lower scope n = .ok (code, m)) : s.HasCode scope n code m := by
  match s with
  | .assign target value _ =>
    obtain ⟨c, hc, h⟩ := Lowering.lift_bind_eq_ok_iff.mp h
    obtain ⟨rfl, rfl⟩ := Lowering.pure_eq_ok_iff.mp h
    obtain ⟨t, v, ht, hv, rfl⟩ := lowerAssign_hasCode hc
    exact .assign ht hv
  | .ifElse c yes no _ =>
    obtain ⟨test, htest, h⟩ := Lowering.lift_bind_eq_ok_iff.mp h
    simp only [Lowering.bind_eq_ok_iff] at h
    obtain ⟨ys, k, hys, ns, j, hns, h⟩ := h
    obtain ⟨rfl, rfl⟩ := Lowering.pure_eq_ok_iff.mp h
    exact .ifElse (Condition.hasCode_of_lower htest) (hasCodes_of_lowerBlock yes hys)
      (hasCodes_of_lowerBlock no hns)
  | .doWhile c body _ =>
    obtain ⟨test, htest, h⟩ := Lowering.lift_bind_eq_ok_iff.mp h
    obtain ⟨bs, k, hbs, h⟩ := Lowering.bind_eq_ok_iff.mp h
    obtain ⟨rfl, rfl⟩ := Lowering.pure_eq_ok_iff.mp h
    exact .doWhile (Condition.hasCode_of_lower htest) (hasCodes_of_lowerBlock body hbs)
  | .doLoop var start limit step body _ =>
    simp only [Stmt.lower, Lowering.lift_bind_eq_ok_iff] at h
    obtain ⟨v, hv, s, hs, h⟩ := h
    -- the limit takes its number before the step does, and the body counts on from there
    obtain ⟨⟨ahead, l⟩, k, hhoist, h⟩ := Lowering.bind_eq_ok_iff.mp h
    obtain ⟨⟨ahead', test, advance⟩, i, hround, h⟩ := Lowering.bind_eq_ok_iff.mp h
    obtain ⟨bs, j, hbs, h⟩ := Lowering.bind_eq_ok_iff.mp h
    obtain ⟨rfl, rfl⟩ := Lowering.pure_eq_ok_iff.mp h
    exact .doLoop (Reference.hasCode_of_lower hv) (Expr.lower_eq_ok_iff.mp hs)
      (Expr.hasHoist_of_hoist hhoist) (hasStep_of_lowerStep hround)
      (hasCodes_of_lowerBlock body hbs)
  | .select subject branches _ =>
    obtain ⟨s, hs, h⟩ := Lowering.lift_bind_eq_ok_iff.mp h
    obtain ⟨arms, k, harms, h⟩ := Lowering.bind_eq_ok_iff.mp h
    obtain ⟨rfl, rfl⟩ := Lowering.pure_eq_ok_iff.mp h
    exact .select (Expr.lower_eq_ok_iff.mp hs) (branches.hasCode_of_lower harms)
  | .put items _ =>
    obtain ⟨codes, hcodes, h⟩ := Lowering.lift_bind_eq_ok_iff.mp h
    obtain ⟨rfl, rfl⟩ := Lowering.pure_eq_ok_iff.mp h
    exact .put (hasCode_of_lowerAll items hcodes)
  | .get targets _ =>
    obtain ⟨hcode, rfl⟩ := Lowering.lift_eq_ok_iff.mp h
    obtain ⟨codes, hcodes, rfl⟩ := lowerGet_hasCode hcode
    exact .get hcodes
  | .openFile file mode _ =>
    obtain ⟨rfl, rfl⟩ := Lowering.pure_eq_ok_iff.mp h
    exact .openFile
  | .read file target _ =>
    obtain ⟨t, ht, h⟩ := Lowering.lift_bind_eq_ok_iff.mp h
    obtain ⟨rfl, rfl⟩ := Lowering.pure_eq_ok_iff.mp h
    exact .read (Reference.hasCode_of_lower ht)
  | .write file source _ =>
    obtain ⟨t, ht, h⟩ := Lowering.lift_bind_eq_ok_iff.mp h
    obtain ⟨rfl, rfl⟩ := Lowering.pure_eq_ok_iff.mp h
    exact .write (Reference.hasCode_of_lower ht)
  | .closeFile file _ =>
    obtain ⟨rfl, rfl⟩ := Lowering.pure_eq_ok_iff.mp h
    exact .closeFile
  | .query sql target _ =>
    obtain ⟨t, ht, h⟩ := Lowering.lift_bind_eq_ok_iff.mp h
    obtain ⟨rfl, rfl⟩ := Lowering.pure_eq_ok_iff.mp h
    exact .query (Reference.hasCode_of_lower ht)

/-- The count goes on from statement to statement. -/
theorem hasCodes_of_lowerBlock (ss : List Stmt) {n m : Nat} {code : List Python.Stmt}
    (h : lowerBlock scope ss n = .ok (code, m)) : HasCodes scope n ss code m := by
  match ss with
  | [] =>
    obtain ⟨rfl, rfl⟩ := Lowering.pure_eq_ok_iff.mp h
    exact .nil
  | s :: ss =>
    simp only [lowerBlock, Lowering.bind_eq_ok_iff] at h
    obtain ⟨bs, k, hbs, cs, j, hcs, h⟩ := h
    obtain ⟨rfl, rfl⟩ := Lowering.pure_eq_ok_iff.mp h
    exact .cons (s.hasCode_of_lower hbs) (hasCodes_of_lowerBlock ss hcs)

theorem Branches.hasCode_of_lower (b : Branches) {subject : Python.Expr} {n m : Nat}
    {arms : Python.Arms} (h : b.lower scope subject n = .ok (arms, m)) :
    b.HasCode scope subject n arms m := by
  match b with
  | .done =>
    obtain ⟨rfl, rfl⟩ := Lowering.pure_eq_ok_iff.mp h
    exact .done
  | .other body =>
    simp only [Branches.lower, Lowering.bind_eq_ok_iff] at h
    obtain ⟨bs, k, hbs, h⟩ := h
    obtain ⟨rfl, rfl⟩ := Lowering.pure_eq_ok_iff.mp h
    exact .other (hasCodes_of_lowerBlock body hbs)
  | .when values body _ rest =>
    -- the values are made before the body, and the body before the other branches
    obtain ⟨codes, hcodes, h⟩ := Lowering.lift_bind_eq_ok_iff.mp h
    simp only [Lowering.bind_eq_ok_iff] at h
    obtain ⟨bs, k, hbs, arms, j, harms, h⟩ := h
    obtain ⟨rfl, rfl⟩ := Lowering.pure_eq_ok_iff.mp h
    exact .when (hasCode_of_lowerAll values hcodes) (hasCodes_of_lowerBlock body hbs)
      (rest.hasCode_of_lower harms)

end

end

/-! ## Programs -/

/-- The procedure for a program begins with the first values of its variables, and its statements
have the code behind them. -/
theorem Program.hasCodes_of_lower {p : Program} {code : Python.Procedure}
    (h : p.lower = .ok code) :
    ∃ scope body n, Scope.ofDeclarations p.declarations = .ok scope ∧
      HasCodes scope 0 p.statements body n ∧
      code = ⟨safeName p.name, scope.declared.map Variable.initialise ++ body⟩ := by
  obtain ⟨scope, hscope, h⟩ := bind_eq_ok_iff.mp h
  obtain ⟨⟨body, n⟩, hbody, hcode⟩ := bind_eq_ok_iff.mp h
  injection hcode with hcode
  exact ⟨scope, body, n, hscope, hasCodes_of_lowerBlock p.statements hbody, hcode.symm⟩

end Plic
