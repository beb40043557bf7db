import Plic.Proofs.Lowering.Meaning
import Plic.Proofs.Python.Tags

/-!
# Static kinds are sound

The kind of an expression is told from declarations alone. It is right as long as
the variables hold what their declarations say: whatever the code for the
expression evaluates to, if anything, is of the kind.

What a kind says of a value is left open at first. A `KindSense` is any way to
read kinds as sets of types that the operators respect, and all that the
soundness of kinds needs of it is a finite table of types. The declared types are
one such reading; what can be said of numbers that may have become strings is
another.

Main results:

* `Expr.HasCode.has_tag` — kinds are sound in every sense.
* `Expr.valueKind_sound` — they are sound for what was declared.
-/

namespace Plic

open Python (Env Library Tag TextEvaluates Value safeName)

variable {φ : Type} {scope : Scope}

instance : Fintype ValueKind :=
  ⟨{.integer, .decimal, .text, .unknown}, fun k => by cases k <;> decide⟩

/-! ## Senses -/

/-- The types that values of each kind may have, in a way that the operators respect. -/
structure KindSense where
  has : ValueKind → Tag → Bool
  int : has .integer .int
  str : has .text .str
  /-- A number keeps its type when its sign is changed. -/
  negated : ∀ k t, has k t → t = .int ∨ t = .float → has k.negated t
  arithmetic : ∀ op j k s t, op ≠ .div → has j s → has k t →
    ∀ r ∈ Python.Operator.tag op s t, has (.arithmetic j k) r
  quotient : ∀ j k s t, has j s → has k t →
    ∀ r ∈ Python.Operator.tag .div s t, has (.quotient j k) r

/-- The types that the declarations stand for. -/
def KindSense.declared : KindSense where
  has k t := match k with
    | .integer => t = .int
    | .decimal => t = .int ∨ t = .float
    | .text => t = .str
    | .unknown => true
  int := rfl
  str := rfl
  negated := by decide
  arithmetic := by decide +kernel
  quotient := by decide +kernel

section

variable {lib : Library φ} {env : Env φ} (sense : KindSense)

/-- The variable holds nothing but what its kind allows, in every slot if it is an array. -/
def Scope.Sound (scope : Scope) (env : Env φ) (name : String) : Prop :=
  ∀ v, env.value (safeName name) = some v →
    v.Filled (fun x => sense.has (scope.kindOf name) x.tag) (scope.rank name)

variable {sense}

/-- Whatever the code for an expression evaluates to is of the kind of the expression. The kinds of
the subscripts of an element do not count, only that of the array. -/
theorem Expr.HasCode.has_tag {e : Expr} {code : Python.Expr} (h : e.HasCode scope code)
    (hsound : ∀ r ∈ e.references, scope.Sound sense env r.name) {v : Value φ}
    (hv : code.eval lib env = .ok v) : sense.has (e.valueKind scope) v.tag := by
  -- the variables of an operand are variables of the whole
  have hoperand : ∀ {e o : Expr}, (∀ r ∈ e.references, scope.Sound sense env r.name) →
      o ∈ e.operands → ∀ r ∈ o.references, scope.Sound sense env r.name :=
    fun hsound ho r hr => hsound r (Expr.references_of_operand ho hr)
  have htext : ∀ {code : Python.Expr} {v : Value φ}, code.YieldsText lib env →
      code.eval lib env = .ok v → sense.has .text v.tag := by
    intro code v hyields hv
    obtain ⟨s, rfl⟩ := hyields v hv
    exact sense.str
  induction h generalizing v with
  | number =>
    injection hv with hv
    rw [← hv]
    exact sense.int
  | text => exact htext (Python.Expr.yieldsText_str _) hv
  | @var name subscripts loc codes hrank hlength _ _ =>
    have hname : scope.Sound sense env name :=
      hsound ⟨name, subscripts, loc⟩ (Expr.mem_references.mpr (Expr.mem_parts_self _))
    let OfKind (x : Value φ) : Prop := sense.has (scope.kindOf name) x.tag
    have hfilled : ∀ u, (Python.Expr.name (safeName name)).eval lib env = .ok u →
        u.Filled OfKind codes.length := by
      intro u hu
      rw [Python.Expr.eval, Python.orFail_eq_ok_iff] at hu
      rw [← hlength, ← hrank]
      exact hname u hu
    exact Value.Filled.eval_foldl_index hfilled hv
  | neg _ ih =>
    simp only [Python.Expr.eval, bind_eq_ok_iff] at hv
    obtain ⟨u, hu, hv⟩ := hv
    obtain ⟨hnumber, htag⟩ := Library.tag_of_negate hv
    have hkind := ih (hoperand hsound (by simp [Expr.operands])) hu
    rw [htag]
    exact sense.negated _ _ hkind hnumber
  | concat hl hr _ _ =>
    exact htext (Python.Expr.yieldsText_add hl.yieldsText_asText hr.yieldsText_asText) hv
  | @binary op l r _ a b hop hl hr ihl ihr =>
    simp only [Python.Expr.eval, bind_eq_ok_iff] at hv
    obtain ⟨x, hx, y, hy, hv⟩ := hv
    have htag := Library.tag_of_operate hv
    have hkind := ihl (hoperand hsound (by simp [Expr.operands])) hx
    have hkind' := ihr (hoperand hsound (by simp [Expr.operands])) hy
    cases op with
    | concat => exact absurd rfl hop
    | div => exact sense.quotient _ _ _ _ hkind hkind' _ htag
    | _ => exact sense.arithmetic _ _ _ _ _ (by decide) hkind hkind' _ htag
  | substr hs _ _ _ => exact htext (Python.Expr.yieldsText_sliceFrom hs.yieldsText_asText _) hv
  | substrLength hs _ _ _ _ _ =>
    exact htext (Python.Expr.yieldsText_slice hs.yieldsText_asText _ _) hv
  | index hs hpart _ _ =>
    -- a place in a text and 1 make an integer
    rw [Python.Expr.eval] at hv
    simp only [bind_eq_ok_iff] at hv
    obtain ⟨x, hx, y, hy, hv⟩ := hv
    have hplace : x.tag = .int := Python.Expr.tag_of_find hx
    injection hy with hy
    have htag := Library.tag_of_operate hv
    rw [hplace, ← hy] at htag
    obtain htag : Tag.int = v.tag := Option.some.inj htag
    rw [← htag]
    exact sense.int
  | decimal _ _ => exact htext (Python.Expr.yieldsText_call (.inl rfl) _) hv
  | mod _ _ ihl ihr =>
    simp only [Python.Expr.eval, bind_eq_ok_iff] at hv
    obtain ⟨x, hx, y, hy, hv⟩ := hv
    have hkind := ihl (hoperand hsound (by simp [Expr.operands])) hx
    have hkind' := ihr (hoperand hsound (by simp [Expr.operands])) hy
    exact sense.arithmetic _ _ _ _ _ (by decide) hkind hkind' _ (Library.tag_of_operate hv)
  | endfile =>
    injection hv with hv
    rw [← hv]
    exact sense.int

end

/-! ## What was declared -/

/-- The values of a kind. -/
def Python.Value.OfKind (v : Value φ) : ValueKind → Prop
  | .integer => ∃ n, v = .int n
  | .decimal => (∃ n, v = .int n) ∨ ∃ x, v = .float x
  | .text => ∃ s, v = .str s
  | .unknown => True

/-- In the sense of declarations, a value has the kind that it is of. -/
theorem KindSense.has_declared_iff {v : Value φ} {k : ValueKind} :
    KindSense.declared.has k v.tag ↔ v.OfKind k := by
  cases k <;> cases v <;> simp [KindSense.declared, Value.OfKind, Value.tag]

/-- Every declared variable that is bound holds a value of the kind of its type, or lists of such
values as its shape asks for. Other names may stand for anything. -/
def Scope.Holds (scope : Scope) (env : Env φ) : Prop :=
  ∀ name var, scope.find? name = some var →
    ∀ v, env.value (safeName name) = some v →
      v.Filled (fun x => x.OfKind (.ofType var.type)) var.shape.rank

/-- Variables that hold what was declared are sound in this sense. -/
theorem Scope.Holds.sound {env : Env φ} (h : scope.Holds env) (name : String) :
    scope.Sound KindSense.declared env name := by
  intro v hv
  cases hfind : scope.find? name with
  | none =>
    rw [Scope.rank, hfind, Scope.kindOf, hfind]
    exact KindSense.has_declared_iff.mpr trivial
  | some var =>
    rw [Scope.rank, hfind, Scope.kindOf, hfind]
    exact (h name var hfind v hv).mono fun x hx => KindSense.has_declared_iff.mpr hx

/-- **Static kinds are sound.** If all declared variables hold what was declared, then whatever the
code for an expression evaluates to is of the kind of the expression: an integer, an integer or a
fraction, or a string. What the text of the code is read as by Python gives nothing else. -/
theorem Expr.valueKind_sound (lib : Library φ) {e : Expr} {code : Python.Expr}
    (hcode : e.lower scope = .ok code) {env : Env φ} (hholds : scope.Holds env) :
    (∀ v, code.eval lib env = .ok v → v.OfKind (e.valueKind scope)) ∧
      (e.Worded → ∀ v, TextEvaluates lib env code.render v → v.OfKind (e.valueKind scope)) := by
  have h := e.hasCode_of_lower hcode
  have hkind : ∀ v, code.eval lib env = .ok v → v.OfKind (e.valueKind scope) := fun v hv =>
    KindSense.has_declared_iff.mp (h.has_tag (fun r _ => hholds.sound r.name) hv)
  exact ⟨hkind, fun hworded v hv => hkind v ((h.plain hworded).textEvaluates_iff.mp hv)⟩

/-- Fractions without an error of rounding. -/
def Python.Library.exact : Library ℚ where
  ofInt n := some n
  neg x := -x
  add x y := x + y
  sub x y := x - y
  mul x y := x * y
  div x y := if y = 0 then none else some (x / y)
  mod x y := if y = 0 then none else some (x - y * ⌊x / y⌋)
  quotient m n := some (m / n)
  truncate x := some (x.num.tdiv x.den)
  floatText _ := "..."
  listText _ := "[...]"
  parse _ := none
  format _ _ := none

/-- The declarations `DCL i FIXED BINARY, a(2) FIXED BINARY`. -/
def Scope.counters : Scope :=
  ⟨[⟨"i", .fixedBinary none, .scalar, ⟨1, 5⟩⟩, ⟨"a", .fixedBinary none, .vector 2, ⟨1, 8⟩⟩]⟩

/-- A state in which 1 is in `i` and 7 in `a(i)`. -/
def Python.Env.counters : Env ℚ where
  value id :=
    if id = "i" then some (.int 1)
    else if id = "a" then some (.list [.int 0, .int 7, .int 0, .int 0])
    else none
  atEnd _ := false

theorem Scope.holds_counters : Scope.counters.Holds Env.counters := by
  intro name var hfind v hv
  have hmem : var ∈ Scope.counters.declared := List.mem_of_find?_eq_some hfind
  obtain rfl : var.name = name := by simpa using List.find?_some hfind
  rcases List.mem_pair.mp hmem with rfl | rfl
  · obtain rfl : Value.int 1 = v := Option.some.inj hv
    exact ⟨1, rfl⟩
  · obtain rfl : Value.list [.int 0, .int 7, .int 0, .int 0] = v := Option.some.inj hv
    intro x hx
    simp only [List.mem_cons, List.not_mem_nil, or_false] at hx
    rcases hx with rfl | rfl | rfl | rfl <;> exact ⟨_, rfl⟩

/-- The expression `MOD(a(i), 4) / 2`. -/
def Expr.halfRemainder : Expr :=
  .binary .div (.call .mod [.var "a" [.var "i" [] ⟨1, 7⟩] ⟨1, 5⟩, .number 4 ⟨1, 11⟩] ⟨1, 1⟩)
    (.number 2 ⟨1, 16⟩) ⟨1, 14⟩

/-- `MOD(a(i), 4) / 2` is a fraction, as its kind says. -/
theorem Expr.valueKind_sound_quotient : ∃ code v,
    Expr.halfRemainder.lower .counters = .ok code ∧ code.eval .exact .counters = .ok v ∧
    v = .float (3 / 2) ∧ Expr.halfRemainder.valueKind .counters = .decimal ∧ v.OfKind .decimal := by
  obtain ⟨code, hcode, hv⟩ : ∃ code, Expr.halfRemainder.lower .counters = .ok code ∧
      code.eval .exact .counters = .ok (.float (3 / 2)) := ⟨_, rfl, rfl⟩
  have hsound := Expr.valueKind_sound .exact hcode Scope.holds_counters
  exact ⟨code, _, hcode, hv, rfl, rfl, hsound.1 _ hv⟩

end Plic
