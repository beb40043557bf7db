import Plic.Python.Name
import Plic.Proofs.Python.Blocks
import Plic.Proofs.Python.Render

/-!
# The text of a line

Nothing that is written for an expression breaks a line: texts are escaped, and
names and numbers have no blanks. A line that begins with a name opens nothing,
since no name is one of the words of the headers.

Main results:

* `Plain.unbroken` — the text of an expression stands on one line.
* `Led.simple` — a text that begins with a name is a line of its own.
-/

namespace Plic.Python

open Layout
open Lexer (isNameStart isNameRest IsWord)

/-! ## Texts without a line break -/

variable {text id : String}

/-- Whether a text breaks a line can be computed. -/
theorem unbroken_of_all
    (h : text.toList.all (fun c => c ≠ '\n' && c ≠ '\r') = true) : Unbroken text := by
  intro c hc
  simpa using List.all_eq_true.mp h c hc

/-- Characters of names do not end lines. -/
theorem isNameRest_ne {c : Char} (h : isNameRest c) : c ≠ '\n' ∧ c ≠ '\r' := by
  refine ⟨?_, ?_⟩ <;>
  · rintro rfl
    exact absurd h (by decide)

theorem isNameRest_of_isWord {cs : List Char} (h : IsWord cs) : ∀ c ∈ cs, isNameRest c := by
  cases cs with
  | nil => exact absurd h id
  | cons c cs =>
    rw [List.forall_mem_cons]
    exact ⟨by rw [isNameRest, h.1, Bool.true_or], h.2⟩

theorem IsName.unbroken (h : IsName id) : Unbroken id :=
  fun c hc => isNameRest_ne (isNameRest_of_isWord h.1 c hc)

theorem isNameRest_of_nat (n : Nat) : ∀ c ∈ (toString n).toList, isNameRest c := by
  intro c hc
  rw [Nat.toString_eq_ofList_toDigits, String.toList_ofList] at hc
  have hdigit : c.isDigit := Nat.isDigit_of_mem_toDigits (by decide) (by decide) hc
  rw [isNameRest, hdigit, Bool.or_true]

theorem unbroken_nat (n : Nat) : Unbroken (toString n) :=
  fun c hc => isNameRest_ne (isNameRest_of_nat n c hc)

/-- A line break is spelled with a letter. -/
theorem escape_unbroken (c : Char) : ∀ d ∈ escape c, d ≠ '\n' ∧ d ≠ '\r' := by
  unfold escape
  split_ifs with _ _ hfeed hreturn _
  -- the last case, where the character stands for itself
  case neg => exact List.forall_mem_singleton.mpr ⟨hfeed, hreturn⟩
  all_goals simp

theorem unbroken_quote (text : String) : Unbroken (quote text) := by
  intro c hc
  simp only [quote, String.toList_ofList, List.cons_append, List.mem_cons, List.mem_append,
    List.mem_flatMap, List.not_mem_nil, or_false] at hc
  obtain rfl | ⟨d, -, hescape⟩ | rfl := hc
  · decide
  · exact escape_unbroken d c hescape
  · decide

theorem unbroken_enclose (h : Unbroken text) (needed : Bool) : Unbroken (enclose needed text) := by
  cases needed with
  | false => exact h
  | true => exact ((unbroken_of_all rfl).append h).append (unbroken_of_all rfl)

theorem unbroken_intercalate {ts : List String} (h : ∀ t ∈ ts, Unbroken t) :
    Unbroken (", ".intercalate ts) := by
  induction ts with
  | nil => exact unbroken_of_all rfl
  | cons t ts ih =>
    rw [List.forall_mem_cons] at h
    cases ts with
    | nil => simpa using h.1
    | cons u us =>
      rw [String.intercalate_cons_cons]
      exact (h.1.append (unbroken_of_all rfl)).append (ih h.2)

/-- The texts of a list are those of its expressions. -/
theorem renderAll_eq_map (es : List Expr) : renderAll es = es.map Expr.render := by
  induction es with
  | nil => rfl
  | cons e es ih => rw [renderAll, List.map_cons, ih]

theorem unbroken_renderAll {es : List Expr} (h : ∀ e ∈ es, Unbroken e.render) :
    Unbroken (", ".intercalate (renderAll es)) := by
  rw [renderAll_eq_map]
  exact unbroken_intercalate (List.forall_mem_map.mpr h)

theorem unbroken_operator (op : Operator) : Unbroken op.text := by
  cases op <;> exact unbroken_of_all rfl

/-- The text of an expression stands on one line, by induction on the expression. -/
theorem Plain.unbroken {e : Expr} (h : Plain e) : Unbroken e.render := by
  induction h with
  | int n =>
    rw [render_int]
    split
    · exact (unbroken_of_all rfl).append (unbroken_nat _)
    · exact unbroken_nat _
  | str s => exact unbroken_quote s
  | name hid => exact hid.unbroken
  | neg _ ih => exact (unbroken_of_all rfl).append (unbroken_enclose ih _)
  | @binary op l r _ _ ihl ihr =>
    exact ((((unbroken_enclose ihl _).append (unbroken_of_all rfl)).append
      (unbroken_operator op)).append (unbroken_of_all rfl)).append (unbroken_enclose ihr _)
  | index _ _ _ ihb ihi =>
    exact (((unbroken_enclose ihb _).append (unbroken_of_all rfl)).append ihi).append
      (unbroken_of_all rfl)
  | sliceFrom _ _ _ ihb ihlo =>
    exact (((unbroken_enclose ihb _).append (unbroken_of_all rfl)).append ihlo).append
      (unbroken_of_all rfl)
  | slice _ _ _ _ ihb ihlo ihhi =>
    exact (((((unbroken_enclose ihb _).append (unbroken_of_all rfl)).append ihlo).append
      (unbroken_of_all rfl)).append ihhi).append (unbroken_of_all rfl)
  | @call f args _ ih =>
    exact (((isName_function f).unbroken.append (unbroken_of_all rfl)).append
      (unbroken_renderAll ih)).append (unbroken_of_all rfl)
  | find _ _ _ iht ihp =>
    exact (((unbroken_enclose iht _).append (unbroken_of_all rfl)).append ihp).append
      (unbroken_of_all rfl)

theorem unbroken_comparison (c : Comparison) (hl : Unbroken c.left.render)
    (hr : Unbroken c.right.render) : Unbroken c.render := by
  have hop : Unbroken c.op.text := by cases c.op <;> exact unbroken_of_all rfl
  exact (((hl.append (unbroken_of_all rfl)).append hop).append (unbroken_of_all rfl)).append hr

theorem unbroken_oneOf {e : Expr} (he : Unbroken e.render) {es : List Expr}
    (hes : ∀ e ∈ es, Plain e) : Unbroken (Test.oneOf e es).render :=
  ((he.append (unbroken_of_all rfl)).append
    (unbroken_renderAll fun e he => (hes e he).unbroken)).append (unbroken_of_all rfl)

theorem unbroken_choice {yes condition no : Comparison} (hyes : Unbroken yes.render)
    (hcondition : Unbroken condition.render) (hno : Unbroken no.render) :
    Unbroken (Test.choice yes condition no).render :=
  ((((((unbroken_of_all rfl).append hyes).append (unbroken_of_all rfl)).append hcondition).append
    (unbroken_of_all rfl)).append hno).append (unbroken_of_all rfl)

/-! ## Lines that begin with a name -/

/-- The text begins with a name. -/
def Led (text : String) : Prop :=
  ∃ id rest, text = id ++ String.ofList rest ∧ IsName id ∧ ∀ c ∈ rest.head?, isNameRest c = false

theorem IsName.led (h : IsName id) : Led id :=
  ⟨id, [], by simp, h, by simp⟩

/-- A text that begins with a name goes on so, if the name ends where it did. -/
theorem Led.append {a b : String} (h : Led a) (hb : ∀ c ∈ b.toList.head?, isNameRest c = false) :
    Led (a ++ b) := by
  obtain ⟨id, rest, rfl, hid, hrest⟩ := h
  refine ⟨id, rest ++ b.toList, ?_, hid, ?_⟩
  · apply String.toList_inj.mp
    simp
  · cases rest with
    -- what follows the name is `b` itself where `a` is no more than a name
    | nil => exact hb
    | cons c cs => exact hrest

/-- No name is one of the words of the headers. -/
theorem opened_name (h : IsName id) (rest : List Char) :
    opened id rest = some (.simple (id ++ String.ofList rest)) := by
  unfold opened
  split
  case h_6 => rfl
  -- each of the words is a keyword, which a name is not
  all_goals exact absurd (by decide) h.2

/-- No name is a word of the headers, so such a line opens nothing. -/
theorem Led.simple (h : Led text) (hunbroken : Unbroken text) : Simple text := by
  obtain ⟨id, rest, rfl, hid, hrest⟩ := h
  have hall : id.toList.all isNameRest := List.all_eq_true.mpr (isNameRest_of_isWord hid.1)
  refine ⟨⟨hunbroken, ?_⟩, by rw [headOf_append hall hrest, opened_name hid]⟩
  have hword := hid.1
  cases hcs : id.toList with
  | nil => simp [hcs, IsWord] at hword
  | cons c cs =>
    rw [hcs] at hword
    refine ⟨c, cs ++ rest, by simp [hcs], ?_⟩
    rintro rfl
    exact absurd hword.1 (by decide)

/-- A variable that a statement can store into. -/
structure Expr.IsTarget (t : Expr) : Prop where
  unbroken : Unbroken t.render
  led      : Led t.render

theorem Expr.isTarget_name (h : IsName id) : (Expr.name id).IsTarget :=
  ⟨h.unbroken, h.led⟩

theorem isName_temporary {role : String} (h : role.toList.all isNameRest) (n : Nat) :
    IsName (temporaryName role n) := by
  have hlist : (temporaryName role n).toList =
      '_' :: ("pli_".toList ++ role.toList ++ (toString n).toList) := by
    simp [temporaryName]
  refine ⟨?_, ?_⟩
  · rw [hlist]
    refine ⟨by decide, List.forall_mem_append.mpr ⟨List.forall_mem_append.mpr ⟨?_, ?_⟩, ?_⟩⟩
    · exact List.all_eq_true.mp rfl
    · exact List.all_eq_true.mp h
    · exact isNameRest_of_nat n
  · -- no keyword begins with an underscore
    have hkeywords : ∀ k ∈ keywords, k.toList.head? ≠ some '_' := by decide
    intro hkeyword
    exact hkeywords _ hkeyword (by rw [hlist]; rfl)

/-- An element of an array begins as the array does. -/
theorem led_foldl_index {base : Expr} (hbase : Led base.render) (hlevel : base.level = .atom)
    (subscripts : List Expr) : Led (subscripts.foldl .index base).render := by
  induction subscripts generalizing base with
  | nil => exact hbase
  | cons i is ih =>
    -- an element is an atom again, so its base stands without parentheses
    refine ih ?_ rfl
    rw [Expr.render, hlevel, String.append_assoc, String.append_assoc]
    exact hbase.append (by simp; decide)

/-- An assignment begins with its target. -/
theorem legible_assign {t v : Expr} (ht : t.IsTarget) (hv : Unbroken v.render) :
    Stmt.Legible (.assign t v) := by
  refine .assign (Led.simple ?_ ((ht.unbroken.append (unbroken_of_all rfl)).append hv))
  rw [String.append_assoc]
  exact ht.led.append (by simp; decide)

theorem legible_update {t v : Expr} (ht : t.IsTarget) (op : Operator) (hv : Unbroken v.render) :
    Stmt.Legible (.update t op v) := by
  refine .update (Led.simple ?_ ((((ht.unbroken.append (unbroken_of_all rfl)).append
    (unbroken_operator op)).append (unbroken_of_all rfl)).append hv))
  rw [String.append_assoc, String.append_assoc, String.append_assoc]
  exact ht.led.append (by simp; decide)

/-- A call begins with the function's name. -/
theorem legible_call {f : Function} {args : List Expr} (h : ∀ e ∈ args, Plain e) :
    Stmt.Legible (.run (.call f args)) := by
  refine .run (Led.simple ?_ (Plain.call h).unbroken)
  rw [Expr.render, String.append_assoc, String.append_assoc]
  exact (isName_function f).led.append (by simp; decide)

end Plic.Python
