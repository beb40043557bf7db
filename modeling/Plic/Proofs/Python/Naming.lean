import Plic.Proofs.Python.Uses
import Plic.Python.Support

/-!
# Names of different origin differ

A name of the source is written with one more underscore at its end where it is
reserved or has an underscore at either end. So what is written for it never
begins with an underscore without ending in one, while the names that generated
code introduces itself all do: this is what keeps them apart.

Main results:

* `safeName_injective` — different names of the source stay different.
* `safeName_not_mem_reserved` — none of them is a keyword or a built-in function.
* `Origin.name_injective` — names of different origin differ.
-/

namespace Plic.Python

/-! ## Names of the source -/

/-- The name is written with one more underscore. -/
def IsMangled (a : String) : Prop :=
  a ∈ reserved ∨ a.toList.head? = some '_' ∨ a.toList.getLast? = some '_'

instance (a : String) : Decidable (IsMangled a) := inferInstanceAs (Decidable (_ ∨ _ ∨ _))

/-- A name that is mangled has an underscore more. -/
theorem safeName_of_isMangled {a : String} (h : IsMangled a) : safeName a = a ++ "_" := if_pos h

theorem safeName_of_not_isMangled {a : String} (h : ¬ IsMangled a) : safeName a = a := if_neg h

theorem getLast?_append_line (a : String) : (a ++ "_").toList.getLast? = some '_' := by simp

/-- An underscore is added only to names that no other name is mangled into. -/
theorem safeName_injective : Function.Injective safeName := by
  -- a name that is kept does not end as a changed one does
  have hmixed : ∀ {a b : String}, IsMangled a → ¬ IsMangled b → safeName a ≠ safeName b := by
    intro a b ha hb heq
    rw [safeName_of_isMangled ha, safeName_of_not_isMangled hb] at heq
    exact hb (.inr (.inr (heq ▸ getLast?_append_line a)))
  intro a b heq
  by_cases ha : IsMangled a <;> by_cases hb : IsMangled b
  · rw [safeName_of_isMangled ha, safeName_of_isMangled hb] at heq
    have hlist := congrArg String.toList heq
    rw [String.toList_append, String.toList_append] at hlist
    exact String.toList_inj.mp (List.append_cancel_right hlist)
  · exact absurd heq (hmixed ha hb)
  · exact absurd heq.symm (hmixed hb ha)
  · rwa [safeName_of_not_isMangled ha, safeName_of_not_isMangled hb] at heq

/-- No reserved word ends in an underscore, so a mangled one is not reserved. -/
theorem safeName_not_mem_reserved (a : String) : safeName a ∉ reserved := by
  by_cases ha : IsMangled a
  · rw [safeName_of_isMangled ha]
    have hlast : ∀ w ∈ reserved, w.toList.getLast? ≠ some '_' := by decide
    exact fun hmem => hlast _ hmem (getLast?_append_line a)
  · rw [safeName_of_not_isMangled ha]
    exact fun hmem => ha (.inl hmem)

theorem keywords_subset_reserved : keywords ⊆ reserved := by decide

/-- The name begins with an underscore and does not end with one. -/
def IsIntroduced (n : String) : Prop :=
  n.toList.head? = some '_' ∧ n.toList.getLast? ≠ some '_'

instance (n : String) : Decidable (IsIntroduced n) := inferInstanceAs (Decidable (_ ∧ _))

/-- No name of the source is written like one that generated code introduces. -/
theorem not_isIntroduced_safeName (a : String) : ¬ IsIntroduced (safeName a) := by
  rintro ⟨hhead, hlast⟩
  by_cases ha : IsMangled a
  · rw [safeName_of_isMangled ha] at hlast
    exact hlast (getLast?_append_line a)
  · rw [safeName_of_not_isMangled ha] at hhead
    exact ha (.inr (.inl hhead))

/-! ## Names that generated code introduces -/

/-- The names that the support code defines. -/
def supportNames : List String :=
  ["_pli_str", "_pli_get", "_pli_files", "_pli_eof", "_pli_file_error", "_pli_open", "_pli_read",
    "_pli_write", "_pli_close", "_pli_endfile", "_PLI_DB", "_pli_sql"]

/-- All of them begin with an underscore and end without one. -/
theorem isIntroduced_of_mem_supportNames {n : String} (h : n ∈ supportNames) : IsIntroduced n := by
  revert n
  decide

/-- What a temporary stands for. -/
inductive Hoist where
  | limit | step
deriving DecidableEq

/-- The word for what a temporary stands for. -/
def Hoist.text : Hoist → String
  | limit => "to"
  | step => "by"

theorem isDigit_of_mem_nat {n : Nat} {c : Char} (h : c ∈ (toString n).toList) : c.isDigit := by
  rw [Nat.toString_eq_ofList_toDigits, String.toList_ofList] at h
  exact Nat.isDigit_of_mem_toDigits (by decide) (by decide) h

theorem nat_toString_ne_nil (n : Nat) : (toString n).toList ≠ [] := by
  rw [Nat.toString_eq_ofList_toDigits, String.toList_ofList]
  exact Nat.toDigits_ne_nil

/-- Different numbers are written differently. -/
theorem nat_toString_injective {n m : Nat} (h : (toString n).toList = (toString m).toList) :
    n = m := by
  rw [Nat.toString_eq_ofList_toDigits, Nat.toString_eq_ofList_toDigits, String.toList_ofList,
    String.toList_ofList] at h
  have hvalue := congrArg (Nat.ofDigitChars 10 · 0) h
  simpa using hvalue

/-- The characters of a temporary's name: a fixed beginning, its role and its number. -/
theorem toList_temporaryName (role : String) (n : Nat) :
    (temporaryName role n).toList = "_pli_".toList ++ role.toList ++ (toString n).toList := by
  simp [temporaryName]

/-- A temporary ends in its number. -/
theorem exists_last_temporaryName (role : String) (n : Nat) :
    ∃ c, (temporaryName role n).toList.getLast? = some c ∧ c.isDigit := by
  have hne := nat_toString_ne_nil n
  refine ⟨(toString n).toList.getLast hne, ?_, isDigit_of_mem_nat (List.getLast_mem hne)⟩
  rw [toList_temporaryName, List.getLast?_append, List.getLast?_eq_some_getLast hne]
  rfl

/-- It ends in a digit, so it begins with an underscore and does not end with one. -/
theorem isIntroduced_temporaryName (role : String) (n : Nat) :
    IsIntroduced (temporaryName role n) := by
  refine ⟨by rw [toList_temporaryName]; rfl, ?_⟩
  obtain ⟨c, hc, hdigit⟩ := exists_last_temporaryName role n
  rw [hc]
  rintro ⟨⟩
  exact absurd hdigit (by decide)

/-- A role has no digits, so it is known where the number starts. -/
theorem temporaryName_injective {r s : Hoist} {n m : Nat}
    (h : temporaryName r.text n = temporaryName s.text m) : r = s ∧ n = m := by
  have hlist := congrArg String.toList h
  rw [toList_temporaryName, toList_temporaryName, List.append_assoc, List.append_assoc] at hlist
  -- the words for the roles are of one length
  have hlength : r.text.toList.length = s.text.toList.length := by cases r <;> cases s <;> rfl
  obtain ⟨hrole, hnumber⟩ := List.append_inj (List.append_cancel_left hlist) hlength
  refine ⟨?_, nat_toString_injective hnumber⟩
  revert hrole
  cases r <;> cases s <;> decide

/-- Whether a name is written like a temporary. -/
def isTemporary (n : String) : Bool :=
  "_pli_".toList.isPrefixOf n.toList && n.toList.getLast?.any Char.isDigit

theorem isTemporary_temporaryName (role : String) (n : Nat) :
    isTemporary (temporaryName role n) := by
  obtain ⟨c, hc, hdigit⟩ := exists_last_temporaryName role n
  rw [isTemporary, Bool.and_eq_true, hc, toList_temporaryName, List.append_assoc]
  exact ⟨List.isPrefixOf_iff_prefix.mpr (List.prefix_append _ _), hdigit⟩

theorem isTemporary_safeName (a : String) : isTemporary (safeName a) = false := by
  by_contra htemporary
  rw [Bool.not_eq_false, isTemporary, Bool.and_eq_true, List.isPrefixOf_iff_prefix] at htemporary
  obtain ⟨⟨rest, hrest⟩, hdigit⟩ := htemporary
  refine not_isIntroduced_safeName a ⟨by rw [← hrest]; rfl, fun hlast => ?_⟩
  rw [hlast] at hdigit
  exact absurd hdigit (by decide)

/-- The temporaries that are stored into, in order. -/
def storedTemporaries (us : List Use) : List String :=
  (us.filter fun u => u.role = .stored && isTemporary u.name).map (·.name)

/-- Uses that are put together store one after the other. -/
theorem storedTemporaries_append (us vs : List Use) :
    storedTemporaries (us ++ vs) = storedTemporaries us ++ storedTemporaries vs := by
  simp [storedTemporaries]

/-- The temporaries for the given roles, numbered in a row after `n`. -/
def numbered : Nat → List Hoist → List String
  | _, [] => []
  | n, r :: rs => temporaryName r.text (n + 1) :: numbered (n + 1) rs

/-- Numbers go on from one list of roles to the next. -/
theorem numbered_append (n : Nat) (rs ss : List Hoist) :
    numbered n (rs ++ ss) = numbered n rs ++ numbered (n + rs.length) ss := by
  induction rs generalizing n with
  | nil => rfl
  | cons r rs ih =>
    have hlength : n + (r :: rs).length = n + 1 + rs.length := by
      rw [List.length_cons]
      omega
    rw [List.cons_append, numbered, numbered, ih, hlength, List.cons_append]

/-- The numbers are greater than the one to start from. -/
theorem lt_of_mem_numbered {n : Nat} {rs : List Hoist} {w : String} (h : w ∈ numbered n rs) :
    ∃ r k, n < k ∧ w = temporaryName (Hoist.text r) k := by
  induction rs generalizing n with
  | nil => simp [numbered] at h
  | cons r rs ih =>
    rcases List.mem_cons.mp h with rfl | hmem
    · exact ⟨r, n + 1, by omega, rfl⟩
    · obtain ⟨s, k, hlt, rfl⟩ := ih hmem
      exact ⟨s, k, by omega, rfl⟩

theorem nodup_numbered (n : Nat) (rs : List Hoist) : (numbered n rs).Nodup := by
  induction rs generalizing n with
  | nil => exact List.nodup_nil
  | cons r rs ih =>
    rw [numbered, List.nodup_cons]
    refine ⟨fun hmem => ?_, ih (n + 1)⟩
    -- the temporaries that follow have larger numbers
    obtain ⟨s, k, hlt, heq⟩ := lt_of_mem_numbered hmem
    obtain ⟨-, rfl⟩ := temporaryName_injective heq
    omega

/-! ## Origins -/

/-- Where a name of generated code comes from. -/
inductive Origin where
  /-- A variable, with its name in the source. -/
  | variable (name : String)
  /-- A temporary, with what it stands for and its number. -/
  | temporary (role : Hoist) (number : Nat)
  /-- A built-in function or one of the support code. -/
  | function (f : Function)
  /-- The name for the rounds of a list that is computed item by item. -/
  | each
  | range

/-- The name that is written for something of the given origin. -/
def Origin.name : Origin → String
  | «variable» name => safeName name
  | temporary role n => temporaryName role.text n
  | function f => f.name
  | each => "_"
  | range => "range"

/-- Functions are built in, and then reserved, or of the support code. -/
theorem function_name_cases (f : Function) : f.name ∈ reserved ∨ f.name ∈ supportNames := by
  cases f <;> decide

theorem safeName_ne_line (a : String) : safeName a ≠ "_" := by
  intro h
  by_cases ha : IsMangled a
  · rw [safeName_of_isMangled ha] at h
    have hlist := congrArg String.toList h
    rw [String.toList_append, show "_".toList = [] ++ ['_'] from rfl] at hlist
    obtain rfl : a = "" := String.toList_inj.mp (List.append_cancel_right hlist)
    exact absurd ha (by decide)
  · rw [safeName_of_not_isMangled ha] at h
    subst h
    exact ha (by decide)

theorem safeName_ne_range (a : String) : safeName a ≠ "range" :=
  fun h => safeName_not_mem_reserved a (by rw [h]; decide)

/-- A name of the source is none that is introduced. -/
theorem safeName_ne_temporary (a role : String) (n : Nat) : safeName a ≠ temporaryName role n :=
  fun h => not_isIntroduced_safeName a (by rw [h]; exact isIntroduced_temporaryName role n)

/-- Nor is it that of a function: the functions are introduced or reserved. -/
theorem safeName_ne_function (a : String) (f : Function) : safeName a ≠ f.name := by
  intro h
  rcases function_name_cases f with hmem | hmem
  · exact safeName_not_mem_reserved a (h ▸ hmem)
  · exact not_isIntroduced_safeName a (h ▸ isIntroduced_of_mem_supportNames hmem)

/-- A temporary ends in a digit, and nothing else does that has no name in the source. -/
theorem temporaryName_ne_of_last {w : String} (h : w.toList.getLast?.any Char.isDigit = false)
    (role : String) (n : Nat) : temporaryName role n ≠ w := by
  rintro rfl
  obtain ⟨c, hc, hdigit⟩ := exists_last_temporaryName role n
  rw [hc, Option.any_some, hdigit] at h
  exact absurd h (by decide)

/-- A temporary has a number, and no function has. -/
theorem temporaryName_ne_function (role : String) (n : Nat) (f : Function) :
    temporaryName role n ≠ f.name :=
  temporaryName_ne_of_last (by cases f <;> rfl) role n

/-- The functions have different names. -/
theorem function_name_injective : Function.Injective Function.name := by
  intro f g
  cases f <;> cases g <;> decide

theorem function_name_ne_each (f : Function) : f.name ≠ "_" := by cases f <;> decide

theorem function_name_ne_range (f : Function) : f.name ≠ "range" := by cases f <;> decide

/-- A name tells where it comes from. -/
theorem Origin.name_injective : Function.Injective Origin.name := by
  intro x y h
  match x, y, h with
  | .variable a, .variable b, h => exact congrArg _ (safeName_injective h)
  | .temporary r n, .temporary s m, h =>
    obtain ⟨rfl, rfl⟩ := temporaryName_injective h
    rfl
  | .function f, .function g, h => exact congrArg _ (function_name_injective h)
  | .each, .each, _ => rfl
  | .range, .range, _ => rfl
  -- no two origins of different kinds share a name
  | .variable a, .temporary r n, h => exact absurd h (safeName_ne_temporary a r.text n)
  | .temporary r n, .variable a, h => exact absurd h.symm (safeName_ne_temporary a r.text n)
  | .variable a, .function f, h => exact absurd h (safeName_ne_function a f)
  | .function f, .variable a, h => exact absurd h.symm (safeName_ne_function a f)
  | .variable a, .each, h => exact absurd h (safeName_ne_line a)
  | .each, .variable a, h => exact absurd h.symm (safeName_ne_line a)
  | .variable a, .range, h => exact absurd h (safeName_ne_range a)
  | .range, .variable a, h => exact absurd h.symm (safeName_ne_range a)
  | .temporary r n, .function f, h => exact absurd h (temporaryName_ne_function r.text n f)
  | .function f, .temporary r n, h => exact absurd h.symm (temporaryName_ne_function r.text n f)
  | .temporary r n, .each, h => exact absurd h (temporaryName_ne_of_last rfl r.text n)
  | .each, .temporary r n, h => exact absurd h.symm (temporaryName_ne_of_last rfl r.text n)
  | .temporary r n, .range, h => exact absurd h (temporaryName_ne_of_last rfl r.text n)
  | .range, .temporary r n, h => exact absurd h.symm (temporaryName_ne_of_last rfl r.text n)
  | .function f, .each, h => exact absurd h (function_name_ne_each f)
  | .each, .function f, h => exact absurd h.symm (function_name_ne_each f)
  | .function f, .range, h => exact absurd h (function_name_ne_range f)
  | .range, .function f, h => exact absurd h.symm (function_name_ne_range f)
  | .each, .range, h => exact absurd h (by decide)
  | .range, .each, h => exact absurd h (by decide)

end Plic.Python
