import Plic.Proofs.Lowering.Program
import Plic.Proofs.Python.Naming

/-!
# What generated code uses

The atoms of the code for a tree are told from the rules that the code follows.
A literal that is written as its value would have had no atoms, so the atoms of
a slice are those of its parts, whether its bounds are written out or not.

Every name in the code for a well-formed program is that of a variable or of a
temporary. The temporaries are numbered in the order in which they are stored
into, through all loops and bodies, so no two are the same.

Main results:

* `Expr.HasCode.exists_reference` — the names that the code for an expression reads.
* `HasCodes.proper` — the names in the code for statements come from the source.
* `HasCodes.counts` — the temporaries that the code for statements stores into.
* `Program.storedTemporaries_of_lower` — those of a program, in the order of its text.
-/

namespace Plic

open Python (Atom Hoist IsName atomsAll blockAtoms BlockStorable isNameWord isTemporary safeName
  temporaryName)

/-! ## Atoms of expressions -/

namespace Python

/-- The atoms of a list are those of its expressions. -/
theorem mem_atomsAll {a : Atom} {es : List Expr} : a ∈ atomsAll es ↔ ∃ e ∈ es, a ∈ e.atoms := by
  induction es with
  | nil => simp
  | cons e es ih => simp [ih]

/-- The atoms of an element are those of the array and of its subscripts in order. -/
theorem atoms_foldl_index (base : Expr) (codes : List Expr) :
    (codes.foldl .index base).atoms = base.atoms ++ atomsAll codes := by
  induction codes generalizing base with
  | nil => simp
  | cons c cs ih => rw [List.foldl_cons, ih, Expr.atoms, atomsAll, List.append_assoc]

/-- The atoms of a block are those of its statements. -/
theorem mem_blockAtoms {a : Atom} {ss : List Stmt} :
    a ∈ blockAtoms ss ↔ ∃ s ∈ ss, a ∈ s.atoms := by
  induction ss with
  | nil => simp
  | cons s ss ih => simp [ih]

/-- Blocks that are put together have their atoms one after the other. -/
theorem blockAtoms_append (ss ts : List Stmt) :
    blockAtoms (ss ++ ts) = blockAtoms ss ++ blockAtoms ts := by
  induction ss with
  | nil => rfl
  | cons s ss ih => rw [List.cons_append, blockAtoms, blockAtoms, ih, List.append_assoc]

mutual

/-- An expression stores nothing. -/
theorem Expr.place_notMem_atoms (e : Expr) (id : String) : .place id ∉ e.atoms := by
  match e with
  | .int _ | .str _ | .name _ => simp
  | .neg e | .single e => exact e.place_notMem_atoms id
  | .binary _ l r | .index l r | .sliceFrom l r | .find l r | .replicate l r =>
    simp [l.place_notMem_atoms id, r.place_notMem_atoms id]
  | .slice b lo hi =>
    simp [b.place_notMem_atoms id, lo.place_notMem_atoms id, hi.place_notMem_atoms id]
  | .call _ args => simp [place_notMem_atomsAll args id]

theorem place_notMem_atomsAll (es : List Expr) (id : String) : .place id ∉ atomsAll es := by
  match es with
  | [] => simp
  | e :: es => simp [e.place_notMem_atoms id, place_notMem_atomsAll es id]

end

end Python

section

variable {scope : Scope}

/-- A conversion to text calls one function more, unless there is a text already. -/
theorem Expr.atoms_asText (e : Expr) (code : Python.Expr) :
    (e.asText code).atoms = (if e.isText then [] else [.function .text]) ++ code.atoms := by
  unfold Expr.asText
  split <;> simp

variable {e : Expr} {code : Python.Expr}

/-- The code for a literal uses nothing. -/
theorem Expr.HasCode.atoms_literal (h : e.HasCode scope code)
    (hliteral : e.literal?.isSome) : code.atoms = [] := by
  induction h with
  | number => rfl
  | @neg e _ _ _ ih =>
    refine ih ?_
    rw [Expr.literal?] at hliteral
    cases hvalue : e.literal? with
    | none => simp [hvalue] at hliteral
    | some n => rfl
  | _ => simp [Expr.literal?] at hliteral

/-- The lower bound has the atoms of the start, also if it is written as a number. -/
theorem Expr.HasCode.atoms_lowFrom {start : Expr} {b : Python.Expr} (h : start.HasCode scope b) :
    (start.lowFrom b).atoms = b.atoms := by
  unfold Expr.lowFrom
  cases hlow : start.literalLow? with
  | none => simp
  | some n =>
    obtain ⟨k, hk, -⟩ := Option.bind_eq_some_iff.mp hlow
    exact (h.atoms_literal (by rw [hk]; rfl)).symm

/-- The upper bound has the atoms of both parts, also if it is written as a number. -/
theorem Expr.HasCode.atoms_highFrom {start length : Expr} {b c : Python.Expr}
    (hb : start.HasCode scope b) (hc : length.HasCode scope c) :
    (start.highFrom length (start.lowFrom b) c).atoms = b.atoms ++ c.atoms := by
  unfold Expr.highFrom
  cases hhigh : start.literalHigh? length with
  | none => rw [Python.Expr.atoms, hb.atoms_lowFrom]
  | some n =>
    -- both bounds are literals here, so neither has an atom
    obtain ⟨low, hlow, hhigh⟩ := Option.bind_eq_some_iff.mp hhigh
    obtain ⟨k, hk, -⟩ := Option.bind_eq_some_iff.mp hhigh
    obtain ⟨j, hj, -⟩ := Option.bind_eq_some_iff.mp hlow
    rw [hb.atoms_literal (by rw [hj]; rfl), hc.atoms_literal (by rw [hk]; rfl)]
    rfl

/-- A conversion reads no names of its own. -/
theorem Expr.name_mem_asText {id : String}
    (h : .name id ∈ (e.asText code).atoms) : .name id ∈ code.atoms := by
  rw [Expr.atoms_asText, List.mem_append] at h
  refine h.resolve_left ?_
  split <;> simp

/-- The names that the code for an expression reads are those of its references. -/
theorem Expr.HasCode.exists_reference (h : e.HasCode scope code)
    {id : String} (hid : .name id ∈ code.atoms) : ∃ r ∈ e.references, id = safeName r.name := by
  -- what an operand refers to, the whole refers to
  have hoperand : ∀ {e o : Expr}, o ∈ e.operands → (∃ r ∈ o.references, id = safeName r.name) →
      ∃ r ∈ e.references, id = safeName r.name :=
    fun ho ⟨r, hr, hname⟩ => ⟨r, Expr.references_of_operand ho hr, hname⟩
  induction h with
  | number | text | endfile => simp at hid
  | @var name subscripts loc codes _ hlength _ ih =>
    rw [Python.atoms_foldl_index, List.mem_append] at hid
    rcases hid with hid | hid
    · obtain rfl : id = safeName name := by simpa using hid
      exact ⟨⟨name, subscripts, loc⟩, Expr.mem_references.mpr (Expr.mem_parts_self _), rfl⟩
    · obtain ⟨c, hc, hid⟩ := Python.mem_atomsAll.mp hid
      obtain ⟨e, hpair⟩ := exists_mem_zip_right hlength hc
      exact hoperand (List.of_mem_zip hpair).1 (ih _ hpair hid)
  | neg _ ih => exact hoperand (by simp [Expr.operands]) (ih hid)
  | concat _ _ ihl ihr =>
    rcases List.mem_append.mp hid with hid | hid
    · exact hoperand (by simp [Expr.operands]) (ihl (Expr.name_mem_asText hid))
    · exact hoperand (by simp [Expr.operands]) (ihr (Expr.name_mem_asText hid))
  | binary _ _ _ ihl ihr | mod _ _ ihl ihr =>
    rcases List.mem_append.mp hid with hid | hid
    · exact hoperand (by simp [Expr.operands]) (ihl hid)
    · exact hoperand (by simp [Expr.operands]) (ihr hid)
  | substr _ hstart ihs ihstart =>
    rw [Python.Expr.atoms, hstart.atoms_lowFrom] at hid
    rcases List.mem_append.mp hid with hid | hid
    · exact hoperand (by simp [Expr.operands]) (ihs (Expr.name_mem_asText hid))
    · exact hoperand (by simp [Expr.operands]) (ihstart hid)
  | substrLength _ hstart hlength ihs ihstart ihlength =>
    -- the start stands in both bounds of the slice
    rw [Python.Expr.atoms, hstart.atoms_lowFrom, hstart.atoms_highFrom hlength] at hid
    simp only [List.mem_append] at hid
    rcases hid with (hid | hid) | hid | hid
    · exact hoperand (by simp [Expr.operands]) (ihs (Expr.name_mem_asText hid))
    · exact hoperand (by simp [Expr.operands]) (ihstart hid)
    · exact hoperand (by simp [Expr.operands]) (ihstart hid)
    · exact hoperand (by simp [Expr.operands]) (ihlength hid)
  | index _ _ ihs ihpart =>
    simp only [Python.Expr.atoms, List.append_nil, List.mem_append] at hid
    rcases hid with hid | hid
    · exact hoperand (by simp [Expr.operands]) (ihs (Expr.name_mem_asText hid))
    · exact hoperand (by simp [Expr.operands]) (ihpart (Expr.name_mem_asText hid))
  | decimal _ ih =>
    exact hoperand (by simp [Expr.operands]) (ih (by simpa using hid))

end

/-! ## Names -/

/-- The name is that of a variable or of a temporary. -/
def Python.IsKnown (id : String) : Prop :=
  (∃ n, IsSmallWord n ∧ id = safeName n) ∨ ∃ role n, id = temporaryName (Hoist.text role) n

/-- The names among the atoms are those of variables and temporaries. -/
def Python.Atom.Known : Atom → Prop
  | name id => IsKnown id
  | place id => IsKnown id
  | _ => True

/-- A name in the sense of the naming of variables is one in the text. -/
theorem Python.isNameWord_of_isName {id : String} (h : IsName id) : isNameWord id := by
  obtain ⟨hword, hkeyword⟩ := h
  rw [isNameWord, Bool.and_eq_true, decide_eq_true_eq]
  refine ⟨hkeyword, ?_⟩
  cases hcs : id.toList with
  | nil => rfl
  | cons c cs =>
    rw [hcs] at hword
    simpa using Lexer.isDigit_of_isNameStart hword.1

/-- Both variables and temporaries have such names. -/
theorem Python.IsKnown.isName {id : String} (h : IsKnown id) : IsName id := by
  rcases h with ⟨n, hword, rfl⟩ | ⟨role, n, rfl⟩
  · exact isName_safeName hword
  · exact isName_temporary (by cases role <;> decide) n

theorem Python.Atom.Known.named {a : Atom} (h : a.Known) : a.Named := by
  cases a with
  | name id | place id => exact isNameWord_of_isName (IsKnown.isName h)
  | _ => trivial

section

variable {scope : Scope}

/-- The names in the code for a well-formed expression are those of its variables. -/
theorem Expr.HasCode.known {e : Expr} {code : Python.Expr} (h : e.HasCode scope code)
    (hformed : e.Formed) : ∀ a ∈ code.atoms, a.Known := by
  intro a ha
  cases a with
  | name id =>
    obtain ⟨r, hr, rfl⟩ := h.exists_reference ha
    exact .inl ⟨r.name, hformed.worded r hr, rfl⟩
  | place id => exact absurd ha (code.place_notMem_atoms id)
  | _ => trivial

/-! ## Names in statements -/

/-- The code for statements names variables and temporaries only, and stores into
variables and elements only. -/
structure Python.Proper (code : List Python.Stmt) : Prop where
  known    : ∀ a ∈ blockAtoms code, a.Known
  storable : BlockStorable code

/-- The same for a chain. -/
structure Python.ProperArms (arms : Python.Arms) : Prop where
  known    : ∀ a ∈ arms.atoms, a.Known
  storable : arms.Storable

namespace Python.Proper

open Python

theorem nil : Proper [] := ⟨by simp, trivial⟩

theorem append {ss ts : List Python.Stmt} (hs : Proper ss) (ht : Proper ts) :
    Proper (ss ++ ts) := by
  refine ⟨?_, ?_⟩
  · rw [blockAtoms_append]
    exact List.forall_mem_append.mpr ⟨hs.known, ht.known⟩
  · have hstorable := hs.storable
    clear hs
    induction ss with
    | nil => exact ht.storable
    | cons s ss ih => exact ⟨hstorable.1, ih hstorable.2⟩

/-- A statement is proper if its names are known and its targets can be stored into. -/
theorem single {s : Python.Stmt} (hknown : ∀ a ∈ s.atoms, a.Known) (hstorable : s.Storable) :
    Proper [s] := by
  refine ⟨?_, hstorable, trivial⟩
  rw [blockAtoms, blockAtoms, List.append_nil]
  exact hknown

/-- An assignment to a place is proper if both sides are known. -/
theorem assign {t v : Python.Expr} (ht : ∀ a ∈ t.targetAtoms, a.Known) (hplace : t.IsPlace)
    (hv : ∀ a ∈ v.atoms, a.Known) : Proper [.assign t v] :=
  single (List.forall_mem_append.mpr ⟨ht, hv⟩) hplace

/-- A call as a statement is proper if its arguments are known. -/
theorem run {f : Python.Function} {args : List Python.Expr}
    (h : ∀ a ∈ atomsAll args, a.Known) : Proper [.run (.call f args)] :=
  single (List.forall_mem_cons.mpr ⟨trivial, h⟩) trivial

/-- A loop is proper if its test is known and its body is proper. -/
theorem loop {t : Python.Test} {body : List Python.Stmt} (ht : ∀ a ∈ t.atoms, a.Known)
    (hbody : Proper body) : Proper [.loop t body] :=
  single (List.forall_mem_append.mpr ⟨ht, hbody.known⟩) hbody.storable

/-- A branching is proper if its arms are. -/
theorem branch {arms : Python.Arms} (h : ProperArms arms) : Proper [.branch arms] :=
  single h.known h.storable

end Python.Proper

namespace Python.ProperArms

open Python

theorem arm {t : Python.Test} {body : List Python.Stmt} {rest : Python.Arms}
    (ht : ∀ a ∈ t.atoms, a.Known) (hbody : Proper body) (hrest : ProperArms rest) :
    ProperArms (.arm t body rest) := by
  refine ⟨?_, hbody.storable, hrest.storable⟩
  simp only [Arms.atoms, List.forall_mem_append]
  exact ⟨⟨ht, hbody.known⟩, hrest.known⟩

/-- An `ELSE` that continues the chain holds the same code. -/
theorem elseArms (no : List Plic.Stmt) {code : List Python.Stmt} (h : Proper code) :
    ProperArms (Plic.elseArms no code) := by
  unfold Plic.elseArms
  split
  · have hknown := h.known
    simp only [blockAtoms, Stmt.atoms, List.append_nil] at hknown
    exact ⟨hknown, h.storable.1⟩
  · exact ⟨h.known, h.storable⟩

end Python.ProperArms

/-- A reference can be stored into. -/
theorem Reference.place {r : Reference} {code : Python.Expr} (h : r.toExpr.HasCode scope code)
    (hformed : r.Formed) : (∀ a ∈ code.targetAtoms, a.Known) ∧ code.IsPlace := by
  have hknown := Expr.HasCode.known h hformed
  unfold Reference.Formed Reference.toExpr at hformed
  cases hformed with
  | var hname _ =>
    cases h with
    | @var _ _ _ codes _ _ _ =>
      -- the last subscript is the outermost, so the form shows at the end of the row
      cases codes using List.reverseRecOn with
      | nil => exact ⟨List.forall_mem_singleton.mpr (.inl ⟨_, hname.word, rfl⟩), trivial⟩
      | append_singleton cs c =>
        rw [List.foldl_append] at hknown ⊢
        exact ⟨hknown, trivial⟩

/-- The codes of well-formed expressions use known names only. -/
theorem known_forall {es : List Expr} {codes : List Python.Expr}
    (h : List.Forall₂ (Expr.HasCode scope) es codes) (hformed : ∀ e ∈ es, e.Formed) :
    ∀ a ∈ atomsAll codes, a.Known := by
  induction h with
  | nil => simp
  | cons hcode _ ih =>
    rw [List.forall_mem_cons] at hformed
    exact List.forall_mem_append.mpr ⟨hcode.known hformed.1, ih hformed.2⟩

theorem Condition.HasCode.known {c : Condition} {test : Python.Comparison}
    (h : c.HasCode scope test) (hformed : c.Formed) : ∀ a ∈ test.atoms, a.Known := by
  cases h with
  | intro hl hr =>
    exact List.forall_mem_append.mpr ⟨hl.known hformed.left, hr.known hformed.right⟩

/-- What a store does with a value adds no names. -/
theorem known_storedCode (target : Reference) (value : Expr) {v : Python.Expr}
    (h : ∀ a ∈ v.atoms, a.Known) : ∀ a ∈ (storedCode scope target value v).atoms, a.Known := by
  unfold storedCode
  split
  · simp only [Python.Expr.atoms, Python.atomsAll, List.append_nil, List.forall_mem_cons]
    exact ⟨trivial, h⟩
  · exact h

theorem known_call {f : Python.Function} (v : String) :
    ∀ a ∈ (Python.Expr.call f [.str v]).atoms, a.Known := by
  simp [Python.Atom.Known]

@[simp] theorem FileMode.atoms_lower (mode : FileMode) : mode.lower.atoms = [] := by
  cases mode <;> rfl

/-- The test of a branch uses the subject and the values, in both forms that it has. -/
theorem atoms_whenTest (subject : Python.Expr) (codes : List Python.Expr) :
    (whenTest subject codes).atoms = subject.atoms ++ atomsAll codes := by
  unfold whenTest
  split <;> simp

/-- Reading values stores into places only. -/
theorem proper_get {targets : List Reference} {codes : List Python.Expr}
    (h : List.Forall₂ (fun r c => r.toExpr.HasCode scope c) targets codes)
    (hformed : ∀ r ∈ targets, r.Formed) : Python.Proper (List.zipWith getCode targets codes) := by
  induction h with
  | nil => exact .nil
  | cons hcode _ ih =>
    rw [List.forall_mem_cons] at hformed
    obtain ⟨htarget, hplace⟩ := Reference.place hcode hformed.1
    exact (Python.Proper.assign htarget hplace (known_call _)).append (ih hformed.2)

/-- What is stored ahead of a loop, and what stands for it in the loop. -/
theorem Expr.HasHoist.proper {role : Hoist} {n m : Nat} {e : Expr} {ahead : List Python.Stmt}
    {code : Python.Expr} (h : e.HasHoist scope role.text n ahead code m) (hformed : e.Formed) :
    Python.Proper ahead ∧ ∀ a ∈ code.atoms, a.Known := by
  have htemporary : ∀ k, Python.IsKnown (temporaryName role.text k) := fun k => .inr ⟨role, k, rfl⟩
  cases h with
  | literal _ hcode => exact ⟨.nil, hcode.known hformed⟩
  | stored _ hcode =>
    refine ⟨.assign (List.forall_mem_singleton.mpr (htemporary _)) trivial
      (hcode.known hformed), ?_⟩
    exact List.forall_mem_singleton.mpr (htemporary _)

/-- All that a step puts into a loop is proper: the code ahead, the test and the advance. -/
theorem HasStep.proper {var limit : Python.Expr} {n m : Nat} {step : Option Expr}
    {ahead : List Python.Stmt} {test : Python.Test} {advance : Python.Stmt}
    (h : HasStep scope var limit n step ahead test advance m)
    (hvar : ∀ a ∈ var.atoms, a.Known) (hlimit : ∀ a ∈ limit.atoms, a.Known)
    (hformed : ∀ e ∈ step, e.Formed) :
    Python.Proper ahead ∧ (∀ a ∈ test.atoms, a.Known) ∧ Python.Proper [advance] := by
  have hboth := List.forall_mem_append.mpr ⟨hvar, hlimit⟩
  -- a round ends with an update of the variable
  have hupdate : ∀ (op : Python.Operator) {v : Python.Expr}, (∀ a ∈ v.atoms, a.Known) →
      Python.Proper [.update var op v] :=
    fun op v hv => .single (List.forall_mem_append.mpr ⟨hvar, hv⟩) trivial
  cases h with
  | one | up _ _ | down _ _ => exact ⟨.nil, hboth, hupdate _ (by simp)⟩
  | computed _ hhoist =>
    obtain ⟨hahead, hcode⟩ := @Expr.HasHoist.proper _ .step _ _ _ _ _ hhoist (hformed _ rfl)
    refine ⟨hahead, ?_, hupdate _ hcode⟩
    simp only [Python.Test.atoms, Python.Comparison.atoms, List.forall_mem_append]
    exact ⟨⟨⟨hvar, hlimit⟩, hcode, by simp⟩, hvar, hlimit⟩

mutual

/-- The code of a well-formed statement is proper, by induction along the rules. -/
theorem Stmt.HasCode.proper {n m : Nat} {s : Stmt} {code : List Python.Stmt}
    (h : s.HasCode scope n code m) (hformed : s.Formed) : Python.Proper code := by
  match h, hformed with
  | .assign ht hv, .assign htarget hvalue =>
    obtain ⟨hknown, hplace⟩ := Reference.place ht htarget
    exact .assign hknown hplace (known_storedCode _ _ (hv.known hvalue))
  | .ifElse htest hyes hno, .ifElse hc hyesFormed hnoFormed =>
    exact .branch (.arm (htest.known hc) (hyes.proper hyesFormed)
      (.elseArms _ (hno.proper hnoFormed)))
  | .doWhile htest hbody, .doWhile hc hbodyFormed =>
    exact .loop (htest.known hc) (hbody.proper hbodyFormed)
  | .doLoop hv hs hhoist hstep hbody, .doLoop hvar hstart hlimit hstepFormed hbodyFormed =>
    obtain ⟨htarget, hplace⟩ := Reference.place hv hvar
    obtain ⟨hahead, hl⟩ := @Expr.HasHoist.proper _ .limit _ _ _ _ _ hhoist hlimit
    obtain ⟨hahead', htest, hadvance⟩ := hstep.proper (Expr.HasCode.known hv hvar) hl hstepFormed
    -- the assignment, what is stored for the limit and for the step, and the loop
    have hloop := Python.Proper.loop htest ((hbody.proper hbodyFormed).append hadvance)
    exact (((Python.Proper.assign htarget hplace (hs.known hstart)).append hahead).append
      hahead').append hloop
  | .select hs hbranches, .select hsubject hbranchesFormed =>
    exact .branch (hbranches.proper (hs.known hsubject) hbranchesFormed)
  | .put hitems, .put hitemsFormed => exact .run (known_forall hitems hitemsFormed)
  | .get htargets, .get _ htargetsFormed => exact proper_get htargets htargetsFormed
  | .openFile, .openFile _ => exact .run (by simp)
  | .read ht, .read _ htarget =>
    obtain ⟨hknown, hplace⟩ := Reference.place ht htarget
    exact .assign hknown hplace (known_call _)
  | .write ht, .write _ hsource =>
    refine .run ?_
    simpa using Expr.HasCode.known ht hsource
  | .closeFile, .closeFile _ => exact .run (by simp)
  | .query ht, .query _ htarget =>
    obtain ⟨hknown, hplace⟩ := Reference.place ht htarget
    exact .assign hknown hplace (known_call _)

/-- The names in the code for well-formed statements come from the source. -/
theorem HasCodes.proper {n m : Nat} {ss : List Stmt} {code : List Python.Stmt}
    (h : HasCodes scope n ss code m) (hformed : ∀ s ∈ ss, s.Formed) : Python.Proper code := by
  match h with
  | .nil => exact .nil
  | .cons hs hss =>
    rw [List.forall_mem_cons] at hformed
    exact (hs.proper hformed.1).append (hss.proper hformed.2)

theorem Branches.HasCode.proper {subject : Python.Expr} {n m : Nat} {b : Branches}
    {arms : Python.Arms} (h : b.HasCode scope subject n arms m)
    (hsubject : ∀ a ∈ subject.atoms, a.Known) (hformed : b.Formed) : Python.ProperArms arms := by
  match h, hformed with
  | .done, _ => exact ⟨by simp, trivial⟩
  | .other hbody, .other hbodyFormed =>
    have hproper := hbody.proper hbodyFormed
    exact ⟨hproper.known, hproper.storable⟩
  | .when hvalues hbody hrest, .when _ hvaluesFormed hbodyFormed hrestFormed =>
    have htest := List.forall_mem_append.mpr ⟨hsubject, known_forall hvalues hvaluesFormed⟩
    rw [← atoms_whenTest] at htest
    exact .arm htest (hbody.proper hbodyFormed) (hrest.proper hsubject hrestFormed)

end

end

/-! ## Temporaries -/

/-- What is stored ahead of a loop for one of its values: a literal is not. -/
def Expr.hoists (role : Hoist) (e : Expr) : List Hoist :=
  if e.literal?.isSome then [] else [role]

mutual

/-- What the loops in a statement store ahead, in the order of the text. -/
def Stmt.hoists : Stmt → List Hoist
  | .ifElse _ yes no _ => hoistsOfAll yes ++ hoistsOfAll no
  | .doWhile _ body _ => hoistsOfAll body
  | .doLoop _ _ limit step body _ =>
    limit.hoists .limit ++ step.elim [] (Expr.hoists .step) ++ hoistsOfAll body
  | .select _ branches _ => branches.hoists
  | .assign _ _ _ | .put _ _ | .get _ _ | .openFile _ _ _ | .read _ _ _ | .write _ _ _
  | .closeFile _ _ | .query _ _ _ => []

/-- The same for statements in a row. -/
def hoistsOfAll : List Stmt → List Hoist
  | [] => []
  | s :: ss => s.hoists ++ hoistsOfAll ss

/-- The same for the branches of a `SELECT`. -/
def Branches.hoists : Branches → List Hoist
  | .done => []
  | .other body => hoistsOfAll body
  | .when _ body _ rest => hoistsOfAll body ++ rest.hoists

end

/-- None of the atoms stores into a temporary. -/
def Python.SparesTemporaries (as : List Atom) : Prop :=
  ∀ id, .place id ∈ as → isTemporary id = false

/-- The atoms store into the temporaries for the roles, which count from `n` to `m`. -/
structure Python.Counts (n : Nat) (as : List Atom) (roles : List Hoist) (m : Nat) : Prop where
  stored : storedTemporaries (as.map Atom.use) = numbered n roles
  count  : m = n + roles.length

namespace Python

theorem SparesTemporaries.nil : SparesTemporaries [] := by simp [SparesTemporaries]

variable {as bs : List Atom}

/-- Code that spares temporaries stays so when it is put together. -/
theorem SparesTemporaries.append (ha : SparesTemporaries as)
    (hb : SparesTemporaries bs) : SparesTemporaries (as ++ bs) :=
  fun id hmem => (List.mem_append.mp hmem).elim (ha id) (hb id)

theorem SparesTemporaries.counts (h : SparesTemporaries as) (n : Nat) : Counts n as [] n := by
  refine ⟨?_, rfl⟩
  rw [storedTemporaries, numbered, List.map_eq_nil_iff, List.filter_eq_nil_iff]
  intro u hu
  obtain ⟨a, ha, rfl⟩ := List.mem_map.mp hu
  cases a with
  | place id => simp [Atom.use, h id ha]
  | _ => simp [Atom.use]

/-- Counts go on from one part to the next. -/
theorem Counts.append {n m k : Nat} {rs ss : List Hoist}
    (ha : Counts n as rs m) (hb : Counts m bs ss k) : Counts n (as ++ bs) (rs ++ ss) k := by
  obtain ⟨hstored, rfl⟩ := ha
  refine ⟨?_, ?_⟩
  · rw [List.map_append, storedTemporaries_append, hstored, hb.stored, numbered_append]
  · rw [hb.count, List.length_append]
    omega

/-- Temporaries are not stored into ahead of these atoms. -/
theorem Counts.behind {n m : Nat} {rs : List Hoist}
    (hb : Counts n bs rs m) (ha : SparesTemporaries as) : Counts n (as ++ bs) rs m :=
  (ha.counts n).append hb

/-- Expressions store into nothing, so they spare temporaries. -/
theorem Expr.spares (e : Expr) : SparesTemporaries e.atoms :=
  fun id hid => absurd hid (e.place_notMem_atoms id)

theorem Test.spares (t : Test) : SparesTemporaries t.atoms := by
  intro id hid
  cases t <;> simp [Expr.place_notMem_atoms, place_notMem_atomsAll] at hid

end Python

section

variable {scope : Scope}

/-- A reference is not a temporary. -/
theorem Reference.spares {r : Reference} {code : Python.Expr} (h : r.toExpr.HasCode scope code) :
    Python.SparesTemporaries code.targetAtoms := by
  unfold Reference.toExpr at h
  cases h with
  | @var _ _ _ codes _ _ _ =>
    -- storing into an element reads the name of the array and binds none
    cases codes using List.reverseRecOn with
    | nil =>
      intro id hmem
      obtain rfl : id = safeName r.name := by simpa using hmem
      exact Python.isTemporary_safeName r.name
    | append_singleton cs c =>
      rw [List.foldl_append]
      exact Python.Expr.spares _

/-- A variable of the source is not a temporary, so an assignment to it spares them. -/
theorem Reference.spares_assign {r : Reference} {t : Python.Expr} (h : r.toExpr.HasCode scope t)
    (v : Python.Expr) : Python.SparesTemporaries (blockAtoms [.assign t v]) := by
  rw [blockAtoms, blockAtoms, List.append_nil]
  exact (Reference.spares h).append v.spares

theorem spares_get {targets : List Reference} {codes : List Python.Expr}
    (h : List.Forall₂ (fun r c => r.toExpr.HasCode scope c) targets codes) :
    Python.SparesTemporaries (blockAtoms (List.zipWith getCode targets codes)) := by
  induction h with
  | nil => exact .nil
  | cons hcode _ ih =>
    rw [List.zipWith_cons_cons, blockAtoms]
    exact ((Reference.spares hcode).append (Python.Expr.spares _)).append ih

/-- An expression that is put in a temporary takes the next number. -/
theorem Expr.HasHoist.counts {role : Hoist} {n m : Nat} {e : Expr} {ahead : List Python.Stmt}
    {code : Python.Expr} (h : e.HasHoist scope role.text n ahead code m) :
    Python.Counts n (blockAtoms ahead) (e.hoists role) m := by
  unfold Expr.hoists
  cases h with
  | literal hliteral _ =>
    rw [if_pos hliteral]
    exact Python.SparesTemporaries.nil.counts n
  | stored hliteral _ =>
    rw [hliteral, if_neg (by decide)]
    -- one temporary, with the next number
    have hstored : Python.Counts n [.place (temporaryName role.text (n + 1))] [role] (n + 1) := by
      refine ⟨?_, rfl⟩
      simp [Python.storedTemporaries, Python.Atom.use, Python.isTemporary_temporaryName,
        Python.numbered]
    rw [blockAtoms, blockAtoms, List.append_nil]
    exact hstored.append ((Python.Expr.spares _).counts (n + 1))

/-- A step takes one number if it is hoisted, and the advance takes none. -/
theorem HasStep.counts {var limit : Python.Expr} {n m : Nat} {step : Option Expr}
    {ahead : List Python.Stmt} {test : Python.Test} {advance : Python.Stmt}
    (h : HasStep scope var limit n step ahead test advance m) :
    Python.Counts n (blockAtoms ahead) (step.elim [] (Expr.hoists .step)) m ∧
      Python.SparesTemporaries advance.atoms := by
  -- the step is added to the variable, and neither is a place for a temporary
  have hupdate : ∀ v : Python.Expr, Python.SparesTemporaries (var.atoms ++ v.atoms) :=
    fun v => var.spares.append v.spares
  cases h with
  | one => exact ⟨Python.SparesTemporaries.nil.counts n, hupdate _⟩
  | up hliteral _ | down hliteral _ =>
    rw [Option.elim_some, Expr.hoists, hliteral, if_pos (by rfl)]
    exact ⟨Python.SparesTemporaries.nil.counts n, hupdate _⟩
  | computed _ hhoist => exact ⟨@Expr.HasHoist.counts _ .step _ _ _ _ _ hhoist, hupdate _⟩

/-- An empty branch is left out, which has no count either. -/
theorem Python.Counts.elseArms (no : List Plic.Stmt) {n m : Nat} {code : List Python.Stmt}
    {roles : List Hoist} (h : Python.Counts n (blockAtoms code) roles m) :
    Python.Counts n (Plic.elseArms no code).atoms roles m := by
  unfold Plic.elseArms
  split
  · simpa [blockAtoms] using h
  · exact h

mutual

/-- The temporaries of a statement are numbered in the order in which they are stored into. -/
theorem Stmt.HasCode.counts {n m : Nat} {s : Stmt} {code : List Python.Stmt}
    (h : s.HasCode scope n code m) : Python.Counts n (blockAtoms code) s.hoists m := by
  match h with
  | .assign ht _ | .read ht | .query ht => exact (Reference.spares_assign ht _).counts n
  | .ifElse _ hyes hno =>
    rw [blockAtoms, blockAtoms, List.append_nil, Python.Stmt.atoms, Python.Arms.atoms,
      List.append_assoc]
    exact (hyes.counts.append (hno.counts.elseArms _)).behind (Python.Test.spares _)
  | .doWhile _ hbody =>
    rw [blockAtoms, blockAtoms, List.append_nil]
    exact hbody.counts.behind (Python.Test.spares _)
  | .doLoop hv _ hhoist hstep hbody =>
    obtain ⟨hahead, hadvance⟩ := hstep.counts
    have hround := hbody.counts.append (hadvance.counts _)
    have hlimit := @Expr.HasHoist.counts _ .limit _ _ _ _ _ hhoist
    simp only [List.append_nil] at hround
    -- the assignment, what is stored for the limit and for the step, and the loop
    simp only [Python.blockAtoms_append, blockAtoms, Python.Stmt.atoms, List.append_nil,
      List.cons_append, List.append_assoc, Stmt.hoists]
    exact ((hlimit.append (hahead.append (hround.behind (Python.Test.spares _)))).behind
      (Python.Expr.spares _)).behind (Reference.spares hv)
  | .select _ hbranches =>
    rw [blockAtoms, blockAtoms, List.append_nil]
    exact hbranches.counts
  | .put _ | .openFile | .write _ | .closeFile =>
    rw [blockAtoms, blockAtoms, List.append_nil]
    exact (Python.Expr.spares _).counts n
  | .get htargets => exact (spares_get htargets).counts n

/-- The code for statements stores into the temporaries for its loops, numbered in order. -/
theorem HasCodes.counts {n m : Nat} {ss : List Stmt} {code : List Python.Stmt}
    (h : HasCodes scope n ss code m) : Python.Counts n (blockAtoms code) (hoistsOfAll ss) m := by
  match h with
  | .nil => exact Python.SparesTemporaries.nil.counts n
  | .cons hs hss =>
    rw [Python.blockAtoms_append]
    exact hs.counts.append hss.counts

theorem Branches.HasCode.counts {subject : Python.Expr} {n m : Nat} {b : Branches}
    {arms : Python.Arms} (h : b.HasCode scope subject n arms m) :
    Python.Counts n arms.atoms b.hoists m := by
  match h with
  | .done => exact Python.SparesTemporaries.nil.counts n
  | .other hbody => exact hbody.counts
  | .when _ hbody hrest =>
    rw [Python.Arms.atoms, List.append_assoc]
    exact (hbody.counts.append hrest.counts).behind (Python.Test.spares _)

end

end

/-! ## Programs -/

/-- What the loops of a program store ahead, in the order of the text. -/
def Program.hoists (p : Program) : List Hoist := hoistsOfAll p.statements

/-- The first value of a variable names nothing but the variable. -/
theorem Variable.mem_atoms_initialise {v : Variable} {a : Atom} (h : a ∈ v.initialise.atoms) :
    a = .place (safeName v.name) ∨ a = .each ∨ a = .range := by
  have helement : v.initialElement.atoms = [] := by
    unfold Variable.initialElement
    split <;> rfl
  rcases List.mem_append.mp h with hmem | hmem
  · exact .inl (List.mem_singleton.mp hmem)
  · unfold Variable.initialValue at hmem
    right
    split at hmem
    · simp [helement] at hmem
    · simp [helement] at hmem
    · simpa [helement] using hmem

/-- The body of the procedure for a well-formed program is proper. -/
theorem Program.Formed.proper {p : Program} (h : p.Formed) {code : Python.Procedure}
    (hlower : p.lower = .ok code) : Python.Proper code.body := by
  obtain ⟨scope, body, n, hscope, hbody, rfl⟩ := Program.hasCodes_of_lower hlower
  -- first values are stored into the declared variables, which the source names
  refine Python.Proper.append ⟨fun a ha => ?_, ?_⟩ (hbody.proper h.statements)
  · obtain ⟨s, hs, ha⟩ := Python.mem_blockAtoms.mp ha
    obtain ⟨v, hv, rfl⟩ := List.mem_map.mp hs
    obtain ⟨hlength, hzip⟩ := List.forall₂_iff_zip.mp (Scope.records_ofDeclarations hscope).1
    obtain ⟨i, hpair⟩ := exists_mem_zip_left hlength hv
    have hname := h.declaredNames i (List.of_mem_zip hpair).2
    rw [← (hzip hpair).name] at hname
    rcases Variable.mem_atoms_initialise ha with rfl | rfl | rfl
    · exact .inl ⟨v.name, hname.word, rfl⟩
    · trivial
    · trivial
  · generalize scope.declared = vs
    induction vs with
    | nil => trivial
    | cons v vs ih => exact ⟨trivial, ih⟩

variable {p : Program} {code : Python.Procedure}

/-- The temporaries of a program are numbered in the order of its text. -/
theorem Program.storedTemporaries_of_lower (hlower : p.lower = .ok code) :
    Python.storedTemporaries ((blockAtoms code.body).map Atom.use) =
      Python.numbered 0 p.hoists := by
  obtain ⟨scope, body, n, -, hbody, rfl⟩ := Program.hasCodes_of_lower hlower
  -- the declared variables are initialised first, and none of them is named like a temporary
  have hinitial : Python.SparesTemporaries
      (blockAtoms (scope.declared.map Variable.initialise)) := by
    intro id hmem
    obtain ⟨s, hs, hmem⟩ := Python.mem_blockAtoms.mp hmem
    obtain ⟨v, -, rfl⟩ := List.mem_map.mp hs
    obtain rfl : id = safeName v.name := by simpa using Variable.mem_atoms_initialise hmem
    exact Python.isTemporary_safeName v.name
  have hall := hbody.counts.behind hinitial
  rw [← Python.blockAtoms_append] at hall
  exact hall.stored

/-- The procedure has the name of the program, made safe. -/
theorem Program.name_of_lower (hlower : p.lower = .ok code) : code.name = safeName p.name := by
  obtain ⟨scope, body, n, -, -, rfl⟩ := Program.hasCodes_of_lower hlower
  rfl

theorem Program.Formed.isNameWord_name (h : p.Formed)
    (hlower : p.lower = .ok code) : isNameWord code.name := by
  rw [Program.name_of_lower hlower]
  exact Python.isNameWord_of_isName (Python.isName_safeName h.name)

/-- The names in the procedure for a program are words. -/
theorem Program.Formed.fit (h : p.Formed)
    (hlower : p.lower = .ok code) : Python.Fit code.leaves := by
  -- every name in the body is one that the target language takes as a word
  have hbody : ∀ l ∈ (Python.blockLeaves code.body).flatten, l.Fit := by
    refine Python.forall_blockLeaves (fun _ => trivial) fun a ha id hid => ?_
    have hknown := (h.proper hlower).known a ha
    cases a with
    | name id' | place id' =>
      obtain rfl := Option.some.inj hid
      exact (Python.IsKnown.isName hknown).1
    | function _ | each | range => cases hid
  have hname : ∀ l ∈ [Python.Leaf.name code.name], l.Fit := by
    rw [Program.name_of_lower hlower]
    exact List.forall_mem_singleton.mpr (Python.isName_safeName h.name).1
  simp only [Python.Procedure.leaves, Python.fit_append, Python.fit_cons, Python.fit_orPassLeaves]
  refine ⟨⟨hname, fun ls hls l hl => hbody l (List.mem_flatten.mpr ⟨ls, hls, hl⟩)⟩, ?_⟩
  exact ⟨by simp, by simp, by simp [Python.Leaf.Fit], hname, by simp [Python.Fit]⟩

/-- The text of the procedure for a program uses what its tree does. -/
theorem Program.Formed.uses_render (h : p.Formed) (hlower : p.lower = .ok code) (width : Nat) :
    ∃ ls, Python.lex (code.outline.render width).toList = some ls ∧ Python.uses ls = code.uses := by
  have hproper := h.proper hlower
  refine ⟨_, Python.Outline.lexed_render (code.lexed_outline (h.fit hlower)) width, ?_⟩
  exact Python.Procedure.uses_lexemes (h.isNameWord_name hlower)
    (fun a ha => (hproper.known a ha).named) hproper.storable

end Plic
