import Plic.Proofs.Compile.Case
import Plic.Proofs.Lowering.Calls
import Plic.Proofs.Lowering.Subscripts

/-!
# Syntax faults come from the parser

The code for a call is refused as a syntax fault when no code is known for its
number of arguments. The parser has counted the arguments before, so for what it
returns this cannot happen, nor can a tree lack what the code generator relies
on elsewhere: a `SELECT` without a branch, a text that does not fit on a line, a
file name that cannot be part of a name.

Trees are well formed by construction of the rules; here this is said of every
expression and statement of a program, at whatever depth it stands, and of the
numbers in its declarations. What the generator does refuse is then a
declaration or a subscript.

Main results:

* `Reader.Reached.program_valid` — every program that is read is valid.
* `Program.Formed.kind_of_generate` — code for a well-formed program is refused
  for a declaration or a subscript only.
* `read_programs_valid` — both, for all programs of a source, and so a syntax
  fault of a compilation is the parser's.
-/

namespace Plic

open Grammar (Takes IsFileName)

/-! ## Parts of well-formed trees -/

mutual

/-- Whatever is nested in a well-formed statement is well formed. -/
theorem Stmt.Formed.nested {s : Stmt} (h : s.Formed) : ∀ x ∈ s.nested, x.Formed := by
  match h with
  | .ifElse hc hyes hno =>
    exact List.forall_mem_cons.mpr ⟨.ifElse hc hyes hno,
      List.forall_mem_append.mpr ⟨formed_nestedOfAll hyes, formed_nestedOfAll hno⟩⟩
  | .doWhile hc hbody =>
    exact List.forall_mem_cons.mpr ⟨.doWhile hc hbody, formed_nestedOfAll hbody⟩
  | .doLoop hvar hstart hlimit hstep hbody =>
    exact List.forall_mem_cons.mpr
      ⟨.doLoop hvar hstart hlimit hstep hbody, formed_nestedOfAll hbody⟩
  | .select hsubject hbranches =>
    exact List.forall_mem_cons.mpr ⟨.select hsubject hbranches, hbranches.nested⟩
  -- the other statements hold no statements
  | .assign htarget hvalue => exact List.forall_mem_singleton.mpr (.assign htarget hvalue)
  | .put hitems => exact List.forall_mem_singleton.mpr (.put hitems)
  | .get hsome htargets => exact List.forall_mem_singleton.mpr (.get hsome htargets)
  | .openFile hfile => exact List.forall_mem_singleton.mpr (.openFile hfile)
  | .read hfile htarget => exact List.forall_mem_singleton.mpr (.read hfile htarget)
  | .write hfile hsource => exact List.forall_mem_singleton.mpr (.write hfile hsource)
  | .closeFile hfile => exact List.forall_mem_singleton.mpr (.closeFile hfile)
  | .query hfeed htarget => exact List.forall_mem_singleton.mpr (.query hfeed htarget)

theorem formed_nestedOfAll {ss : List Stmt} (h : ∀ s ∈ ss, s.Formed) :
    ∀ x ∈ nestedOfAll ss, x.Formed := by
  match ss with
  | [] => simp [nestedOfAll]
  | s :: ss =>
    rw [List.forall_mem_cons] at h
    exact List.forall_mem_append.mpr ⟨h.1.nested, formed_nestedOfAll h.2⟩

theorem Branches.Formed.nested {b : Branches} (h : b.Formed) : ∀ x ∈ b.nested, x.Formed := by
  match h with
  | .done => simp [Branches.nested]
  | .other hbody => exact formed_nestedOfAll hbody
  | .when _ _ hbody hrest =>
    exact List.forall_mem_append.mpr ⟨formed_nestedOfAll hbody, hrest.nested⟩

end

theorem Program.Formed.nested {p : Program} (h : p.Formed) : ∀ s ∈ p.nested, s.Formed :=
  formed_nestedOfAll h.statements

/-- So are all expressions of a well-formed program, at whatever depth. -/
theorem Program.Formed.parts {p : Program} (h : p.Formed) : ∀ x ∈ p.parts, x.Formed := by
  intro x hx
  obtain ⟨s, hs, hx⟩ := List.mem_flatMap.mp hx
  -- a part of the statement is one of an expression that the statement is made of
  have hroots : ∀ x ∈ s.parts, x.Formed :=
    forall_mem_partsOfAll.mpr fun e he => ((h.nested s hs).roots e he).parts
  exact hroots x hx

/-! ## Valid programs -/

/-- The values of each `WHEN`. -/
def Branches.whens : Branches → List (List Expr)
  | .done => []
  | .other _ => []
  | .when values _ _ rest => values :: rest.whens

/-- The file that an expression asks about. -/
def Expr.file? : Expr → Option String
  | .endfile file _ => some file
  | _ => none

/-- The file that a statement works on. -/
def Stmt.file? : Stmt → Option String
  | .openFile file _ _ | .read file _ _ | .write file _ _ | .closeFile file _ => some file
  | _ => none

/-- The files that a program names, in statements and in expressions. -/
def Program.files (p : Program) : List String :=
  p.parts.filterMap Expr.file? ++ p.nested.filterMap Stmt.file?

/-- What holds of every expression, statement and declaration of a program that is read. -/
structure Program.Valid (p : Program) : Prop where
  numbers : ∀ n loc, .number n loc ∈ p.parts → 0 ≤ n ∧ n < 2 ^ 63
  texts : ∀ s loc, .text s loc ∈ p.parts → '\n' ∉ s.toList
  references : ∀ name subscripts loc, .var name subscripts loc ∈ p.parts → IsIdentifier name
  arguments : ∀ f args loc, .call f args loc ∈ p.parts → Takes f args.length
  files : ∀ file ∈ p.files, IsFileName file.toList
  queries : ∀ sql target loc, .query sql target loc ∈ p.nested → '\n' ∉ sql.toList
  targets : ∀ targets loc, .get targets loc ∈ p.nested → targets ≠ []
  branches : ∀ subject branches loc, .select subject branches loc ∈ p.nested →
    branches.whens ≠ [] ∧ ∀ values ∈ branches.whens, values ≠ []
  declarations : ∀ d ∈ p.declarations, d.Formed

theorem Branches.Formed.whens {b : Branches} (h : b.Formed) : ∀ values ∈ b.whens, values ≠ [] := by
  cases h with
  | done | other _ => simp [Branches.whens]
  | when hvalues _ _ hrest => exact List.forall_mem_cons.mpr ⟨hvalues, hrest.whens⟩

/-- Every file that is named has the name of a file. -/
theorem Program.Formed.files {p : Program} (h : p.Formed) :
    ∀ file ∈ p.files, IsFileName file.toList := by
  intro file hfile
  rw [Program.files, List.mem_append, List.mem_filterMap, List.mem_filterMap] at hfile
  rcases hfile with ⟨x, hx, hfile⟩ | ⟨s, hs, hfile⟩
  -- only `ENDFILE` asks about a file, and four statements work on one
  · have hformed := h.parts x hx
    cases hformed with
    | endfile hname =>
      injection hfile with hfile
      exact hfile ▸ hname
    | _ => cases hfile
  · have hformed := h.nested s hs
    cases hformed with
    | openFile hname | closeFile hname | read hname _ | write hname _ =>
      injection hfile with hfile
      exact hfile ▸ hname
    | _ => cases hfile

variable {p : Program} {f : Fault}

/-- A well-formed program with well-formed declarations is valid. -/
theorem Program.Formed.valid (h : p.Formed) (hds : ∀ d ∈ p.declarations, d.Formed) : p.Valid where
  -- each condition is that of one form of expression or statement
  numbers n loc hx := by
    have hformed := h.parts _ hx
    cases hformed with
    | number hlow hhigh => exact ⟨hlow, hhigh⟩
  texts s loc hx := by
    have hformed := h.parts _ hx
    cases hformed with
    | text hfeed => exact hfeed
  references name subscripts loc hx := by
    have hformed := h.parts _ hx
    cases hformed with
    | var hname _ => exact hname
  arguments f args loc hx := by
    have hformed := h.parts _ hx
    cases hformed with
    | call htakes _ => exact htakes
  files := h.files
  queries sql target loc hs := by
    have hformed := h.nested _ hs
    cases hformed with
    | query hfeed _ => exact hfeed
  targets targets loc hs := by
    have hformed := h.nested _ hs
    cases hformed with
    | get hsome _ => exact hsome
  branches subject branches loc hs := by
    have hformed := h.nested _ hs
    cases hformed with
    | select _ hbranches => exact ⟨by simp [Branches.whens], hbranches.whens⟩
  declarations := hds

/-! ## Faults of the code generator -/

/-- What holds of the faults of all steps holds of the fault of the whole fold. -/
theorem fault_of_foldlM {σ ι : Type} {step : σ → ι → Except Fault σ} {P : Fault → Prop}
    {is : List ι} (hstep : ∀ s, ∀ i ∈ is, ∀ f, step s i = .error f → P f) {s : σ}
    (h : is.foldlM step s = .error f) : P f := by
  induction is generalizing s with
  | nil => cases h
  | cons i is ih =>
    rw [List.foldlM_cons] at h
    cases hi : step s i with
    -- the fault is a later step's
    | ok s' =>
      rw [hi] at h
      exact ih (fun s j hj => hstep s j (List.mem_cons_of_mem _ hj)) h
    | error f' =>
      rw [hi] at h
      injection h with h
      exact h ▸ hstep s i List.mem_cons_self f' hi

/-- What is refused about a shape is a fault of its declaration. -/
theorem Shape.kind_of_ofExtents {dims : List Int} {cause : Fault.Cause}
    (h : Shape.ofExtents dims = .error cause) : cause.kind = .declaration := by
  unfold Shape.ofExtents at h
  -- too many extents, or one that is too small
  by_cases hmany : 2 < dims.length
  · rw [if_pos hmany] at h
    injection h with h
    subst h
    rfl
  · rw [if_neg hmany] at h
    split at h
    · injection h with h
      subst h
      rfl
    all_goals cases h

/-- An item is refused as a declaration, at its own place. -/
theorem Scope.fault_of_declare {s : Scope} {type : DataType} {item : Item}
    (h : s.declare type item = .error f) : f.kind = .declaration ∧ f.loc = item.loc := by
  unfold Scope.declare Variable.ofItem at h
  cases hshape : Shape.ofExtents item.dims with
  | error cause =>
    rw [hshape] at h
    injection h with h
    subst h
    exact ⟨Shape.kind_of_ofExtents hshape, rfl⟩
  | ok shape =>
    rw [hshape] at h
    -- the shape is good, so the name was declared before
    cases hfind : s.find? item.name with
    | none =>
      rw [hfind] at h
      cases h
    | some earlier =>
      rw [hfind] at h
      injection h with h
      subst h
      exact ⟨rfl, rfl⟩

/-- Declarations are refused as such, at one of their items. -/
theorem Scope.fault_of_ofDeclarations {ds : List Declaration}
    (h : Scope.ofDeclarations ds = .error f) :
    f.kind = .declaration ∧ ∃ d ∈ ds, ∃ i ∈ d.items, f.loc = i.loc := by
  refine fault_of_foldlM
    (P := fun f => f.kind = .declaration ∧ ∃ d ∈ ds, ∃ i ∈ d.items, f.loc = i.loc) ?_ h
  intro s d hd f hf
  refine fault_of_foldlM
    (P := fun f => f.kind = .declaration ∧ ∃ d ∈ ds, ∃ i ∈ d.items, f.loc = i.loc) ?_ hf
  intro s i hi f hf
  obtain ⟨hkind, hloc⟩ := Scope.fault_of_declare hf
  exact ⟨hkind, d, hd, i, hi, hloc⟩

/-- Code for a well-formed program is refused for a declaration or a subscript only. -/
theorem Program.Formed.kind_of_generate (h : p.Formed) {config : Config}
    (hf : p.generate config = .error f) : f.kind = .declaration ∨ f.kind = .subscript := by
  -- behind the declarations only the references are checked
  cases hscope : Scope.ofDeclarations p.declarations with
  | error f' =>
    rw [Program.generate, Program.lower, hscope] at hf
    injection hf with hf
    exact .inl (hf ▸ (Scope.fault_of_ofDeclarations hscope).1)
  | ok scope =>
    have hchecks := h.checks_generate hscope config
    rw [hf] at hchecks
    cases hchecks with
    | error _ _ _ hkind _ => exact .inr hkind

/-! ## Sources -/

/-- Behind the parser only the code for the program is refused. -/
theorem Program.generate_of_assemble {config : Config} {reports : List Diagnostic}
    (h : p.assemble config reports = .error f) : p.generate config = .error f := by
  unfold Program.assemble at h
  cases hcode : p.generate config with
  | ok text =>
    rw [hcode] at h
    cases h
  | error f' =>
    rw [hcode] at h
    injection h with h
    rw [h]

/-- Every program that is read is valid, whatever was asked of the reader before. -/
theorem Reader.Reached.program_valid {source : String} {r : Reader} (h : Reader.Reached source r)
    (hp : r.program.1 = .ok p) : p.Valid := by
  obtain ⟨hformed, hds⟩ := h.program_declared hp
  exact hformed.valid hds

/-- **What is read is valid, so syntax faults are the parser's.** Every program that is read from a
source, whatever was read from it before, is valid at every depth, and code for it is never refused
for its syntax. So a compilation that is refused for the syntax of its source was refused by the
parser. -/
theorem read_programs_valid (source : String) :
    (∀ r p, Reader.Reached source r → r.program.1 = .ok p →
      p.Valid ∧ ∀ config f, p.generate config = .error f → f.kind ≠ .syntactic) ∧
    ∀ config f, compile config source = .error f → f.kind = .syntactic →
      (Reader.ofSource source).program.1 = .error f := by
  -- the generator refuses declarations and subscripts only
  have hread : ∀ r p, Reader.Reached source r → r.program.1 = .ok p →
      p.Valid ∧ ∀ config f, p.generate config = .error f → f.kind ≠ .syntactic := by
    intro r p hr hp
    refine ⟨hr.program_valid hp, ?_⟩
    intro config f hf
    rcases (hr.program_formed hp).kind_of_generate hf with hkind | hkind
    · simp [hkind]
    · simp [hkind]
  refine ⟨hread, ?_⟩
  intro config f hf hkind
  rw [compile_eq_bind] at hf
  -- so a syntax fault of a compilation was there before the generator was asked
  cases hp : (Reader.ofSource source).program.1 with
  | error f' =>
    rw [hp] at hf
    injection hf with hf
    rw [hf]
  | ok p =>
    rw [hp] at hf
    have hcode := Program.generate_of_assemble hf
    exact absurd hkind ((hread _ p .start hp).2 config f hcode)

/-- Everything that is counted or bounded occurs in one source; in another a call has an argument
too few. -/
theorem read_programs_valid_select :
    ∃ p f, (Reader.ofSource ("p: proc options(main); dcl s char(5); " ++
        "select (mod(7, 2)); when (1) get list(s); other close file('f'); end; end p;")).program.1 =
        .ok p ∧
      p.Valid ∧ (∀ config f, p.generate config = .error f → f.kind ≠ .syntactic) ∧
      compile {} "p: proc options(main); x = mod(7); end p;" = .error f ∧ f.kind = .syntactic ∧
      (Reader.ofSource "p: proc options(main); x = mod(7); end p;").program.1 = .error f := by
  -- one program with all that the generator relies on, and one that the parser refuses
  have hok : (Reader.ofSource ("p: proc options(main); dcl s char(5); " ++
      "select (mod(7, 2)); when (1) get list(s); other close file('f'); end; end p;")).program.1.isOk
      = true := by
    decide +kernel
  have hfault : (match compile {} "p: proc options(main); x = mod(7); end p;" with
      | .error f => decide (f.kind = .syntactic)
      | .ok _ => false) = true := by
    decide +kernel
  obtain ⟨p, hp⟩ := exists_of_isOk hok
  obtain ⟨hvalid, hkinds⟩ := (read_programs_valid _).1 _ p .start hp
  cases hf : compile {} "p: proc options(main); x = mod(7); end p;" with
  | ok c =>
    rw [hf] at hfault
    cases hfault
  | error f =>
    rw [hf] at hfault
    have hkind : f.kind = .syntactic := of_decide_eq_true hfault
    exact ⟨p, f, hp, hvalid, hkinds, rfl, hkind, (read_programs_valid _).2 {} f hf hkind⟩

end Plic
