import Plic.Proofs.Lowering.Rules

/-!
# Which declarations are accepted

Items are declared one by one, across all declarations of a program. An item is
accepted if it has the shape of a scalar, a vector or a matrix and its name is
new. What has been recorded so far is exactly the items that were accepted, one
variable and one line for each, and the first item that is not accepted is the
one that is reported.

One step is `Scope.Records.declare`: it says what an item does to a table that
records the items before it. The rest is an induction over the items, for which
the declarations around them do not count.

Main result: `Scope.ofDeclarations_exact`.
-/

namespace Plic

/-! ## Items -/

/-- The items of all declarations in a row, each with its type. -/
def declaredItems (ds : List Declaration) : List (DataType × Item) :=
  ds.flatMap fun d => d.items.map fun item => (d.type, item)

/-- Without their types they are the items of the declarations. -/
theorem map_snd_declaredItems (ds : List Declaration) :
    (declaredItems ds).map Prod.snd = ds.flatMap Declaration.items := by
  simp [declaredItems, List.map_flatMap]

/-- A scalar, or an array of one or two dimensions that are not empty. -/
def Item.WellShaped (item : Item) : Prop := item.dims.length ≤ 2 ∧ ∀ n ∈ item.dims, 1 ≤ n

/-- The extents of a shape. -/
def Shape.extents : Shape → List Int
  | scalar => []
  | vector n => [n]
  | matrix n m => [n, m]

/-- The variable has the name, the type and the extents of the item, and cites its place. -/
structure Variable.Records (v : Variable) (type : DataType) (item : Item) : Prop where
  name : v.name = item.name
  type : v.type = type
  extents : v.shape.extents = item.dims
  loc : v.loc = item.loc

theorem Shape.extents_injective : Function.Injective Shape.extents := by
  intro a b h
  cases a <;> cases b <;> simp_all [Shape.extents]

theorem Shape.length_extents (shape : Shape) : shape.extents.length = shape.rank := by
  cases shape <;> rfl

variable {v : Variable} {type : DataType} {item : Item} {cause : Fault.Cause}

/-- A variable has the rank of its item. -/
theorem Variable.Records.rank_eq (h : v.Records type item) : v.shape.rank = item.dims.length := by
  rw [← Shape.length_extents, h.extents]

/-- An item is recorded in one way. -/
theorem Variable.Records.unique {w : Variable}
    (hv : v.Records type item) (hw : w.Records type item) : v = w := by
  have hshape := Shape.extents_injective (hv.extents.trans hw.extents.symm)
  obtain ⟨name, type, shape, loc⟩ := v
  obtain ⟨rfl, rfl, -, rfl⟩ := hv
  obtain ⟨name', type', shape', loc'⟩ := w
  obtain ⟨rfl, rfl, -, rfl⟩ := hw
  obtain rfl : shape = shape' := hshape
  rfl

/-- Why an item has no shape: it has too many extents, or one of them is less than 1. -/
inductive Item.Misshapen (item : Item) : Fault.Cause → Prop where
  | dimensions : 2 < item.dims.length → Misshapen item (.dimensionCount item.dims.length)
  | extent {n : Int} : item.dims.length ≤ 2 → item.dims.find? (· < 1) = some n →
      Misshapen item (.extent n)

/-- An item is not both of a shape and misshapen. -/
theorem Item.Misshapen.not_wellShaped (h : item.Misshapen cause) : ¬item.WellShaped := by
  rintro ⟨hlength, hextents⟩
  cases h with
  | dimensions hmany => omega
  | @extent n _ hfind =>
    have hsmall : n < 1 := by simpa using List.find?_some hfind
    have hlarge := hextents n (List.mem_of_find?_eq_some hfind)
    omega

/-- A misshapen item is a fault of its declaration. -/
theorem Item.Misshapen.kind_eq (h : item.Misshapen cause) : cause.kind = .declaration := by
  cases h <;> rfl

/-- An array has one or two extents, each at least 1. -/
theorem Shape.ofExtents_ok {dims : List Int} {shape : Shape}
    (h : Shape.ofExtents dims = .ok shape) :
    (dims = [] ∧ shape = .scalar) ∨ (∃ n, 1 ≤ n ∧ dims = [n] ∧ shape = .vector n.toNat) ∨
      ∃ n m, 1 ≤ n ∧ 1 ≤ m ∧ dims = [n, m] ∧ shape = .matrix n.toNat m.toNat := by
  unfold Shape.ofExtents at h
  -- more than two extents are refused before their sizes are looked at
  match dims with
  | [] =>
    injection h with h
    exact .inl ⟨rfl, h.symm⟩
  | [n] =>
    rw [if_neg (by simp)] at h
    by_cases hn : n < 1
    · simp [hn] at h
    · simp only [List.find?_cons, hn, decide_false, List.find?_nil] at h
      injection h with h
      exact .inr (.inl ⟨n, by omega, rfl, h.symm⟩)
  | [n, m] =>
    rw [if_neg (by simp)] at h
    by_cases hn : n < 1
    · simp [hn] at h
    · by_cases hm : m < 1
      · simp [hn, hm] at h
      · simp only [List.find?_cons, hn, hm, decide_false, List.find?_nil] at h
        injection h with h
        exact .inr (.inr ⟨n, m, by omega, by omega, rfl, h.symm⟩)
  | _ :: _ :: _ :: _ =>
    rw [if_pos (by simp)] at h
    exact absurd h (by simp)

/-- A shape is made of at most two positive extents. -/
theorem Shape.extents_of_ofExtents {dims : List Int} {shape : Shape}
    (h : Shape.ofExtents dims = .ok shape) :
    shape.extents = dims ∧ dims.length ≤ 2 ∧ ∀ n ∈ dims, 1 ≤ n := by
  rcases Shape.ofExtents_ok h with ⟨rfl, rfl⟩ | ⟨n, hn, rfl, rfl⟩ | ⟨n, m, hn, hm, rfl, rfl⟩
  · simp [Shape.extents]
  · have hback : (n.toNat : Int) = n := by omega
    simp [Shape.extents, hback, hn]
  · have hback : (n.toNat : Int) = n := by omega
    have hback' : (m.toNat : Int) = m := by omega
    simp [Shape.extents, hback, hback', hn, hm]

/-- What no shape is made of is misshapen, for the cause that is reported. -/
theorem Shape.misshapen_of_ofExtents
    (h : Shape.ofExtents item.dims = .error cause) : item.Misshapen cause := by
  unfold Shape.ofExtents at h
  -- the number of dimensions is checked before their extents
  by_cases hmany : 2 < item.dims.length
  · rw [if_pos hmany] at h
    injection h with h
    exact h ▸ .dimensions hmany
  · rw [if_neg hmany] at h
    split at h
    case h_1 n hfind =>
      injection h with h
      exact h ▸ .extent (by omega) hfind
    all_goals injection h

/-- An item is recorded as it is, or it has no shape and is refused where it stands. -/
theorem Variable.ofItem_cases (type : DataType) (item : Item) :
    (∃ v : Variable, Variable.ofItem type item = .ok v ∧ v.Records type item ∧ item.WellShaped) ∨
      ∃ cause, Variable.ofItem type item = .error ⟨cause, item.loc⟩ ∧ item.Misshapen cause := by
  unfold Variable.ofItem
  cases hshape : Shape.ofExtents item.dims with
  | ok shape =>
    obtain ⟨hextents, hwell⟩ := Shape.extents_of_ofExtents hshape
    exact .inl ⟨_, rfl, ⟨rfl, rfl, hextents, rfl⟩, hwell⟩
  | error cause => exact .inr ⟨cause, rfl, Shape.misshapen_of_ofExtents hshape⟩

/-! ## Tables -/

/-- The table has one variable for each item, in order. -/
def Scope.Records (s : Scope) (items : List (DataType × Item)) : Prop :=
  List.Forall₂ (fun v p => v.Records p.1 p.2) s.declared items

/-- The items are well shaped and no two have the same name. -/
structure Declarable (items : List (DataType × Item)) : Prop where
  shaped : ∀ p ∈ items, p.2.WellShaped
  distinct : (items.map fun p => p.2.name).Nodup

/-- Why an item is refused behind others: it has no shape, or its name is that of an earlier item,
whose line is cited. -/
inductive Refused (before : List (DataType × Item)) (item : Item) : Fault → Prop where
  | shape {cause : Fault.Cause} : item.Misshapen cause → Refused before item ⟨cause, item.loc⟩
  | repeated {p : DataType × Item} : item.WellShaped → p ∈ before → p.2.name = item.name →
      Refused before item ⟨.redeclared item.name p.2.loc.line, item.loc⟩

namespace Scope.Records

variable {s : Scope} {items : List (DataType × Item)}

/-- A variable is found under a name exactly if it records an item with this name. -/
theorem find?_eq_some_iff (h : s.Records items) (hdistinct : (items.map fun p => p.2.name).Nodup)
    {name : String} {v : Variable} :
    s.find? name = some v ↔ ∃ p ∈ items, p.2.name = name ∧ v.Records p.1 p.2 := by
  obtain ⟨vs⟩ := s
  unfold Scope.Records at h
  unfold Scope.find?
  simp only at h ⊢
  induction h with
  | nil => simp
  | @cons w p vs items hw _ ih =>
    rw [List.map_cons, List.nodup_cons] at hdistinct
    have hname : w.name = p.2.name := hw.name
    by_cases hfound : p.2.name = name
    · -- no item behind this one has the name
      have hlater : ∀ q ∈ items, q.2.name ≠ name := by
        rintro q hq rfl
        exact hdistinct.1 (List.mem_map.mpr ⟨q, hq, hfound.symm⟩)
      rw [List.find?_cons_of_pos (by simpa [hname] using hfound)]
      constructor
      · rintro ⟨⟩
        exact ⟨p, List.mem_cons_self, hfound, hw⟩
      · rintro ⟨q, hq, hqname, hv⟩
        rcases List.mem_cons.mp hq with rfl | hq
        · rw [hw.unique hv]
        · exact absurd hqname (hlater q hq)
    · rw [List.find?_cons_of_neg (by simpa [hname] using hfound)]
      simp only [ih hdistinct.2, List.exists_mem_cons_iff, hfound, false_and, false_or]

/-- A name is free exactly if no item before has it. -/
theorem find?_eq_none_iff (h : s.Records items) {name : String} :
    s.find? name = none ↔ name ∉ items.map fun p => p.2.name := by
  obtain ⟨vs⟩ := s
  have hnames : vs.map Variable.name = items.map fun p => p.2.name := by
    unfold Scope.Records at h
    simp only at h
    induction h with
    | nil => rfl
    | cons hw _ ih => rw [List.map_cons, List.map_cons, ih, hw.name]
  rw [← hnames, Scope.find?, List.find?_eq_none, List.mem_map]
  simp

/-- What an item does to a table: it is recorded behind the others, or refused. -/
theorem declare (h : s.Records items) (hitems : Declarable items) (type : DataType) (item : Item) :
    (∃ s', s.declare type item = .ok s' ∧ s'.Records (items ++ [(type, item)]) ∧
      Declarable (items ++ [(type, item)])) ∨
    ∃ f, s.declare type item = .error f ∧ Refused items item f := by
  rw [Scope.declare]
  rcases Variable.ofItem_cases type item with ⟨v, hv, hrecords, hwell⟩ | ⟨cause, hcause, hmisshapen⟩
  · rw [hv]
    -- the shape is checked first, so a repeated name is reported only for a good shape
    cases hfind : s.find? item.name with
    | none =>
      have hnew := h.find?_eq_none_iff.mp hfind
      refine .inl ⟨_, rfl, List.rel_append h (.cons hrecords .nil), ?_, ?_⟩
      · rw [List.forall_mem_append, List.forall_mem_singleton]
        exact ⟨hitems.shaped, hwell⟩
      · have hsingle : [item.name].Nodup := List.nodup_singleton _
        rw [List.map_append]
        refine hitems.distinct.append hsingle ?_
        rintro name hmem hlast
        obtain rfl := List.mem_singleton.mp hlast
        exact hnew hmem
    | some earlier =>
      obtain ⟨p, hp, hname, hearlier⟩ := (h.find?_eq_some_iff hitems.distinct).mp hfind
      refine .inr ⟨_, rfl, ?_⟩
      -- the report names the line of the declaration that came first
      rw [hearlier.loc]
      exact .repeated hwell hp hname
  · rw [hcause]
    exact .inr ⟨_, rfl, .shape hmisshapen⟩

end Scope.Records

/-! ## Runs -/

/-- What becomes of items: all are recorded, or one is refused behind items that are in order. -/
inductive Declares (items : List (DataType × Item)) : Except Fault Scope → Prop where
  | ok {s : Scope} : Declarable items → s.Records items → Declares items (.ok s)
  | error {before behind : List (DataType × Item)} {p : DataType × Item} {f : Fault} :
      items = before ++ p :: behind → Declarable before → Refused before p.2 f →
      Declares items (.error f)

/-- From a table of the items before on, by induction on the items behind. -/
theorem Scope.Records.declares {s : Scope} {items : List (DataType × Item)} (h : s.Records items)
    (hitems : Declarable items) (more : List (DataType × Item)) :
    Declares (items ++ more) (more.foldlM (fun s p => s.declare p.1 p.2) s) := by
  induction more generalizing s items with
  | nil =>
    rw [List.append_nil]
    exact .ok hitems h
  | cons p more ih =>
    rw [List.foldlM_cons]
    rcases h.declare hitems p.1 p.2 with ⟨s', hs', hrecords, hdeclarable⟩ | ⟨f, hf, hrefused⟩
    -- declared, so the rest goes on from a scope with one more
    · have hrest := ih hrecords hdeclarable
      rw [List.append_assoc] at hrest
      rw [hs']
      exact hrest
    · rw [hf]
      exact .error rfl hitems hrefused

/-- How the items are grouped into declarations does not count. -/
theorem Scope.foldlM_declareAll (ds : List Declaration) (s : Scope) :
    ds.foldlM Scope.declareAll s =
      (declaredItems ds).foldlM (fun s p => s.declare p.1 p.2) s := by
  induction ds generalizing s with
  | nil => rfl
  | cons d ds ih =>
    have hitems : s.declareAll d =
        (d.items.map fun item => (d.type, item)).foldlM (fun s p => s.declare p.1 p.2) s := by
      rw [Scope.declareAll, List.foldlM_map]
    rw [List.foldlM_cons, declaredItems, List.flatMap_cons, List.foldlM_append, hitems]
    exact congrArg _ (funext ih)

/-- So all declarations together declare their items, or the first one at fault is reported. -/
theorem Scope.declares_ofDeclarations (ds : List Declaration) :
    Declares (declaredItems ds) (Scope.ofDeclarations ds) := by
  have hempty : Scope.empty.Records [] := .nil
  rw [Scope.ofDeclarations, Scope.foldlM_declareAll]
  exact hempty.declares ⟨by simp, List.nodup_nil⟩ (declaredItems ds)

/-- The scope of a program records its items, and all of them may be declared. -/
theorem Scope.records_ofDeclarations {ds : List Declaration} {scope : Scope}
    (h : Scope.ofDeclarations ds = .ok scope) :
    scope.Records (declaredItems ds) ∧ Declarable (declaredItems ds) := by
  have hdeclares := Scope.declares_ofDeclarations ds
  rw [h] at hdeclares
  cases hdeclares with
  | ok hitems hrecords => exact ⟨hrecords, hitems⟩

/-- Every variable of a table is found under its name. -/
theorem Scope.find?_of_mem {ds : List Declaration} {scope : Scope}
    (h : Scope.ofDeclarations ds = .ok scope) (hv : v ∈ scope.declared) :
    scope.find? v.name = some v := by
  obtain ⟨hrecords, hitems⟩ := Scope.records_ofDeclarations h
  obtain ⟨hlength, hzip⟩ := List.forall₂_iff_zip.mp hrecords
  obtain ⟨p, hpair⟩ := exists_mem_zip_left hlength hv
  have hv : v.Records p.1 p.2 := hzip hpair
  rw [hrecords.find?_eq_some_iff hitems.distinct]
  exact ⟨p, (List.of_mem_zip hpair).2, hv.name.symm, hv⟩

/-! ## First values -/

/-- What each slot of a variable holds at first. -/
def elementText (type : DataType) : String := if type.isNumeric then "0" else "''"

/-- What a variable holds at first: one value, a list with two more slots than
its extent, or a list of such rows. -/
def initialText (type : DataType) : (dims : List Int) → String
  | [] => elementText type
  | [n] => "[" ++ elementText type ++ "] * " ++ toString (n + 2)
  | n :: m :: _ =>
    "[[" ++ elementText type ++ "] * " ++ toString (m + 2) ++ " for _ in range("
      ++ toString (n + 2) ++ ")]"

/-- An array has two slots more than its extent. -/
theorem render_slots {n : Int} (h : 1 ≤ n) :
    (Python.Expr.int (Shape.slots n.toNat)).render = toString (n + 2) := by
  rw [Python.Expr.render]
  congr 1
  simp only [Shape.slots]
  omega

/-- The first value of an element is told by its type. -/
theorem Variable.render_initialElement (v : Variable) :
    v.initialElement.render = elementText v.type := by
  unfold Variable.initialElement elementText
  split
  · rfl
  · rfl

/-- An array is written as one element that is repeated. -/
theorem render_repeated (e : Python.Expr) {n : Int} (h : 1 ≤ n) :
    (Python.Expr.binary .mul (.single e) (.int (Shape.slots n.toNat))).render =
      "[" ++ e.render ++ "] * " ++ toString (n + 2) := by
  rw [Python.Expr.render, render_slots h]
  apply String.toList_inj.mp
  simp [Python.Expr.render, Python.enclose, Python.Expr.level, Python.Level.rank,
    Python.Operator.level, Python.Operator.text]

/-- The variable of a declared item has its name, and holds what the item is to
hold at first. -/
theorem Variable.ofItem_ok (h : Variable.ofItem type item = .ok v) :
    v.name = item.name ∧ v.initialValue.render = initialText type item.dims := by
  unfold Variable.ofItem at h
  cases hshape : Shape.ofExtents item.dims with
  | error cause => simp [hshape] at h
  | ok shape =>
    simp only [hshape] at h
    injection h with h
    subst h
    refine ⟨rfl, ?_⟩
    -- a scalar, a list, and a list of rows are written in different forms
    rcases Shape.ofExtents_ok hshape with ⟨hdims, rfl⟩ | ⟨n, hn, hdims, rfl⟩ |
      ⟨n, m, hn, hm, hdims, rfl⟩
    · rw [hdims, initialText]
      exact Variable.render_initialElement _
    · rw [hdims, initialText]
      refine (render_repeated _ hn).trans ?_
      rw [Variable.render_initialElement]
    · rw [hdims, initialText, Variable.initialValue, Python.Expr.render, render_repeated _ hm,
        render_slots hn, Variable.render_initialElement]
      apply String.toList_inj.mp
      simp

/-- The variable that records a well-shaped item is the one that is made of it. -/
theorem Variable.Records.ofItem_eq
    (h : v.Records type item) (hwell : item.WellShaped) : Variable.ofItem type item = .ok v := by
  rcases Variable.ofItem_cases type item with ⟨w, hw, hrecords, -⟩ | ⟨cause, -, hmisshapen⟩
  · rw [hw, hrecords.unique h]
  · exact absurd hwell hmisshapen.not_wellShaped

/-- Each item has one line. -/
theorem Scope.Records.lines_eq {s : Scope} {items : List (DataType × Item)} (h : s.Records items)
    (hshaped : ∀ p ∈ items, p.2.WellShaped) :
    (Python.outlineAll (s.declared.map Variable.initialise)).lines = items.map fun p =>
      ⟨0, Python.safeName p.2.name ++ " = " ++ initialText p.1 p.2.dims⟩ := by
  obtain ⟨vs⟩ := s
  unfold Scope.Records at h
  simp only at h ⊢
  induction h with
  | nil => rfl
  | @cons v p vs items hv _ ih =>
    rw [List.forall_mem_cons] at hshaped
    obtain ⟨hname, hvalue⟩ := Variable.ofItem_ok (hv.ofItem_eq hshaped.1)
    rw [List.map_cons, List.map_cons, Python.outlineAll, Python.Outline.lines_append,
      ih hshaped.2, Variable.initialise, Python.Stmt.outline, Python.Expr.render, hname, hvalue]
    rfl

/-- The report on a name that is declared again cites a line. -/
theorem Fault.message_redeclared (name : String) (line : Nat) (loc : Location) :
    (Fault.mk (.redeclared name line) loc).message = "Declaration error at " ++ loc.cite ++ ": '" ++
      name ++ "' is already declared at line " ++ toString line := by
  have hkind : "Declaration" ++ " error at " = "Declaration error at " := by decide
  have hquote : ": " ++ "'" = ": '" := by decide
  show "Declaration" ++ " error at " ++ loc.cite ++ ": " ++
    ("'" ++ name ++ "' is already declared at line " ++ toString line) = _
  rw [hkind, ← hquote]
  simp only [String.append_assoc]

/-- **Declarations are accepted exactly when valid.** All items must have at most two extents, each
at least 1, and different names. Then there is one line for each item, in order, and the table finds
exactly the declared names, each with its own type and extents. Otherwise the first item that has no
shape or repeats a name is reported, and for a repeated name the line where it was declared. -/
theorem Scope.ofDeclarations_exact (ds : List Declaration) :
    ((∃ scope, Scope.ofDeclarations ds = .ok scope) ↔
      (∀ p ∈ declaredItems ds, p.2.dims.length ≤ 2 ∧ ∀ n ∈ p.2.dims, 1 ≤ n) ∧
      ((declaredItems ds).map fun p => p.2.name).Nodup) ∧
    (∀ scope, Scope.ofDeclarations ds = .ok scope →
      (Python.outlineAll (scope.declared.map Variable.initialise)).lines =
        ((declaredItems ds).map fun p =>
          ⟨0, Python.safeName p.2.name ++ " = " ++ initialText p.1 p.2.dims⟩) ∧
      ∀ name v, scope.find? name = some v ↔
        ∃ p ∈ declaredItems ds, p.2.name = name ∧ v.Records p.1 p.2) ∧
    ∀ f, Scope.ofDeclarations ds = .error f → f.kind = .declaration ∧
      ∃ before p behind, declaredItems ds = before ++ p :: behind ∧ f.loc = p.2.loc ∧
        (∀ q ∈ before, q.2.WellShaped) ∧ (before.map fun q => q.2.name).Nodup ∧
        (p.2.Misshapen f.cause ∨ p.2.WellShaped ∧ ∃ q ∈ before, q.2.name = p.2.name ∧
          f.message = "Declaration error at " ++ p.2.loc.cite ++ ": '" ++ p.2.name ++
            "' is already declared at line " ++ toString q.2.loc.line) := by
  have hdeclares := Scope.declares_ofDeclarations ds
  generalize declaredItems ds = items at hdeclares ⊢
  generalize Scope.ofDeclarations ds = result at hdeclares ⊢
  cases hdeclares with
  | @ok s hitems hrecords =>
    refine ⟨⟨fun _ => ⟨hitems.shaped, hitems.distinct⟩, fun _ => ⟨s, rfl⟩⟩, ?_, ?_⟩
    · intro scope hscope
      obtain rfl := Except.ok.inj hscope
      exact ⟨hrecords.lines_eq hitems.shaped,
        fun name v => hrecords.find?_eq_some_iff hitems.distinct⟩
    · intro f hf
      cases hf
  | @error before behind p f hsplit hbefore hrefused =>
    refine ⟨⟨?_, ?_⟩, ?_, ?_⟩
    · rintro ⟨scope, hscope⟩
      cases hscope
    · -- the refused item is ill-shaped or has the name of one before it
      rintro ⟨hshaped, hdistinct⟩
      subst hsplit
      cases hrefused with
      | shape hmisshapen => exact absurd (hshaped p (by simp)) hmisshapen.not_wellShaped
      | @repeated q _ hq hname =>
        rw [List.map_append, List.nodup_append] at hdistinct
        have hthere : q.2.name ∈ before.map fun q => q.2.name := List.mem_map_of_mem hq
        have hhere : p.2.name ∈ (p :: behind).map fun q => q.2.name :=
          List.mem_map_of_mem List.mem_cons_self
        exact absurd hname (hdistinct.2.2 _ hthere _ hhere)
    · intro scope hscope
      cases hscope
    · intro g hg
      obtain rfl := Except.error.inj hg
      cases hrefused with
      | shape hmisshapen =>
        exact ⟨hmisshapen.kind_eq, before, p, behind, hsplit, rfl, hbefore.shaped,
          hbefore.distinct, .inl hmisshapen⟩
      | @repeated q hwell hq hname =>
        exact ⟨rfl, before, p, behind, hsplit, rfl, hbefore.shaped, hbefore.distinct,
          .inr ⟨hwell, q, hq, hname, Fault.message_redeclared _ _ _⟩⟩

/-- The declarations `DCL (a(3), b) FIXED BINARY; DCL (c, b) CHARACTER(2)`, each on its line. -/
def Declaration.twice : List Declaration :=
  [⟨[⟨"a", [3], ⟨1, 6⟩⟩, ⟨"b", [], ⟨1, 12⟩⟩], .fixedBinary none, ⟨1, 1⟩⟩,
    ⟨[⟨"c", [], ⟨2, 6⟩⟩, ⟨"b", [], ⟨2, 9⟩⟩], .character 2 false, ⟨2, 1⟩⟩]

/-- A name in a later declaration is refused for one in an earlier declaration. -/
theorem Scope.ofDeclarations_exact_twice : ∃ f, Scope.ofDeclarations Declaration.twice = .error f ∧
    f.kind = .declaration ∧
    f.message = "Declaration error at line 2, column 9: 'b' is already declared at line 1" := by
  have hrefused : Scope.ofDeclarations Declaration.twice =
    .error ⟨.redeclared "b" 1, ⟨2, 9⟩⟩ := rfl
  exact ⟨_, hrefused, ((Scope.ofDeclarations_exact _).2.2 _ hrefused).1, by decide +kernel⟩

end Plic
