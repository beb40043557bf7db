import Plic.Proofs.Lowering.Meaning
import Plic.Proofs.Python.Displays

/-!
# Storage of arrays

An array is declared with extents and stored with one slot more at each end of a
dimension, and its elements are referred to with the subscripts as they are written.
The two belong together: the text that makes the array and the text that refers to
one of its elements are written in different places, and have to agree on the order
of the dimensions and on where they begin.

The text that makes an array stands for one display, whatever its extents, and what
the display makes in memory has the right numbers of slots and no list twice. The
text of a reference selects one cell, told by the values of the subscripts. Within
the extents such a cell is never an outer slot, and to store into it changes no
other.

Main result: `padded_arrays`.
-/

namespace Plic

open Python (Display Displays TextDisplays Slot Heap Memory Library Env TextEvaluates safeName
  position)

/-! ## Slots -/

/-- The numbers of slots for extents, two more for each. -/
def slotsOf (extents : List Int) : List Nat := extents.map fun n => n.toNat + 2

theorem Shape.physical_eq (shape : Shape) : shape.physical = slotsOf shape.extents := by
  cases shape <;> simp [Shape.physical, slotsOf, Shape.extents, Shape.slots]

/-- Two slots more than any extent of 63 bits can still be counted with 64 bits. -/
theorem toNat_add_two {n : Int} (h : n ≤ 2 ^ 63 - 1) :
    (UInt64.ofNat n.toNat + 2).toNat = n.toNat + 2 := by
  have hsmall : n.toNat + 2 < 2 ^ 64 := by omega
  have hsame : n.toNat % 2 ^ 64 = n.toNat := Nat.mod_eq_of_lt (by omega)
  rw [UInt64.toNat_add, UInt64.toNat_ofNat', hsame]
  exact Nat.mod_eq_of_lt hsmall

/-- Each subscript lies within its extent. -/
def Within (extents is : List Int) : Prop := List.Forall₂ (fun n i => 1 ≤ i ∧ i ≤ n) extents is

/-- A subscript within its extent is the number of a slot, and not of the first or the last one. -/
theorem position_of_within {n i : Int} (h : 1 ≤ i ∧ i ≤ n) :
    position (n.toNat + 2) i = some i.toNat := by
  have hpos : 0 ≤ i := by omega
  have hrange : 0 ≤ i ∧ i < (n.toNat + 2 : Nat) := by omega
  simp only [position, if_pos hpos, if_pos hrange]

/-- Subscripts within the extents are positions of slots, without counting from the end. -/
theorem Within.resolves {extents is : List Int} (h : Within extents is) :
    Heap.Resolves (slotsOf extents) is (is.map Int.toNat) := by
  induction h with
  | nil => exact .nil
  | cons hi _ ih => exact .cons (position_of_within hi) ih

/-- Different subscripts within the extents are numbers of different slots. -/
theorem Within.map_toNat_inj {extents is js : List Int} (his : Within extents is)
    (hjs : Within extents js) : js.map Int.toNat = is.map Int.toNat ↔ js = is := by
  refine ⟨fun h => ?_, fun h => by rw [h]⟩
  -- subscripts within extents are not negative
  unfold Within at his hjs
  induction his generalizing js with
  | nil =>
    cases hjs
    rfl
  | cons hi _ ih =>
    obtain _ | ⟨hj, hjs⟩ := hjs
    simp only [List.map_cons, List.cons.injEq] at h
    rw [ih hjs h.2]
    congr 1
    omega

/-! ## The text that makes an array -/

namespace Variable

/-- The first value of an element. -/
def firstSlot {φ : Type} (v : Variable) : Slot φ := if v.type.isNumeric then .int 0 else .str ""

/-- What is written for one slot. -/
def elementDisplay (v : Variable) : Display := if v.type.isNumeric then .int 0 else .str ""

/-- What is written for all slots. -/
def display (v : Variable) : Display :=
  match v.shape with
  | .scalar => v.elementDisplay
  | .vector n => .times (.single v.elementDisplay) (.int (Shape.slots n))
  | .matrix n m =>
    .replicate (.times (.single v.elementDisplay) (.int (Shape.slots m))) (.int (Shape.slots n))

/-- The display of an element makes this value. -/
theorem makes_elementDisplay {φ : Type} (v : Variable) :
    v.elementDisplay.Makes (fun x : Slot φ => x = v.firstSlot) [] := by
  unfold elementDisplay firstSlot
  by_cases hnumeric : v.type.isNumeric
  · simp only [if_pos hnumeric]
    exact Display.makes_int 0
  · simp only [if_neg hnumeric]
    exact Display.makes_str ""

/-- What is written makes an array of the right size. -/
theorem makes_display {φ : Type} (v : Variable) :
    v.display.Makes (fun x : Slot φ => x = v.firstSlot) (slotsOf v.shape.extents) := by
  rw [← Shape.physical_eq]
  unfold display
  cases v.shape with
  | scalar => exact v.makes_elementDisplay
  | vector n => exact v.makes_elementDisplay.row (Shape.slots n)
  | matrix n m => exact (v.makes_elementDisplay.row (Shape.slots m)).rows (Shape.slots n)

/-- The text of an element is such a display. -/
theorem displays_initialElement (v : Variable) :
    Displays .factor v.initialElement.lexemes v.elementDisplay := by
  unfold initialElement elementDisplay
  by_cases hnumeric : v.type.isNumeric
  · rw [if_pos hnumeric, if_pos hnumeric]
    exact Python.displays_nat 0
  · rw [if_neg hnumeric, if_neg hnumeric]
    exact .literal ""

/-- The lexemes of a list of elements. -/
theorem displays_row (v : Variable) (n : Nat) :
    Displays .product
      (Python.Expr.binary .mul (.single v.initialElement) (.int (n : Int))).lexemes
      (.times (.single v.elementDisplay) (.int n)) := by
  have helement := v.displays_initialElement
  have hlist := Displays.list (.first helement (.last _))
  have hrow := Displays.first hlist (.further (Python.displays_nat n) (.last _))
  -- a list and a number stand beside the sign without parentheses
  have hlexemes : (Python.Expr.binary .mul (.single v.initialElement) (.int (n : Int))).lexemes =
      [.mark '['] ++ v.initialElement.lexemes ++ [.mark ']'] ++ [.mark '*'] ++
        (Python.Expr.int n).lexemes := by
    simp [Python.Expr.lexemes, Python.encloseLexemes, Python.Expr.level, Python.Operator.level,
      Python.Level.rank, Python.Operator.char]
  rw [hlexemes, Python.Expr.lexemes_natCast]
  simpa using hrow

/-- The text that makes an array stands for what is written for its slots. -/
theorem textDisplays_initialValue (v : Variable) : TextDisplays v.initialValue.render v.display := by
  have hfit : ∀ l ∈ v.initialElement.leaves, l.Fit := by
    unfold initialElement
    split <;> simp [Python.Expr.leaves, Python.Leaf.Fit]
  -- the first values have no names and no texts but the empty one
  have hleaves : ∀ l ∈ v.initialValue.leaves, l.Fit := by
    unfold initialValue
    cases v.shape <;> simpa [Python.Expr.leaves] using hfit
  refine ⟨v.initialValue.lexemes, v.initialValue.lexed_render hleaves, ?_⟩
  unfold initialValue display
  -- a row is repeated as it is, but a matrix makes each of its rows anew
  cases v.shape with
  | scalar => simpa using Displays.first v.displays_initialElement (.last _)
  | vector n => exact v.displays_row (Shape.slots n)
  | matrix n m =>
    have hcount := Displays.first (Python.displays_nat (Shape.slots n)) (.last _)
    have hrows := Displays.first (Displays.comprehension (v.displays_row (Shape.slots m)) hcount)
      (.last _)
    rw [Python.Expr.lexemes, Python.Expr.lexemes_natCast]
    simpa using hrows

/-- The text of a first value displays what the variable is to be, and nothing else. -/
theorem textDisplays_initialValue_iff (v : Variable) (d : Display) :
    TextDisplays v.initialValue.render d ↔ d = v.display :=
  ⟨fun h => h.unique v.textDisplays_initialValue, fun h => h ▸ v.textDisplays_initialValue⟩

end Variable

/-! ## The text of a reference -/

namespace Python

section

variable {φ : Type} (lib : Library φ) (env : Env φ)

/-- The text, read as a target, denotes the cell. -/
def TextSelects (text : String) (c : Cell) : Prop :=
  ∃ t e, Reads text t ∧ t.expr? = some e ∧ e.cell lib env = .ok c

variable {lib env}

/-- Subscripts behind a target select from what it denotes, in order. -/
theorem cell_of_foldl_index {base b : Expr} {codes : List Expr} {id : String} {before is : List Int}
    (hread : base.tree.expr? = some b) (hcell : b.cell lib env = .ok ⟨id, before⟩)
    (hcodes : List.Forall₂ (fun c i => Plain c ∧ c.eval lib env = .ok (.int i)) codes is) :
    ∃ e, (codes.foldl .index base).tree.expr? = some e ∧
      e.cell lib env = .ok ⟨id, before ++ is⟩ := by
  -- along the subscripts, with the cell that the ones before have selected
  induction hcodes generalizing base b before with
  | nil => exact ⟨b, hread, by rw [List.append_nil, hcell]⟩
  | @cons c i codes is hc _ ih =>
    obtain ⟨c', hc', hvalue⟩ := @Plain.standsFor _ lib env _ hc.1
    have hnext : (Expr.index base c).tree.expr? = some (.index b c') := by
      rw [Expr.tree, Tree.expr?, hread, hc']
      rfl
    have hselected : (Expr.index b c').cell lib env = .ok ⟨id, before ++ [i]⟩ :=
      Expr.cell_index_eq_ok_iff.mpr ⟨⟨id, before⟩, i, hcell, hvalue.trans hc.2, rfl⟩
    obtain ⟨e, he, hcell'⟩ := ih hnext hselected
    refine ⟨e, he, ?_⟩
    rw [hcell', List.append_assoc]
    rfl

/-- The text of a name with subscripts selects by the values of the subscripts' texts. -/
theorem textSelects_iff {id : String} (hid : IsName id) {codes : List Expr}
    (hcodes : ∀ c ∈ codes, Plain c) {is : List Int}
    (his : List.Forall₂ (fun c i => TextEvaluates lib env c.render (.int i)) codes is) (c : Cell) :
    TextSelects lib env (codes.foldl Expr.index (.name id)).render c ↔ c = ⟨id, is⟩ := by
  have hplain : Plain (codes.foldl .index (.name id)) :=
    plain_foldl_index (.name hid) nofun hcodes
  -- the texts of the subscripts have one reading, which has the value
  have hvalues : List.Forall₂ (fun c i => Plain c ∧ c.eval lib env = .ok (.int i)) codes is := by
    clear hplain
    induction his with
    | nil => exact .nil
    | cons hi _ ih =>
      obtain ⟨hc, hcs⟩ := List.forall_mem_cons.mp hcodes
      exact .cons ⟨hc, hc.textEvaluates_iff.mp hi⟩ (ih hcs)
  have hbase : (Expr.name id).tree.expr? = some (.name id) := rfl
  have hstart : (Expr.name id).cell lib env = .ok ⟨id, []⟩ := rfl
  obtain ⟨e, hread, hcell⟩ := cell_of_foldl_index hbase hstart hvalues
  constructor
  -- so has the text of the whole
  · rintro ⟨t, e', hreads, hread', hcell'⟩
    obtain rfl := (hplain.reads_iff t).mp hreads
    obtain rfl := Option.some.inj (hread'.symm.trans hread)
    exact Except.ok.inj (hcell'.symm.trans hcell)
  · rintro rfl
    exact ⟨_, e, (hplain.reads_iff _).mpr rfl, hread, hcell⟩

end

end Python

/-- The text of a reference has as many subscripts as the variable has extents, and selects by
their values. -/
theorem Reference.textSelects_iff {scope : Scope} {v : Variable} {r : Reference}
    {code : Python.Expr} (hv : scope.find? r.name = some v) (hworded : r.toExpr.Worded)
    (hr : r.lower scope = .ok code) :
    ∃ codes, List.Forall₂ (fun s c => s.lower scope = .ok c) r.subscripts codes ∧
      codes.length = v.shape.extents.length ∧
      ∀ {φ : Type} (lib : Library φ) (env : Env φ) (is : List Int),
        List.Forall₂ (fun c i => TextEvaluates lib env c.render (.int i)) codes is →
        ∀ c, Python.TextSelects lib env code.render c ↔ c = ⟨safeName r.name, is⟩ := by
  obtain ⟨name, subscripts, loc⟩ := r
  have hcode : (Expr.var name subscripts loc).HasCode scope code := Reference.hasCode_of_lower hr
  have hname : IsSmallWord name :=
    hworded ⟨name, subscripts, loc⟩ (Expr.mem_references.mpr (Expr.mem_parts_self _))
  cases hcode with
  | @var _ _ _ codes hrank hlength hcodes =>
    refine ⟨codes, ?_, ?_, fun lib env is his => ?_⟩
    · rw [List.forall₂_iff_zip]
      exact ⟨hlength, fun hp => Expr.lower_eq_ok_iff.mpr (hcodes _ hp)⟩
    -- the check has compared the number of subscripts with the rank of the variable
    · have hrank' : scope.rank name = v.shape.rank := by rw [Scope.rank, hv]
      rw [Shape.length_extents]
      omega
    · refine Python.textSelects_iff (Python.isName_safeName hname) (fun c hc => ?_) his
      obtain ⟨s, hpair⟩ := exists_mem_zip_right hlength hc
      exact (hcodes _ hpair).plain (hworded.of_operand (List.of_mem_zip hpair).1)

/-! ## Agreement -/

/-- Accepted extents are at least 1. -/
theorem one_le_extents {ds : List Declaration} {scope : Scope} {v : Variable}
    (hscope : Scope.ofDeclarations ds = .ok scope) (hv : scope.find? v.name = some v) :
    ∀ n ∈ v.shape.extents, 1 ≤ n := by
  have hdeclares := Scope.declares_ofDeclarations ds
  rw [hscope] at hdeclares
  cases hdeclares with
  | ok hitems hrecords =>
    obtain ⟨p, hp, -, hrecord⟩ := (hrecords.find?_eq_some_iff hitems.distinct).mp hv
    rw [hrecord.extents]
    exact (hitems.shaped p hp).2

/-- **Padded storage agrees with subscripts.** The slots of an accepted array are counted without
overflow. The text that makes it makes lists of these numbers of slots, none of them met twice. The
text of a reference selects by its subscripts as they are, in their order. Within the extents no
outer slot is selected, and what is stored at some subscripts is seen there and nowhere else. -/
theorem padded_arrays {ds : List Declaration} {scope : Scope} {v : Variable}
    (hscope : Scope.ofDeclarations ds = .ok scope) (hv : scope.find? v.name = some v)
    (harray : v.shape.extents ≠ []) (hfits : ∀ n ∈ v.shape.extents, n ≤ 2 ^ 63 - 1) (φ : Type) :
    (v.shape.physical = slotsOf v.shape.extents ∧
      ∀ n ∈ v.shape.extents, 1 ≤ n ∧ (UInt64.ofNat n.toNat + 2).toNat = n.toNat + 2) ∧
    (∃ d, (∀ d', TextDisplays v.initialValue.render d' ↔ d' = d) ∧
      ∀ m : Memory φ, ∃ m', m.make (safeName v.name) d = .ok m' ∧
        m'.Stores (fun _ => True) (safeName v.name) (slotsOf v.shape.extents) ∧
        ∀ is ks, Heap.Resolves (slotsOf v.shape.extents) is ks →
          m'.load ⟨safeName v.name, is⟩ = .ok v.firstSlot) ∧
    (∀ (r : Reference) (code : Python.Expr), r.name = v.name → r.toExpr.Worded →
      r.lower scope = .ok code →
      ∃ codes, List.Forall₂ (fun s c => s.lower scope = .ok c) r.subscripts codes ∧
        codes.length = v.shape.extents.length ∧
        ∀ (lib : Library φ) (env : Env φ) (is : List Int),
          List.Forall₂ (fun c i => TextEvaluates lib env c.render (.int i)) codes is →
          ∀ c, Python.TextSelects lib env code.render c ↔ c = ⟨safeName v.name, is⟩) ∧
    ∀ (m : Memory φ) (is : List Int),
      m.Stores (fun _ => True) (safeName v.name) (slotsOf v.shape.extents) →
      Within v.shape.extents is →
      List.Forall₂ (fun n i => ∃ k, position (n.toNat + 2) i = some k ∧ 0 < k ∧ k < n.toNat + 1)
        v.shape.extents is ∧
      (∃ x, m.load ⟨safeName v.name, is⟩ = .ok x) ∧
      ∀ new, ∃ m', m.store ⟨safeName v.name, is⟩ new = .ok m' ∧
        m'.Stores (fun _ => True) (safeName v.name) (slotsOf v.shape.extents) ∧
        ∀ js, Within v.shape.extents js → m'.load ⟨safeName v.name, js⟩ =
          if js = is then .ok new else m.load ⟨safeName v.name, js⟩ := by
  refine ⟨⟨v.shape.physical_eq, fun n hn => ?_⟩, ⟨v.display, v.textDisplays_initialValue_iff,
    fun m => ?_⟩, fun r code hname hworded hr => ?_, fun m is hm his => ⟨?_, ?_, fun new => ?_⟩⟩
  · exact ⟨one_le_extents hscope hv n hn, toNat_add_two (hfits n hn)⟩
  -- the text of the first value makes lists of the given sizes, none of them twice
  · obtain ⟨m', hmake, hstores⟩ := v.makes_display.stores m (safeName v.name)
    refine ⟨m', hmake, hstores.imp fun _ _ => trivial, fun is ks his => ?_⟩
    obtain ⟨x, hload, rfl⟩ := hstores.load his
    exact hload
  · rw [← hname] at hv
    obtain ⟨codes, hcodes, hlength, hselects⟩ := Reference.textSelects_iff hv hworded hr
    rw [← hname]
    exact ⟨codes, hcodes, hlength, hselects⟩
  · refine his.imp fun n i hi => ⟨i.toNat, position_of_within hi, by omega, by omega⟩
  · obtain ⟨x, hx, -⟩ := hm.load his.resolves
    exact ⟨x, hx⟩
  -- subscripts within the extents are distinct slots, so a store changes one of them
  · have hslots : slotsOf v.shape.extents ≠ [] := by simpa [slotsOf] using harray
    obtain ⟨m', hstore, hstores, hread⟩ := hm.store hslots his.resolves trivial
    refine ⟨m', hstore, hstores, fun js hjs => ?_⟩
    rw [hread js _ hjs.resolves]
    simp only [his.map_toNat_inj hjs]

/-- `DCL M(2, 3) FIXED BIN` -/
def Variable.twoByThree : Variable := ⟨"m", .fixedBinary none, .matrix 2 3, .nowhere⟩

/-- A matrix of two rows and three columns is made with four rows of five slots, and what is stored
in the first row is not seen in the second. -/
theorem padded_arrays_matrix :
    Scope.ofDeclarations [⟨[⟨"m", [2, 3], .nowhere⟩], .fixedBinary none, .nowhere⟩] =
      .ok ⟨[.twoByThree]⟩ ∧
    ∃ d, (∀ d', TextDisplays "[[0] * 5 for _ in range(4)]" d' ↔ d' = d) ∧
      ∃ m m' : Memory Empty, (⟨fun _ => none, []⟩ : Memory Empty).make "m" d = .ok m ∧
        m.store ⟨"m", [1, 3]⟩ (.int 7) = .ok m' ∧ m'.load ⟨"m", [1, 3]⟩ = .ok (.int 7) ∧
        m'.load ⟨"m", [2, 3]⟩ = .ok (.int 0) := by
  have hscope : Scope.ofDeclarations [⟨[⟨"m", [2, 3], .nowhere⟩], .fixedBinary none, .nowhere⟩] =
      .ok ⟨[.twoByThree]⟩ := rfl
  have hname : safeName Variable.twoByThree.name = "m" := by decide +kernel
  have htext : Variable.twoByThree.initialValue.render = "[[0] * 5 for _ in range(4)]" := by
    decide +kernel
  -- subscripts start at one, and slot zero stays unused
  have hwithin : ∀ i j : Int, 1 ≤ i ∧ i ≤ 2 → 1 ≤ j ∧ j ≤ 3 →
      Within Variable.twoByThree.shape.extents [i, j] := fun i j hi hj => .cons hi (.cons hj .nil)
  obtain ⟨-, ⟨d, hd, hmake⟩, -, haccess⟩ := @padded_arrays _ _ .twoByThree hscope rfl (by decide)
    (by decide) Empty
  rw [htext] at hd
  rw [hname] at hmake haccess
  obtain ⟨m, hm, hstores, hfirst⟩ := hmake ⟨fun _ => none, []⟩
  obtain ⟨-, -, hstore⟩ := haccess m [1, 3] hstores (hwithin 1 3 (by decide) (by decide))
  obtain ⟨m', hm', -, hread⟩ := hstore (.int 7)
  refine ⟨hscope, d, hd, m, m', hm, hm', ?_, ?_⟩
  · rw [hread _ (hwithin 1 3 (by decide) (by decide)), if_pos rfl]
  · rw [hread _ (hwithin 2 3 (by decide) (by decide)), if_neg (by decide)]
    exact hfirst _ _ (hwithin 2 3 (by decide) (by decide)).resolves

end Plic
