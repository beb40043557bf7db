import Plic.Proofs.Grammar.Source
import Plic.Proofs.Lowering.Rules
import Plic.Proofs.Python.Render

/-!
# Grouping is preserved

What an expression is to be in Python is said directly on its tree
(`Expr.intended`): operators keep their operands, `||` adds texts, `SUBSTR`
slices its first argument, `INDEX` searches and adds 1. The text that is
written for the expression has one reading, and it is that tree.

Main results:

* `Expr.HasCode.plain` — the code for every expression whose variables have words
  for names can be read.
* `Expr.HasCode.tree_eq` — the tree of the code for a well-formed expression.
* `Expr.reads_render_iff` — the one reading of its text.
-/

namespace Plic

open Python (Tree Plain IsName Reads)

/-! ## The intended tree -/

/-- The value of a literal behind any number of signs. -/
def Expr.value? : Expr → Option Int
  | .number n _ => some n
  | .neg e _ => e.value?.map Neg.neg
  | _ => none

/-- A text as it is, anything else made one. -/
def Expr.stringTree (e : Expr) (t : Tree) : Tree :=
  if e.isText then t else .call (.name "_pli_str") [t]

/-- The lower bound of a slice: one less than the place where it starts, as an
integer where that place is a literal. -/
def Expr.lowTree (start : Expr) (t : Tree) : Tree :=
  match start.value? with
  | some v => .ofInt (v - 1)
  | none => .binary .sub t (.int 1)

/-- The upper bound of a slice: its length behind the lower bound, as an integer
where start and length are literals and 64 bits hold it. -/
def Expr.highTree (start length : Expr) (low t : Tree) : Tree :=
  match start.value?, length.value? with
  | some v, some n =>
    if -2 ^ 63 ≤ v - 1 + n ∧ v - 1 + n < 2 ^ 63 then .ofInt (v - 1 + n) else .binary .add low t
  | _, _ => .binary .add low t

mutual

/-- What an expression is to be in Python. A call with another number of
arguments than its function takes is to be nothing. -/
def Expr.intended : Expr → Tree
  | .number n _ => .ofInt n
  | .text s _ => .str s
  | .var name subscripts _ =>
    (intendedAll subscripts).foldl .index (.name (Python.safeName name))
  | .neg e _ => .neg e.intended
  | .binary .add l r _ => .binary .add l.intended r.intended
  | .binary .sub l r _ => .binary .sub l.intended r.intended
  | .binary .mul l r _ => .binary .mul l.intended r.intended
  | .binary .div l r _ => .binary .div l.intended r.intended
  | .binary .concat l r _ =>
    .binary .add (l.stringTree l.intended) (r.stringTree r.intended)
  | .call .substr [s, start] _ =>
    .sliceFrom (s.stringTree s.intended) (start.lowTree start.intended)
  | .call .substr [s, start, length] _ =>
    .slice (s.stringTree s.intended) (start.lowTree start.intended)
      (start.highTree length (start.lowTree start.intended) length.intended)
  | .call .index [s, part] _ =>
    .binary .add
      (.call (.member (s.stringTree s.intended) "find") [part.stringTree part.intended]) (.int 1)
  | .call .decimal [e] _ => .call (.name "str") [e.intended]
  | .call .mod [l, r] _ => .binary .mod l.intended r.intended
  -- other numbers of arguments do not come from the parser
  | .call _ _ _ => .name ""
  | .endfile file _ => .call (.name "_pli_endfile") [.str file]

/-- The intended trees of a list. -/
def intendedAll : List Expr → List Tree
  | [] => []
  | e :: es => e.intended :: intendedAll es

end

/-! ## Names -/

namespace Python

theorem isWord_of_isSmallWord {n : String} (h : IsSmallWord n) : Lexer.IsWord n.toList := by
  have hstart : ∀ c : Char, c.isLower ∨ c = '_' → Lexer.isNameStart c := by
    rintro c (hc | rfl)
    · simp [Lexer.isNameStart, Char.isAlpha, hc]
    · decide
  unfold IsSmallWord at h
  unfold Lexer.IsWord
  cases hcs : n.toList with
  | nil => simp [hcs] at h
  | cons c cs =>
    rw [hcs] at h
    refine ⟨hstart c h.1, fun d hd => ?_⟩
    rw [Lexer.isNameRest, Bool.or_eq_true]
    obtain hlower | hdigit | hline := h.2 d hd
    · exact .inl (hstart d (.inl hlower))
    · exact .inr hdigit
    · exact .inl (hstart d (.inr hline))

theorem isWord_append_line {cs : List Char} (h : Lexer.IsWord cs) :
    Lexer.IsWord (cs ++ ['_']) := by
  cases cs with
  | nil => exact absurd h id
  | cons c cs =>
    exact ⟨h.1, List.forall_mem_append.mpr ⟨h.2, List.forall_mem_singleton.mpr (by decide)⟩⟩

/-- No variable or procedure is called as a keyword. -/
theorem isName_safeName {n : String} (h : IsSmallWord n) : IsName (safeName n) := by
  have hword := isWord_of_isSmallWord h
  rw [safeName]
  split
  · refine ⟨by simpa using isWord_append_line hword, ?_⟩
    -- the underscore behind the word takes it out of the keywords
    have hlast : ∀ k ∈ keywords, k.toList.getLast? ≠ some '_' := by decide
    intro hkeyword
    exact hlast _ hkeyword (by simp)
  · rename_i hfree
    refine ⟨hword, fun hkeyword => hfree (.inl ?_)⟩
    -- a word that is left as it is, is not reserved
    have hreserved : ∀ k ∈ keywords, k ∈ reserved := by decide
    exact hreserved n hkeyword

end Python

/-! ## Lowering -/

/-- Literals of a well-formed expression fit 63 bits, so none is lost to the check of their range.
-/
theorem Expr.Formed.literal?_eq {e : Expr} (h : e.Formed) :
    e.literal? = e.value? ∧ ∀ v ∈ e.value?, -2 ^ 63 < v ∧ v < 2 ^ 63 := by
  induction h with
  | @number n _ hnonneg hlt =>
    refine ⟨rfl, ?_⟩
    rintro _ ⟨⟩
    omega
  | @neg e _ _ ih =>
    obtain ⟨hliteral, hrange⟩ := ih
    rw [Expr.literal?, Expr.value?, hliteral]
    cases hv : e.value? with
    | none => simp
    | some v =>
      have hv := hrange v (by rw [hv]; rfl)
      -- the range is symmetric, so a sign never leaves it
      have hfits : fitsInt64 (-v) = true := by
        rw [fitsInt64, Bool.and_eq_true, decide_eq_true_eq, decide_eq_true_eq]
        omega
      simp [int64?, hfits]
      omega
  | _ => exact ⟨rfl, by rintro _ ⟨⟩⟩

theorem int64?_eq {n : Int} (h : -2 ^ 63 ≤ n ∧ n < 2 ^ 63) : int64? n = some n := by
  have hfits : fitsInt64 n = true := by
    rw [fitsInt64, Bool.and_eq_true, decide_eq_true_eq, decide_eq_true_eq]
    exact h
  rw [int64?, if_pos hfits]

/-- Any other number is not written out. -/
theorem int64?_eq_none {n : Int} (h : ¬(-2 ^ 63 ≤ n ∧ n < 2 ^ 63)) : int64? n = none := by
  have hfits : ¬ fitsInt64 n = true := by
    rw [fitsInt64, Bool.and_eq_true, decide_eq_true_eq, decide_eq_true_eq]
    exact h
  rw [int64?, if_neg hfits]

/-- A lower bound always fits: a literal is more than the least integer. -/
theorem Expr.Formed.literalLow?_eq {start : Expr} (h : start.Formed) :
    start.literalLow? = start.value?.map (· - 1) := by
  obtain ⟨hliteral, hrange⟩ := h.literal?_eq
  rw [Expr.literalLow?, hliteral]
  cases hv : start.value? with
  | none => rfl
  | some v =>
    have hv := hrange v (by rw [hv]; rfl)
    exact int64?_eq (by omega)

/-- The upper bound of a slice is written out if both parts are literals and their sum fits. -/
theorem Expr.Formed.literalHigh?_eq {start length : Expr} (hstart : start.Formed)
    (hlength : length.Formed) :
    start.literalHigh? length = start.value?.bind fun v => length.value?.bind fun n =>
      int64? (v - 1 + n) := by
  rw [Expr.literalHigh?, hstart.literalLow?_eq, hlength.literal?_eq.1]
  cases start.value? <;> rfl

/-! ## Codes that can be read -/

/-- An element with plain subscripts is plain. -/
theorem Python.plain_foldl_index {base : Python.Expr} {codes : List Python.Expr} (hbase : Plain base)
    (hint : ∀ n, base ≠ .int n) (hcodes : ∀ c ∈ codes, Plain c) :
    Plain (codes.foldl .index base) := by
  induction codes generalizing base with
  | nil => exact hbase
  | cons c cs ih =>
    obtain ⟨hc, hcs⟩ := List.forall_mem_cons.mp hcodes
    exact ih (.index hbase hint hc) (by simp) hcs

section

variable {scope : Scope}

/-- The variables of the expression have words in small letters for names. -/
def Expr.Worded (e : Expr) : Prop := ∀ r ∈ e.references, IsSmallWord r.name

variable {e : Expr} {code : Python.Expr}

/-- The operands of an expression use names that it uses. -/
theorem Expr.Worded.of_operand {o : Expr} (h : e.Worded) (ho : o ∈ e.operands) : o.Worded :=
  fun r hr => h r (Expr.references_of_operand ho hr)

/-- A text is no number, so it can be sliced without parentheses. -/
theorem Expr.HasCode.asText_ne_int (h : e.HasCode scope code)
    (n : Int) : e.asText code ≠ .int n := by
  unfold Expr.asText
  by_cases htext : e.isText
  · rw [if_pos htext]
    cases h with
    | text | concat | substr | substrLength | decimal =>
      intro hint
      cases hint
    -- the other forms are no texts
    | @binary op => cases op <;> simp_all [Expr.isText]
    | _ => simp [Expr.isText] at htext
  · rw [if_neg htext]
    intro hint
    cases hint

/-- A conversion can be read if what it converts can. -/
theorem Expr.plain_asText (e : Expr) (h : Plain code) : Plain (e.asText code) := by
  unfold Expr.asText
  split
  · exact h
  · exact .call (by simpa using h)

theorem Expr.plain_lowFrom (start : Expr) {b : Python.Expr} (h : Plain b) :
    Plain (start.lowFrom b) := by
  unfold Expr.lowFrom
  split
  · exact .int _
  · exact .binary h (.int 1)

theorem Expr.plain_highFrom (start length : Expr) {low c : Python.Expr} (hlow : Plain low)
    (hc : Plain c) : Plain (start.highFrom length low c) := by
  unfold Expr.highFrom
  split
  · exact .int _
  · exact .binary hlow hc

/-- The code for an expression can be read. -/
theorem Expr.HasCode.plain (h : e.HasCode scope code) (hworded : e.Worded) : Plain code := by
  induction h with
  | number => exact .int _
  | text => exact .str _
  | @var name subscripts loc codes _ hlength _ ih =>
    have hname : IsSmallWord name :=
      hworded ⟨name, subscripts, loc⟩ (Expr.mem_references.mpr (Expr.mem_parts_self _))
    refine Python.plain_foldl_index (.name (Python.isName_safeName hname)) nofun fun c hc => ?_
    -- each code stands beside the subscript that it was made for
    obtain ⟨s, hpair⟩ := exists_mem_zip_right hlength hc
    exact ih _ hpair (hworded.of_operand (List.of_mem_zip hpair).1)
  | neg _ ih => exact .neg (ih (hworded.of_operand (by simp [Expr.operands])))
  | @concat l r _ _ _ _ _ ihl ihr =>
    exact .binary (l.plain_asText (ihl (hworded.of_operand (by simp [Expr.operands]))))
      (r.plain_asText (ihr (hworded.of_operand (by simp [Expr.operands]))))
  | binary _ _ _ ihl ihr | mod _ _ ihl ihr =>
    exact .binary (ihl (hworded.of_operand (by simp [Expr.operands])))
      (ihr (hworded.of_operand (by simp [Expr.operands])))
  | @substr s start _ _ _ hs _ ihs ihstart =>
    have htext := s.plain_asText (ihs (hworded.of_operand (by simp [Expr.operands])))
    have hlow := start.plain_lowFrom (ihstart (hworded.of_operand (by simp [Expr.operands])))
    exact .sliceFrom htext hs.asText_ne_int hlow
  | @substrLength s start length _ _ _ _ _ hs _ _ ihs ihstart ihlength =>
    have htext := s.plain_asText (ihs (hworded.of_operand (by simp [Expr.operands])))
    have hlow := start.plain_lowFrom (ihstart (hworded.of_operand (by simp [Expr.operands])))
    have hc := ihlength (hworded.of_operand (by simp [Expr.operands]))
    exact .slice htext hs.asText_ne_int hlow (start.plain_highFrom length hlow hc)
  | @index s part _ _ _ hs _ ihs ihpart =>
    have htext := s.plain_asText (ihs (hworded.of_operand (by simp [Expr.operands])))
    have hsought := part.plain_asText (ihpart (hworded.of_operand (by simp [Expr.operands])))
    exact .binary (.find htext hs.asText_ne_int hsought) (.int 1)
  | decimal _ ih =>
    exact .call (List.forall_mem_singleton.mpr (ih (hworded.of_operand (by simp [Expr.operands]))))
  | endfile => exact .call (List.forall_mem_singleton.mpr (.str _))

/-! ## Parts of well-formed expressions -/

/-- What holds of all parts of a list holds of the parts of each expression. -/
theorem forall_mem_partsOfAll {P : Expr → Prop} {es : List Expr} :
    (∀ x ∈ partsOfAll es, P x) ↔ ∀ e ∈ es, ∀ x ∈ e.parts, P x := by
  constructor
  · intro h e he x hx
    exact h x (mem_partsOfAll.mpr ⟨e, he, hx⟩)
  · intro h x hx
    obtain ⟨e, he, hx⟩ := mem_partsOfAll.mp hx
    exact h e he x hx

/-- The parts of a well-formed expression are well formed. -/
theorem Expr.Formed.parts {e : Expr} (h : e.Formed) : ∀ x ∈ e.parts, x.Formed := by
  induction h with
  | number hlow hhigh => exact List.forall_mem_singleton.mpr (.number hlow hhigh)
  | text hfeed => exact List.forall_mem_singleton.mpr (.text hfeed)
  | endfile hfile => exact List.forall_mem_singleton.mpr (.endfile hfile)
  | var hname hsubscripts ih =>
    exact List.forall_mem_cons.mpr ⟨.var hname hsubscripts, forall_mem_partsOfAll.mpr ih⟩
  | neg he ih => exact List.forall_mem_cons.mpr ⟨.neg he, ih⟩
  | binary hl hr ihl ihr =>
    exact List.forall_mem_cons.mpr ⟨.binary hl hr, List.forall_mem_append.mpr ⟨ihl, ihr⟩⟩
  | call htakes hargs ih =>
    exact List.forall_mem_cons.mpr ⟨.call htakes hargs, forall_mem_partsOfAll.mpr ih⟩

/-- Its variables have words for names. -/
theorem Expr.Formed.worded (h : e.Formed) : e.Worded := by
  intro r hr
  have hformed := h.parts _ (Expr.mem_references.mp hr)
  unfold Reference.toExpr at hformed
  cases hformed with
  | var hname _ => exact hname.word

/-! ## Code and trees -/

/-- The functions with their arguments written out. -/
inductive Arguments : Builtin → List Expr → Prop where
  | substrTwo (s start : Expr) : Arguments .substr [s, start]
  | substrThree (s start length : Expr) : Arguments .substr [s, start, length]
  | index (s part : Expr) : Arguments .index [s, part]
  | decimal (e : Expr) : Arguments .decimal [e]
  | mod (l r : Expr) : Arguments .mod [l, r]

/-- The functions take one, two or three arguments, which can be told apart. -/
theorem exists_arguments {f : Builtin} {args : List Expr} (h : Grammar.Takes f args.length) :
    Arguments f args := by
  -- the number of arguments is counted by the parser
  generalize hn : args.length = n at h
  cases h with
  | substr =>
    obtain ⟨s, start, rfl⟩ := List.length_eq_two.mp hn
    exact .substrTwo s start
  | substrLength =>
    obtain ⟨s, start, length, rfl⟩ := List.length_eq_three.mp hn
    exact .substrThree s start length
  | index =>
    obtain ⟨s, part, rfl⟩ := List.length_eq_two.mp hn
    exact .index s part
  | decimal =>
    obtain ⟨e, rfl⟩ := List.length_eq_one_iff.mp hn
    exact .decimal e
  | mod =>
    obtain ⟨l, r, rfl⟩ := List.length_eq_two.mp hn
    exact .mod l r

theorem Expr.tree_asText (e : Expr) (code : Python.Expr) :
    (e.asText code).tree = e.stringTree code.tree := by
  unfold Expr.asText Expr.stringTree
  split <;> rfl

/-- The tree of the lower bound is the intended one. -/
theorem Expr.Formed.tree_lowFrom {start : Expr} (h : start.Formed) (b : Python.Expr) :
    (start.lowFrom b).tree = start.lowTree b.tree := by
  unfold Expr.lowFrom Expr.lowTree
  rw [h.literalLow?_eq]
  cases start.value? <;> rfl

theorem Expr.Formed.tree_highFrom {start length : Expr} (hstart : start.Formed)
    (hlength : length.Formed) (low c : Python.Expr) :
    (start.highFrom length low c).tree = start.highTree length low.tree c.tree := by
  unfold Expr.highFrom Expr.highTree
  rw [hstart.literalHigh?_eq hlength]
  cases start.value? with
  | none => rfl
  | some v =>
    cases length.value? with
    | none => rfl
    | some n =>
      simp only [Option.bind_some]
      -- the sum is written as a literal only where it is a number of 64 bits
      by_cases hfits : -2 ^ 63 ≤ v - 1 + n ∧ v - 1 + n < 2 ^ 63
      · rw [int64?_eq hfits, if_pos hfits]
        rfl
      · rw [int64?_eq_none hfits, if_neg hfits]
        rfl

/-- The codes for the subscripts of a variable, and what they select. -/
theorem tree_foldl_index {es : List Expr} {codes : List Python.Expr}
    (h : List.Forall₂ (fun e c => Python.Expr.tree c = Expr.intended e) es codes)
    (base : Python.Expr) :
    (codes.foldl .index base).tree = (intendedAll es).foldl .index base.tree := by
  induction h generalizing base with
  | nil => rfl
  | cons hcode _ ih =>
    -- the base of the next subscript is the element that this one selects
    rw [List.foldl_cons, ih, Python.Expr.tree, hcode, intendedAll, List.foldl_cons]

/-- The code for a well-formed expression reads as what the expression is to be. -/
theorem Expr.HasCode.tree_eq (h : e.HasCode scope code)
    (hformed : e.Formed) : code.tree = e.intended := by
  induction h with
  | number | text | endfile => rfl
  | var _ hlength _ ih =>
    cases hformed with
    | var _ hsubscripts =>
      refine tree_foldl_index (List.forall₂_iff_zip.mpr ⟨hlength, fun hp => ?_⟩) _
      exact ih _ hp (hsubscripts _ (List.of_mem_zip hp).1)
  | neg _ ih =>
    cases hformed with
    | neg hformed => rw [Python.Expr.tree, ih hformed, Expr.intended]
  | concat _ _ ihl ihr =>
    cases hformed with
    | binary hl hr =>
      -- only here are the operands made texts first
      rw [Python.Expr.tree, Expr.tree_asText, Expr.tree_asText, ihl hl, ihr hr, Expr.intended]
  | @binary op _ _ _ _ _ hop _ _ ihl ihr =>
    cases hformed with
    | binary hl hr =>
      rw [Python.Expr.tree, ihl hl, ihr hr]
      cases op <;> first | exact absurd rfl hop | rfl
  | substr _ _ ihs ihstart =>
    cases hformed with
    | call _ hargs =>
      simp only [List.forall_mem_cons] at hargs
      rw [Python.Expr.tree, Expr.tree_asText, hargs.2.1.tree_lowFrom, ihs hargs.1,
        ihstart hargs.2.1, Expr.intended]
  | substrLength _ _ _ ihs ihstart ihlength =>
    cases hformed with
    | call htakes hargs =>
      -- a well-formed call has no further argument
      cases exists_arguments htakes
      simp only [List.forall_mem_cons] at hargs
      obtain ⟨hs, hstart, hlength, -⟩ := hargs
      rw [Python.Expr.tree, Expr.tree_asText, hstart.tree_highFrom hlength, hstart.tree_lowFrom,
        ihs hs, ihstart hstart, ihlength hlength, Expr.intended]
  | index _ _ ihs ihpart =>
    cases hformed with
    | call _ hargs =>
      simp only [List.forall_mem_cons] at hargs
      rw [Python.Expr.tree, Python.Expr.tree.eq_def (.find _ _)]
      simp only [Expr.tree_asText, ihs hargs.1, ihpart hargs.2.1, Expr.intended]
      rfl
  | decimal _ ih =>
    cases hformed with
    | call _ hargs =>
      rw [Python.Expr.tree, Python.treeAll, Python.treeAll, ih (List.forall_mem_singleton.mp hargs),
        Expr.intended]
      rfl
  | mod _ _ ihl ihr =>
    cases hformed with
    | call _ hargs =>
      simp only [List.forall_mem_cons] at hargs
      rw [Python.Expr.tree, ihl hargs.1, ihr hargs.2.1, Expr.intended]

end

/-- The code for a well-formed expression can be read. -/
theorem Expr.Formed.plain {e : Expr} (h : e.Formed) {scope : Scope} {code : Python.Expr}
    (hcode : e.HasCode scope code) : Plain code := hcode.plain h.worded

/-! ## Parsed expressions -/

/-- The trees that the parser builds from an expression or a reference that
stands anywhere in a source. -/
inductive Expr.Parsed (source : String) : Expr → Prop where
  | expr {ts rest : List Token} {e : Expr} :
      ts <:+ (Lexer.ofSource source).tokenize.1 → Grammar.expr ts = .ok e rest → Parsed source e
  | reference {ts rest : List Token} {r : Reference} :
      ts <:+ (Lexer.ofSource source).tokenize.1 → Grammar.reference ts = .ok r rest →
      Parsed source r.toExpr

/-- Whatever is read from a source is well formed. -/
theorem Expr.Parsed.formed {source : String} {e : Expr} (h : e.Parsed source) : e.Formed := by
  have hformed := Lexer.formed_tokens source
  cases h with
  | expr hts hexpr =>
    -- the tokens that the parser took are tokens of the source
    obtain ⟨xs, rfl, hxs⟩ := Grammar.sound_expr hexpr
    exact hxs.formed fun t ht => hformed t (hts.subset (List.mem_append_left _ ht))
  | reference hts hreference =>
    obtain ⟨xs, rfl, hxs⟩ := Grammar.sound_reference hreference
    exact hxs.formed fun t ht => hformed t (hts.subset (List.mem_append_left _ ht))

/-- **Grouping is preserved.** The text that is written for an expression of a
source has exactly one reading as an expression of Python, and that is the
tree that the expression is to be. -/
theorem Expr.reads_render_iff {source : String} {e : Expr} (h : e.Parsed source) {scope : Scope}
    {code : Python.Expr} (hlower : e.lower scope = .ok code) (t : Tree) :
    Reads code.render t ↔ t = e.intended := by
  have hcode := e.hasCode_of_lower hlower
  rw [← hcode.tree_eq h.formed]
  exact (h.formed.plain hcode).reads_iff t

/-- A search in a sum of texts under a product. -/
theorem Expr.reads_render_iff_search :
    ∃ (e : Expr) (code : Python.Expr), e.Parsed "INDEX(s || t, u) * -(a - b)" ∧
      e.lower .empty = .ok code ∧
      code.render = "((_pli_str(s) + _pli_str(t)).find(_pli_str(u)) + 1) * -(a - b)" ∧
      ∀ t, Reads code.render t ↔ t = e.intended := by
  -- the sum in front of `.find` and the negated difference keep their parentheses
  have hcheck : (match Grammar.expr (Lexer.ofSource "INDEX(s || t, u) * -(a - b)").tokenize.1 with
      | .ok e _ =>
        match e.lower .empty with
        | .ok code => decide (code.render =
            "((_pli_str(s) + _pli_str(t)).find(_pli_str(u)) + 1) * -(a - b)")
        | .error _ => false
      | .error _ _ => false) = true := by decide +kernel
  cases hexpr : Grammar.expr (Lexer.ofSource "INDEX(s || t, u) * -(a - b)").tokenize.1 with
  | error f rest => simp [hexpr] at hcheck
  | ok e rest =>
    cases hlower : e.lower .empty with
    | error f => simp [hexpr, hlower] at hcheck
    | ok code =>
      simp only [hexpr, hlower, decide_eq_true_eq] at hcheck
      have hparsed : e.Parsed "INDEX(s || t, u) * -(a - b)" := .expr (List.suffix_refl _) hexpr
      exact ⟨e, code, hparsed, hlower, hcheck, reads_render_iff hparsed hlower⟩

end Plic
