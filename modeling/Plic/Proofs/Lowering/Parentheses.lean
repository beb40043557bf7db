import Plic.Proofs.Lowering.Expr
import Plic.Proofs.Python.Bared

/-!
# No parentheses without need

Code has the parentheses that keep its operands together, and no others but those around a sign
behind a sign: without any one of the pairs it would not be read as what it is to be. The pairs are
those around operands of operators and signs, and around texts that a slice is taken of or that are
searched. A text that is searched never ends with a bare number, so a point may follow it.

Main results:

* `Expr.HasCode.searchable` — no text in code is searched that a point may not follow.
* `Expr.parentheses_are_least` — every pair of parentheses is needed.
-/

namespace Plic

open Python (Reads Searchable)

variable {scope : Scope}

/-- A point may follow every text that is searched: what is no text by its form is made one by a
call, and a sum of texts ends with a text. -/
theorem Expr.HasCode.pointed_asText {e : Expr} {code : Python.Expr} (h : e.HasCode scope code) :
    (e.asText code).pointed = true := by
  induction h with
  | concat _ _ _ ihr =>
    show (_ || _) = true
    rw [ihr, Bool.or_true]
  | @binary op _ _ _ _ _ hop _ _ _ _ =>
    cases op with
    | concat => exact absurd rfl hop
    | _ => rfl
  | _ => rfl

/-- What is searched in is converted, so it ends in a parenthesis or a quote. -/
theorem Expr.searchable_asText (e : Expr) {code : Python.Expr} (h : Searchable code) :
    Searchable (e.asText code) := by
  unfold Expr.asText
  split_ifs
  · exact h
  · exact .call .text (List.forall_mem_singleton.mpr h)

theorem Expr.searchable_lowFrom (start : Expr) {b : Python.Expr} (h : Searchable b) :
    Searchable (start.lowFrom b) := by
  unfold Expr.lowFrom
  split
  · exact .int _
  · exact .binary .sub h (.int 1)

theorem Expr.searchable_highFrom (start length : Expr) {low c : Python.Expr}
    (hlow : Searchable low) (hc : Searchable c) : Searchable (start.highFrom length low c) := by
  unfold Expr.highFrom
  split
  · exact .int _
  · exact .binary .add hlow hc

/-- An element is searchable if its array and its subscripts are. -/
theorem searchable_foldl_index {base : Python.Expr} {codes : List Python.Expr}
    (hbase : Searchable base) (hcodes : ∀ c ∈ codes, Searchable c) :
    Searchable (codes.foldl .index base) := by
  induction codes generalizing base with
  | nil => exact hbase
  | cons c cs ih =>
    rw [List.forall_mem_cons] at hcodes
    exact ih (.index hbase hcodes.1) hcodes.2

/-- All code for expressions is searchable. -/
theorem Expr.HasCode.searchable {e : Expr} {code : Python.Expr} (h : e.HasCode scope code) :
    Searchable code := by
  induction h with
  | number => exact .int _
  | text => exact .str _
  | @var name subscripts loc codes _ hlength _ ih =>
    refine searchable_foldl_index (.name _) fun c hc => ?_
    obtain ⟨s, hpair⟩ := exists_mem_zip_right hlength hc
    exact ih _ hpair
  | neg _ ih => exact .neg ih
  | @concat l r _ _ _ _ _ ihl ihr =>
    exact .binary .add (l.searchable_asText ihl) (r.searchable_asText ihr)
  | binary _ _ _ ihl ihr | mod _ _ ihl ihr => exact .binary _ ihl ihr
  | @substr s start _ _ _ _ _ ihs ihstart =>
    exact .sliceFrom (s.searchable_asText ihs) (start.searchable_lowFrom ihstart)
  | @substrLength s start length _ _ _ _ _ _ _ _ ihs ihstart ihlength =>
    have hlow := start.searchable_lowFrom ihstart
    exact .slice (s.searchable_asText ihs) hlow (start.searchable_highFrom length hlow ihlength)
  -- a point may follow the text that is searched, since it ends with no bare number
  | @index s part _ _ _ hs _ ihs ihpart =>
    exact .binary .add (.find hs.pointed_asText (s.searchable_asText ihs)
      (part.searchable_asText ihpart)) (.int 1)
  | decimal _ ih => exact .call .str (List.forall_mem_singleton.mpr ih)
  | endfile => exact .call .endfile (List.forall_mem_singleton.mpr (.str _))

/-- **Parentheses are least.** Leave out of the text for an expression of a source any one pair of
parentheses around an operand, other than one around a sign behind a sign. What is left has no
reading as an expression of Python, or another one than the text had. -/
theorem Expr.parentheses_are_least {source : String} {e : Expr} (h : e.Parsed source)
    {code : Python.Expr} (hlower : e.lower scope = .ok code) {text : String}
    (hbared : code.Bared text) :
    (∃ (before after : String) (operand : Python.Expr),
      code.render = before ++ "(" ++ operand.render ++ ")" ++ after ∧
        text = before ++ operand.render ++ after) ∧
      Reads code.render e.intended ∧ ∀ t, Reads text t → t ≠ e.intended := by
  have hcode := e.hasCode_of_lower hlower
  have hplain := h.formed.plain hcode
  have hsearchable := (Expr.lower_eq_ok_iff.mp hlower).searchable
  refine ⟨hbared.exists_pair, ?_, ?_⟩
  -- with all of its parentheses, the text is read as intended
  · rw [← hcode.tree_eq h.formed]
    exact (hplain.reads_iff _).mpr rfl
  -- without the pair, there are too few in some place
  · rintro t ht rfl
    rw [← hcode.tree_eq h.formed] at ht
    exact hplain.not_reads_of_bared hsearchable hbared ht

/-- A search in a sum of texts under a product, and the same without the pair around the sum. -/
theorem Expr.parentheses_are_least_search :
    ∃ (e : Expr) (code : Python.Expr), e.Parsed "INDEX(s || t, u) * -(a - b)" ∧
      e.lower .empty = .ok code ∧
      code.render = "((_pli_str(s) + _pli_str(t)).find(_pli_str(u)) + 1) * -(a - b)" ∧
      code.Bared "(_pli_str(s) + _pli_str(t).find(_pli_str(u)) + 1) * -(a - b)" ∧
      ∀ t, Reads "(_pli_str(s) + _pli_str(t).find(_pli_str(u)) + 1) * -(a - b)" t →
        t ≠ e.intended := by
  have hexpr : Grammar.expr (Lexer.ofSource "INDEX(s || t, u) * -(a - b)").tokenize.1 =
      .ok (.binary .mul
          (.call .index [.binary .concat (.var "s" [] ⟨1, 7⟩) (.var "t" [] ⟨1, 12⟩) ⟨1, 9⟩,
            .var "u" [] ⟨1, 15⟩] ⟨1, 1⟩)
          (.neg (.binary .sub (.var "a" [] ⟨1, 22⟩) (.var "b" [] ⟨1, 26⟩) ⟨1, 24⟩) ⟨1, 20⟩) ⟨1, 18⟩)
        ((Lexer.ofSource "INDEX(s || t, u) * -(a - b)").tokenize.1.drop 15) := by cbv
  have hparsed := Expr.Parsed.expr (List.suffix_refl _) hexpr
  -- without its pair, the point would bind tighter than the sum in front of it
  have hbase := @Python.Expr.Bared.here
    (.find (.binary .add (.call .text [.name "s"]) (.call .text [.name "t"]))
      (.call .text [.name "u"])) _ [] _ _ rfl (by simp)
  have hsum := @Python.Expr.Bared.inside (.binary .add _ (.int 1)) _ [] _ _ _ _ rfl hbase
  have hproduct := @Python.Expr.Bared.inside
    (.binary .mul _ (.neg (.binary .sub (.name "a") (.name "b")))) _ [] _ _ _ _ rfl hsum
  obtain ⟨_, hbared, rfl⟩ : ∃ text, Python.Expr.Bared _ text ∧
      text = "(_pli_str(s) + _pli_str(t).find(_pli_str(u)) + 1) * -(a - b)" :=
    ⟨_, hproduct, by decide +kernel⟩
  exact ⟨_, _, hparsed, rfl, by decide +kernel, hbared,
    (@parentheses_are_least .empty _ _ hparsed _ rfl _ hbared).2.2⟩

end Plic
