import Plic.Proofs.Grammar.Reading
import Plic.Proofs.Text.Lines

/-!
# The parser of expressions and conditions

Every function of the expression parser is sound and complete for the rule of
the same name. The parser reads the operands of a tier in a loop and groups
them afterwards, the rules are left-recursive; `expression_of_chain` and
`Expression.exists_chain` go from one form to the other.

An expression is read on as long as the next token can belong to it. `Ends`
says that it cannot, so completeness asks for it behind every expression.

Main results: `sound_expr`, `complete_expr`, `sound_reference`,
`complete_reference`, `sound_condition`, `complete_condition`.
-/

namespace Plic.Grammar

open Plic.Parser

/-! ## Names of files -/

/-- Letters, digits and what stands between them in the table are not blank. -/
theorem isBlank_eq_false {c : Char} (h : 48 ≤ c.toNat ∧ c.toNat ≤ 122) :
    Text.isBlank c = false := by
  simp [Text.isBlank, Text.blankRanges]
  omega

/-- The check of a file's name is the rule for it. -/
theorem isFileName_iff (cs : List Char) : isFileName cs = true ↔ IsFileName cs := by
  cases cs with
  | nil => simp [isFileName, IsFileName]
  | cons c cs => simp [isFileName, IsFileName, Char.isAlphanum, or_assoc]

/-- There are no blanks in the name of a file. -/
theorem IsFileName.not_blank {cs : List Char} (h : IsFileName cs) :
    ∀ c ∈ cs, Text.isBlank c = false := by
  cases cs with
  | nil => exact absurd h (by simp [IsFileName])
  | cons d ds =>
    intro c hc
    -- the first character may not be a digit, but this does not matter here
    have hrange : c.isAlpha ∨ c.isDigit ∨ c = '_' := by
      rcases List.mem_cons.mp hc with rfl | hc
      · rcases h.1 with ha | hu
        · exact .inl ha
        · exact .inr (.inr hu)
      · exact h.2 c hc
    apply isBlank_eq_false
    rcases hrange with ha | hd | rfl
    · have := Lexer.isAlpha_range ha
      omega
    · have := Lexer.isDigit_range hd
      omega
    · decide

theorem trim_eq {before name behind : List Char} (hname : IsFileName name)
    (hbefore : ∀ c ∈ before, Text.isBlank c) (hbehind : ∀ c ∈ behind, Text.isBlank c) :
    Text.trim (before ++ name ++ behind) = name := by
  refine Text.Trims.trim_eq ⟨⟨before, behind, rfl, hbefore, hbehind⟩, ?_, ?_⟩
  · exact fun c hc => hname.not_blank c (List.mem_of_mem_head? hc)
  · exact fun c hc => hname.not_blank c (List.mem_of_getLast? hc)

/-- A text names a file if what is left without the blanks around it is a name. -/
theorem namesFile_iff {value name : String} :
    NamesFile value name ↔
      isFileName (Text.trim value.toList) = true ∧
        String.ofList (Text.trim value.toList) = name := by
  constructor
  · rintro ⟨hname, before, behind, hvalue, hbefore, hbehind⟩
    rw [hvalue, trim_eq hname hbefore hbehind, isFileName_iff]
    exact ⟨hname, by simp⟩
  · rintro ⟨hname, rfl⟩
    obtain ⟨before, behind, hvalue, hbefore, hbehind⟩ := Text.exists_trim value.toList
    refine ⟨?_, before, behind, ?_, hbefore, hbehind⟩
    · rw [String.toList_ofList]
      exact (isFileName_iff _).mp hname
    · rw [String.toList_ofList]
      exact hvalue

variable {ts rest xs ys : List Token} {tier : Tier} {e : Expr} {operand nested : Parser Expr}
  {t : Token} {m : Symbol} {k : Keyword} {n : Nat} {f : Builtin}

/-- The name of a file is read from a text that names it. -/
theorem fileName_ok_iff {name : String} : fileName ts = .ok name rest ↔
      ∃ (t : Token) (value : String), t.kind = .text value ∧ NamesFile value name ∧
        ts = t :: rest := by
  rw [fileName, peek_bind]
  cases ts with
  | nil => simp [front, Token.endOfSource]
  | cons t ts =>
    cases ht : t.kind with
    | text value =>
      by_cases hname : isFileName (Text.trim value.toList) = true
      · simp only [front_cons, ht, hname, if_true]
        rw [advance_bind (by simp [ht]), pure_ok_iff]
        simp [ht, namesFile_iff, hname]
      · simp [ht, namesFile_iff, hname]
    | _ => simp [ht]

/-! ## Tiers -/

/-- The tiers whose operators stand between operands. -/
def Tier.IsBinary (tier : Tier) : Prop := tier ≠ .sign ∧ tier ≠ .primary

theorem isBinary_concat : Tier.concat.IsBinary := ⟨by simp, by simp⟩

theorem isBinary_sum : Tier.sum.IsBinary := ⟨by simp, by simp⟩

theorem isBinary_product : Tier.product.IsBinary := ⟨by simp, by simp⟩

/-- The table that the parser has for a tier. -/
def operatorOf : Tier → Token.Kind → Option Operator
  | .concat => concatOperator
  | .sum => sumOperator
  | .product => productOperator
  | _ => fun _ => none

/-- The operators of a tier are those that join its operands. -/
theorem operatorOf_symbol_iff (tier : Tier) (m : Symbol) (op : Operator) :
    operatorOf tier (.symbol m) = some op ↔ Joins tier m op := by
  constructor
  · cases tier <;> cases m <;> rintro ⟨⟩ <;> constructor
  · intro h
    cases h <;> rfl

theorem operatorOf_eq_some_iff (tier : Tier) (k : Token.Kind) (op : Operator) :
    operatorOf tier k = some op ↔ ∃ m, k = .symbol m ∧ Joins tier m op := by
  cases k with
  | symbol m => simp [operatorOf_symbol_iff]
  | _ => cases tier <;> simp [operatorOf, concatOperator, sumOperator, productOperator]

/-- An operator of a tier and the operand behind it. -/
inductive Continued (tier : Tier) : Rule (Operator × Location × Expr) where
  | intro {t : Token} {ys : List Token} {m : Symbol} {op : Operator} {r : Expr} :
      Joins tier m op → t.kind = .symbol m → Expression tier.tighter ys r →
      Continued tier (t :: ys) (op, t.loc, r)

/-- Operands grouped to the left. -/
def grouped (first : Expr) (items : List (Operator × Location × Expr)) : Expr :=
  items.foldl (fun left (op, loc, right) => .binary op left right loc) first

/-- A repetition can be made longer at its end. -/
theorem Repeated.snoc {α : Type} {R : Rule α} {as : List α} {b : α}
    (h : Repeated R xs as) (hb : R ys b) : Repeated R (xs ++ ys) (as ++ [b]) := by
  induction h with
  | nil =>
    have hone := Repeated.cons hb .nil
    rw [List.append_nil] at hone
    exact hone
  | cons hR _ ih =>
    rw [List.append_assoc]
    exact .cons hR ih

/-- Operands that are read one by one form an expression of their tier. -/
theorem expression_of_chain {first : Expr}
    {items : List (Operator × Location × Expr)} (h : Expression tier xs first)
    (hs : Repeated (Continued tier) ys items) :
    Expression tier (xs ++ ys) (grouped first items) := by
  induction hs generalizing xs first with
  | nil =>
    rw [List.append_nil]
    exact h
  | cons hitem _ ih =>
    cases hitem with
    | intro hjoins ht hr =>
      rw [← List.append_assoc]
      -- what was read so far becomes the left operand
      exact ih (.binary hjoins h ht hr)

/-- An expression of a tier of binary operators is a chain of operands. -/
theorem Expression.exists_chain (htier : tier.IsBinary) (h : Expression tier xs e) :
    ∃ ys zs first items, xs = ys ++ zs ∧ e = grouped first items ∧
      Expression tier.tighter ys first ∧ Repeated (Continued tier) zs items := by
  -- the left operand of an operator is a shorter expression of the same tier
  induction hn : xs.length using Nat.strong_induction_on generalizing xs e with
  | _ n ih =>
    cases h with
    | operand _ h => exact ⟨xs, [], e, [], by simp, rfl, h, .nil⟩
    | @binary _ ls ys t m op l r hjoins hl ht hr =>
      have hlt : ls.length < n := by
        rw [← hn, List.length_append, List.length_cons]
        omega
      obtain ⟨us, vs, first, items, rfl, rfl, hfirst, hitems⟩ := ih _ hlt hl rfl
      refine ⟨us, vs ++ t :: ys, first, items ++ [(op, t.loc, r)], by simp, ?_, hfirst,
        hitems.snoc (.intro hjoins ht hr)⟩
      rw [grouped, grouped, List.foldl_append]
      rfl
    | minus | plus => exact absurd rfl htier.1
    | number | text | reference | enclosed | call | endfile => exact absurd rfl htier.2

/-- A round of a tier: an operator and the operand behind it. -/
def tierRound (tier : Tier) (operand : Parser Expr) :
    Parser (Option (Operator × Location × Expr)) := do
  let t ← peek
  match operatorOf tier t.kind with
  | none => return none
  | some op => advance; return some (op, t.loc, ← operand)

/-- A tier is an operand and rounds, grouped from the left. -/
theorem tier_eq (tier : Tier) (operand : Parser Expr) :
    Grammar.tier (operatorOf tier) operand = (do
      let first ← operand
      let items ← many (tierRound tier operand)
      return grouped first items) := rfl

/-- What a round reads continues the tier. -/
theorem sound_tierRound (h : Sound operand (Expression tier.tighter)) :
    SoundRound (tierRound tier operand) (Continued tier) := by
  intro ts a? rest hts
  rw [tierRound, peek_bind] at hts
  -- a round takes an operator of its tier, or stops
  cases hoperator : operatorOf tier (front ts).kind with
  | none =>
    simp only [hoperator] at hts
    injection hts with ha hrest
    subst ha
    exact hrest
  | some op =>
    obtain ⟨m, hm, hjoins⟩ := (operatorOf_eq_some_iff tier _ _).mp hoperator
    have hne : (front ts).kind ≠ .eof := by simp [hm]
    obtain ⟨t, tail, rfl⟩ := exists_cons_of_front hne
    rw [front_cons] at hm
    simp only [hoperator] at hts
    rw [advance_bind (by simp [hm])] at hts
    obtain ⟨r, last, hoperand, hlast⟩ := bind_ok_iff.mp hts
    obtain ⟨ys, rfl, hr⟩ := h hoperand
    obtain ⟨rfl, rfl⟩ := pure_ok_iff.mp hlast
    exact ⟨t :: ys, rfl, .intro hjoins hm hr⟩

/-- What a tier reads is an expression of it: the rounds are added at the right one after the other.
-/
theorem sound_tier (htier : tier.IsBinary) (h : Sound operand (Expression tier.tighter)) :
    Sound (Grammar.tier (operatorOf tier) operand) (Expression tier) := by
  intro ts e rest hts
  rw [tier_eq] at hts
  obtain ⟨first, mid, hfirst, hnext⟩ := bind_ok_iff.mp hts
  obtain ⟨items, last, hitems, hlast⟩ := bind_ok_iff.mp hnext
  obtain ⟨xs, rfl, hxs⟩ := h hfirst
  obtain ⟨ys, rfl, hys⟩ := sound_many (sound_tierRound h) hitems
  obtain ⟨rfl, rfl⟩ := pure_ok_iff.mp hlast
  exact ⟨xs ++ ys, by rw [List.append_assoc], expression_of_chain (.operand htier.2 hxs) hys⟩

/-! ## Where an expression ends -/

/-- The marks behind an expression that would make it longer. A parenthesis does so for every tier,
since a name in front of it would have subscripts. -/
def Tier.goesOn : Tier → Symbol → Bool
  | _, .lparen => true
  | .product, .star | .product, .slash => true
  | .sum, .star | .sum, .slash | .sum, .plus | .sum, .minus => true
  | .concat, .star | .concat, .slash | .concat, .plus | .concat, .minus => true
  | .concat, .concat => true
  | _, _ => false

/-- No expression of the tier goes on with the token at the front. -/
def Ends (tier : Tier) (ts : List Token) : Prop :=
  ∀ m, (front ts).kind = .symbol m → tier.goesOn m = false

/-- An expression ends in front of every other mark. -/
theorem ends_of_symbol (h : t.kind = .symbol m)
    (hm : tier.goesOn m = false) (ts : List Token) : Ends tier (t :: ts) := by
  intro m' hm'
  rw [front_cons, h] at hm'
  injection hm' with hm'
  rw [← hm']
  exact hm

theorem ends_of_keyword (h : t.kind = .keyword k) (ts : List Token) : Ends tier (t :: ts) := by
  intro m hm
  rw [front_cons, h] at hm
  exact absurd hm (by simp)

/-- Where an expression ends, those of the tighter tiers end too. -/
theorem Ends.tighter {tier : Tier} {ts : List Token} (h : Ends tier ts) : Ends tier.tighter ts := by
  intro m hm
  have hm := h m hm
  revert hm
  cases tier <;> cases m <;> decide

theorem Ends.primary {tier : Tier} {ts : List Token} (h : Ends tier ts) : Ends .primary ts := by
  intro m hm
  have hm := h m hm
  revert hm
  cases tier <;> cases m <;> decide

/-- No expression ends in front of a parenthesis. -/
theorem Ends.not_lparen (h : Ends tier ts) : (front ts).kind ≠ .symbol .lparen := by
  intro hm
  have hm := h _ hm
  revert hm
  cases tier <;> decide

/-- An operator of a tier ends the operand before it. -/
theorem Joins.ends_tighter {op : Operator} (h : Joins tier m op) (ht : t.kind = .symbol m)
    (ts : List Token) : Ends tier.tighter (t :: ts) := by
  apply ends_of_symbol ht
  cases h <;> rfl

/-- No operator of the tier is at the front where an expression ends. -/
theorem Ends.operatorOf_eq_none (h : Ends tier ts) : operatorOf tier (front ts).kind = none := by
  rw [Option.eq_none_iff_forall_not_mem]
  intro op hop
  obtain ⟨m, hm, hjoins⟩ := (operatorOf_eq_some_iff tier _ _).mp hop
  have hgoes := h m hm
  cases hjoins <;> simp [Tier.goesOn] at hgoes

/-- All operators of a tier are read if the expression ends there, so grouping is the only thing
left to check. -/
theorem complete_tier (htier : tier.IsBinary)
    (h : Complete n operand (Expression tier.tighter) (Ends tier.tighter)) :
    Complete n (Grammar.tier (operatorOf tier) operand) (Expression tier) (Ends tier) := by
  intro xs e rest hlength hxs hends
  obtain ⟨ys, zs, first, items, rfl, rfl, hfirst, hitems⟩ := hxs.exists_chain htier
  rw [List.length_append] at hlength
  -- behind the first operand stands an operator of the tier, or what ends the whole
  have hnext : Ends tier.tighter (zs ++ rest) := by
    cases hitems with
    | nil => exact hends.tighter
    | cons hitem _ =>
      cases hitem with
      | intro hjoins ht _ => exact hjoins.ends_tighter ht _
  have hmany := complete_many (n := n) (R := Continued tier) (F := Ends tier)
    (G := Ends tier.tighter) (p := tierRound tier operand)
    ?round ?stop ?ne ?next (fun _ hF => hF.tighter)
  case round =>
    -- a round reads one operator and, by hypothesis, the operand behind it
    rintro _ _ tail hlen ⟨hjoins, ht, hr⟩ htail
    have hoperator := (operatorOf_eq_some_iff tier _ _).mpr ⟨_, ht, hjoins⟩
    rw [List.length_cons] at hlen
    rw [tierRound, peek_bind, List.cons_append, front_cons]
    simp only [hoperator]
    rw [advance_bind (by simp [ht]), bind_of_ok (h (by omega) hr htail)]
    rfl
  case stop =>
    intro tail htail
    rw [tierRound, peek_bind]
    simp only [htail.operatorOf_eq_none]
    rfl
  case ne =>
    rintro _ _ ⟨_, _, _⟩
    simp
  case next =>
    rintro _ _ tail ⟨hjoins, ht, _⟩
    exact hjoins.ends_tighter ht _
  rw [tier_eq, List.append_assoc, bind_of_ok (h (by omega) hfirst hnext),
    bind_of_ok (hmany (by omega) hitems hends)]
  rfl

/-! ## Signs -/

/-- One sign: the place of a minus, nothing for a plus. -/
inductive Signed : Rule (Option Location) where
  | minus {t : Token} : t.kind = .symbol .minus → Signed [t] (some t.loc)
  | plus {t : Token} : t.kind = .symbol .plus → Signed [t] none

/-- An operand behind some signs. -/
def withSigns (signs : List (Option Location)) (e : Expr) : Expr :=
  signs.foldr (fun sign e => match sign with | some loc => .neg e loc | none => e) e

/-- Signs in front of a primary expression make it a signed one. -/
theorem expression_of_signs {signs : List (Option Location)}
    (hs : Repeated Signed xs signs) (h : Expression .primary ys e) :
    Expression .sign (xs ++ ys) (withSigns signs e) := by
  induction hs with
  | nil => exact .operand (by simp) h
  | cons hsign _ ih =>
    cases hsign with
    | minus ht => exact .minus ht ih
    | plus ht => exact .plus ht ih

/-- A signed expression is a row of signs and an operand. -/
theorem Expression.exists_signs (h : Expression .sign xs e) :
    ∃ ys zs signs e', xs = ys ++ zs ∧ e = withSigns signs e' ∧ Repeated Signed ys signs ∧
      Expression .primary zs e' := by
  -- what stands behind a sign is a shorter expression of the same tier
  induction hn : xs.length using Nat.strong_induction_on generalizing xs e with
  | _ n ih =>
    cases h with
    | operand _ h => exact ⟨[], xs, [], e, rfl, rfl, .nil, h⟩
    | binary hjoins => exact absurd hjoins (by rintro ⟨⟩)
    | @minus t xs e ht h =>
      obtain ⟨ys, zs, signs, e', rfl, rfl, hsigns, he'⟩ := ih _ (by simp [← hn]) h rfl
      exact ⟨t :: ys, zs, some t.loc :: signs, e', rfl, rfl, .cons (.minus ht) hsigns, he'⟩
    | @plus t xs e ht h =>
      obtain ⟨ys, zs, signs, e', rfl, rfl, hsigns, he'⟩ := ih _ (by simp [← hn]) h rfl
      exact ⟨t :: ys, zs, none :: signs, e', rfl, rfl, .cons (.plus ht) hsigns, he'⟩

/-- A round of signs, which keeps the place of a minus and forgets a plus. -/
def signRound : Parser (Option (Option Location)) := do
  let t ← peek
  match t.kind with
  | .symbol .minus => advance; return some (some t.loc)
  | .symbol .plus => advance; return some none
  | _ => return none

/-- A signed operand is rounds of signs and the operand. -/
theorem signed_eq (operand : Parser Expr) :
    signed operand = (do
      let signs ← many signRound
      let e ← operand
      return withSigns signs e) := rfl

theorem sound_signRound : SoundRound signRound Signed := by
  intro ts a? rest hts
  rw [signRound, peek_bind] at hts
  -- only the two signs are taken; the place of a plus is not kept
  cases hk : (front ts).kind with
  | symbol m =>
    have hne : (front ts).kind ≠ .eof := by simp [hk]
    obtain ⟨t, tail, rfl⟩ := exists_cons_of_front hne
    rw [front_cons] at hk
    cases m with
    | minus =>
      simp only [front_cons, hk] at hts
      rw [advance_bind (by simp [hk])] at hts
      obtain ⟨rfl, rfl⟩ := pure_ok_iff.mp hts
      exact ⟨[t], rfl, .minus hk⟩
    | plus =>
      simp only [front_cons, hk] at hts
      rw [advance_bind (by simp [hk])] at hts
      obtain ⟨rfl, rfl⟩ := pure_ok_iff.mp hts
      exact ⟨[t], rfl, .plus hk⟩
    | _ =>
      simp only [front_cons, hk] at hts
      injection hts with ha hrest
      subst ha
      exact hrest
  | _ =>
    simp only [hk] at hts
    injection hts with ha hrest
    subst ha
    exact hrest

/-- What is read as a signed operand is one. -/
theorem sound_signed (h : Sound operand (Expression .primary)) :
    Sound (signed operand) (Expression .sign) := by
  intro ts e rest hts
  rw [signed_eq] at hts
  obtain ⟨signs, mid, hsigns, hnext⟩ := bind_ok_iff.mp hts
  obtain ⟨e', last, hoperand, hlast⟩ := bind_ok_iff.mp hnext
  obtain ⟨xs, rfl, hxs⟩ := sound_many sound_signRound hsigns
  obtain ⟨ys, rfl, hys⟩ := h hoperand
  obtain ⟨rfl, rfl⟩ := pure_ok_iff.mp hlast
  exact ⟨xs ++ ys, by rw [List.append_assoc], expression_of_signs hxs hys⟩

/-- The token at the front is no sign. -/
def Unsigned (ts : List Token) : Prop :=
  (front ts).kind ≠ .symbol .minus ∧ (front ts).kind ≠ .symbol .plus

/-- An operand begins with no sign. -/
theorem Expression.unsigned (h : Expression .primary xs e)
    (rest : List Token) : Unsigned (xs ++ rest) := by
  cases h with
  | operand htier => exact absurd rfl htier
  | binary hjoins => exact absurd hjoins (by rintro ⟨⟩)
  | number ht | text ht => simp [Unsigned, ht]
  | reference hr =>
    cases hr with
    | scalar ht | element ht => simp [Unsigned, ht]
  | enclosed ho => simp [Unsigned, ho]
  | call ht | endfile ht => simp [Unsigned, ht]

/-- All signs are read, since what follows them is none. -/
theorem complete_signed (h : Complete n operand (Expression .primary) (Ends .primary)) :
    Complete n (signed operand) (Expression .sign) (Ends .sign) := by
  intro xs e rest hlength hxs hends
  obtain ⟨ys, zs, signs, e', rfl, rfl, hsigns, he'⟩ := hxs.exists_signs
  rw [List.length_append] at hlength
  have hmany := complete_many (n := n) (R := Signed) (F := Unsigned) (G := fun _ => True)
    (p := signRound) ?round ?stop ?ne (fun _ _ _ _ => trivial) (fun _ _ => trivial)
  case round =>
    rintro _ _ tail hlen (ht | ht) -
    · rw [signRound, peek_bind, List.singleton_append, front_cons]
      simp only [ht]
      rw [advance_bind (by simp [ht])]
      rfl
    · rw [signRound, peek_bind, List.singleton_append, front_cons]
      simp only [ht]
      rw [advance_bind (by simp [ht])]
      rfl
  case stop =>
    intro tail ⟨hminus, hplus⟩
    rw [signRound, peek_bind]
    cases hk : (front tail).kind with
    | symbol m =>
      cases m with
      | minus => exact absurd hk hminus
      | plus => exact absurd hk hplus
      | _ => rfl
    | _ => rfl
  case ne =>
    rintro _ _ (_ | _) <;> simp
  -- the row of signs ends where the operand begins, whatever follows the operand
  rw [signed_eq, List.append_assoc, bind_of_ok (hmany (by omega) hsigns (he'.unsigned rest)),
    bind_of_ok (h (by omega) he' hends.primary)]
  rfl

/-! ## Operands -/

theorem sound_referenceOf (h : Sound nested (Expression .concat)) :
    Sound (referenceOf nested) Referenced := by
  intro ts r rest hts
  rw [referenceOf, peek_bind] at hts
  simp only [bind_ok_iff (p := identifier), identifier_ok_iff] at hts
  obtain ⟨n, mid, ⟨t, ht, rfl⟩, hts⟩ := hts
  rcases (accept_bind_ok_iff (by simp)).mp hts with ⟨o, mid, ho, rfl, helement⟩ | ⟨-, hscalar⟩
  · simp only [if_true, bind_ok_iff, symbol_ok_iff, pure_ok_iff] at helement
    obtain ⟨subscripts, _, hsubscripts, _, _, ⟨c, hc, rfl⟩, rfl, rfl⟩ := helement
    obtain ⟨xs, rfl, hxs⟩ := sound_commaList h hsubscripts
    exact ⟨t :: o :: xs ++ [c], by simp, .element ht ho hxs hc⟩
  · obtain ⟨rfl, rfl⟩ := pure_ok_iff.mp hscalar
    exact ⟨[t], rfl, .scalar ht⟩

theorem calls_iff : builtinOf k = some f ↔ Calls k f := by
  constructor
  · cases k <;> rintro ⟨⟩ <;> constructor
  · intro h
    cases h <;> rfl

/-- The number of arguments of a function lies between two bounds. -/
theorem takes_iff : Takes f n ↔ f.minArgs ≤ n ∧ n ≤ f.maxArgs := by
  constructor
  · intro h
    cases h <;> decide
  · rintro ⟨hmin, hmax⟩
    -- three of the functions have one number of arguments, `SUBSTR` has two
    cases f with
    | substr =>
      have hn : n = 2 ∨ n = 3 := by
        simp only [Builtin.minArgs, Builtin.maxArgs] at hmin hmax
        omega
      rcases hn with rfl | rfl
      · exact .substr
      · exact .substrLength
    | index =>
      obtain rfl : n = 2 := Nat.le_antisymm hmax hmin
      exact .index
    | decimal =>
      obtain rfl : n = 1 := Nat.le_antisymm hmax hmin
      exact .decimal
    | mod =>
      obtain rfl : n = 2 := Nat.le_antisymm hmax hmin
      exact .mod

/-- A call that is read has as many arguments as its function takes. -/
theorem sound_callOf (h : Sound nested (Expression .concat)) (hk : Calls k f)
    (ht : t.kind = .keyword k) (hts : callOf nested f (t :: ts) = .ok e rest) :
    ∃ xs, t :: ts = xs ++ rest ∧ Expression .primary xs e := by
  rw [callOf, peek_bind, front_cons, advance_bind (by simp [ht])] at hts
  simp only [bind_ok_iff, symbol_ok_iff] at hts
  obtain ⟨_, _, ⟨o, ho, rfl⟩, args, _, hargs, _, _, ⟨c, hc, rfl⟩, hts⟩ := hts
  obtain ⟨xs, rfl, hxs⟩ := sound_commaList h hargs
  split at hts
  · rename_i hcount
    obtain ⟨rfl, rfl⟩ := pure_ok_iff.mp hts
    exact ⟨t :: o :: xs ++ [c], by simp, .call ht hk ho hxs hc (takes_iff.mpr hcount)⟩
  · exact absurd hts (refuse_ne_ok _ _ _ _ _)

/-- The test for the end of a file is a call with the file's name. -/
theorem sound_endfile (ht : t.kind = .keyword .ENDFILE) (hts : endfile (t :: ts) = .ok e rest) :
    ∃ xs, t :: ts = xs ++ rest ∧ Expression .primary xs e := by
  rw [endfile, peek_bind, front_cons, advance_bind (by simp [ht])] at hts
  simp only [bind_ok_iff, symbol_ok_iff, fileName_ok_iff, pure_ok_iff] at hts
  obtain ⟨_, _, ⟨o, ho, rfl⟩, name, _, ⟨v, value, hv, hname, rfl⟩, _, _, ⟨c, hc, rfl⟩, rfl, rfl⟩ :=
    hts
  exact ⟨[t, o, v, c], rfl, .endfile ht ho hv hname hc⟩

/-- Whatever form a primary expression has, it is read by its rule. -/
theorem sound_primary (h : Sound nested (Expression .concat)) :
    Sound (primary nested) (Expression .primary) := by
  intro ts e rest hts
  -- every other kind stands for a token that is really there
  by_cases heof : (front ts).kind = .eof
  · rw [primary, peek_bind] at hts
    simp only [heof] at hts
    exact absurd hts (unexpected_ne_ok _ _ _ _ _)
  obtain ⟨t, ts, rfl⟩ := exists_cons_of_front heof
  rw [front_cons] at heof
  rw [primary, peek_bind, front_cons] at hts
  cases ht : t.kind with
  | number n =>
    simp only [ht] at hts
    rw [advance_bind heof] at hts
    obtain ⟨rfl, rfl⟩ := pure_ok_iff.mp hts
    exact ⟨[t], rfl, .number ht⟩
  | text value =>
    simp only [ht] at hts
    rw [advance_bind heof] at hts
    obtain ⟨rfl, rfl⟩ := pure_ok_iff.mp hts
    exact ⟨[t], rfl, .text ht⟩
  | name n =>
    simp only [ht] at hts
    obtain ⟨xs, r, mid, hxs, hr, hts⟩ := (sound_referenceOf h).of_bind hts
    obtain ⟨rfl, rfl⟩ := pure_ok_iff.mp hts
    exact ⟨xs, hxs, .reference hr⟩
  | symbol m =>
    cases m with
    | lparen =>
      simp only [ht] at hts
      rw [advance_bind heof] at hts
      simp only [bind_ok_iff, symbol_ok_iff, pure_ok_iff] at hts
      obtain ⟨_, _, he, _, _, ⟨c, hc, rfl⟩, rfl, rfl⟩ := hts
      obtain ⟨xs, rfl, hxs⟩ := h he
      exact ⟨t :: xs ++ [c], by simp, .enclosed ht hxs hc⟩
    | _ =>
      simp only [ht] at hts
      exact absurd hts (unexpected_ne_ok _ _ _ _ _)
  | keyword k =>
    -- the parser asks its table of functions before it tries `ENDFILE`
    cases hf : builtinOf k with
    | some f =>
      have hcalls := calls_iff.mp hf
      have hcall : callOf nested f (t :: ts) = .ok e rest := by
        rw [← hts, ht]
        cases hcalls <;> rfl
      exact sound_callOf h hcalls ht hcall
    | none =>
      cases k with
      | ENDFILE =>
        simp only [ht] at hts
        exact sound_endfile ht hts
      | _ =>
        simp only [ht, hf] at hts
        exact absurd hts (unexpected_ne_ok _ _ _ _ _)
  | query value =>
    simp only [ht] at hts
    exact absurd hts (unexpected_ne_ok _ _ _ _ _)
  | eof => exact absurd ht heof

/-- Arguments and subscripts are complete in front of a closing parenthesis. -/
theorem complete_arguments (h : Complete n nested (Expression .concat) (Ends .concat))
    {args : List Expr} {c : Token} (hlength : xs.length ≤ n)
    (hxs : Separated (Expression .concat) xs args) (hc : c.kind = .symbol .rparen)
    (rest : List Token) : commaList nested (xs ++ c :: rest) = .ok args (c :: rest) := by
  refine complete_commaList h (fun t ts ht => ends_of_symbol ht rfl ts) hlength hxs ⟨?_, ?_⟩
  · exact ends_of_symbol hc rfl rest
  · simp [hc]

/-- A name is read with its subscripts; without any it ends, as no parenthesis follows. -/
theorem complete_referenceOf (h : Complete n nested (Expression .concat) (Ends .concat)) :
    Complete (n + 1) (referenceOf nested) Referenced (Ends .primary) := by
  intro xs r rest hlength hxs hends
  cases hxs with
  | @scalar t id ht =>
    have hname : identifier (t :: rest) = .ok id rest := identifier_ok_iff.mpr ⟨t, ht, rfl⟩
    -- no parenthesis follows, so the name stands alone
    rw [List.singleton_append, referenceOf, peek_bind, front_cons, bind_of_ok hname,
      bind_of_ok (accept_other hends.not_lparen)]
    rfl
  | @element t o c id xs subscripts ht ho hxs hc =>
    have hname : identifier (t :: o :: (xs ++ c :: rest)) = .ok id (o :: (xs ++ c :: rest)) :=
      identifier_ok_iff.mpr ⟨t, ht, rfl⟩
    -- the name and the two parentheses leave room for the subscripts
    have hinner : xs.length ≤ n := by
      simp only [List.length_append, List.length_cons, List.length_nil] at hlength
      omega
    have hlist := complete_arguments h hinner hxs hc rest
    simp only [List.cons_append, List.append_assoc, List.nil_append]
    rw [referenceOf, peek_bind, front_cons, bind_of_ok hname,
      bind_of_ok (accept_cons (by simp) ho _)]
    show (commaList nested >>= _) _ = _
    rw [bind_of_ok hlist, symbol_bind hc]
    rfl

/-- A call with as many arguments as its function takes is read. -/
theorem complete_callOf
    (h : Complete n nested (Expression .concat) (Ends .concat)) {o c : Token} {args : List Expr}
    (ht : t.kind ≠ .eof) (ho : o.kind = .symbol .lparen)
    (hlength : xs.length ≤ n) (hxs : Separated (Expression .concat) xs args)
    (hc : c.kind = .symbol .rparen) (hargs : Takes f args.length) (rest : List Token) :
    callOf nested f (t :: o :: (xs ++ c :: rest)) = .ok (.call f args t.loc) rest := by
  rw [callOf, peek_bind, front_cons, advance_bind ht, symbol_bind ho,
    bind_of_ok (complete_arguments h hlength hxs hc rest), symbol_bind hc,
    if_pos (takes_iff.mp hargs)]
  rfl

/-- Every primary expression is read at one level more than what is nested in it. -/
theorem complete_primary (h : Complete n nested (Expression .concat) (Ends .concat)) :
    Complete (n + 1) (primary nested) (Expression .primary) (Ends .primary) := by
  intro xs e rest hlength hxs hends
  cases hxs with
  | operand htier => exact absurd rfl htier
  | binary hjoins => exact absurd hjoins (by rintro ⟨⟩)
  | @number t value ht | @text t value ht =>
    rw [List.singleton_append, primary, peek_bind, front_cons]
    simp only [ht]
    rw [advance_bind (by simp [ht])]
    rfl
  | @reference _ r hr =>
    obtain ⟨t, tail, id, hfront, ht⟩ : ∃ t tail id, xs = t :: tail ∧ t.kind = .name id := by
      cases hr with
      | scalar ht | element ht => exact ⟨_, _, _, rfl, ht⟩
    have href := complete_referenceOf h hlength hr hends
    subst hfront
    rw [List.cons_append] at href ⊢
    rw [primary, peek_bind, front_cons]
    simp only [ht]
    rw [bind_of_ok href]
    rfl
  | @enclosed o c xs e ho hxs hc =>
    simp only [List.length_append, List.length_cons, List.length_nil] at hlength
    simp only [List.cons_append, List.append_assoc, List.nil_append]
    rw [primary, peek_bind, front_cons]
    simp only [ho]
    rw [advance_bind (by simp [ho]), bind_of_ok (h (by omega) hxs (ends_of_symbol hc rfl rest)),
      symbol_bind hc]
    rfl
  | @call t o c k f xs args ht hk ho hxs hc hargs =>
    simp only [List.length_append, List.length_cons, List.length_nil] at hlength
    simp only [List.cons_append, List.append_assoc, List.nil_append]
    have hne : t.kind ≠ .eof := by simp [ht]
    have hcall := complete_callOf h hne ho (by omega) hxs hc hargs rest
    rw [primary, peek_bind, front_cons, ← hcall]
    -- the table sends each keyword to the function that the rule names
    cases hk <;> simp only [ht, builtinOf]
  | @endfile t o v c value name ht ho hv hname hc =>
    have hfile : fileName (v :: c :: rest) = .ok name (c :: rest) :=
      fileName_ok_iff.mpr ⟨v, value, hv, hname, rfl⟩
    simp only [List.cons_append, List.nil_append]
    rw [primary, peek_bind, front_cons]
    simp only [ht]
    rw [endfile, peek_bind, front_cons, advance_bind (by simp [ht]), symbol_bind ho,
      bind_of_ok hfile, symbol_bind hc]
    rfl

/-! ## Expressions -/

/-- At every depth what is read is an expression, by induction on the depth. -/
theorem sound_exprWithin (depth : Nat) : Sound (exprWithin depth) (Expression .concat) := by
  induction depth with
  | zero =>
    intro ts e rest hts
    -- at depth zero the parser refuses every input
    exact absurd hts (unexpected_ne_ok _ _ _ _ _)
  | succ depth ih =>
    have hsign := sound_signed (sound_primary ih)
    have hproduct := sound_tier isBinary_product hsign
    have hsum := sound_tier isBinary_sum hproduct
    exact sound_tier isBinary_concat hsum

/-- What is read as an expression is one. -/
theorem sound_expr : Sound expr (Expression .concat) :=
  fun ts _ _ hts => sound_exprWithin ts.length hts

/-- What is read as a reference is one. -/
theorem sound_reference : Sound reference Referenced := sound_referenceOf sound_expr

/-- No expression is empty. -/
theorem Expression.ne_nil {tier : Tier} {xs : List Token} {e : Expr} (h : Expression tier xs e) :
    xs ≠ [] := by
  match h with
  | .operand _ h => exact h.ne_nil
  | .binary .. => simp
  | .minus .. => simp
  | .plus .. => simp
  | .number _ => simp
  | .text _ => simp
  | .reference (.scalar _) => simp
  | .reference (.element ..) => simp
  | .enclosed .. => simp
  | .call .. => simp
  | .endfile .. => simp

/-- A depth is enough for all expressions that are no longer than it. -/
theorem complete_exprWithin (depth : Nat) :
    Complete depth (exprWithin depth) (Expression .concat) (Ends .concat) := by
  induction depth with
  | zero =>
    intro xs e rest hlength hxs
    -- depth zero only has to read expressions of no tokens, and there are none
    exact absurd (List.length_eq_zero_iff.mp (Nat.le_zero.mp hlength)) hxs.ne_nil
  | succ depth ih =>
    -- an expression inside an operand is shorter by the tokens around it,
    -- so one level of depth is enough for each
    have hsign := complete_signed (complete_primary ih)
    have hproduct := complete_tier isBinary_product hsign
    have hsum := complete_tier isBinary_sum hproduct
    exact complete_tier isBinary_concat hsum

/-- The number of tokens left is always enough. -/
theorem complete_expr (n : Nat) : Complete n expr (Expression .concat) (Ends .concat) := by
  intro xs e rest _ hxs hends
  rw [expr]
  apply complete_exprWithin _ _ hxs hends
  rw [List.length_append]
  omega

/-- Every reference is read where a primary expression ends. -/
theorem complete_reference (n : Nat) : Complete n reference Referenced (Ends .primary) :=
  (complete_referenceOf (complete_expr n)).mono (Nat.le_succ n)

/-! ## Conditions -/

theorem relationOf_symbol_iff (m : Symbol) (op : Relation) :
    relationOf (.symbol m) = some op ↔ Relates m op := by
  constructor
  · cases m <;> rintro ⟨⟩ <;> constructor
  · intro h
    cases h <;> rfl

theorem relationOf_eq_some_iff (k : Token.Kind) (op : Relation) :
    relationOf k = some op ↔ ∃ m, k = .symbol m ∧ Relates m op := by
  cases k with
  | symbol m => simp [relationOf_symbol_iff]
  | _ => simp [relationOf]

/-- An expression ends in front of a relation. -/
theorem Relates.ends {op : Relation} (h : Relates m op)
    (ht : t.kind = .symbol m) (ts : List Token) : Ends .concat (t :: ts) := by
  apply ends_of_symbol ht
  cases h <;> rfl

/-- What is read as a comparison is one. -/
theorem sound_comparison : Sound comparison Compared := by
  intro ts c rest hts
  rw [comparison, peek_bind] at hts
  obtain ⟨xs, left, mid, rfl, hxs, hts⟩ := sound_expr.of_bind hts
  -- the place of the comparison is that of its first token
  obtain ⟨t, xs, rfl⟩ := List.exists_cons_of_ne_nil hxs.ne_nil
  rw [peek_bind] at hts
  cases hop : relationOf (front mid).kind with
  | none =>
    simp only [hop] at hts
    exact absurd hts (unexpected_ne_ok _ _ _ _ _)
  | some op =>
    obtain ⟨m, hm, hrelates⟩ := (relationOf_eq_some_iff _ _).mp hop
    have hne : (front mid).kind ≠ .eof := by simp [hm]
    obtain ⟨r, mid, rfl⟩ := exists_cons_of_front hne
    rw [front_cons] at hm
    simp only [hop] at hts
    rw [advance_bind (by simp [hm])] at hts
    obtain ⟨ys, right, mid, rfl, hys, hts⟩ := sound_expr.of_bind hts
    obtain ⟨rfl, rfl⟩ := pure_ok_iff.mp hts
    exact ⟨t :: xs ++ r :: ys, by simp, .intro hxs hm hrelates hys⟩

/-- Every comparison is read where its second operand ends. -/
theorem complete_comparison (n : Nat) : Complete n comparison Compared (Ends .concat) := by
  intro xs c rest hlength hxs hends
  cases hxs with
  | @intro t r xs ys m op left right hxs hr hrelates hys =>
    -- the left side ends in front of the relation, which continues no expression
    have hleft := complete_expr n (by simp at hlength ⊢; omega) hxs
      (hrelates.ends hr (ys ++ rest))
    have hright := complete_expr n (by simp at hlength; omega) hys hends
    have hop := (relationOf_eq_some_iff _ _).mpr ⟨m, hr, hrelates⟩
    rw [List.append_assoc]
    rw [comparison, peek_bind, List.cons_append, front_cons]
    rw [List.cons_append] at hleft
    refine (bind_of_ok hleft).trans ?_
    rw [peek_bind, front_cons]
    simp only [hop]
    rw [advance_bind (by simp [hr]), bind_of_ok hright]
    rfl

/-- An expression that begins with a parenthesis begins with an expression in
parentheses. -/
theorem Expression.exists_enclosed {tier : Tier} {xs : List Token} {e : Expr}
    (h : Expression tier xs e) {o : Token} {ts : List Token} (hxs : xs = o :: ts)
    (ho : o.kind = .symbol .lparen) :
    ∃ ys c zs e', ts = ys ++ c :: zs ∧ Expression .concat ys e' ∧ c.kind = .symbol .rparen := by
  match h with
  | .operand _ h => exact h.exists_enclosed hxs ho
  -- the left operand holds the parenthesis, and is not empty
  | @Expression.binary _ ls rs t _ _ _ _ _ hl _ _ =>
    have ih := fun us (hls : ls = o :: us) => hl.exists_enclosed hls ho
    obtain ⟨u, us, rfl⟩ := List.exists_cons_of_ne_nil hl.ne_nil
    rw [List.cons_append] at hxs
    obtain ⟨rfl, rfl⟩ := List.cons.inj hxs
    obtain ⟨ys, c, zs, e', rfl, hys, hc⟩ := ih us rfl
    exact ⟨ys, c, zs ++ t :: rs, e', by simp, hys, hc⟩
  | .minus ht _ | .plus ht _ | .number ht | .text ht => simp_all
  | .reference (.scalar ht) => simp_all
  | .reference (.element ht _ _ _) => simp_all
  | @Expression.enclosed p c ys e' _ hys hc =>
    rw [List.cons_append] at hxs
    obtain ⟨rfl, rfl⟩ := List.cons.inj hxs
    exact ⟨ys, c, [], e', rfl, hys, hc⟩
  | .call ht _ _ _ _ _ => simp_all
  | .endfile ht _ _ _ _ => simp_all

/-- A comparison in parentheses and a comparison whose left side begins with
them do not start alike: behind the first inner expression stands a relation
in one of them and a closing parenthesis in the other. -/
theorem Compared.not_enclosed {tail : List Token} {c d : Condition} {o : Token}
    (hxs : Compared xs c) (ho : o.kind = .symbol .lparen) (hys : Compared ys d)
    (heq : xs ++ rest = o :: ys ++ tail) : False := by
  cases hxs with
  | @intro t r xs zs m op left right hxs hr hrelates hzs =>
  cases hys with
  | @intro u s ys ws m' op' left' right' hys hs hrelates' hws =>
  simp only [List.cons_append, List.append_assoc, List.cons.injEq] at heq
  obtain ⟨rfl, heq⟩ := heq
  obtain ⟨vs, p, us, e, rfl, hvs, hp⟩ := hxs.exists_enclosed rfl ho
  -- both inner expressions are what the parser finds behind the parenthesis
  have hfirst := complete_expr _ (Nat.le_refl _) hvs
    (ends_of_symbol hp rfl (us ++ (r :: (zs ++ rest))))
  have hsecond := complete_expr _ (Nat.le_refl _) hys (hrelates'.ends hs (ws ++ tail))
  simp only [List.cons_append, List.append_assoc] at heq hsecond
  -- so the tokens behind them agree, and a relation is no closing parenthesis
  rw [heq, hsecond] at hfirst
  injection hfirst with _ hnext
  obtain ⟨rfl, -⟩ := List.cons.inj hnext
  rw [hs] at hp
  injection hp with hp
  subst hp
  cases hrelates'

theorem sound_enclosedComparison {c : Condition} (hts : enclosedComparison ts = .ok c rest) :
    ∃ (o p : Token) (xs : List Token), ts = o :: xs ++ [p] ++ rest ∧ o.kind = .symbol .lparen ∧
      Compared xs c ∧ p.kind = .symbol .rparen := by
  simp only [enclosedComparison, bind_ok_iff, symbol_ok_iff, pure_ok_iff] at hts
  obtain ⟨_, _, ⟨o, ho, rfl⟩, _, _, hcompared, _, _, ⟨p, hp, rfl⟩, rfl, rfl⟩ := hts
  obtain ⟨xs, rfl, hxs⟩ := sound_comparison hcompared
  exact ⟨o, p, xs, by simp, ho, hxs, hp⟩

/-- What is read as a condition is one, in either of the two ways that are tried. -/
theorem sound_condition : Sound condition Tested := by
  intro ts c rest hts
  rw [condition] at hts
  cases henclosed : enclosedComparison ts with
  | ok d mid =>
    rw [henclosed] at hts
    obtain ⟨rfl, rfl⟩ := pure_ok_iff.mp hts
    obtain ⟨o, p, xs, hxs, ho, hcompared, hp⟩ := sound_enclosedComparison henclosed
    exact ⟨o :: xs ++ [p], hxs, .enclosed ho hcompared hp⟩
  -- a failed attempt starts again from the same tokens
  | error f mid =>
    rw [henclosed] at hts
    obtain ⟨xs, hxs, hcompared⟩ := sound_comparison hts
    exact ⟨xs, hxs, .bare hcompared⟩

/-- Every condition is read. If the first way fails, the parenthesis in front belongs to the
expression. -/
theorem complete_condition (n : Nat) : Complete n condition Tested (Ends .concat) := by
  intro xs c rest hlength hxs hends
  rw [condition]
  cases hxs with
  | bare hcompared =>
    have hbare := complete_comparison n hlength hcompared hends
    -- the attempt with parentheses comes first and must fail here
    cases henclosed : enclosedComparison (xs ++ rest) with
    | ok d mid =>
      obtain ⟨o, p, ys, hys, ho, hcompared', -⟩ := sound_enclosedComparison henclosed
      rw [List.append_assoc (o :: ys)] at hys
      exact absurd hys fun heq => hcompared.not_enclosed ho hcompared' heq
    | error f mid => exact hbare
  | @enclosed o p xs c ho hcompared hp =>
    have hinner := complete_comparison n (by simp at hlength; omega) hcompared
      (ends_of_symbol hp rfl rest)
    have henclosed : enclosedComparison (o :: xs ++ [p] ++ rest) = .ok c rest := by
      simp only [List.cons_append, List.append_assoc, List.nil_append]
      rw [enclosedComparison, symbol_bind ho, bind_of_ok hinner, symbol_bind hp]
      rfl
    rw [henclosed]

end Plic.Grammar
