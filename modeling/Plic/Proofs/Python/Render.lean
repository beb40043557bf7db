import Plic.Proofs.Python.Reading

/-!
# The text of an expression is read back

What `Expr.render` writes is cut into the tokens of the expression, and these
group as its tree. The induction over the expression carries what stands behind
its text: nothing there may be taken for a part of the last word or number.

Main result: `Plain.reads_iff` — the text of an expression has exactly one
reading, the tree of the expression.
-/

namespace Plic.Python

open Lexer (isNameStart isNameRest IsWord takeWhile_append_of_head)

/-! ## Literals -/

/-- The spelling of a text is read back, whatever stands behind its closing
quote. -/
theorem literalBody_escape (text rest : List Char) :
    literalBody (text.flatMap escape ++ '\x27' :: rest) = some (text, rest) := by
  induction text with
  | nil => simp [literalBody]
  | cons c text ih =>
    rw [List.flatMap_cons, List.append_assoc]
    -- one case for each spelling of its own; any other character is its own spelling
    by_cases hbackslash : c = '\\'
    · subst hbackslash
      simp [escape, literalBody, unescape, ih]
    by_cases hquote : c = '\x27'
    · subst hquote
      simp [escape, literalBody, unescape, ih]
    by_cases hfeed : c = '\n'
    · subst hfeed
      simp [escape, literalBody, unescape, ih]
    by_cases hreturn : c = '\r'
    · subst hreturn
      simp [escape, literalBody, unescape, ih]
    by_cases htab : c = '\t'
    · subst htab
      simp [escape, literalBody, unescape, ih]
    simp [escape, literalBody, hbackslash, hquote, hfeed, hreturn, htab, ih]

/-- No spelling begins with a quote. -/
theorem head?_escape (c : Char) (cs : List Char) : (escape c ++ cs).head? ≠ some '\x27' := by
  unfold escape
  split_ifs <;> simp_all

/-- The digits of a number begin with a zero only if that is all of them. -/
theorem eq_nil_of_toDigits_eq_zero_cons {n : Nat} {cs : List Char}
    (h : Nat.toDigits 10 n = '0' :: cs) : cs = [] := by
  induction n using Nat.strongRecOn generalizing cs with
  | _ n ih =>
    rw [Nat.toDigits_eq_if (by decide)] at h
    split at h
    · exact (List.cons.inj h).2.symm
    · rename_i hge
      obtain ⟨d, ds, hds⟩ :=
        List.exists_cons_of_ne_nil (Nat.toDigits_ne_nil (n := n / 10) (b := 10))
      rw [hds, List.cons_append] at h
      obtain ⟨rfl, -⟩ := List.cons.inj h
      have hnil := ih (n / 10) (by omega) hds
      -- the number without its last digit would be zero
      have hzero : n / 10 = 0 := by
        rw [← Nat.ofDigitChars_ten_toDigits (n := n / 10), hds, hnil]
        rfl
      omega

/-! ## Words and numbers -/

/-- The words that name something. -/
def IsName (id : String) : Prop := IsWord id.toList ∧ id ∉ keywords

variable {rest : List Char} {ts : List Tok} {c : Char} {e b : Expr}

/-- A name is cut where its characters end, if no quote follows that would make it a prefix. -/
theorem scans_name {id : String} (hid : IsName id)
    (hrest : ∀ c ∈ rest.head?, isNameRest c = false ∧ c ≠ '\x27' ∧ c ≠ '\x22')
    (h : Scans rest ts) : Scans (id.toList ++ rest) (.name id :: ts) := by
  obtain ⟨hword, hkeyword⟩ := hid
  cases hcs : id.toList with
  | nil => simp [hcs, IsWord] at hword
  | cons c cs =>
    rw [hcs] at hword
    -- the word ends with the name, as what follows is no character of names
    obtain ⟨htake, hdrop⟩ := takeWhile_append_of_head hword.2 fun d hd => (hrest d hd).1
    have hid : String.ofList (c :: (cs ++ rest).takeWhile isNameRest) = id := by
      rw [htake, ← hcs, String.ofList_toList]
    rw [← hid] at hkeyword ⊢
    rw [List.cons_append]
    refine .word hword.1 hkeyword ?_ ?_
    · rw [hdrop]
      exact fun d hd => (hrest d hd).2
    · rw [hdrop]
      exact h

/-- A number is cut where its digits end, if no point follows. -/
theorem scans_nat (n : Nat)
    (hrest : ∀ c ∈ rest.head?, isNameRest c = false ∧ c ≠ '.') (h : Scans rest ts) :
    Scans ((toString n).toList ++ rest) (.int n :: ts) := by
  rw [Nat.toString_eq_ofList_toDigits, String.toList_ofList]
  have hdigits : ∀ d ∈ Nat.toDigits 10 n, d.isDigit := fun d hd =>
    Nat.isDigit_of_mem_toDigits (by decide) (by decide) hd
  have hvalue := Nat.ofDigitChars_ten_toDigits (n := n)
  cases hcs : Nat.toDigits 10 n with
  | nil => exact absurd hcs Nat.toDigits_ne_nil
  | cons c cs =>
    rw [hcs] at hdigits hvalue
    -- what ends a word ends the digits as well
    have hclass : ∀ d ∈ rest.head?, isNameStart d = false ∧ d.isDigit = false := fun d hd =>
      Bool.or_eq_false_iff.mp (hrest d hd).1
    obtain ⟨htake, hdrop⟩ := takeWhile_append_of_head
      (fun d hd => hdigits d (List.mem_cons_of_mem c hd)) fun d hd => (hclass d hd).2
    rw [← htake] at hvalue
    rw [← hvalue, List.cons_append]
    refine .number (hdigits c (by simp)) ?_ ?_ ?_
    -- only the number zero is written with a zero in front
    · rintro rfl
      rw [htake, eq_nil_of_toDigits_eq_zero_cons hcs]
      simp
    · rw [hdrop]
      exact fun d hd => ⟨by simp [(hclass d hd).1], (hrest d hd).2⟩
    · rw [hdrop]
      exact h

/-- Three quotes in a row need an empty text with a quote behind it. -/
theorem not_triple_quote (value : List Char) (hrest : rest.head? ≠ some '\x27') :
    ¬ ['\x27', '\x27'] <+: value.flatMap escape ++ '\x27' :: rest := by
  rintro ⟨tail, htail⟩
  cases value with
  | nil =>
    simp at htail
    exact hrest (by simp [← htail])
  | cons c cs =>
    have hhead := head?_escape c (cs.flatMap escape ++ '\x27' :: rest)
    rw [List.flatMap_cons, List.append_assoc] at htail
    rw [← htail] at hhead
    exact absurd rfl hhead

/-- A quoted text is cut behind its closing quote, if no other literal follows directly. -/
theorem scans_quote (value : String) (hrest : rest.head? ≠ some '\x27') (h : Scans rest ts) :
    Scans ((quote value).toList ++ rest) (.str value :: ts) := by
  have hliteral := Scans.literal (not_triple_quote value.toList hrest)
    (literalBody_escape value.toList rest) h
  rw [String.ofList_toList] at hliteral
  rw [quote, String.toList_ofList]
  simpa only [List.cons_append, List.append_assoc, List.nil_append] using hliteral

/-! ## Tokens and tree of an expression -/

/-- Tokens in parentheses where they are needed. -/
def encloseTokens (needed : Bool) (ts : List Tok) : List Tok :=
  if needed then .lparen :: ts ++ [.rparen] else ts

mutual

/-- The tokens of an expression; lists are not read. -/
def Expr.tokens : Expr → List Tok
  | .int n => if n < 0 then [.op .sub, .int n.natAbs] else [.int n.natAbs]
  | .str s => [.str s]
  | .name id => [.name id]
  | .neg e => .op .sub :: encloseTokens (e.level.rank ≤ Level.sign.rank) e.tokens
  | .binary op l r =>
    encloseTokens (l.level.rank < op.level.rank) l.tokens ++
      .op op :: encloseTokens (r.level.rank ≤ op.level.rank) r.tokens
  | .index b i =>
    encloseTokens (b.level.rank < Level.atom.rank) b.tokens ++ .lbracket :: i.tokens ++ [.rbracket]
  | .sliceFrom b lo =>
    encloseTokens (b.level.rank < Level.atom.rank) b.tokens ++
      .lbracket :: lo.tokens ++ [.colon, .rbracket]
  | .slice b lo hi =>
    encloseTokens (b.level.rank < Level.atom.rank) b.tokens ++
      .lbracket :: lo.tokens ++ .colon :: hi.tokens ++ [.rbracket]
  | .call f args => .name f.name :: .lparen :: [.comma].intercalate (tokensAll args) ++ [.rparen]
  | .find t p =>
    encloseTokens (t.level.rank < Level.atom.rank) t.tokens ++
      [.dot, .name "find"] ++ .lparen :: p.tokens ++ [.rparen]
  -- lists stand outside of expressions that are read back
  | .single _ => []
  | .replicate _ _ => []

/-- The tokens of the expressions of a list. -/
def tokensAll : List Expr → List (List Tok)
  | [] => []
  | e :: es => e.tokens :: tokensAll es

end

/-- The tree of an integer: a negative one is a sign in front of a number. -/
def Tree.ofInt (n : Int) : Tree :=
  if n < 0 then .neg (.int n.natAbs) else .int n.natAbs

mutual

/-- The tree of an expression; lists have none. -/
def Expr.tree : Expr → Tree
  | .int n => .ofInt n
  | .str s => .str s
  | .name id => .name id
  | .neg e => .neg e.tree
  | .binary op l r => .binary op l.tree r.tree
  | .index b i => .index b.tree i.tree
  | .sliceFrom b lo => .sliceFrom b.tree lo.tree
  | .slice b lo hi => .slice b.tree lo.tree hi.tree
  | .call f args => .call (.name f.name) (treeAll args)
  | .find t p => .call (.member t.tree "find") [p.tree]
  | .single _ => .name ""
  | .replicate _ _ => .name ""

/-- The trees of the expressions of a list. -/
def treeAll : List Expr → List Tree
  | [] => []
  | e :: es => e.tree :: treeAll es

end

/-- Expressions without lists whose names can be read, and whose subscripts,
slices and searches are not those of an integer. -/
inductive Plain : Expr → Prop where
  | int (n : Int) : Plain (.int n)
  | str (s : String) : Plain (.str s)
  | name {id : String} : IsName id → Plain (.name id)
  | neg {e : Expr} : Plain e → Plain (.neg e)
  | binary {op : Operator} {l r : Expr} : Plain l → Plain r → Plain (.binary op l r)
  | index {b i : Expr} : Plain b → (∀ n, b ≠ .int n) → Plain i → Plain (.index b i)
  | sliceFrom {b lo : Expr} : Plain b → (∀ n, b ≠ .int n) → Plain lo → Plain (.sliceFrom b lo)
  | slice {b lo hi : Expr} :
      Plain b → (∀ n, b ≠ .int n) → Plain lo → Plain hi → Plain (.slice b lo hi)
  | call {f : Function} {args : List Expr} : (∀ e ∈ args, Plain e) → Plain (.call f args)
  | find {t p : Expr} : Plain t → (∀ n, t ≠ .int n) → Plain p → Plain (.find t p)

/-! ## Cutting the text -/

/-- Whether a point directly behind the text of the expression is a token. -/
def Expr.closed : Expr → Bool
  | .int _ | .neg _ | .binary _ _ _ => false
  | _ => true

/-- The text of the expression ends where `rest` begins. -/
def Stops (e : Expr) (rest : List Char) : Prop :=
  ∀ c ∈ rest.head?, c ∈ [' ', ')', ']', '[', ',', ':'] ∨ c = '.' ∧ e.closed

/-- What generated code puts behind an operand ends every word and number. -/
theorem stops_cons (h : c ∈ [' ', ')', ']', '[', ',', ':']) (e : Expr)
    (cs : List Char) : Stops e (c :: cs) := by
  rintro _ ⟨⟩
  exact .inl h

/-- Where a text stops, no word goes on. -/
theorem Stops.not_word (h : Stops e rest) :
    ∀ c ∈ rest.head?, isNameRest c = false ∧ c ≠ '\x27' ∧ c ≠ '\x22' := by
  intro c hc
  rcases h c hc with hstop | ⟨rfl, -⟩
  · fin_cases hstop <;> decide
  · decide

/-- Behind a text that ends in a word or number there is one of these characters. -/
theorem Stops.open (h : Stops e rest) (he : e.closed = false) :
    ∀ c ∈ rest.head?, c ∈ [' ', ')', ']', '[', ',', ':'] := by
  intro c hc
  rcases h c hc with hstop | ⟨-, hclosed⟩
  · exact hstop
  · simp [he] at hclosed

theorem isName_function (f : Function) : IsName f.name := by
  cases f <;> exact ⟨by simp [Function.name, IsWord]; decide, by decide⟩

/-- The characters that make a longer token out of a sign or a colon. -/
def Unjoined (text : List Char) : Prop := ∃ c cs, text = c :: cs ∧ c ≠ '=' ∧ c ≠ '>'

/-- Whether a text joins with a quote before it is decided at its start. -/
theorem Unjoined.append {text : List Char} (h : Unjoined text) (more : List Char) :
    Unjoined (text ++ more) := by
  obtain ⟨c, cs, rfl, hc⟩ := h
  exact ⟨c, cs ++ more, rfl, hc⟩

/-- Parentheses do not join with anything. -/
theorem unjoined_enclose {text : String} (h : Unjoined text.toList) (needed : Bool) :
    Unjoined (enclose needed text).toList := by
  cases needed with
  | false => exact h
  | true =>
    rw [enclose, if_pos rfl, String.toList_append, String.toList_append]
    exact ⟨'(', _, rfl, by decide⟩

theorem unjoined_nat (n : Nat) : Unjoined (toString n).toList := by
  rw [Nat.toString_eq_ofList_toDigits, String.toList_ofList]
  obtain ⟨d, ds, hds⟩ := List.exists_cons_of_ne_nil (Nat.toDigits_ne_nil (n := n) (b := 10))
  have hdigit : d.isDigit := Nat.isDigit_of_mem_toDigits (by decide) (by decide)
    (hds ▸ List.mem_cons_self)
  refine ⟨d, ds, hds, ?_, ?_⟩ <;>
  · rintro rfl
    exact absurd hdigit (by decide)

/-- A number is written with its sign and its digits. -/
theorem render_int (n : Int) :
    (Expr.int n).render =
      if n < 0 then "-" ++ toString n.natAbs else toString n.natAbs := by
  rw [Expr.render, Int.toString_eq_repr, Int.repr_eq_if]
  by_cases hn : 0 ≤ n
  · rw [if_pos hn, if_neg (by omega), show n.natAbs = n.toNat by omega]
    rfl
  · rw [if_neg hn, if_pos (by omega), show n.natAbs = (-n).toNat by omega]
    rfl

/-- No expression begins with something that joins with a sign or a quote. -/
theorem Plain.unjoined (h : Plain e) : Unjoined e.render.toList := by
  induction h with
  | int n =>
    rw [render_int]
    split
    · rw [String.toList_append]
      exact ⟨'-', _, rfl, by decide⟩
    · exact unjoined_nat n.natAbs
  | str s =>
    rw [Expr.render, quote, String.toList_ofList]
    exact ⟨'\x27', _, rfl, by decide⟩
  | @name id hid =>
    obtain ⟨hword, -⟩ := hid
    rw [Expr.render]
    cases hcs : id.toList with
    | nil => simp [hcs, IsWord] at hword
    | cons c cs =>
      rw [hcs] at hword
      -- names do not begin with one of these characters
      refine ⟨c, cs, rfl, ?_, ?_⟩ <;>
      · rintro rfl
        exact absurd hword.1 (by decide)
  | neg _ _ =>
    rw [Expr.render, String.toList_append]
    exact ⟨'-', _, rfl, by decide⟩
  | binary _ _ ihl _ =>
    simp only [Expr.render, String.toList_append, List.append_assoc]
    exact (unjoined_enclose ihl _).append _
  | index _ _ _ ihb _ | sliceFrom _ _ _ ihb _ | slice _ _ _ _ ihb _ _ =>
    simp only [Expr.render, String.toList_append, List.append_assoc]
    exact (unjoined_enclose ihb _).append _
  | @call f args _ _ =>
    simp only [Expr.render, String.toList_append, List.append_assoc]
    cases f <;> exact ⟨_, _, rfl, by decide⟩
  | find _ _ _ iht _ =>
    simp only [Expr.render, String.toList_append, List.append_assoc]
    exact (unjoined_enclose iht _).append _

/-- An operator between blanks. -/
theorem scans_op (op : Operator) (h : Scans rest ts) :
    Scans (' ' :: (op.text.toList ++ ' ' :: rest)) (.op op :: ts) := by
  have hblank : ∀ c, isLonger c ' ' = false → ∀ d ∈ (' ' :: rest).head?, ¬ isLonger c d := by
    rintro c hc _ ⟨⟩
    simp [hc]
  cases op with
  | add => exact .blank (.mark rfl (hblank '+' rfl) (.blank h))
  | sub => exact .blank (.mark rfl (hblank '-' rfl) (.blank h))
  | mul => exact .blank (.mark rfl (hblank '*' rfl) (.blank h))
  | div => exact .blank (.mark rfl (hblank '/' rfl) (.blank h))
  | mod => exact .blank (.mark rfl (hblank '%' rfl) (.blank h))

/-- A sign in front of its operand. -/
theorem scans_minus (hrest : Unjoined rest)
    (h : Scans rest ts) : Scans ('-' :: rest) (.op .sub :: ts) := by
  obtain ⟨c, cs, rfl, heq, hgt⟩ := hrest
  refine .mark rfl ?_ h
  rintro _ ⟨⟩
  simp [isLonger, heq, hgt]

/-- A colon in front of a bound. -/
theorem scans_colon (hrest : Unjoined rest)
    (h : Scans rest ts) : Scans (':' :: rest) (.colon :: ts) := by
  obtain ⟨c, cs, rfl, heq, -⟩ := hrest
  refine .mark rfl ?_ h
  rintro _ ⟨⟩
  simp [isLonger, heq]

/-- A mark that begins no longer token. -/
theorem scans_mark {k : Tok} (hc : c ∈ ['(', ')', '[', ']', ','])
    (hk : markOf c = some k) (h : Scans rest ts) : Scans (c :: rest) (k :: ts) := by
  refine .mark hk ?_ h
  intro d _
  fin_cases hc <;> simp [isLonger]

/-- The text of the expression is cut into its tokens, in front of anything
that ends it. -/
def Cuts (e : Expr) : Prop :=
  ∀ ⦃rest ts⦄, Stops e rest → Scans rest ts → Scans (e.render.toList ++ rest) (e.tokens ++ ts)

/-- A text in parentheses is cut as it is in front of the closing one. -/
theorem scans_enclosed {text : String} {us : List Tok}
    (h : Scans (text.toList ++ ')' :: rest) (us ++ .rparen :: ts)) :
    Scans ((enclose true text).toList ++ rest) (encloseTokens true us ++ ts) := by
  simp only [enclose, encloseTokens, if_true, String.toList_append, List.append_assoc,
    List.cons_append]
  exact scans_mark (by decide) rfl h

/-- In parentheses an expression is cut whatever stands behind. -/
theorem Cuts.enclose {e : Expr} (he : Cuts e) {needed : Bool} {rest : List Char} {ts : List Tok}
    (hstops : needed = false → Stops e rest) (h : Scans rest ts) :
    Scans ((Python.enclose needed e.render).toList ++ rest)
      (encloseTokens needed e.tokens ++ ts) := by
  cases needed with
  | false => exact he (hstops rfl) h
  | true =>
    exact scans_enclosed (he (stops_cons (by decide) e rest) (scans_mark (by decide) rfl h))

/-- A base without parentheses is an atom, and no integer. -/
theorem Expr.closed_of_atom (hint : ∀ n, b ≠ .int n)
    (hlevel : decide (b.level.rank < Level.atom.rank) = false) : b.closed = true := by
  cases b with
  | int n => exact absurd rfl (hint n)
  | neg e => simp [Expr.level, Level.rank] at hlevel
  | binary op l r => cases op <;> simp [Expr.level, Operator.level, Level.rank] at hlevel
  | _ => rfl

/-- The base of a subscript, a slice or a search, with the mark behind it. -/
theorem Cuts.base (hb : Cuts b) (hint : ∀ n, b ≠ .int n)
    (hc : c = '[' ∨ c = '.') {rest : List Char} {ts : List Tok} (h : Scans (c :: rest) ts) :
    Scans ((Python.enclose (b.level.rank < Level.atom.rank) b.render).toList ++ c :: rest)
      (encloseTokens (b.level.rank < Level.atom.rank) b.tokens ++ ts) := by
  apply hb.enclose _ h
  intro hlevel
  rintro _ ⟨⟩
  rcases hc with rfl | rfl
  · exact .inl (by decide)
  · exact .inr ⟨rfl, Expr.closed_of_atom hint hlevel⟩

/-- Arguments with commas between them, up to the end of the call. -/
theorem cuts_arguments {args : List Expr} (hargs : ∀ e ∈ args, Cuts e) (h : Scans rest ts) :
    Scans ((", ".intercalate (renderAll args)).toList ++ ')' :: rest)
      ([.comma].intercalate (tokensAll args) ++ .rparen :: ts) := by
  rw [String.toList_intercalate]
  induction args with
  | nil => exact scans_mark (by decide) rfl h
  | cons e es ih =>
    have he := hargs e (by simp)
    -- behind the last argument comes the parenthesis, behind any other a comma and a blank
    cases es with
    | nil =>
      simp only [renderAll, tokensAll, List.map_cons, List.map_nil, List.intercalate_singleton]
      exact he (stops_cons (by decide) e rest) (scans_mark (by decide) rfl h)
    | cons e' es =>
      have ih := ih fun e he => hargs e (List.mem_cons_of_mem _ he)
      simp only [renderAll, tokensAll, List.map_cons, List.intercalate_cons_cons,
        List.append_assoc] at ih ⊢
      exact he (stops_cons (by decide) e _) (scans_mark (by decide) rfl (.blank ih))

/-- The text of a plain expression is cut into its tokens, by induction on the expression. -/
theorem Plain.cuts (h : Plain e) : Cuts e := by
  induction h with
  | int n =>
    intro rest ts hstops h
    -- a point behind the digits would make a fraction of them
    have hnat := scans_nat n.natAbs (fun c hc => ?_) h
    · rw [render_int, Expr.tokens]
      split
      · rw [String.toList_append, List.append_assoc]
        exact scans_minus ((unjoined_nat _).append _) hnat
      · exact hnat
    · have hstop := hstops.open rfl c hc
      fin_cases hstop <;> decide
  | str s =>
    intro rest ts hstops h
    rw [Expr.render, Expr.tokens]
    refine scans_quote s ?_ h
    intro hquote
    exact absurd rfl (hstops.not_word _ hquote).2.1
  | name hid =>
    intro rest ts hstops h
    rw [Expr.render, Expr.tokens]
    exact scans_name hid hstops.not_word h
  | neg he ih =>
    intro rest ts hstops h
    rw [Expr.render, Expr.tokens, String.toList_append, List.append_assoc, List.cons_append]
    -- no point comes behind the whole, and any other end is one of the operand too
    refine scans_minus ((unjoined_enclose he.unjoined _).append _) (ih.enclose ?_ h)
    exact fun _ c hc => .inl (hstops.open rfl c hc)
  | binary _ _ ihl ihr =>
    intro rest ts hstops h
    simp only [Expr.render, Expr.tokens, String.toList_append, List.append_assoc, List.cons_append]
    refine ihl.enclose (fun _ => stops_cons (by decide) _ _) (scans_op _ (ihr.enclose ?_ h))
    exact fun _ c hc => .inl (hstops.open rfl c hc)
  | index _ hint _ ihb ihi =>
    intro rest ts _ h
    simp only [Expr.render, Expr.tokens, String.toList_append, List.append_assoc, List.cons_append]
    refine ihb.base hint (.inl rfl) (scans_mark (by decide) rfl (ihi ?_ ?_))
    · exact stops_cons (by decide) _ _
    · exact scans_mark (by decide) rfl h
  | sliceFrom _ hint _ ihb ihlo =>
    intro rest ts _ h
    simp only [Expr.render, Expr.tokens, String.toList_append, List.append_assoc, List.cons_append]
    refine ihb.base hint (.inl rfl) (scans_mark (by decide) rfl (ihlo ?_ ?_))
    · exact stops_cons (by decide) _ _
    · exact scans_colon ⟨']', rest, rfl, by decide⟩ (scans_mark (by decide) rfl h)
  | slice _ hint _ hhi ihb ihlo ihhi =>
    intro rest ts _ h
    simp only [Expr.render, Expr.tokens, String.toList_append, List.append_assoc, List.cons_append]
    refine ihb.base hint (.inl rfl) (scans_mark (by decide) rfl (ihlo ?_ ?_))
    · exact stops_cons (by decide) _ _
    · refine scans_colon (hhi.unjoined.append _) (ihhi ?_ ?_)
      · exact stops_cons (by decide) _ _
      · exact scans_mark (by decide) rfl h
  | @call f args _ ih =>
    intro rest ts _ h
    simp only [Expr.render, Expr.tokens, String.toList_append, List.append_assoc, List.cons_append]
    refine scans_name (isName_function f) ?_ (scans_mark (by decide) rfl (cuts_arguments ih h))
    rintro _ ⟨⟩
    decide
  | find _ hint _ iht ihp =>
    intro rest ts _ h
    simp only [Expr.render, Expr.tokens, String.toList_append, List.append_assoc, List.cons_append,
      List.nil_append]
    have hfind : IsName "find" := ⟨by simp [IsWord]; decide, by decide⟩
    refine iht.base hint (.inr rfl) (.mark rfl ?_ (scans_name hfind ?_ (scans_mark ?_ rfl ?_)))
    · rintro _ ⟨⟩
      decide
    · rintro _ ⟨⟩
      decide
    · decide
    · refine ihp (stops_cons ?_ _ _) (scans_mark ?_ rfl h)
      · decide
      · decide

/-! ## Grouping the tokens -/

/-- What holds together tightly holds together for every looser level. -/
theorem Groups.loosen {l m : Level} {xs : List Tok} {t : Tree} (h : Groups m xs t)
    (hrank : l.rank ≤ m.rank) : Groups l xs t := by
  -- each looser level is reached by the rules between them
  cases m with
  | sum =>
    cases l with
    | sum => exact h
    | _ => simp [Level.rank] at hrank
  | product =>
    cases l with
    | sum => exact .product h
    | product => exact h
    | _ => simp [Level.rank] at hrank
  | sign =>
    cases l with
    | sum => exact .product (.sign h)
    | product => exact .sign h
    | sign => exact h
    | atom => simp [Level.rank] at hrank
  | atom =>
    cases l with
    | sum => exact .product (.sign (.atom h))
    | product => exact .sign (.atom h)
    | sign => exact .atom h
    | atom => exact h

/-- The level at which the tokens of an expression group. A negative integer is
a sign in front of a number. -/
def Expr.tier : Expr → Level
  | .int n => if n < 0 then .sign else .atom
  | e => e.level

/-- A negative integer groups as tightly as a sign does. -/
theorem le_rank_tier {n : Nat} (h : n ≤ e.level.rank) (hn : n ≤ Level.sign.rank) :
    n ≤ e.tier.rank := by
  cases e with
  | int m =>
    rw [Expr.tier]
    split
    · exact hn
    · exact h
  | _ => exact h

/-- In parentheses an expression holds together as an atom. -/
theorem groups_enclose (he : Groups e.tier e.tokens e.tree) {needed : Bool} {l : Level}
    (h : needed = false → l.rank ≤ e.tier.rank) :
    Groups l (encloseTokens needed e.tokens) e.tree := by
  cases needed with
  | false => exact he.loosen (h rfl)
  | true =>
    have hsum : Groups .sum e.tokens e.tree := he.loosen (Nat.zero_le _)
    exact (Groups.enclosed hsum).loosen (by cases l <;> decide)

/-- The base of a subscript, a slice or a search. -/
theorem groups_base (hb : Groups b.tier b.tokens b.tree) (hint : ∀ n, b ≠ .int n) :
    Groups .atom (encloseTokens (b.level.rank < Level.atom.rank) b.tokens) b.tree := by
  apply groups_enclose hb
  intro hlevel
  rw [decide_eq_false_iff_not, Nat.not_lt] at hlevel
  cases b with
  | int n => exact absurd rfl (hint n)
  | _ => exact hlevel

/-- Expressions with commas between them group as arguments. -/
theorem arguments_intercalate {args : List Expr}
    (h : ∀ e ∈ args, Groups .sum e.tokens e.tree) :
    Arguments ([.comma].intercalate (tokensAll args)) (treeAll args) := by
  induction args with
  | nil => exact .none
  | cons e es ih =>
    have he := h e (by simp)
    cases es with
    | nil =>
      simp only [tokensAll, treeAll, List.intercalate_singleton]
      exact .one he
    | cons e' es =>
      have ih := ih fun e he => h e (List.mem_cons_of_mem _ he)
      simp only [tokensAll, treeAll, List.intercalate_cons_cons, List.append_assoc,
        List.singleton_append] at ih ⊢
      exact .more he ih

/-- The tokens of a plain expression group as its tree. -/
theorem Plain.groups (h : Plain e) : Groups e.tier e.tokens e.tree := by
  induction h with
  | int n =>
    simp only [Expr.tier, Expr.tokens, Expr.tree, Tree.ofInt]
    split
    · exact .neg (.atom (.int _))
    · exact .int _
  | str s => exact .str s
  | name _ => exact .name _
  | neg _ ih =>
    refine .neg (groups_enclose ih ?_)
    intro hlevel
    rw [decide_eq_false_iff_not] at hlevel
    exact le_rank_tier (by omega) (Nat.le_refl _)
  | @binary op l r _ _ ihl ihr =>
    have hop : op.level.rank ≤ 1 := by cases op <;> decide
    -- the left operand may be of the level of the operator, the right one is tighter
    have htighter : op.level.tighter.rank = op.level.rank + 1 := by cases op <;> rfl
    show Groups op.level _ _
    refine .binary rfl (groups_enclose ihl ?_) (groups_enclose ihr ?_)
    · intro hlevel
      rw [decide_eq_false_iff_not] at hlevel
      exact le_rank_tier (by omega) (Nat.le_trans hop (by decide))
    · intro hlevel
      rw [decide_eq_false_iff_not] at hlevel
      rw [htighter]
      exact le_rank_tier (by omega) (Nat.succ_le_succ hop)
  | index _ hint _ ihb ihi => exact .index (groups_base ihb hint) (ihi.loosen (Nat.zero_le _))
  | sliceFrom _ hint _ ihb ihlo =>
    exact .sliceFrom (groups_base ihb hint) (ihlo.loosen (Nat.zero_le _))
  | slice _ hint _ _ ihb ihlo ihhi =>
    exact .slice (groups_base ihb hint) (ihlo.loosen (Nat.zero_le _)) (ihhi.loosen (Nat.zero_le _))
  | @call f args _ ih =>
    exact .call (.name f.name) (arguments_intercalate fun e he => (ih e he).loosen (Nat.zero_le _))
  | find _ hint _ iht ihp =>
    exact .call (.member (groups_base iht hint)) (.one (ihp.loosen (Nat.zero_le _)))

/-- The text of an expression has one reading, its tree. -/
theorem Plain.reads_iff (h : Plain e) (t : Tree) : Reads e.render t ↔ t = e.tree := by
  have hreads : Reads e.render e.tree := by
    refine ⟨e.tokens, ?_, h.groups.loosen (Nat.zero_le _)⟩
    have hcut := h.cuts (show Stops e [] by rintro _ ⟨⟩) .nil
    rwa [List.append_nil, List.append_nil] at hcut
  exact ⟨fun ht => ht.unique hreads, fun ht => ht ▸ hreads⟩

end Plic.Python
