import Plic.Proofs.Grammar.Program

/-!
# Parsed trees are well formed

What the scanner puts into a token is restricted: a name is a word in small
letters, a number fits 63 bits, a text has no line feed. The rules copy these
values into the tree and count arguments and branches, so every part of a tree
derived from such tokens is well formed.

Main results:

* `formed_tokens` — every token of a source is well formed.
* `Expression.formed`, `Group.formed` — so is what the rules derive from
  well-formed tokens.
-/

namespace Plic

/-! ## Tokens -/

/-- Words in small letters: `[a-z_][a-z0-9_]*`. -/
def IsSmallWord (n : String) : Prop :=
  match n.toList with
  | [] => False
  | c :: cs => (c.isLower ∨ c = '_') ∧ ∀ d ∈ cs, d.isLower ∨ d.isDigit ∨ d = '_'

/-- The names of variables: words in small letters, none of them a keyword. -/
structure IsIdentifier (n : String) : Prop where
  word : IsSmallWord n
  free : ∀ k, (n, k) ∉ Keyword.spellings

/-- The value of a token is one that the scanner can give it. -/
def Token.Formed (t : Token) : Prop :=
  match t.kind with
  | .name n => IsIdentifier n
  | .keyword _ => IsSmallWord (Text.lower t.lexeme)
  | .number n => n < 2 ^ 63
  | .text v => '\n' ∉ v.toList
  | .query v => '\n' ∉ v.toList
  | _ => True

namespace Lexer

/-- A fact about the characters below 128 is one about 128 numbers. -/
theorem of_ascii {p : Char → Prop} (h : ∀ n : Fin 128, p (Char.ofNat n)) {c : Char}
    (hc : c.toNat < 128) : p c := by
  have hn := h ⟨c.toNat, hc⟩
  rwa [Char.ofNat_toNat] at hn

theorem isLower_toLower {c : Char} (h : c.isAlpha) : c.toLower.isLower := by
  have hrange := isAlpha_range h
  revert h
  exact of_ascii (p := fun c => c.isAlpha → c.toLower.isLower) (by decide +kernel) (by omega)

theorem toLower_of_isDigit {c : Char} (h : c.isDigit) : c.toLower = c := by
  have hrange := isDigit_range h
  revert h
  exact of_ascii (p := fun c => c.isDigit → c.toLower = c) (by decide +kernel) (by omega)

theorem isSmallWord_of_isWord {letters : List Char} (h : IsWord letters) :
    IsSmallWord (String.ofList (letters.map Char.toLower)) := by
  have hstart : ∀ c, isNameStart c → c.toLower.isLower ∨ c.toLower = '_' := by
    intro c hc
    rw [isNameStart, Bool.or_eq_true, decide_eq_true_eq] at hc
    obtain ha | rfl := hc
    · exact .inl (isLower_toLower ha)
    · exact .inr rfl
  unfold IsSmallWord
  rw [String.toList_ofList]
  cases letters with
  | nil => exact h
  | cons c cs =>
    refine ⟨hstart c h.1, ?_⟩
    intro d hd
    obtain ⟨e, he, rfl⟩ := List.mem_map.mp hd
    have hrest := h.2 e he
    rw [isNameRest, Bool.or_eq_true] at hrest
    -- a digit has no small form, all else is a letter or the line
    obtain hname | hdigit := hrest
    · rcases hstart e hname with hlower | hline
      · exact .inl hlower
      · exact .inr (.inr hline)
    · rw [toLower_of_isDigit hdigit]
      exact .inr (.inl hdigit)

/-- The line ends of a query are turned into blanks. -/
theorem QuerySpelling.no_feed {value body : List Char} (h : QuerySpelling value body) :
    '\n' ∉ value := by
  induction h with
  | close => simp
  | escaped hc _ ih =>
    -- neither a quote nor a backslash is a line feed
    rcases hc with rfl | rfl <;> simpa using ih
  | plain _ hfeed _ _ ih =>
    rw [List.mem_cons, not_or]
    exact ⟨Ne.symm hfeed, ih⟩

/-- A token that is spelled by the rules is well formed. -/
theorem Spelled.formed {t : Token} (h : Spelled t) : t.Formed := by
  obtain ⟨behind, hspells⟩ := h
  unfold Token.Formed Text.lower
  -- the spelling speaks of the kind and the lexeme alone
  generalize t.kind = kind at hspells
  generalize t.lexeme.toList = letters at hspells
  cases hspells with
  | number _ _ _ hvalue => exact Nat.lt_of_le_of_lt hvalue (by decide)
  | text hfeed _ => simpa using hfeed
  | query hquery => simpa using hquery.no_feed
  | name hword _ hfree => exact ⟨isSmallWord_of_isWord hword, hfree⟩
  | keyword hword _ _ => exact isSmallWord_of_isWord hword
  | symbol _ _ _ => trivial

theorem formed_tokens (source : String) : ∀ t ∈ (ofSource source).tokenize.1, t.Formed := by
  obtain ⟨ts, eof, htokens, hspelled, heof⟩ := exists_tokens source
  intro t ht
  rw [htokens, List.mem_append, List.mem_singleton] at ht
  obtain ht | rfl := ht
  · exact (hspelled t ht).formed
  · unfold Token.Formed
    rw [heof]
    trivial

end Lexer

/-! ## Trees -/

open Grammar

/-- Numbers fit 63 bits, texts have no line feed, names are identifiers, and
calls have as many arguments as their function takes. -/
inductive Expr.Formed : Expr → Prop where
  | number {n : Int} {loc : Location} : 0 ≤ n → n < 2 ^ 63 → Formed (.number n loc)
  | text {s : String} {loc : Location} : '\n' ∉ s.toList → Formed (.text s loc)
  | var {name : String} {subscripts : List Expr} {loc : Location} :
      IsIdentifier name → (∀ e ∈ subscripts, Formed e) → Formed (.var name subscripts loc)
  | neg {e : Expr} {loc : Location} : Formed e → Formed (.neg e loc)
  | binary {op : Operator} {l r : Expr} {loc : Location} :
      Formed l → Formed r → Formed (.binary op l r loc)
  | call {f : Builtin} {args : List Expr} {loc : Location} :
      Takes f args.length → (∀ e ∈ args, Formed e) → Formed (.call f args loc)
  | endfile {file : String} {loc : Location} :
      IsFileName file.toList → Formed (.endfile file loc)

/-- A reference is well formed as an expression. -/
def Reference.Formed (r : Reference) : Prop := r.toExpr.Formed

/-- Both sides of a condition are well formed. -/
structure Condition.Formed (c : Condition) : Prop where
  left : c.left.Formed
  right : c.right.Formed

mutual

/-- All parts of a statement are well formed, and a `SELECT` has a branch. -/
inductive Stmt.Formed : Stmt → Prop where
  | assign {target : Reference} {value : Expr} {loc : Location} :
      target.Formed → value.Formed → Stmt.Formed (.assign target value loc)
  | ifElse {c : Condition} {yes no : List Stmt} {loc : Location} :
      c.Formed → (∀ s ∈ yes, s.Formed) → (∀ s ∈ no, s.Formed) → Stmt.Formed (.ifElse c yes no loc)
  | doWhile {c : Condition} {body : List Stmt} {loc : Location} :
      c.Formed → (∀ s ∈ body, s.Formed) → Stmt.Formed (.doWhile c body loc)
  | doLoop {var : Reference} {start limit : Expr} {step : Option Expr} {body : List Stmt}
      {loc : Location} :
      var.Formed → start.Formed → limit.Formed → (∀ e ∈ step, e.Formed) →
      (∀ s ∈ body, s.Formed) → Stmt.Formed (.doLoop var start limit step body loc)
  | select {subject : Expr} {values : List Expr} {body : List Stmt} {rest : Branches}
      {whenLoc loc : Location} :
      subject.Formed → (Branches.when values body whenLoc rest).Formed →
      Stmt.Formed (.select subject (.when values body whenLoc rest) loc)
  | put {items : List Expr} {loc : Location} :
      (∀ e ∈ items, e.Formed) → Stmt.Formed (.put items loc)
  | get {targets : List Reference} {loc : Location} :
      targets ≠ [] → (∀ r ∈ targets, r.Formed) → Stmt.Formed (.get targets loc)
  | openFile {file : String} {mode : FileMode} {loc : Location} :
      IsFileName file.toList → Stmt.Formed (.openFile file mode loc)
  | read {file : String} {target : Reference} {loc : Location} :
      IsFileName file.toList → target.Formed → Stmt.Formed (.read file target loc)
  | write {file : String} {source : Reference} {loc : Location} :
      IsFileName file.toList → source.Formed → Stmt.Formed (.write file source loc)
  | closeFile {file : String} {loc : Location} :
      IsFileName file.toList → Stmt.Formed (.closeFile file loc)
  | query {sql : String} {target : Reference} {loc : Location} :
      '\n' ∉ sql.toList → target.Formed → Stmt.Formed (.query sql target loc)

/-- All parts of a chain of branches are well formed, and each `WHEN` has a
value. -/
inductive Branches.Formed : Branches → Prop where
  | done : Branches.Formed .done
  | other {body : List Stmt} : (∀ s ∈ body, s.Formed) → Branches.Formed (.other body)
  | when {values : List Expr} {body : List Stmt} {loc : Location} {rest : Branches} :
      values ≠ [] → (∀ e ∈ values, e.Formed) → (∀ s ∈ body, s.Formed) → rest.Formed →
      Branches.Formed (.when values body loc rest)

end

/-! ## From tokens to trees -/

namespace Grammar

mutual

/-- The rules of expressions copy values of well-formed tokens and count arguments. -/
theorem Expression.formed {tier : Tier} {xs : List Token} {e : Expr} (h : Expression tier xs e)
    (hxs : ∀ t ∈ xs, t.Formed) : e.Formed := by
  match h with
  | .operand _ h => exact h.formed hxs
  | .binary _ hl _ hr =>
    exact .binary (hl.formed fun t ht => hxs t (by simp [ht]))
      (hr.formed fun t ht => hxs t (by simp [ht]))
  | .minus _ h => exact .neg (h.formed fun t ht => hxs t (by simp [ht]))
  | .plus _ h => exact h.formed fun t ht => hxs t (by simp [ht])
  | .number ht =>
    have hformed := hxs _ (List.mem_singleton_self _)
    simp only [Token.Formed, ht] at hformed
    -- the value of a token is natural, that of a node an integer
    exact .number (Int.natCast_nonneg _) (by exact_mod_cast hformed)
  | .text ht =>
    have hformed := hxs _ (List.mem_singleton_self _)
    simp only [Token.Formed, ht] at hformed
    exact .text hformed
  | .reference h => exact h.formed hxs
  | .enclosed _ h _ => exact h.formed fun t ht => hxs t (by simp [ht])
  | .call _ _ _ hargs _ htakes =>
    exact .call htakes (formed_of_separated hargs fun t ht => hxs t (by simp [ht]))
  | .endfile _ _ _ hname _ => exact .endfile hname.1

theorem Referenced.formed {xs : List Token} {r : Reference} (h : Referenced xs r)
    (hxs : ∀ t ∈ xs, t.Formed) : r.Formed := by
  match h with
  | .scalar ht =>
    have hformed := hxs _ (List.mem_singleton_self _)
    simp only [Token.Formed, ht] at hformed
    exact .var hformed (by simp)
  | .element ht _ hsubscripts _ =>
    have hformed := hxs _ List.mem_cons_self
    simp only [Token.Formed, ht] at hformed
    exact .var hformed (formed_of_separated hsubscripts fun t ht => hxs t (by simp [ht]))

theorem formed_of_separated {xs : List Token} {es : List Expr}
    (h : Separated (Expression .concat) xs es) (hxs : ∀ t ∈ xs, t.Formed) :
    ∀ e ∈ es, e.Formed := by
  match h with
  | .one h => simpa using h.formed hxs
  | .more h _ hs =>
    rw [List.forall_mem_cons]
    exact ⟨h.formed fun t ht => hxs t (by simp [ht]),
      formed_of_separated hs fun t ht => hxs t (by simp [ht])⟩

end

theorem Compared.formed {xs : List Token} {c : Condition} (h : Compared xs c)
    (hxs : ∀ t ∈ xs, t.Formed) : c.Formed := by
  cases h with
  | intro hl _ _ hr =>
    exact ⟨hl.formed fun t ht => hxs t (List.mem_append_left _ ht),
      hr.formed fun t ht => hxs t (by simp [ht])⟩

theorem Tested.formed {xs : List Token} {c : Condition} (h : Tested xs c)
    (hxs : ∀ t ∈ xs, t.Formed) : c.Formed := by
  cases h with
  | bare h => exact h.formed hxs
  | enclosed _ h _ => exact h.formed fun t ht => hxs t (by simp [ht])

theorem formed_of_separated_referenced {xs : List Token} {rs : List Reference}
    (h : Separated Referenced xs rs) (hxs : ∀ t ∈ xs, t.Formed) : ∀ r ∈ rs, r.Formed := by
  induction h with
  | one h => simpa using h.formed hxs
  | more h _ _ ih =>
    rw [List.forall_mem_cons]
    exact ⟨h.formed fun t ht => hxs t (by simp [ht]), ih fun t ht => hxs t (by simp [ht])⟩

/-- A file that is given has the name of a file. -/
theorem FileGiven.isFileName {xs : List Token} {name : String} (h : FileGiven xs name) :
    IsFileName name.toList := by
  cases h with
  | intro _ _ hname _ => exact hname.1

theorem Listed.formed {xs : List Token} {items : List Expr} (h : Listed xs items)
    (hxs : ∀ t ∈ xs, t.Formed) : ∀ e ∈ items, e.Formed := by
  cases h with
  | skip _ => simp
  | items _ _ hitems _ => exact formed_of_separated hitems fun t ht => hxs t (by simp [ht])

theorem Stepped.formed {xs : List Token} {step : Option Expr} (h : Stepped xs step)
    (hxs : ∀ t ∈ xs, t.Formed) : ∀ e ∈ step, e.Formed := by
  cases h with
  | absent => simp
  | given _ h => simpa using h.formed fun t ht => hxs t (by simp [ht])

/-- A `WHEN` clause is well formed. -/
def FormedWhen (w : List Expr × List Stmt × Location) : Prop :=
  w.1 ≠ [] ∧ (∀ e ∈ w.1, e.Formed) ∧ ∀ s ∈ w.2.1, s.Formed

/-- Branches are well formed if each `WHEN` and the last branch are. -/
theorem formed_branchesOf {whens : List (List Expr × List Stmt × Location)} {last : Branches}
    (hwhens : ∀ w ∈ whens, FormedWhen w) (hlast : last.Formed) :
    (branchesOf whens last).Formed := by
  induction whens with
  | nil => exact hlast
  | cons w ws ih =>
    obtain ⟨hne, hvalues, hbody⟩ := hwhens w List.mem_cons_self
    exact .when hne hvalues hbody (ih fun w hw => hwhens w (List.mem_cons_of_mem _ hw))

mutual

/-- The rules of statements add nothing but well-formed parts, and a selection has a branch. -/
theorem Statement.formed {xs : List Token} {s : Stmt} (h : Statement xs s)
    (hxs : ∀ t ∈ xs, t.Formed) : s.Formed := by
  match h with
  | .assign hr _ he _ =>
    exact .assign (hr.formed fun t ht => hxs t (by simp [ht]))
      (he.formed fun t ht => hxs t (by simp [ht]))
  | .ifElse _ hc _ hyes _ hno =>
    exact .ifElse (hc.formed fun t ht => hxs t (by simp [ht]))
      (hyes.formed fun t ht => hxs t (by simp [ht])) (hno.formed fun t ht => hxs t (by simp [ht]))
  | .doWhile _ _ hc _ hbody _ =>
    exact .doWhile (hc.formed fun t ht => hxs t (by simp [ht]))
      (formed_of_repeated hbody fun t ht => hxs t (by simp [ht]))
  | .doLoop _ hv _ hs _ hl hk _ hbody _ =>
    exact .doLoop (hv.formed fun t ht => hxs t (by simp [ht]))
      (hs.formed fun t ht => hxs t (by simp [ht])) (hl.formed fun t ht => hxs t (by simp [ht]))
      (hk.formed fun t ht => hxs t (by simp [ht]))
      (formed_of_repeated hbody fun t ht => hxs t (by simp [ht]))
  | .select _ _ hs _ hws hne hlast _ =>
    have hsubject := hs.formed fun t ht => hxs t (by simp [ht])
    have hbranches := formed_branchesOf
      (formed_of_repeated_when hws fun t ht => hxs t (by simp [ht]))
      (hlast.formed fun t ht => hxs t (by simp [ht]))
    -- the first clause is the head of the chain
    obtain ⟨w, ws, rfl⟩ := List.exists_cons_of_ne_nil hne
    exact .select hsubject hbranches
  | .put _ hitems _ => exact .put (hitems.formed fun t ht => hxs t (by simp [ht]))
  | .get _ _ htargets _ =>
    exact .get htargets.ne_nil
      (formed_of_separated_referenced htargets fun t ht => hxs t (by simp [ht]))
  | .openFile _ hf _ _ _ => exact .openFile hf.isFileName
  | .read _ hf _ hr _ => exact .read hf.isFileName (hr.formed fun t ht => hxs t (by simp [ht]))
  | .write _ hf _ hr _ => exact .write hf.isFileName (hr.formed fun t ht => hxs t (by simp [ht]))
  | .closeFile _ hf _ => exact .closeFile hf.isFileName
  | .query (q := q) _ _ hq _ _ hr _ =>
    -- the query is a token of its own, so its text is the token's
    have hformed := hxs q (by simp)
    simp only [Token.Formed, hq] at hformed
    exact .query hformed (hr.formed fun t ht => hxs t (by simp [ht]))

theorem Group.formed {xs : List Token} {ss : List Stmt} (h : Group xs ss)
    (hxs : ∀ t ∈ xs, t.Formed) : ∀ s ∈ ss, s.Formed := by
  match h with
  | .single h => simpa using h.formed hxs
  | .block _ hbodies _ => exact formed_of_repeated hbodies fun t ht => hxs t (by simp [ht])

theorem formed_of_repeated {xs : List Token} {bodies : List (List Stmt)}
    (h : Repeated Group xs bodies) (hxs : ∀ t ∈ xs, t.Formed) :
    ∀ s ∈ bodies.flatten, s.Formed := by
  match h with
  | .nil => simp
  | .cons h hs =>
    rw [List.flatten_cons, List.forall_mem_append]
    exact ⟨h.formed fun t ht => hxs t (by simp [ht]),
      formed_of_repeated hs fun t ht => hxs t (by simp [ht])⟩

theorem formed_of_repeated_when {xs : List Token}
    {whens : List (List Expr × List Stmt × Location)} (h : Repeated When xs whens)
    (hxs : ∀ t ∈ xs, t.Formed) : ∀ w ∈ whens, FormedWhen w := by
  match h with
  | .nil => simp
  | .cons h hs =>
    rw [List.forall_mem_cons]
    exact ⟨h.formed fun t ht => hxs t (by simp [ht]),
      formed_of_repeated_when hs fun t ht => hxs t (by simp [ht])⟩

theorem When.formed {xs : List Token} {w : List Expr × List Stmt × Location} (h : When xs w)
    (hxs : ∀ t ∈ xs, t.Formed) : FormedWhen w := by
  match h with
  | .intro _ _ hvalues _ hbody =>
    exact ⟨hvalues.ne_nil, formed_of_separated hvalues fun t ht => hxs t (by simp [ht]),
      hbody.formed fun t ht => hxs t (by simp [ht])⟩

theorem Otherwise.formed {xs : List Token} {last : Branches} (h : Otherwise xs last)
    (hxs : ∀ t ∈ xs, t.Formed) : last.Formed := by
  match h with
  | .absent => exact .done
  | .other _ h => exact .other (h.formed fun t ht => hxs t (by simp [ht]))

end

end Grammar

end Plic
