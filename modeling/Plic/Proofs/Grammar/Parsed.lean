import Plic.Proofs.Grammar.Declaration
import Plic.Proofs.Grammar.Formed

/-!
# Parsed programs are well formed

A parser that starts on well-formed tokens leaves well-formed tokens, and what
it answers has a property that depends on the parser (`Keeps`). The property
passes through sequences and loops. For declarations, whose names are identifiers
and whose types have numbers in bounds, and for statements it follows from the
rules.

Main results:

* `keeps_declarations` — the declarations are well formed.
* `Reader.program_formed` — every program of a source is well formed.
-/

namespace Plic

namespace Parser

variable {α β : Type}

/-! ## Parsers on well-formed tokens -/

/-- On well-formed tokens the parser answers a value with the property, and
leaves well-formed tokens. -/
def Keeps (p : Parser α) (P : α → Prop) : Prop :=
  ∀ ⦃ts a rest⦄, (∀ t ∈ ts, t.Formed) → p ts = .ok a rest → P a ∧ ∀ t ∈ rest, t.Formed

namespace Keeps

/-- A value with the property keeps it. -/
theorem pure {a : α} {P : α → Prop} (h : P a) : Keeps (pure a) P := by
  intro ts b rest hts hp
  injection hp with hb hrest
  subst hb hrest
  exact ⟨h, hts⟩

variable {p : Parser α} {P : α → Prop}

/-- What follows may use what the first part has answered. -/
theorem bind {f : α → Parser β} {Q : β → Prop} (hp : Keeps p P)
    (hf : ∀ a, P a → Keeps (f a) Q) : Keeps (p >>= f) Q := by
  intro ts b rest hts hbind
  obtain ⟨a, mid, ha, hb⟩ := bind_ok_iff.mp hbind
  obtain ⟨hP, hmid⟩ := hp hts ha
  exact hf a hP hmid hb

theorem unexpected (what : Sought) (place : Place) (P : α → Prop) :
    Keeps (unexpected what place) P :=
  fun _ _ _ _ h => absurd h (unexpected_ne_ok _ _ _ _ _)

/-- A choice keeps what both ways keep. -/
theorem ite {c : Prop} [Decidable c] {q : Parser α} (hp : c → Keeps p P)
    (hq : ¬c → Keeps q P) : Keeps (if c then p else q) P := by
  by_cases h : c
  · rw [if_pos h]
    exact hp h
  · rw [if_neg h]
    exact hq h

/-- A parser that is derived by a rule takes tokens off the front. -/
theorem of_sound {R : Grammar.Rule α} (h : Grammar.Sound p R)
    (hR : ∀ ⦃xs a⦄, R xs a → (∀ t ∈ xs, t.Formed) → P a) : Keeps p P := by
  intro ts a rest hts hp
  obtain ⟨xs, rfl, hxs⟩ := h hp
  rw [List.forall_mem_append] at hts
  exact ⟨hR hxs hts.1, hts.2⟩

/-- Every round of a loop keeps it, so every item has it. -/
theorem many {p : Parser (Option α)} {P : α → Prop} (h : Keeps p fun a? => ∀ a ∈ a?, P a) :
    Keeps (many p) fun as => ∀ a ∈ as, P a := by
  have hupTo : ∀ n, Keeps (manyUpTo p n) fun as => ∀ a ∈ as, P a := by
    intro n
    induction n with
    | zero => exact .pure (by simp)
    | succ n ih =>
      refine h.bind fun a? ha? => ?_
      cases a? with
      | none => exact .pure (by simp)
      | some a =>
        refine ih.bind fun as has => .pure ?_
        rw [List.forall_mem_cons]
        exact ⟨ha? a rfl, has⟩
  exact fun ts _ _ hts hp => hupTo ts.length hts hp

end Keeps

theorem keeps_peek : Keeps peek fun _ => True := by
  intro ts t rest hts hp
  injection hp with _ hrest
  subst hrest
  exact ⟨trivial, hts⟩

theorem keeps_check (k : Token.Kind) : Keeps (check k) fun _ => True := by
  intro ts b rest hts hp
  injection hp with _ hrest
  subst hrest
  exact ⟨trivial, hts⟩

end Parser

/-! ## Declarations -/

/-- The numbers in a type are in bounds. -/
def DataType.Formed : DataType → Prop
  | .fixedBinary precision => ∀ n ∈ precision, n < 2 ^ 32
  | .fixedDecimal precision scale => (∀ n ∈ precision, n < 2 ^ 32) ∧ ∀ n ∈ scale, n < 2 ^ 32
  | .character length _ => 1 ≤ length ∧ length < 2 ^ 32

/-- The declared names are identifiers, and the numbers in their type are in bounds. -/
structure Declaration.Formed (d : Declaration) : Prop where
  items : ∀ i ∈ d.items, IsIdentifier i.name
  type  : d.type.Formed

namespace Grammar

open Plic.Parser

/-- The numbers of allowed attributes are in bounds, and so are those of their type. -/
theorem Denotes.formed {as : List Attribute} {type : DataType} (h : Denotes as type) :
    type.Formed := by
  -- the first precision that is given is the one of the type
  have hprecision : ∀ p ∈ as.findSome? Attribute.precision?, PrecisionFormed p := by
    intro p hp
    rw [← List.head?_filterMap] at hp
    exact h.allowed.precision p (List.mem_of_mem_head? hp)
  have hdigits : ∀ n ∈ (as.findSome? Attribute.precision?).map Prod.fst, n < 2 ^ 32 := by
    intro n hn
    obtain ⟨p, hp, rfl⟩ := Option.mem_map.mp hn
    exact (hprecision p hp).1
  cases type with
  | fixedBinary digits =>
    obtain ⟨-, -, -, -, -, rfl, -⟩ := h.gives
    exact hdigits
  | fixedDecimal digits scale =>
    obtain ⟨-, -, -, -, rfl, rfl⟩ := h.gives
    refine ⟨hdigits, fun n hn => ?_⟩
    obtain ⟨p, hp, hn⟩ := Option.bind_eq_some_iff.mp hn
    exact (hprecision p hp).2 n hn
  | character length varying =>
    obtain ⟨-, -, -, hlength, -⟩ := h.gives
    have hmem : length ∈ as.findSome? Attribute.length? := hlength
    rw [← List.head?_filterMap] at hmem
    exact h.allowed.length length (List.mem_of_mem_head? hmem)

/-- The rules of declarations put well-formed values together. -/
theorem Declared.formed {xs : List Token} {d : Declaration} (h : Declared xs d)
    (htokens : ∀ t ∈ xs, t.Formed) : d.Formed := by
  obtain @⟨dcl, s, xs, ys, es, as, type, -, hxs, -, hdenotes, -⟩ := h
  refine ⟨fun i hi => ?_, hdenotes.formed⟩
  -- every name of an item is written among the tokens
  obtain ⟨o, ho, rfl⟩ := List.mem_map.mp hi
  have hwritten : (o.name, o.loc) ∈ xs.filterMap writtenName := by
    rw [← names_of_separated hxs []]
    exact List.mem_map.mpr ⟨o, ho, rfl⟩
  obtain ⟨t, ht, hname⟩ := List.mem_filterMap.mp hwritten
  have hformed := htokens t (by simp [ht])
  unfold writtenName at hname
  split at hname
  · rename_i n hkind
    obtain ⟨rfl, -⟩ := Prod.mk.inj (Option.some.inj hname)
    simp only [Token.Formed, hkind] at hformed
    exact hformed
  · cases hname

theorem keeps_declaration : Keeps declaration Declaration.Formed :=
  .of_sound sound_declaration fun _ _ h => h.formed

/-- The declarations are well formed. -/
theorem keeps_declarations : Keeps declarations fun ds => ∀ d ∈ ds, d.Formed := by
  refine .many ?_
  refine (keeps_check _).bind fun _ _ => .ite (fun _ => ?_) fun _ => .pure (by simp)
  exact keeps_declaration.bind fun d hd => .pure (by simpa using hd)

end Grammar

/-! ## Programs -/

/-- All parts of a program are well formed. -/
structure Program.Formed (p : Program) : Prop where
  name       : IsSmallWord p.name
  items      : ∀ d ∈ p.declarations, ∀ i ∈ d.items, IsIdentifier i.name
  statements : ∀ s ∈ p.statements, s.Formed

namespace Grammar

open Plic.Parser

theorem Named.isSmallWord {t : Token} {n : String} (h : Named t n) (ht : t.Formed) :
    IsSmallWord n := by
  cases h with
  | identifier hkind =>
    simp only [Token.Formed, hkind] at ht
    exact ht.word
  | keyword hkind => simpa only [Token.Formed, hkind] using ht

theorem keeps_header : Keeps header IsSmallWord := by
  intro ts name rest hts hp
  obtain ⟨n, hs, hn, -, rfl⟩ := header_ok_iff.mp hp
  rw [List.forall_mem_cons, List.forall_mem_append] at hts
  exact ⟨hn.isSmallWord hts.1, hts.2.2⟩

/-- The statements that are read are well formed, by the rules. -/
theorem keeps_statements : Keeps statements fun ss => ∀ s ∈ ss, s.Formed := by
  -- the rules say what the tokens of a statement become
  refine .of_sound sound_statements ?_
  rintro xs _ ⟨bodies, hxs, rfl⟩ htokens
  exact formed_of_repeated hxs htokens

/-- The end of a program answers nothing. -/
theorem keeps_ending (name : String) : Keeps (ending name) fun _ => True := by
  intro ts u rest hts hp
  obtain ⟨e, s, ls, -, -, -, rfl⟩ := ending_ok_iff.mp hp
  exact ⟨trivial, fun t ht => hts t (by simp [ht])⟩

/-- A program that is read is well formed, and so are its declarations. -/
theorem keeps_program :
    Keeps program fun p => p.Formed ∧ ∀ d ∈ p.declarations, d.Formed := by
  refine keeps_peek.bind fun _ _ => keeps_header.bind fun name hname =>
    keeps_declarations.bind fun ds hds => keeps_statements.bind fun ss hss =>
      (keeps_ending name).bind fun _ _ => (keeps_check _).bind fun _ _ => ?_
  refine .ite (fun _ => .pure ⟨⟨hname, fun d hd => (hds d hd).items, hss⟩, hds⟩) fun _ => ?_
  -- tokens behind the end of the procedure are a fault
  exact (Keeps.unexpected _ _ fun _ => False).bind fun _ => False.elim

end Grammar

/-- Every program of a source is well formed. -/
theorem Reader.program_formed {source : String} {p : Program}
    (h : (Reader.ofSource source).program.1 = .ok p) : p.Formed := by
  rw [Reader.program] at h
  cases hp : Grammar.program (Reader.ofSource source).rest with
  | ok q rest =>
    simp only [hp] at h
    injection h with h
    subst h
    exact (Grammar.keeps_program (Lexer.formed_tokens source) hp).1.1
  | error f rest =>
    simp only [hp] at h
    exact absurd h (by simp)

end Plic
