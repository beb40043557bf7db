import Plic.Proofs.Grammar.Reading
import Plic.Proofs.Grammar.Relocate

/-!
# What the parser reads of a token

The parser looks at the kinds of tokens and, where a keyword stands for a name or
an attribute, at its spelling in small letters. The places go into the tree and
into faults, and a fault shows the token that was found; neither has a bearing on
what is read.

So two rows of tokens that are alike in this sense are read alike: either both
give a value, and the values are equal up to the places, or both are refused, for
the same cause up to the token that is shown. In both cases the tokens that are
left are alike again.

What is kept of the places may differ on the two sides, so that a row of tokens
can be compared with itself at other places.

Main results:

* `Parser.Alike.bind`, `Parser.Alike.many`, `Parser.Alike.fold` — likeness passes
  through sequences and loops.
* `Grammar.alike_program` — programs are read alike.
-/

namespace Plic

/-- When tokens count as alike, and what is kept of their places on either side. -/
structure Likeness where
  left     : Location → Location
  right    : Location → Location
  alike    : Token → Token → Prop
  kind     : ∀ {t u : Token}, alike t u → t.kind = u.kind
  loc      : ∀ {t u : Token}, alike t u → left t.loc = right u.loc
  spelling : ∀ {t u : Token}, alike t u → t.isKeyword → Text.lower t.lexeme = Text.lower u.lexeme

/-- The causes are the same but for the token that was found. -/
inductive Fault.Cause.Same (k : Likeness) : Fault.Cause → Fault.Cause → Prop where
  | refl (c : Fault.Cause) : Same k c c
  | expected (what : Sought) (place : Place) {t u : Token} :
      k.alike t u → Same k (.expected what place t) (.expected what place u)
  | lateDeclaration {t u : Token} :
      k.alike t u → Same k (.lateDeclaration t) (.lateDeclaration u)
  | whenAfterOther {t u : Token} : k.alike t u → Same k (.whenAfterOther t) (.whenAfterOther u)

/-- The kind of a fault does not depend on the token that it shows. -/
theorem Fault.Cause.Same.kind {k : Likeness} {c d : Fault.Cause} (h : c.Same k d) :
    c.kind = d.kind := by
  cases h <;> rfl

/-- The faults have the same cause, and the same is kept of their places. -/
structure Fault.Same (k : Likeness) (f g : Fault) : Prop where
  cause : f.cause.Same k g.cause
  loc   : k.left f.loc = k.right g.loc

/-- Equal up to what `m` forgets of the one and `n` of the other. -/
def Upto {α γ : Type} (m n : α → γ) (a b : α) : Prop := m a = n b

/-- Equal up to what is not kept of the places. -/
abbrev Likeness.Same {α γ : Type} (k : Likeness) (relocate : (Location → Location) → α → γ) :
    α → α → Prop := Upto (relocate k.left) (relocate k.right)

/-- Lists whose items agree after two maps agree after them as wholes. -/
theorem map_eq_of_forall₂ {α γ : Type} {m n : α → γ} {as bs : List α}
    (h : List.Forall₂ (Upto m n) as bs) : as.map m = bs.map n := by
  induction h with
  | nil => rfl
  | cons hab _ ih => rw [List.map_cons, List.map_cons, hab, ih]

theorem map_flatten_eq {α γ : Type} {m n : α → γ} {as bs : List (List α)}
    (h : List.Forall₂ (Upto (List.map m) (List.map n)) as bs) :
    as.flatten.map m = bs.flatten.map n := by
  rw [List.map_flatten, List.map_flatten, map_eq_of_forall₂ h]

namespace Parser

variable {α β γ δ : Type} {k : Likeness}

/-- Tokens that are alike one by one, up to the end of the source. -/
inductive Rows (k : Likeness) : List Token → List Token → Prop where
  | last {t u : Token} : k.alike t u → t.kind = .eof → Rows k [t] [u]
  | cons {t u : Token} {ts us : List Token} : k.alike t u → Rows k ts us → Rows k (t :: ts) (u :: us)

variable {ts us : List Token}

/-- Rows are compared token by token, so they have the same length. -/
theorem Rows.length_eq (h : Rows k ts us) : ts.length = us.length := by
  induction h with
  | last _ _ => rfl
  | cons _ _ ih => rw [List.length_cons, List.length_cons, ih]

/-- Two rows of tokens that are alike and end with the last token are rows in the sense above. -/
theorem Rows.of_forall₂ {eof : Token} (heof : eof.kind = .eof)
    (h : List.Forall₂ k.alike (ts ++ [eof]) us) : Rows k (ts ++ [eof]) us := by
  induction ts generalizing us with
  | nil =>
    obtain ⟨u, _, hu, hnil, rfl⟩ := List.forall₂_cons_left_iff.mp h
    obtain rfl := List.forall₂_nil_left_iff.mp hnil
    exact .last hu heof
  | cons t ts ih =>
    obtain ⟨u, _, hu, hus, rfl⟩ := List.forall₂_cons_left_iff.mp h
    exact .cons hu (ih hus)

/-- The last token of a source is its end. -/
theorem rows_tokens {source source' : String}
    (h : List.Forall₂ k.alike (Lexer.ofSource source).tokenize.1
      (Lexer.ofSource source').tokenize.1) :
    Rows k (Lexer.ofSource source).tokenize.1 (Lexer.ofSource source').tokenize.1 :=
  .of_forall₂ rfl h

/-- The answers of two parsers are alike. -/
inductive Agree (k : Likeness) (R : α → β → Prop) :
    EStateM.Result Fault (List Token) α → EStateM.Result Fault (List Token) β → Prop where
  | ok {a : α} {b : β} {ts us : List Token} :
      R a b → Rows k ts us → Agree k R (.ok a ts) (.ok b us)
  | error {f g : Fault} {ts us : List Token} :
      f.Same k g → Rows k ts us → Agree k R (.error f ts) (.error g us)

/-- Two parsers answer alike where tokens are alike. -/
def Alike (k : Likeness) (R : α → β → Prop) (p : Parser α) (q : Parser β) : Prop :=
  ∀ ⦃ts us⦄, Rows k ts us → Agree k R (p ts) (q us)

/-! ## Sequences and loops -/

namespace Alike

/-- A parser that reads nothing is alike with another one if their values are related. -/
theorem pure {R : α → β → Prop} {a : α} {b : β} (h : R a b) :
    Alike k R (pure a) (pure b) :=
  fun _ _ hts => .ok h hts

/-- Likeness passes through a sequence: the second parsers may use the values, which need only be
related. -/
theorem bind {R : α → β → Prop} {S : γ → δ → Prop} {p : Parser α} {q : Parser β}
    {f : α → Parser γ} {g : β → Parser δ} (hp : Alike k R p q)
    (hf : ∀ a b, R a b → Alike k S (f a) (g b)) : Alike k S (p >>= f) (q >>= g) := by
  intro ts us hts
  have hpq := hp hts
  show Agree k S (EStateM.bind p f ts) (EStateM.bind q g us)
  unfold EStateM.bind
  generalize p ts = x at hpq
  generalize q us = y at hpq
  cases hpq with
  | ok hab hrest => exact hf _ _ hab hrest
  | error hfault hrest => exact .error hfault hrest

/-- Likeness stays if less is asked of the values. -/
theorem mono {R S : α → β → Prop} {p : Parser α} {q : Parser β} (h : Alike k R p q)
    (hRS : ∀ a b, R a b → S a b) : Alike k S p q := by
  intro ts us hts
  have hpq := h hts
  generalize p ts = x at hpq ⊢
  generalize q us = y at hpq ⊢
  cases hpq with
  | ok hab hrest => exact .ok (hRS _ _ hab) hrest
  | error hfault hrest => exact .error hfault hrest

/-- A sequence whose first part answers the same. -/
theorem bind_eq {S : γ → δ → Prop} {p q : Parser α} {f : α → Parser γ} {g : α → Parser δ}
    (hp : Alike k (· = ·) p q) (hf : ∀ a, Alike k S (f a) (g a)) :
    Alike k S (p >>= f) (q >>= g) :=
  hp.bind fun a _ hab => hab ▸ hf a

/-- Refusals are alike if their places are the same on both sides and their causes are. -/
theorem refuse {R : α → β → Prop} {l m : Location} {c d : Fault.Cause}
    (hloc : k.left l = k.right m) (hcause : c.Same k d) :
    Alike k R (refuse l c) (refuse m d) :=
  fun _ _ hts => .error ⟨hcause, hloc⟩ hts

/-- Nothing comes behind a fault. -/
theorem refuse_bind {S : γ → δ → Prop} {l m : Location} {c d : Fault.Cause}
    (hloc : k.left l = k.right m) (hcause : c.Same k d) (f : α → Parser γ) (g : β → Parser δ) :
    Alike k S (Parser.refuse l c >>= f) (Parser.refuse m d >>= g) :=
  fun _ _ hts => .error ⟨hcause, hloc⟩ hts

/-- A choice that both sides make in the same way keeps likeness. -/
theorem ite {c : Prop} [Decidable c] {R : α → β → Prop} {p p' : Parser α} {q q' : Parser β}
    (hp : Alike k R p q) (hp' : Alike k R p' q') :
    Alike k R (if c then p else p') (if c then q else q') := by
  by_cases h : c
  · rwa [if_pos h, if_pos h]
  · rwa [if_neg h, if_neg h]

/-- A parser that is chosen by the number of tokens. -/
theorem sized {R : α → β → Prop} {p : Nat → Parser α} {q : Nat → Parser β}
    (h : ∀ n, Alike k R (p n) (q n)) :
    Alike k R (fun ts => p ts.length ts) (fun us => q us.length us) := by
  intro ts us hts
  show Agree k R (p ts.length ts) (q us.length us)
  rw [hts.length_eq]
  exact h us.length hts

/-- A repetition stops after the same number of rounds on both sides, by induction on the tokens
left. -/
theorem many {R : α → β → Prop} {p : Parser (Option α)} {q : Parser (Option β)}
    (h : Alike k (Option.Rel R) p q) : Alike k (List.Forall₂ R) (many p) (many q) := by
  have hupTo : ∀ n, Alike k (List.Forall₂ R) (manyUpTo p n) (manyUpTo q n) := by
    intro n
    induction n with
    | zero => exact .pure .nil
    | succ n ih =>
      refine h.bind fun a? b? hab => ?_
      cases hab with
      | none => exact .pure .nil
      | some hab => exact ih.bind fun as bs has => .pure (.cons hab has)
  exact .sized hupTo

/-- The same for a repetition that carries a value from round to round. -/
theorem fold {R : α → β → Prop} {step : α → Parser (Option α)} {step' : β → Parser (Option β)}
    (h : ∀ a b, R a b → Alike k (Option.Rel R) (step a) (step' b)) {a : α} {b : β}
    (hab : R a b) : Alike k R (fold step a) (fold step' b) := by
  -- both folds have the same bound, the number of tokens that are left
  have hupTo : ∀ n a b, R a b → Alike k R (foldUpTo step n a) (foldUpTo step' n b) := by
    intro n
    induction n with
    | zero => exact fun a b hab => .pure hab
    | succ n ih =>
      intro a b hab
      refine (h a b hab).bind fun a? b? hab? => ?_
      cases hab? with
      | none => exact .pure hab
      | some hab' => exact ih _ _ hab'
  exact .sized fun n => hupTo n a b hab

end Alike

/-! ## Tokens -/

/-- At the end of a row both sides look at the token that is made up there. -/
theorem alike_front (h : Rows k ts us) : k.alike (front ts) (front us) := by
  cases h with
  | last htu _ => exact htu
  | cons htu _ => exact htu

/-- Stepping over a token keeps two rows alike. -/
theorem alike_behind (h : Rows k ts us) : Rows k (behind ts) (behind us) := by
  cases h with
  -- the end of the source is not passed
  | last htu heof =>
    rw [behind, behind, ← k.kind htu, if_pos heof, if_pos heof]
    exact .last htu heof
  | @cons t u _ _ htu hrest =>
    rw [behind, behind, k.kind htu]
    split
    · exact .cons htu hrest
    · exact hrest

theorem alike_peek : Alike k k.alike peek peek := fun _ _ hts => .ok (alike_front hts) hts

theorem alike_advance : Alike k (· = ·) advance advance := fun _ _ hts => .ok rfl (alike_behind hts)

/-- The token that is found where another was looked for is shown, and only that may differ. -/
theorem Alike.unexpected {R : α → β → Prop} (what : Sought) (place : Place) :
    Alike k R (unexpected what place) (unexpected what place) := by
  intro ts us hts
  have hfront := alike_front hts
  exact .error ⟨.expected what place hfront, k.loc hfront⟩ hts

/-- What comes behind a refusal has no bearing on it. -/
theorem Alike.unexpected_bind {S : γ → δ → Prop} (what : Sought) (place : Place)
    (f : α → Parser γ) (g : β → Parser δ) :
    Alike k S (Parser.unexpected what place >>= f) (Parser.unexpected what place >>= g) :=
  (Alike.unexpected (R := fun _ _ => False) what place).bind fun _ _ => False.elim

/-- Looking for a kind gives the same answer, since alike tokens have the same kind. -/
theorem alike_check (kind : Token.Kind) : Alike k (· = ·) (check kind) (check kind) := by
  intro ts us hts
  refine .ok ?_ hts
  rw [k.kind (alike_front hts)]

/-- Taking a token of a kind, if it is there, is done on both sides or on neither. -/
theorem alike_accept (kind : Token.Kind) : Alike k (· = ·) (accept kind) (accept kind) := by
  intro ts us hts
  rw [accept, accept, k.kind (alike_front hts)]
  split
  · exact .ok rfl (alike_behind hts)
  · exact .ok rfl hts

/-- A choice by whether a token is at the front. -/
theorem Alike.ifAccept {R : α → β → Prop} {kind : Token.Kind} {p p' : Parser α} {q q' : Parser β}
    (hp : Alike k R p q) (hp' : Alike k R p' q') :
    Alike k R (do if ← accept kind then p else p') (do if ← accept kind then q else q') := by
  exact (alike_accept kind).bind_eq fun _ => .ite hp hp'

/-- A mark that is asked for is there on both sides or on neither. -/
theorem alike_symbol (mark : Symbol) (place : Place) :
    Alike k (· = ·) (symbol mark place) (symbol mark place) :=
  .ifAccept (.pure rfl) (.unexpected _ _)

theorem alike_keyword (word : Keyword) (place : Place) :
    Alike k (· = ·) (keyword word place) (keyword word place) :=
  .ifAccept (.pure rfl) (.unexpected _ _)

/-- A name is read from the kind of its token, which has the name in it. -/
theorem alike_identifier : Alike k (· = ·) identifier identifier := by
  refine alike_peek.bind fun t u htu => ?_
  rw [k.kind htu]
  generalize u.kind = kind
  cases kind with
  | name n => exact alike_advance.bind_eq fun _ => .pure rfl
  | _ => exact .unexpected _ _

/-- A keyword may stand for a name, and then its spelling in small letters is read. -/
theorem alike_name : Alike k (· = ·) name name := by
  refine alike_peek.bind fun t u htu => ?_
  have hspelling := k.spelling htu
  rw [Token.isKeyword] at hspelling
  rw [k.kind htu] at hspelling ⊢
  generalize u.kind = kind at hspelling
  cases kind with
  | name n => exact alike_advance.bind_eq fun _ => .pure rfl
  | keyword word => exact alike_advance.bind_eq fun _ => .pure (hspelling rfl)
  | _ => exact .unexpected _ _

theorem alike_integer : Alike k (· = ·) integer integer := by
  refine alike_peek.bind fun t u htu => ?_
  rw [k.kind htu]
  generalize u.kind = kind
  cases kind with
  | number n => exact alike_advance.bind_eq fun _ => .pure rfl
  | _ => exact .unexpected _ _

/-- A list with commas is read alike if its items are. -/
theorem alike_commaList {R : α → β → Prop} {p : Parser α} {q : Parser β} (h : Alike k R p q) :
    Alike k (List.Forall₂ R) (commaList p) (commaList q) := by
  refine h.bind fun a b hab => Alike.bind (.many ?_) fun as bs has => .pure (.cons hab has)
  exact .ifAccept (h.bind fun a b hab => .pure (.some hab)) (.pure .none)

end Parser

namespace Grammar

open Plic.Parser

variable {k : Likeness}

/-! ## Declarations -/

/-- Items at other places. -/
abbrev relocateItems (f : Location → Location) : List Item → List Item := List.map (Item.relocate f)

theorem optionRel_refl {α : Type} (x : Option α) : Option.Rel (· = ·) x x := by
  cases x with
  | none => exact .none
  | some a => exact .some rfl

theorem eq_of_forall₂ {α : Type} {as bs : List α} (h : List.Forall₂ (· = ·) as bs) : as = bs :=
  List.forall₂_eq_eq_eq ▸ h

/-- The extents behind a name are numbers and carry no places. -/
theorem alike_extents? : Alike k (· = ·) extents? extents? := by
  refine (alike_check _).bind_eq fun _ => .ite ?_ (.pure rfl)
  refine (alike_symbol _ _).bind_eq fun _ => (alike_commaList alike_integer).bind fun _ _ hdims => ?_
  rw [eq_of_forall₂ hdims]
  exact (alike_symbol _ _).bind_eq fun _ => .pure rfl

/-- Extents can be given to items before or after their places are changed. -/
theorem map_relocate_withExtents (f : Location → Location) (dims : List Int) (is : List Item) :
    (is.map (withExtents dims)).map (Item.relocate f) =
      (is.map (Item.relocate f)).map (withExtents dims) := by
  rw [List.map_map, List.map_map]
  refine List.map_congr_left fun i _ => ?_
  show (withExtents dims i).relocate f = withExtents dims (i.relocate f)
  by_cases h : i.dims = []
  · rw [withExtents, withExtents, if_pos h, if_pos (by exact h)]
    rfl
  · rw [withExtents, withExtents, if_neg h, if_neg (by exact h)]

/-- An item of a declaration takes its place from its name, one in parentheses from what is inside.
-/
theorem alike_itemsOf {nested nested' : Parser (List Item)}
    (h : Alike k (k.Same relocateItems) nested nested') :
    Alike k (k.Same relocateItems) (itemsOf nested) (itemsOf nested') := by
  refine .ifAccept ?_ ?_
  · refine (alike_commaList h).bind fun members members' hmembers =>
      (alike_symbol _ _).bind_eq fun _ => alike_extents?.bind_eq fun dims => .pure ?_
    show (members.flatten.map (withExtents dims)).map (Item.relocate k.left) = _
    rw [map_relocate_withExtents, map_flatten_eq hmembers, ← map_relocate_withExtents]
  · refine alike_peek.bind fun t u htu => alike_identifier.bind_eq fun n =>
      alike_extents?.bind_eq fun dims => .pure ?_
    simp [Upto, Item.relocate, k.loc htu]

/-- By induction on how deep the items are nested. -/
theorem alike_items : Alike k (k.Same relocateItems) items items := by
  refine .sized fun depth => ?_
  induction depth with
  | zero => exact .unexpected _ _
  | succ depth ih => exact alike_itemsOf ih

theorem alike_precision : Alike k (· = ·) precision precision := by
  have hscale : Alike k (· = ·) scale? scale? :=
    .ifAccept (alike_integer.bind_eq fun _ => .pure rfl) (.pure rfl)
  refine alike_peek.bind fun t u htu => (alike_symbol _ _).bind_eq fun _ =>
    alike_integer.bind_eq fun digits => hscale.bind_eq fun scale => (alike_symbol _ _).bind_eq fun _ =>
      .ite ?_ (.refuse_bind (k.loc htu) (.refl _) _ _)
  cases scale with
  | none => exact .pure rfl
  | some q => exact .ite (.pure rfl) (.refuse_bind (k.loc htu) (.refl _) _ _)

/-- A length of 0 is refused at the place of the keyword, not of the number. -/
theorem alike_characterLength {l m : Location} (h : k.left l = k.right m) :
    Alike k (· = ·) (characterLength l) (characterLength m) := by
  have hwritten : Alike k (· = ·) writtenLength writtenLength :=
    .ifAccept (alike_integer.bind_eq fun _ => (alike_symbol _ _).bind_eq fun _ => .pure rfl)
      (.pure rfl)
  exact hwritten.bind_eq fun _ => .ite (.pure rfl) (.refuse_bind h (.refl _) _ _)

/-- Which attribute a keyword stands for is read from its kind, and its spelling is recorded for a
fault. -/
theorem alike_attribute? (a : Attributes) : Alike k (· = ·) (attribute? a) (attribute? a) := by
  refine alike_peek.bind fun t u htu => ?_
  rw [k.kind htu]
  generalize u.kind = kind
  cases kind with
  | keyword word =>
    cases word with
    | FIXED | BIN | DEC | DECIMAL | VARYING => exact alike_advance.bind_eq fun _ => .pure rfl
    | CHAR =>
      exact alike_advance.bind_eq fun _ =>
        (alike_characterLength (k.loc htu)).bind_eq fun _ => .pure rfl
    | _ => exact .pure rfl
  | _ => exact .pure rfl

/-- A precision behind an attribute goes with the attributes read so far. -/
theorem alike_attributePrecision (a : Attributes) :
    Alike k (· = ·) (attributePrecision a) (attributePrecision a) := by
  refine alike_peek.bind fun t u htu => ?_
  rw [k.kind htu]
  refine .ite ?_ (.pure rfl)
  exact .ite (.refuse_bind (k.loc htu) (.refl _) _ _) (alike_precision.bind_eq fun _ => .pure rfl)

/-- Only a keyword can be an attribute. -/
theorem attribute?_of_not_keyword {ts : List Token} (h : (front ts).isKeyword = false)
    (a : Attributes) : attribute? a ts = .ok none ts := by
  rw [Token.isKeyword] at h
  rw [attribute?, peek_bind]
  generalize (front ts).kind = kind at h
  cases kind with
  | keyword word => simp at h
  | _ => rfl

/-- One round over the attributes: read one, or stop. -/
theorem alike_nextAttribute (a : Attributes) :
    Alike k (· = ·) (nextAttribute a) (nextAttribute a) := by
  intro ts us hts
  have hfront := alike_front hts
  -- the spelling of a keyword is collected, so it has to be the same; any other token ends the
  -- round
  by_cases hkeyword : (front ts).isKeyword
  · have hspelling := k.spelling hfront hkeyword
    refine ((alike_attribute? a).bind_eq fun b? => ?_) hts
    match b? with
    | none => exact .pure rfl
    | some (b, repeated) =>
      simp only [hspelling]
      exact .ite (.refuse_bind (k.loc hfront) (.refl _) _ _)
        ((alike_attributePrecision _).bind_eq fun _ => .pure rfl)
  · have hnone : ∀ {ts : List Token}, (front ts).isKeyword = false →
        nextAttribute a ts = .ok none ts := by
      intro ts hts
      rw [nextAttribute, peek_bind, bind_of_ok (attribute?_of_not_keyword hts a)]
      rfl
    have hkeyword' : (front us).isKeyword = (front ts).isKeyword := by
      rw [Token.isKeyword, Token.isKeyword, k.kind hfront]
    rw [Bool.not_eq_true] at hkeyword
    rw [hnone hkeyword, hnone (hkeyword'.trans hkeyword)]
    exact .ok rfl hts

/-- All attributes of a declaration, up to the first token that is none. -/
theorem alike_attributes : Alike k (· = ·) attributes attributes := by
  have hfold : Alike k (· = ·) (fold nextAttribute .none) (fold nextAttribute .none) := by
    refine .fold (fun a b hab => ?_) rfl
    subst hab
    exact (alike_nextAttribute a).mono fun x _ hxy => hxy ▸ optionRel_refl x
  exact hfold.bind_eq fun _ => .ite (.unexpected _ _) (.pure rfl)

/-- The place of a declaration is that of its keyword. -/
theorem alike_declaration :
    Alike k (k.Same Declaration.relocate) declaration declaration := by
  refine alike_peek.bind fun t u htu => (alike_keyword _ _).bind_eq fun _ =>
    (alike_commaList alike_items).bind fun names names' hnames => alike_attributes.bind_eq fun a => ?_
  cases a.resolve with
  | error cause => exact .refuse (k.loc htu) (.refl cause)
  | ok type =>
    refine (alike_symbol _ _).bind_eq fun _ => .pure ?_
    simp only [Upto, Declaration.relocate, map_flatten_eq hnames, k.loc htu]

/-- Declarations are read as long as `DCL` comes next. -/
theorem alike_declarations :
    Alike k (Upto (List.map (Declaration.relocate k.left)) (List.map (Declaration.relocate k.right)))
      declarations declarations := by
  have hmany : Alike k (List.Forall₂ (k.Same Declaration.relocate)) declarations
      declarations := by
    refine .many ((alike_check _).bind_eq fun _ => .ite ?_ (.pure .none))
    exact alike_declaration.bind fun _ _ hd => .pure (.some hd)
  exact hmany.mono fun _ _ hds => map_eq_of_forall₂ hds

/-! ## Expressions -/

/-- Expressions that agree one by one agree as a list. -/
theorem relocateAll_eq_of_forall₂ {es es' : List Expr} (h : List.Forall₂ (k.Same Expr.relocate) es es') :
    relocateAll k.left es = relocateAll k.right es' := by
  rw [relocateAll_eq_map, relocateAll_eq_map, map_eq_of_forall₂ h]

theorem alike_fileName : Alike k (· = ·) fileName fileName := by
  refine alike_peek.bind fun t u htu => ?_
  rw [k.kind htu]
  generalize u.kind = kind
  cases kind with
  | text value =>
    exact .ite (alike_advance.bind_eq fun _ => .pure rfl) (.refuse (k.loc htu) (.refl _))
  | _ => exact .unexpected _ _

/-- An operator with its right operand, at other places. -/
def relocateOperation (f : Location → Location) :
    Operator × Location × Expr → Operator × Location × Expr
  | (op, loc, e) => (op, f loc, e.relocate f)

/-- Changing places passes through a chain of operators of one level, which groups to the left. -/
theorem relocate_foldl (f : Location → Location) (first : Expr)
    (rest : List (Operator × Location × Expr)) :
    (rest.foldl (fun left (op, loc, right) => Expr.binary op left right loc) first).relocate f =
      (rest.map (relocateOperation f)).foldl
        (fun left (op, loc, right) => Expr.binary op left right loc) (first.relocate f) := by
  induction rest generalizing first with
  | nil => rfl
  | cons r rest ih => rw [List.foldl_cons, ih, List.map_cons, List.foldl_cons]; rfl

/-- A level of operators is read alike if its operands are. The place of an operation is that of its
sign. -/
theorem alike_tier (operator : Token.Kind → Option Operator) {operand operand' : Parser Expr}
    (h : Alike k (k.Same Expr.relocate) operand operand') :
    Alike k (k.Same Expr.relocate) (tier operator operand) (tier operator operand') := by
  refine h.bind fun first first' hfirst => Alike.bind (R := List.Forall₂ (k.Same relocateOperation))
    (.many ?_) fun rest rest' hrest => .pure ?_
  · refine alike_peek.bind fun t u htu => ?_
    rw [k.kind htu]
    cases operator u.kind with
    | none => exact .pure .none
    | some op =>
      refine alike_advance.bind_eq fun _ => h.bind fun e e' he => .pure (.some ?_)
      simp only [Upto, relocateOperation, k.loc htu]
      rw [he]
  -- grouping from the left comes after the reading and keeps the likeness
  · rw [Likeness.Same, Upto, relocate_foldl, relocate_foldl, map_eq_of_forall₂ hrest, hfirst]

/-- Changing places passes through a row of signs in front of an operand. -/
theorem relocate_foldr (f : Location → Location) (signs : List (Option Location)) (e : Expr) :
    (signs.foldr (fun sign e => match sign with | some loc => Expr.neg e loc | none => e) e).relocate
        f =
      (signs.map (Option.map f)).foldr
        (fun sign e => match sign with | some loc => Expr.neg e loc | none => e) (e.relocate f) := by
  induction signs with
  | nil => rfl
  | cons sign signs ih =>
    rw [List.foldr_cons, List.map_cons, List.foldr_cons, ← ih]
    cases sign with
    | none => rfl
    | some loc => rfl

/-- Signs in front of an operand: a plus leaves nothing, a minus its place. -/
theorem alike_signed {operand operand' : Parser Expr} (h : Alike k (k.Same Expr.relocate) operand operand') :
    Alike k (k.Same Expr.relocate) (signed operand) (signed operand') := by
  refine Alike.bind (R := List.Forall₂ (Upto (Option.map k.left) (Option.map k.right))) (.many ?_)
    fun signs signs' hsigns => h.bind fun e e' he => .pure ?_
  -- the signs are read alike, with the places of the minus signs moved
  · refine alike_peek.bind fun t u htu => ?_
    rw [k.kind htu]
    generalize u.kind = kind
    cases kind with
    | symbol mark =>
      cases mark with
      | minus =>
        refine alike_advance.bind_eq fun _ => .pure (.some ?_)
        rw [Upto, Option.map_some, Option.map_some, k.loc htu]
      | plus => exact alike_advance.bind_eq fun _ => .pure (.some rfl)
      | _ => exact .pure .none
    | _ => exact .pure .none
  -- and putting them in front commutes with moving places
  · have himage := relocate_foldr k.left signs e
    rw [map_eq_of_forall₂ hsigns, he, ← relocate_foldr] at himage
    exact himage

/-- A reference takes its place from its name and its subscripts from the nested parser. -/
theorem alike_referenceOf {nested nested' : Parser Expr} (h : Alike k (k.Same Expr.relocate) nested nested') :
    Alike k (k.Same Reference.relocate) (referenceOf nested) (referenceOf nested') := by
  refine alike_peek.bind fun t u htu => alike_identifier.bind_eq fun n => .ifAccept ?_ (.pure ?_)
  · refine (alike_commaList h).bind fun es es' hes => (alike_symbol _ _).bind_eq fun _ => .pure ?_
    simp only [Upto, Reference.relocate, relocateAll_eq_of_forall₂ hes, k.loc htu]
  · simp only [Upto, Reference.relocate, relocateAll, k.loc htu]

/-- A call of a function, which takes its arguments in parentheses. -/
theorem alike_callOf {nested nested' : Parser Expr} (h : Alike k (k.Same Expr.relocate) nested nested')
    (function : Builtin) :
    Alike k (k.Same Expr.relocate) (callOf nested function) (callOf nested' function) := by
  refine alike_peek.bind fun t u htu => alike_advance.bind_eq fun _ => (alike_symbol _ _).bind_eq
    fun _ => (alike_commaList h).bind fun es es' hes => (alike_symbol _ _).bind_eq fun _ => ?_
  rw [hes.length_eq]
  refine .ite (.pure ?_) (.refuse (k.loc htu) (.refl _))
  simp only [Upto, Expr.relocate, relocateAll_eq_of_forall₂ hes, k.loc htu]

/-- `ENDFILE` takes the name of a file, which carries no place. -/
theorem alike_endfile : Alike k (k.Same Expr.relocate) endfile endfile := by
  refine alike_peek.bind fun t u htu => alike_advance.bind_eq fun _ => (alike_symbol _ _).bind_eq
    fun _ => alike_fileName.bind_eq fun file => (alike_symbol _ _).bind_eq fun _ => .pure ?_
  simp only [Upto, Expr.relocate, k.loc htu]

/-- The kind of the first token decides which operand is read, and it is the same on both sides. -/
theorem alike_primary {nested nested' : Parser Expr} (h : Alike k (k.Same Expr.relocate) nested nested') :
    Alike k (k.Same Expr.relocate) (primary nested) (primary nested') := by
  refine alike_peek.bind fun t u htu => ?_
  rw [k.kind htu]
  generalize u.kind = kind
  -- alike tokens have one kind, so both sides take the same case
  cases kind with
  | number n | text value =>
    refine alike_advance.bind_eq fun _ => .pure ?_
    simp only [Upto, Expr.relocate, k.loc htu]
  | name _ =>
    refine (alike_referenceOf h).bind fun r r' hr => .pure ?_
    rw [Likeness.Same, Upto, ← Reference.relocate_toExpr, ← Reference.relocate_toExpr, hr]
  | symbol mark =>
    cases mark with
    | lparen =>
      exact alike_advance.bind_eq fun _ => h.bind fun e e' he =>
        (alike_symbol _ _).bind_eq fun _ => .pure he
    | _ => exact .unexpected _ _
  | keyword word =>
    cases word with
    | ENDFILE => exact alike_endfile
    | SUBSTR | INDEX | DECIMAL | MOD => exact alike_callOf h _
    | _ => exact .unexpected _ _
  | _ => exact .unexpected _ _

/-- Expressions, by induction on how deep they are nested in parentheses. -/
theorem alike_expr : Alike k (k.Same Expr.relocate) expr expr := by
  refine .sized fun depth => ?_
  induction depth with
  | zero => exact .unexpected _ _
  | succ depth ih =>
    exact alike_tier _ (alike_tier _ (alike_tier _ (alike_signed (alike_primary ih))))

theorem alike_reference : Alike k (k.Same Reference.relocate) reference reference :=
  alike_referenceOf alike_expr

/-- The relation between two expressions is read from its kind. -/
theorem alike_comparison : Alike k (k.Same Condition.relocate) comparison comparison := by
  refine alike_peek.bind fun t u htu => alike_expr.bind fun l l' hl =>
    alike_peek.bind fun v w hvw => ?_
  rw [k.kind hvw]
  cases relationOf w.kind with
  | none => exact .unexpected _ _
  | some op =>
    refine alike_advance.bind_eq fun _ => alike_expr.bind fun r r' hr => .pure ?_
    simp only [Upto, Condition.relocate, k.loc htu]
    rw [hl, hr]

/-- A condition in parentheses is tried first. It fails on both sides or on neither, so both sides
go back or neither does. -/
theorem alike_condition : Alike k (k.Same Condition.relocate) condition condition := by
  have henclosed : Alike k (k.Same Condition.relocate) enclosedComparison
      enclosedComparison :=
    (alike_symbol _ _).bind_eq fun _ => alike_comparison.bind fun c c' hc =>
      (alike_symbol _ _).bind_eq fun _ => .pure hc
  intro ts us hts
  have hresult := henclosed hts
  rw [condition, condition]
  generalize enclosedComparison ts = x at hresult ⊢
  generalize enclosedComparison us = y at hresult ⊢
  -- where the first attempt fails, it does so on both sides
  cases hresult with
  | ok hc hrest => exact .ok hc hrest
  | error _ _ => exact alike_comparison hts

/-! ## Statements -/

section

variable {nested nested' : Parser (List Stmt)} {l m : Location}

theorem alike_closing (place : Place) : Alike k (· = ·) (closing place) (closing place) :=
  (alike_keyword _ _).bind_eq fun _ => alike_symbol _ _

/-- The statements up to an `END`, if the groups in them are read alike. -/
theorem alike_statementsOf (h : Alike k (k.Same relocateBlock) nested nested') :
    Alike k (k.Same relocateBlock) (statementsOf nested) (statementsOf nested') := by
  refine Alike.bind (R := List.Forall₂ (k.Same relocateBlock)) (.many ?_) fun groups groups' hgroups =>
    .pure ?_
  · refine alike_peek.bind fun t u htu => ?_
    rw [k.kind htu]
    generalize u.kind = kind
    cases kind with
    | eof => exact .pure .none
    | keyword word =>
      cases word with
      | END => exact .pure .none
      | DCL => exact .refuse (k.loc htu) (.lateDeclaration htu)
      | _ => exact h.bind fun ss ss' hss => .pure (.some hss)
    | _ => exact h.bind fun ss ss' hss => .pure (.some hss)
  -- the groups are moved one by one, and so is the list that they are put in
  · have hmap : ∀ f, relocateBlock f = List.map (Stmt.relocate f) :=
      fun f => funext (relocateBlock_eq_map f)
    rw [Likeness.Same, hmap, hmap] at hgroups ⊢
    exact map_flatten_eq hgroups

theorem alike_file : Alike k (· = ·) file file :=
  (alike_keyword _ _).bind_eq fun _ => (alike_symbol _ _).bind_eq fun _ =>
    alike_fileName.bind_eq fun _ => (alike_symbol _ _).bind_eq fun _ => .pure rfl

theorem alike_enclosedReference :
    Alike k (k.Same Reference.relocate) enclosedReference enclosedReference :=
  (alike_symbol _ _).bind_eq fun _ => alike_reference.bind fun _ _ hr =>
    (alike_symbol _ _).bind_eq fun _ => .pure hr

/-- Both branches of an `IF` are groups. -/
theorem alike_ifRest (h : Alike k (k.Same relocateBlock) nested nested') (hloc : k.left l = k.right m) :
    Alike k (k.Same Stmt.relocate) (ifRest nested l) (ifRest nested' m) := by
  refine alike_condition.bind fun c c' hc => (alike_keyword _ _).bind_eq fun _ =>
    h.bind fun yes yes' hyes => (alike_keyword _ _).bind_eq fun _ =>
      h.bind fun no no' hno => .pure ?_
  rw [Likeness.Same, Upto, Stmt.relocate, Stmt.relocate, hc, hyes, hno, hloc]

theorem alike_whileRest (h : Alike k (k.Same relocateBlock) nested nested')
    (hloc : k.left l = k.right m) :
    Alike k (k.Same Stmt.relocate) (whileRest nested l) (whileRest nested' m) := by
  refine (alike_symbol _ _).bind_eq fun _ => alike_condition.bind fun c c' hc =>
    (alike_symbol _ _).bind_eq fun _ => (alike_symbol _ _).bind_eq fun _ =>
      (alike_statementsOf h).bind fun body body' hbody => (alike_closing _).bind_eq fun _ => .pure ?_
  rw [Likeness.Same, Upto, Stmt.relocate, Stmt.relocate, hc, hbody, hloc]

theorem alike_loopStep :
    Alike k (Upto (Option.map (Expr.relocate k.left)) (Option.map (Expr.relocate k.right))) loopStep
      loopStep := by
  refine .ifAccept (alike_expr.bind fun e e' he => .pure ?_) (.pure rfl)
  rw [Upto, Option.map_some, Option.map_some, he]

/-- A counted `DO` begins with a name, which is the control variable. -/
theorem alike_loopRest (h : Alike k (k.Same relocateBlock) nested nested')
    (hloc : k.left l = k.right m) :
    Alike k (k.Same Stmt.relocate) (loopRest nested l) (loopRest nested' m) := by
  refine alike_peek.bind fun t u htu => ?_
  rw [k.kind htu]
  generalize u.kind = kind
  cases kind with
  | name _ =>
    refine alike_reference.bind fun var var' hvar => (alike_symbol _ _).bind_eq fun _ =>
      alike_expr.bind fun start start' hstart => (alike_keyword _ _).bind_eq fun _ =>
        alike_expr.bind fun limit limit' hlimit => alike_loopStep.bind fun step step' hstep =>
          (alike_symbol _ _).bind_eq fun _ => (alike_statementsOf h).bind fun body body' hbody =>
            (alike_closing _).bind_eq fun _ => .pure ?_
    rw [Likeness.Same, Upto, Stmt.relocate, Stmt.relocate, hvar, hstart, hlimit, hstep, hbody, hloc]
  | _ => exact .unexpected _ _

/-- A `WHEN` branch at other places. -/
def relocateWhen (f : Location → Location) :
    List Expr × List Stmt × Location → List Expr × List Stmt × Location
  | (values, body, loc) => (relocateAll f values, relocateBlock f body, f loc)

/-- A `WHEN` clause with its values and its group, unless there is none. -/
theorem alike_when? (h : Alike k (k.Same relocateBlock) nested nested') :
    Alike k (Option.Rel (k.Same relocateWhen)) (when? nested) (when? nested') := by
  refine alike_peek.bind fun t u htu => .ifAccept ?_ (.pure .none)
  refine (alike_symbol _ _).bind_eq fun _ => (alike_commaList alike_expr).bind fun es es' hes =>
    (alike_symbol _ _).bind_eq fun _ => h.bind fun body body' hbody => .pure (.some ?_)
  rw [Likeness.Same, Upto, relocateWhen, relocateWhen, relocateAll_eq_of_forall₂ hes, hbody, k.loc htu]

/-- `OTHER` with its group, or nothing. -/
theorem alike_lastBranch (h : Alike k (k.Same relocateBlock) nested nested') :
    Alike k (k.Same Branches.relocate) (lastBranch nested) (lastBranch nested') := by
  refine .ifAccept (h.bind fun body body' hbody => .pure ?_) (.pure rfl)
  rw [Likeness.Same, Upto, Branches.relocate, Branches.relocate, hbody]

/-- Changing places passes through the clauses of a `SELECT`, which are nested in one another. -/
theorem relocate_whens (f : Location → Location) (whens : List (List Expr × List Stmt × Location))
    (last : Branches) :
    (whens.foldr (fun (values, body, loc) rest => Branches.when values body loc rest) last).relocate
        f =
      (whens.map (relocateWhen f)).foldr
        (fun (values, body, loc) rest => Branches.when values body loc rest) (last.relocate f) := by
  induction whens with
  | nil => rfl
  | cons w whens ih => rw [List.foldr_cons, List.map_cons, List.foldr_cons, ← ih]; rfl

/-- The clauses are counted on both sides before one is asked for, and a `WHEN` behind `OTHER` is
refused on both. -/
theorem alike_selectRest (h : Alike k (k.Same relocateBlock) nested nested')
    (hloc : k.left l = k.right m) :
    Alike k (k.Same Stmt.relocate) (selectRest nested l) (selectRest nested' m) := by
  refine (alike_symbol _ _).bind_eq fun _ => alike_expr.bind fun subject subject' hsubject =>
    (alike_symbol _ _).bind_eq fun _ => (alike_symbol _ _).bind_eq fun _ =>
      (Alike.many (alike_when? h)).bind fun whens whens' hwhens => ?_
  -- whether there is a `WHEN` is the same on both sides, as their numbers are
  have hempty : whens.isEmpty = whens'.isEmpty := by
    cases hwhens with
    | nil => rfl
    | cons _ _ => rfl
  rw [hempty]
  refine .ite (.unexpected_bind _ _ _ _) ?_
  refine (alike_lastBranch h).bind fun last last' hlast => alike_peek.bind fun v w hvw => ?_
  rw [k.kind hvw]
  refine .ite (.refuse_bind (k.loc hvw) (.whenAfterOther hvw) _ _) ?_
  refine (alike_closing _).bind_eq fun _ => .pure ?_
  rw [Likeness.Same, Upto, Stmt.relocate, Stmt.relocate, hsubject, hloc, relocate_whens,
    relocate_whens, map_eq_of_forall₂ hwhens, hlast]

/-- The items of a `PUT` may only be left out behind `SKIP`. -/
theorem alike_putItems (skip : Bool) :
    Alike k (k.Same relocateAll) (putItems skip) (putItems skip) := by
  refine .ifAccept ?_ (.ite (.pure rfl) (.unexpected _ _))
  exact (alike_symbol _ _).bind_eq fun _ => (alike_commaList alike_expr).bind fun es es' hes =>
    (alike_symbol _ _).bind_eq fun _ => .pure (relocateAll_eq_of_forall₂ hes)

theorem alike_putRest (hloc : k.left l = k.right m) :
    Alike k (k.Same Stmt.relocate) (putRest l) (putRest m) := by
  refine (alike_accept _).bind_eq fun skip => (alike_putItems skip).bind fun es es' hes =>
    (alike_symbol _ _).bind_eq fun _ => .pure ?_
  rw [Likeness.Same, Upto, Stmt.relocate, Stmt.relocate, hes, hloc]

theorem alike_getRest (hloc : k.left l = k.right m) :
    Alike k (k.Same Stmt.relocate) (getRest l) (getRest m) := by
  refine (alike_keyword _ _).bind_eq fun _ => (alike_symbol _ _).bind_eq fun _ =>
    (alike_commaList alike_reference).bind fun rs rs' hrs => (alike_symbol _ _).bind_eq fun _ =>
      (alike_symbol _ _).bind_eq fun _ => .pure ?_
  rw [Likeness.Same, Upto, Stmt.relocate, Stmt.relocate, map_eq_of_forall₂ hrs, hloc]

/-- `INPUT` or `OUTPUT`, by the kind of the token. -/
theorem alike_fileMode : Alike k (· = ·) fileMode fileMode := by
  refine alike_peek.bind fun t u htu => ?_
  rw [k.kind htu]
  generalize u.kind = kind
  cases kind with
  | keyword word =>
    cases word with
    | INPUT | OUTPUT => exact alike_advance.bind_eq fun _ => .pure rfl
    | _ => exact .unexpected _ _
  | _ => exact .unexpected _ _

theorem alike_openRest (hloc : k.left l = k.right m) :
    Alike k (k.Same Stmt.relocate) (openRest l) (openRest m) := by
  refine alike_file.bind_eq fun name => alike_fileMode.bind_eq fun mode =>
    (alike_symbol _ _).bind_eq fun _ => .pure ?_
  rw [Likeness.Same, Upto, Stmt.relocate, Stmt.relocate, hloc]

theorem alike_readRest (hloc : k.left l = k.right m) :
    Alike k (k.Same Stmt.relocate) (readRest l) (readRest m) := by
  refine alike_file.bind_eq fun name => (alike_keyword _ _).bind_eq fun _ =>
    alike_enclosedReference.bind fun r r' hr => (alike_symbol _ _).bind_eq fun _ => .pure ?_
  rw [Likeness.Same, Upto, Stmt.relocate, Stmt.relocate, hr, hloc]

theorem alike_writeRest (hloc : k.left l = k.right m) :
    Alike k (k.Same Stmt.relocate) (writeRest l) (writeRest m) := by
  refine alike_file.bind_eq fun name => (alike_keyword _ _).bind_eq fun _ =>
    alike_enclosedReference.bind fun r r' hr => (alike_symbol _ _).bind_eq fun _ => .pure ?_
  rw [Likeness.Same, Upto, Stmt.relocate, Stmt.relocate, hr, hloc]

theorem alike_closeRest (hloc : k.left l = k.right m) :
    Alike k (k.Same Stmt.relocate) (closeRest l) (closeRest m) := by
  refine alike_file.bind_eq fun name => (alike_symbol _ _).bind_eq fun _ => .pure ?_
  rw [Likeness.Same, Upto, Stmt.relocate, Stmt.relocate, hloc]

/-- The text of a query is in the kind of its token, so it is the same on both sides. -/
theorem alike_execRest (hloc : k.left l = k.right m) :
    Alike k (k.Same Stmt.relocate) (execRest l) (execRest m) := by
  refine (alike_keyword _ _).bind_eq fun _ => alike_peek.bind fun t u htu => ?_
  rw [k.kind htu]
  generalize u.kind = kind
  cases kind with
  | query sql =>
    refine alike_advance.bind_eq fun _ => (alike_keyword _ _).bind_eq fun _ =>
      (alike_accept _).bind_eq fun _ => alike_reference.bind fun r r' hr =>
        (alike_symbol _ _).bind_eq fun _ => .pure ?_
    rw [Likeness.Same, Upto, Stmt.relocate, Stmt.relocate, hr, hloc]
  | _ => exact .unexpected _ _

theorem alike_assignment (hloc : k.left l = k.right m) :
    Alike k (k.Same Stmt.relocate) (assignment l) (assignment m) := by
  refine alike_reference.bind fun r r' hr => (alike_symbol _ _).bind_eq fun _ =>
    alike_expr.bind fun e e' he => (alike_symbol _ _).bind_eq fun _ => .pure ?_
  rw [Likeness.Same, Upto, Stmt.relocate, Stmt.relocate, hr, he, hloc]

/-- The first token decides which statement it is. It is of the same kind on both sides. -/
theorem alike_statementOf (h : Alike k (k.Same relocateBlock) nested nested') :
    Alike k (k.Same Stmt.relocate) (statementOf nested) (statementOf nested') := by
  refine alike_peek.bind fun t u htu => ?_
  have hloc := k.loc htu
  rw [k.kind htu]
  generalize u.kind = kind
  -- the place of the first token goes into the statement, in every form
  cases kind with
  | name _ => exact alike_assignment hloc
  | keyword word =>
    cases word with
    | IF => exact alike_advance.bind_eq fun _ => alike_ifRest h hloc
    | DO =>
      exact alike_advance.bind_eq fun _ => .ifAccept (alike_whileRest h hloc) (alike_loopRest h hloc)
    | SELECT => exact alike_advance.bind_eq fun _ => alike_selectRest h hloc
    | PUT => exact alike_advance.bind_eq fun _ => alike_putRest hloc
    | GET => exact alike_advance.bind_eq fun _ => alike_getRest hloc
    | OPEN => exact alike_advance.bind_eq fun _ => alike_openRest hloc
    | READ => exact alike_advance.bind_eq fun _ => alike_readRest hloc
    | WRITE => exact alike_advance.bind_eq fun _ => alike_writeRest hloc
    | CLOSE => exact alike_advance.bind_eq fun _ => alike_closeRest hloc
    | EXEC => exact alike_advance.bind_eq fun _ => alike_execRest hloc
    | _ => exact .unexpected _ _
  | _ => exact .unexpected _ _

/-- `DO` with a semicolon behind it begins a group, which takes a look at two tokens. -/
theorem alike_atGroup : Alike k (· = ·) atGroup atGroup := by
  intro ts us hts
  refine .ok ?_ hts
  rw [k.kind (alike_front hts), k.kind (alike_front (alike_behind hts))]

/-- A group is one statement, or several between `DO;` and `END;`. -/
theorem alike_groupOf (h : Alike k (k.Same relocateBlock) nested nested') :
    Alike k (k.Same relocateBlock) (groupOf nested) (groupOf nested') := by
  refine alike_atGroup.bind_eq fun _ => .ite ?_ ?_
  · exact alike_advance.bind_eq fun _ => alike_advance.bind_eq fun _ =>
      (alike_statementsOf h).bind fun ss ss' hss => (alike_closing _).bind_eq fun _ => .pure hss
  · refine (alike_statementOf h).bind fun s s' hs => .pure ?_
    rw [Likeness.Same, Upto, relocateBlock, relocateBlock, hs]
    rfl

/-- By induction on how deep the groups are nested. -/
theorem alike_group : Alike k (k.Same relocateBlock) group group := by
  refine .sized fun depth => ?_
  induction depth with
  | zero => exact .unexpected _ _
  | succ depth ih => exact alike_groupOf ih

end

/-! ## Programs -/

theorem alike_header : Alike k (· = ·) header header :=
  alike_name.bind_eq fun _ => (alike_symbol _ _).bind_eq fun _ => (alike_keyword _ _).bind_eq
    fun _ => (alike_keyword _ _).bind_eq fun _ => (alike_symbol _ _).bind_eq fun _ =>
      (alike_keyword _ _).bind_eq fun _ => (alike_symbol _ _).bind_eq fun _ =>
        (alike_symbol _ _).bind_eq fun _ => .pure rfl

/-- The name behind the last `END` may be left out, and has to be that of the procedure otherwise.
-/
theorem alike_ending (name : String) : Alike k (· = ·) (ending name) (ending name) := by
  refine (alike_keyword _ _).bind_eq fun _ => alike_peek.bind fun t u htu => ?_
  rw [k.kind htu]
  refine .ite (alike_symbol _ _) (alike_name.bind_eq fun label => ?_)
  exact .ite (.refuse_bind (k.loc htu) (.refl _) _ _) (alike_symbol _ _)

/-- **Programs are read alike** from tokens that are alike. -/
theorem alike_program : Alike k (k.Same Program.relocate) program program := by
  refine alike_peek.bind fun t u htu => alike_header.bind_eq fun name =>
    alike_declarations.bind fun ds ds' hds =>
      (alike_statementsOf alike_group).bind fun ss ss' hss => (alike_ending name).bind_eq fun _ =>
        (alike_check _).bind_eq fun _ => .ite (.pure ?_) (.unexpected_bind _ _ _ _)
  rw [Likeness.Same, Upto, Program.relocate, Program.relocate, hds, hss, k.loc htu]

end Grammar

end Plic
