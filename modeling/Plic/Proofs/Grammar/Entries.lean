import Plic.Proofs.Grammar.Reading

/-!
# The list of a declaration

What a declaration lists are names and lists in parentheses, one inside another to
any depth, and extents may be written behind each of them. An entry is such a tree
as it was written. Each name in it is told with the extents written behind it and
behind the lists around it, from the inside out, and has the first of these that
are written.

The parser works the other way round: it reads the members of a list first and
then hands the extents behind the list to those that have none yet. As extents are
never empty, an item without any is one for which none were written so far.

Main results:

* `sound_commaList_items`, `complete_commaList_items` — the parser reads the
  entries and answers the items of their names.
* `names_of_separated` — these are the names that are written, in order.
-/

namespace Plic

/-- The extents of an array, of which there is at least one. -/
abbrev Extents := { dims : List Int // dims ≠ [] }

/-- Extents as the tree keeps them, where none are an empty list. -/
def writtenDims (extents : Option Extents) : List Int := extents.elim [] Subtype.val

/-- One member of the list of a declaration, with the extents written behind it. -/
inductive Entry where
  | name (id : String) (loc : Location) (extents : Option Extents)
  /-- A list in parentheses. -/
  | group (members : List Entry) (extents : Option Extents)

/-- A name in the list of a declaration, with what is written behind it and behind each of the lists
around it, from the inside out. -/
structure Occurrence where
  name : String
  loc : Location
  written : List (Option Extents)

namespace Occurrence

/-- The extents of the name: those nearest to it. -/
def dims (o : Occurrence) : List Int := writtenDims (o.written.findSome? id)

/-- The item that the name declares. -/
def item (o : Occurrence) : Item := ⟨o.name, o.dims, o.loc⟩

/-- The name inside one more list, around all others. -/
def within (outer : Option Extents) (o : Occurrence) : Occurrence :=
  { o with written := o.written ++ [outer] }

end Occurrence

mutual

/-- The names of an entry, in order, when the given extents are written behind the lists around
it. -/
def Entry.occurrences (around : List (Option Extents)) : Entry → List Occurrence
  | .name id loc own => [⟨id, loc, own :: around⟩]
  | .group members own => occurrencesOf (own :: around) members

/-- The names of some entries, in order. -/
def occurrencesOf (around : List (Option Extents)) : List Entry → List Occurrence
  | [] => []
  | e :: es => e.occurrences around ++ occurrencesOf around es

end

/-- The items of an entry: its names with the first extents that are written for each. -/
def Entry.items (e : Entry) : List Item := (e.occurrences []).map Occurrence.item

/-- The items of entries in a row. -/
def entryItems (es : List Entry) : List Item := (occurrencesOf [] es).map Occurrence.item

theorem flatten_map_items (es : List Entry) : (es.map Entry.items).flatten = entryItems es := by
  induction es with
  | nil => rfl
  | cons e es ih =>
    have hsplit : occurrencesOf [] (e :: es) = e.occurrences [] ++ occurrencesOf [] es := rfl
    rw [List.map_cons, List.flatten_cons, ih, entryItems, entryItems, hsplit, List.map_append]
    rfl

/-! ## Extents from outside -/

mutual

/-- A list around all others comes last for every name. -/
theorem Entry.occurrences_append (around : List (Option Extents)) (outer : Option Extents)
    (e : Entry) :
    e.occurrences (around ++ [outer]) = (e.occurrences around).map (.within outer) := by
  match e with
  | .name id loc own => rfl
  | .group members own =>
    rw [Entry.occurrences, Entry.occurrences]
    exact occurrencesOf_append (own :: around) outer members

/-- Extents around a list are around all names in it. -/
theorem occurrencesOf_append (around : List (Option Extents)) (outer : Option Extents)
    (es : List Entry) :
    occurrencesOf (around ++ [outer]) es = (occurrencesOf around es).map (.within outer) := by
  match es with
  | [] => rfl
  | e :: es =>
    rw [occurrencesOf, occurrencesOf, List.map_append, e.occurrences_append around outer,
      occurrencesOf_append around outer es]

end

/-- To stand inside one more list is to get its extents if there are no others. -/
theorem Occurrence.item_within (outer : Option Extents) (o : Occurrence) :
    (o.within outer).item = Grammar.withExtents (writtenDims outer) o.item := by
  have hdims : (o.within outer).dims = writtenDims ((o.written.findSome? id).or outer) := by
    cases outer <;> simp [Occurrence.dims, Occurrence.within]
  have hown : o.dims = writtenDims (o.written.findSome? id) := rfl
  unfold Grammar.withExtents Occurrence.item
  rw [hdims, hown]
  cases o.written.findSome? id with
  | some extents =>
    -- written extents are not empty, so they are kept
    have hne : writtenDims (some extents) ≠ [] := extents.property
    rw [if_neg hne]
    rfl
  | none =>
    have hnone : writtenDims none = [] := rfl
    rw [if_pos hnone, Option.none_or]
    rfl

/-- The extents behind a list go to those items that have none yet, which is what the parser does.
-/
theorem Entry.items_group (members : List Entry) (own : Option Extents) :
    (Entry.group members own).items =
      (entryItems members).map (Grammar.withExtents (writtenDims own)) := by
  have hlast : occurrencesOf [own] members = (occurrencesOf [] members).map (.within own) :=
    occurrencesOf_append [] own members
  rw [Entry.items, Entry.occurrences, hlast, entryItems, List.map_map, List.map_map]
  exact List.map_congr_left fun o _ => o.item_within own

namespace Grammar

open Plic.Parser

/-! ## Rules -/

/-- An integer literal. -/
inductive Counted : Rule Nat where
  | intro {t : Token} {n : Nat} : t.kind = .number n → Counted [t] n

/-- Extents in parentheses, which may be left out. -/
inductive Extended : Rule (Option Extents) where
  | absent : Extended [] none
  | given {o c : Token} {xs : List Token} {ns : List Nat} {extents : Extents} :
      o.kind = .symbol .lparen → Separated Counted xs ns → c.kind = .symbol .rparen →
      extents.val = ns.map Int.ofNat → Extended (o :: xs ++ [c]) (some extents)

/-- Entries as they are written. -/
inductive Entered : Rule Entry where
  | name {t : Token} {id : String} {xs : List Token} {own : Option Extents} :
      t.kind = .name id → Extended xs own → Entered (t :: xs) (.name id t.loc own)
  | group {o c : Token} {xs ys : List Token} {members : List Entry} {own : Option Extents} :
      o.kind = .symbol .lparen → Separated Entered xs members → c.kind = .symbol .rparen →
      Extended ys own → Entered (o :: xs ++ c :: ys) (.group members own)

/-- A name of the source that is no keyword, with its place. -/
def writtenName (t : Token) : Option (String × Location) :=
  match t.kind with
  | .name id => some (id, t.loc)
  | _ => none

/-! ## Names -/

theorem writtenName_of_symbol {t : Token} {m : Symbol} (h : t.kind = .symbol m) :
    writtenName t = none := by
  rw [writtenName, h]

/-- A number, or a symbol that is no semicolon. -/
def InExtents (t : Token) : Prop :=
  (∃ n, t.kind = .number n) ∨ ∃ m, t.kind = .symbol m ∧ m ≠ .semicolon

theorem Separated.inExtents {xs : List Token} {ns : List Nat} (h : Separated Counted xs ns) :
    ∀ t ∈ xs, InExtents t := by
  have hone : ∀ {xs n}, Counted xs n → ∀ t ∈ xs, InExtents t := by
    rintro _ n ⟨ht⟩
    exact List.forall_mem_singleton.mpr (.inl ⟨n, ht⟩)
  induction h with
  | one h => exact hone h
  | more h hcomma _ ih =>
    rw [List.forall_mem_append, List.forall_mem_cons]
    exact ⟨hone h, .inr ⟨_, hcomma, by simp⟩, ih⟩

/-- Neither a name nor a keyword nor a semicolon stands among extents. -/
theorem Extended.inExtents {xs : List Token} {own : Option Extents} (h : Extended xs own) :
    ∀ t ∈ xs, InExtents t := by
  cases h with
  | absent => exact List.forall_mem_nil _
  | given ho hns hc _ =>
    rw [List.forall_mem_append, List.forall_mem_cons, List.forall_mem_singleton]
    exact ⟨⟨.inr ⟨_, ho, by simp⟩, hns.inExtents⟩, .inr ⟨_, hc, by simp⟩⟩

theorem Extended.names {xs : List Token} {own : Option Extents} (h : Extended xs own) :
    xs.filterMap writtenName = [] := by
  rw [List.filterMap_eq_nil_iff]
  intro t ht
  obtain ⟨n, hn⟩ | ⟨m, hm, -⟩ := h.inExtents t ht
  · rw [writtenName, hn]
  · exact writtenName_of_symbol hm

mutual

/-- The names of an entry are those that are written, in order. -/
theorem Entered.names {xs : List Token} {e : Entry} (h : Entered xs e)
    (around : List (Option Extents)) :
    (e.occurrences around).map (fun o => (o.name, o.loc)) = xs.filterMap writtenName := by
  match h with
  | .name ht hxs =>
    rw [List.filterMap_cons, hxs.names, writtenName, ht]
    rfl
  | @Entered.group _ _ _ _ _ own ho hmembers hc hys =>
    rw [List.filterMap_append, List.filterMap_cons, List.filterMap_cons, hys.names,
      writtenName_of_symbol ho, writtenName_of_symbol hc, List.append_nil]
    exact names_of_separated hmembers (own :: around)

/-- The names of some entries are those that are written, in order. -/
theorem names_of_separated {xs : List Token} {es : List Entry} (h : Separated Entered xs es)
    (around : List (Option Extents)) :
    (occurrencesOf around es).map (fun o => (o.name, o.loc)) = xs.filterMap writtenName := by
  match h with
  | .one he =>
    rw [occurrencesOf, occurrencesOf, List.append_nil]
    exact he.names around
  | .more he hcomma hes =>
    rw [occurrencesOf, List.map_append, List.filterMap_append, List.filterMap_cons,
      writtenName_of_symbol hcomma, he.names around, names_of_separated hes around]

end

/-! ## Reading -/

/-- The stretches of a rule, told by something about what they stand for. -/
def Rule.map {α β : Type} (f : α → β) (R : Rule α) : Rule β := fun xs b => ∃ a, R xs a ∧ f a = b

/-- A list of mapped items is a mapped list. -/
theorem separated_map_iff {α β : Type} {f : α → β} {R : Rule α} {xs : List Token} {bs : List β} :
    Separated (Rule.map f R) xs bs ↔ ∃ as, Separated R xs as ∧ as.map f = bs := by
  constructor
  · intro h
    induction h with
    | one h =>
      obtain ⟨a, ha, rfl⟩ := h
      exact ⟨[a], .one ha, rfl⟩
    | more h hcomma _ ih =>
      obtain ⟨a, ha, rfl⟩ := h
      obtain ⟨as, has, rfl⟩ := ih
      exact ⟨a :: as, .more ha hcomma has, rfl⟩
  · rintro ⟨as, h, rfl⟩
    induction h with
    | one ha => exact .one ⟨_, ha, rfl⟩
    | more ha hcomma _ ih => exact .more ⟨_, ha, rfl⟩ hcomma ih

/-- An extent that is read is a number. -/
theorem sound_integer : Sound integer Counted := by
  intro ts n rest h
  obtain ⟨t, ht, rfl⟩ := integer_ok_iff.mp h
  exact ⟨[t], rfl, .intro ht⟩

theorem complete_integer (n : Nat) : Complete n integer Counted fun _ => True := by
  rintro _ m rest _ ⟨ht⟩ _
  exact integer_ok_iff.mpr ⟨_, ht, rfl⟩

/-- No opening parenthesis is at the front, with which extents would begin. -/
def Unextended (rest : List Token) : Prop := (front rest).kind ≠ .symbol .lparen

/-- Extents that are read are written, or there are none. -/
theorem sound_extents? : Sound extents? (Rule.map writtenDims Extended) := by
  intro ts dims rest h
  obtain ⟨opened, mid, hcheck, hnext⟩ := bind_ok_iff.mp h
  injection hcheck with hopened hmid
  subst hmid
  cases opened with
  | false =>
    obtain ⟨rfl, rfl⟩ := pure_ok_iff.mp hnext
    exact ⟨[], rfl, none, .absent, rfl⟩
  | true =>
    have hextents : extents ts = .ok dims rest := hnext
    rw [extents] at hextents
    obtain ⟨o, mid, ho, rfl, hinside⟩ := symbol_bind_ok_iff.mp hextents
    obtain ⟨xs, ns, mid, rfl, hns, hclose⟩ := (sound_commaList sound_integer).of_bind hinside
    obtain ⟨c, mid, hc, rfl, hlast⟩ := symbol_bind_ok_iff.mp hclose
    obtain ⟨rfl, rfl⟩ := pure_ok_iff.mp hlast
    -- a list is never empty, so extents that are written are some
    have hne : ns.map Int.ofNat ≠ [] := by simpa using hns.ne_nil
    exact ⟨o :: xs ++ [c], by simp, some ⟨_, hne⟩, .given ho hns hc rfl, rfl⟩

/-- They are read, and where none are written no parenthesis follows. -/
theorem complete_extents? (n : Nat) :
    Complete n extents? (Rule.map writtenDims Extended) Unextended := by
  rintro xs _ rest hlength ⟨own, hxs, rfl⟩ hrest
  cases hxs with
  | absent =>
    -- without a parenthesis there are no extents to read
    have hcheck : check (.symbol .lparen) rest = .ok false rest := by
      rw [check, decide_eq_false hrest]
    rw [extents?, List.nil_append, bind_of_ok hcheck]
    rfl
  | @given o c xs ns own ho hns hc hval =>
    have hcheck : check (.symbol .lparen) (o :: xs ++ [c] ++ rest) =
        .ok true (o :: xs ++ [c] ++ rest) := by
      rw [List.append_assoc, List.cons_append, check, front_cons, decide_eq_true ho]
    have hlist := complete_commaList (complete_integer n) (fun _ _ _ => trivial)
    have hshort : xs.length ≤ n := by
      simp only [List.length_append, List.length_cons] at hlength
      omega
    have hnumbers : commaList integer (xs ++ c :: rest) = .ok ns (c :: rest) :=
      hlist hshort hns ⟨trivial, by simp [hc]⟩
    rw [extents?, bind_of_ok hcheck, List.append_assoc]
    show extents (o :: (xs ++ c :: rest)) = _
    rw [extents, symbol_bind ho, bind_of_ok hnumbers, symbol_bind hc, ← hval]
    rfl

theorem Entry.items_name (id : String) (loc : Location) (own : Option Extents) :
    (Entry.name id loc own).items = [⟨id, writtenDims own, loc⟩] := by
  cases own <;> rfl

/-- An entry is read if its members are. -/
theorem sound_itemsOf {nested : Parser (List Item)}
    (h : Sound nested (Rule.map Entry.items Entered)) :
    Sound (itemsOf nested) (Rule.map Entry.items Entered) := by
  intro ts is rest hts
  rcases (accept_bind_ok_iff (by simp)).mp hts with ⟨o, mid, ho, rfl, hlist⟩ | ⟨-, hnext⟩
  · obtain ⟨xs, found, mid, rfl, hxs, hclose⟩ := (sound_commaList h).of_bind hlist
    obtain ⟨c, mid, hc, rfl, hextents⟩ := symbol_bind_ok_iff.mp hclose
    obtain ⟨ys, dims, mid, rfl, hys, hlast⟩ := sound_extents?.of_bind hextents
    obtain ⟨members, hmembers, rfl⟩ := separated_map_iff.mp hxs
    obtain ⟨own, hown, rfl⟩ := hys
    obtain ⟨rfl, rfl⟩ := pure_ok_iff.mp hlast
    refine ⟨o :: xs ++ c :: ys, by simp, .group members own, .group ho hmembers hc hown, ?_⟩
    -- the extents behind the list are handed to the items without any
    rw [Entry.items_group, ← flatten_map_items]
  -- without a parenthesis there is one name
  · have hname : (do
        let n ← identifier
        let dims ← extents?
        return [⟨n, dims, (front ts).loc⟩] : Parser (List Item)) ts = .ok is rest := hnext
    obtain ⟨n, mid, hn, hextents⟩ := bind_ok_iff.mp hname
    obtain ⟨t, ht, rfl⟩ := identifier_ok_iff.mp hn
    obtain ⟨ys, dims, mid, rfl, hys, hlast⟩ := sound_extents?.of_bind hextents
    obtain ⟨own, hown, rfl⟩ := hys
    obtain ⟨rfl, rfl⟩ := pure_ok_iff.mp hlast
    exact ⟨t :: ys, rfl, .name n t.loc own, .name ht hown, Entry.items_name n t.loc own⟩

/-- A list is one token deeper than its members. -/
theorem complete_itemsOf {n : Nat} {nested : Parser (List Item)}
    (h : Complete n nested (Rule.map Entry.items Entered) Unextended) :
    Complete (n + 1) (itemsOf nested) (Rule.map Entry.items Entered) Unextended := by
  rintro xs _ rest hlength ⟨e, he, rfl⟩ hrest
  cases he with
  | @name t id ys own ht hown =>
    have haccept : accept (.symbol .lparen) (t :: ys ++ rest) = .ok false (t :: ys ++ rest) :=
      accept_other (by simp [ht])
    have hidentifier : identifier (t :: ys ++ rest) = .ok id (ys ++ rest) :=
      identifier_ok_iff.mpr ⟨t, ht, rfl⟩
    have hextents : extents? (ys ++ rest) = .ok (writtenDims own) rest :=
      complete_extents? ys.length (Nat.le_refl _) ⟨own, hown, rfl⟩ hrest
    rw [itemsOf, bind_of_ok haccept]
    show (do
      let n ← identifier
      let dims ← extents?
      return [⟨n, dims, (front (t :: ys ++ rest)).loc⟩] : Parser (List Item)) _ = _
    rw [bind_of_ok hidentifier, bind_of_ok hextents, Entry.items_name]
    rfl
  | @group o c ys zs members own ho hmembers hc hown =>
    have hshort : ys.length ≤ n := by
      simp only [List.length_append, List.length_cons] at hlength
      omega
    -- members end at a comma or at the closing parenthesis, never at extents
    have hlist := complete_commaList h fun t ts ht => by simp [Unextended, ht]
    have hends : Unextended (c :: (zs ++ rest)) ∧
        (front (c :: (zs ++ rest))).kind ≠ .symbol .comma := by
      simp [Unextended, hc]
    have hnested : commaList nested (ys ++ c :: (zs ++ rest)) =
        .ok (members.map Entry.items) (c :: (zs ++ rest)) :=
      hlist hshort (separated_map_iff.mpr ⟨members, hmembers, rfl⟩) hends
    have hextents : extents? (zs ++ rest) = .ok (writtenDims own) rest :=
      complete_extents? zs.length (Nat.le_refl _) ⟨own, hown, rfl⟩ hrest
    have htokens : o :: ys ++ c :: zs ++ rest = o :: (ys ++ c :: (zs ++ rest)) := by simp
    rw [htokens, itemsOf, bind_of_ok (accept_cons (by simp) ho _)]
    show (do
      let members ← commaList nested
      symbol .rparen .factoredList
      let dims ← extents?
      return members.flatten.map (withExtents dims) : Parser (List Item)) _ = _
    rw [bind_of_ok hnested, symbol_bind hc, bind_of_ok hextents, flatten_map_items,
      Entry.items_group]
    rfl

/-- At every depth what is read is an entry, answered as its items. -/
theorem sound_itemsWithin (depth : Nat) :
    Sound (itemsWithin depth) (Rule.map Entry.items Entered) := by
  induction depth with
  | zero => exact fun ts is rest h => absurd h (unexpected_ne_ok _ _ _ _ _)
  | succ depth ih => exact sound_itemsOf ih

/-- Lists are nested less deeply than there are tokens. -/
theorem complete_itemsWithin (depth : Nat) :
    Complete depth (itemsWithin depth) (Rule.map Entry.items Entered) Unextended := by
  induction depth with
  | zero =>
    rintro xs _ rest hlength ⟨e, he, rfl⟩ _
    cases he <;> simp at hlength
  | succ depth ih => exact complete_itemsOf ih

theorem sound_items : Sound items (Rule.map Entry.items Entered) :=
  fun ts _ _ h => sound_itemsWithin ts.length h

theorem complete_items (n : Nat) :
    Complete n items (Rule.map Entry.items Entered) Unextended := by
  intro xs is rest _ h hrest
  have hlength : xs.length ≤ (xs ++ rest).length := by
    rw [List.length_append]
    omega
  exact complete_itemsWithin (xs ++ rest).length hlength h hrest

/-- The list of a declaration that is read is written as entries, whose items it declares. -/
theorem sound_commaList_items {ts rest : List Token} {found : List (List Item)}
    (h : commaList items ts = .ok found rest) :
    ∃ xs es, ts = xs ++ rest ∧ Separated Entered xs es ∧ found.flatten = entryItems es := by
  obtain ⟨xs, rfl, hxs⟩ := sound_commaList sound_items h
  obtain ⟨es, hes, rfl⟩ := separated_map_iff.mp hxs
  exact ⟨xs, es, rfl, hes, flatten_map_items es⟩

/-- Entries that end where neither extents nor a further entry follow are read. -/
theorem complete_commaList_items {xs rest : List Token} {es : List Entry}
    (h : Separated Entered xs es) (hopen : (front rest).kind ≠ .symbol .lparen)
    (hcomma : (front rest).kind ≠ .symbol .comma) :
    ∃ found, commaList items (xs ++ rest) = .ok found rest ∧
      found.flatten = entryItems es := by
  have hlist := complete_commaList (complete_items xs.length) fun t ts ht => by
    simp [Unextended, ht]
  exact ⟨es.map Entry.items,
    hlist (Nat.le_refl _) (separated_map_iff.mpr ⟨es, h, rfl⟩) ⟨hopen, hcomma⟩,
    flatten_map_items es⟩

end Grammar

end Plic
