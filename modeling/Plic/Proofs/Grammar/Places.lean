import Plic.Proofs.Grammar.Alike

/-!
# Faults of the parser stand at tokens

A place enters the parser through the token at the front and in no other way: it
is kept while further tokens are read and may come back in a fault much later,
as the place of a call, of a keyword or of a whole declaration. So every fault
stands at a token, and every item that is declared stands at one too.

This follows from the likeness of what is read. Tokens are compared with
themselves while other places are moved: what is read of them does not change, so
it has no place that was moved.

Main results:

* `program_fault_at_token` — a program is refused at the place of one of its tokens.
* `program_items_at_tokens` — the items that it declares stand at others.
-/

namespace Plic

/-- The same tokens, where the places on the one side are moved and those of the tokens stay. -/
def Likeness.moving (f : Location → Location) : Likeness where
  left := f
  right := id
  alike t u := t = u ∧ f t.loc = t.loc
  kind h := h.1 ▸ rfl
  loc h := h.2.trans (h.1 ▸ rfl)
  spelling h _ := h.1 ▸ rfl

/-- A place that stays wherever those of the tokens stay is one of them. -/
theorem exists_token_of_stays {ts : List Token} {l : Location}
    (h : ∀ f : Location → Location, (∀ t ∈ ts, f t.loc = t.loc) → f l = l) :
    ∃ t ∈ ts, l = t.loc := by
  by_contra! hno
  have hstays := h (fun x => if x = l then ⟨l.line + 1, l.column⟩ else x)
    fun t ht => if_neg (hno t ht).symm
  rw [if_pos rfl] at hstays
  have hline : l.line + 1 = l.line := congrArg Location.line hstays
  omega

namespace Grammar

open Plic.Parser

section

variable {before : List Token} {eof : Token} (heof : eof.kind = .eof)

include heof

/-- What is read of tokens at places that stay does not change when other places are moved. -/
theorem program_stays {f : Location → Location} (hf : ∀ t ∈ before ++ [eof], f t.loc = t.loc) :
    Agree (.moving f) ((Likeness.moving f).Same Program.relocate) (program (before ++ [eof]))
      (program (before ++ [eof])) := by
  refine alike_program (.of_forall₂ heof ?_)
  exact List.forall₂_same.mpr fun t ht => ⟨rfl, hf t ht⟩

/-- A program is refused at the place of one of its tokens. -/
theorem program_fault_at_token {g : Fault} {rest : List Token}
    (h : program (before ++ [eof]) = .error g rest) : ∃ t ∈ before ++ [eof], g.loc = t.loc := by
  refine exists_token_of_stays fun f hf => ?_
  have hstays := program_stays heof hf
  rw [h] at hstays
  cases hstays with
  | error hsame _ => exact hsame.loc

/-- The items that a program declares stand at tokens of it. -/
theorem program_items_at_tokens {p : Program} {rest : List Token}
    (h : program (before ++ [eof]) = .ok p rest) :
    ∀ d ∈ p.declarations, ∀ i ∈ d.items, ∃ t ∈ before ++ [eof], i.loc = t.loc := by
  intro d hd i hi
  refine exists_token_of_stays fun f hf => ?_
  -- whatever moves places but those of the tokens leaves the program as it is
  have hstays := program_stays heof hf
  rw [h] at hstays
  cases hstays with
  | ok hsame _ =>
    have hsame : p.relocate f = p.relocate id := hsame
    have hd : d.relocate f = d.relocate id :=
      List.map_eq_map_iff.mp (congrArg Program.declarations hsame) d hd
    have hi : i.relocate f = i.relocate id :=
      List.map_eq_map_iff.mp (congrArg Declaration.items hd) i hi
    exact congrArg Item.loc hi

end

end Grammar

end Plic
