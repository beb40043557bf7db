import Plic.Proofs.Compile.Stages
import Plic.Proofs.Grammar.Places
import Plic.Proofs.Token.Cover

/-!
# Every fault of a compilation stands in the source

A compilation is refused by the parser, for a declaration or for a subscript. The
parser takes its places from the tokens. Declarations are refused at an item and
references at themselves, and both carry the place of the token that they were
read from. So the place of every fault is that of a token, and a token stands at
one character of the source or at its end.

Two of the ways to a fault know of a place that is in no source: the parser
invents one for a token behind the last, and code for a call without arguments
would be refused there. Neither is ever taken.

Main results:

* `Lexer.exists_standsAt` — every token of a source stands at a character of it,
  or at its end.
* `compile_fault_place` — every fault of a compilation stands at a token.
-/

namespace Plic

/-! ## Places and offsets -/

namespace Location

/-- Every place in a source is somewhere. -/
theorem placeOf_ne_nowhere (before : List Char) : placeOf before ≠ nowhere := by
  intro h
  have hline : 1 + before.count '\n' = 0 := congrArg Location.line h
  omega

end Location

/-! ## Tokens in their source -/

/-- The token is spelled by the characters from an offset on and has the place of that offset. The
offset is that of a character, or the token is the end of the source. -/
structure Token.StandsAt (source : List Char) (t : Token) (i : Nat) : Prop where
  spelled : t.lexeme.toList <+: source.drop i
  place   : t.loc = .placeOf (source.take i)
  inside  : i < source.length ∨ t.kind = .eof ∧ i = source.length

/-- A token stands inside of the source, or at its end. -/
theorem Token.StandsAt.le_length {source : List Char} {t : Token} {i : Nat}
    (h : t.StandsAt source i) : i ≤ source.length := by
  rcases h.inside with hlt | ⟨-, heq⟩
  · omega
  · omega

namespace Lexer

/-- A row of tiles ends behind its start. -/
theorem Tile.Row.le {n m : Nat} {ts : List Tile} (h : Row n ts m) : n ≤ m := by
  induction h with
  | nil n => exact Nat.le_refl n
  | cons hlt _ ih => omega

theorem Tile.Row.start_lt {n m : Nat} {ts : List Tile} (h : Row n ts m) :
    ∀ t ∈ ts, t.start < m := by
  induction h with
  | nil n => simp
  | @cons t ts m hlt hrow ih =>
    have hstop := hrow.le
    rw [List.forall_mem_cons]
    exact ⟨by omega, ih⟩

/-- Every token of a source stands at a character of it, or at its end. -/
theorem exists_standsAt {source : String} {t : Token} (ht : t ∈ (ofSource source).tokenize.1) :
    ∃ i, t.StandsAt source.toList i := by
  have hcut := cut_pieces source.toList
  have hrow := row_tilesFrom hcut 0
  have htokens : (placed .start (pieces source.toList)).filterMap tokenOf =
      (tilesFrom 0 (pieces source.toList)).filterMap (Tile.token? source.toList) :=
    tokens_tilesFrom hcut []
  rcases List.mem_append.mp ht with ht | ht
  · change t ∈ (placed .start (pieces source.toList)).filterMap tokenOf at ht
    rw [htokens, List.mem_filterMap] at ht
    obtain ⟨tile, htile, ht⟩ := ht
    have hstart := hrow.start_lt tile htile
    unfold Tile.token? at ht
    split at ht
    · injection ht with ht
      subst ht
      refine ⟨tile.start, ?_, rfl, .inl (by omega)⟩
      rw [String.toList_ofList]
      exact List.take_prefix _ _
    · cases ht
  -- the last token is the end of the source
  · rw [List.mem_singleton] at ht
    subst ht
    refine ⟨source.toList.length, ?_, ?_, .inr ⟨rfl, rfl⟩⟩
    · exact List.nil_prefix
    · rw [List.take_length, ← Location.after_start]
      rfl

end Lexer

/-! ## Faults -/

/-- Code for a program is refused at an item that it declares or at a reference. -/
theorem Program.Formed.place_of_generate {p : Program} (h : p.Formed) {config : Config} {f : Fault}
    (hf : p.generate config = .error f) :
    (∃ d ∈ p.declarations, ∃ i ∈ d.items, f.loc = i.loc) ∨ ∃ r ∈ p.references, f.loc = r.loc := by
  cases hscope : Scope.ofDeclarations p.declarations with
  | error f' =>
    rw [Program.generate, Program.lower, hscope] at hf
    injection hf with hf
    exact .inl (hf ▸ (Scope.fault_of_ofDeclarations hscope).2)
  -- with a scope, a fault is that of the first reference which does not match it
  | ok scope =>
    have hchecks := h.checks_generate hscope config
    rw [hf] at hchecks
    cases hchecks with
    | error hsplit _ _ _ hloc =>
      refine .inr ⟨_, ?_, hloc⟩
      rw [hsplit]
      simp

/-- The fault of a compilation stands at a token of the source. -/
theorem exists_token_of_fault {config : Config} {source : String} {f : Fault}
    (h : compile config source = .error f) :
    ∃ t ∈ (Lexer.ofSource source).tokenize.1, f.loc = t.loc := by
  rw [compile_eq_bind] at h
  obtain ⟨ts, eof, htokens, -, heof⟩ := Lexer.exists_tokens source
  have hrun := (Reader.ofSource source).halts_program
  cases hp : (Reader.ofSource source).program.1 with
  | error f' =>
    rw [hp] at h hrun
    injection h with h
    subst h
    -- the parser itself has refused the source
    have herror := Parser.halts_error_iff.mp hrun
    change Grammar.program (Lexer.ofSource source).tokenize.1 = _ at herror
    rw [htokens] at herror ⊢
    exact Grammar.program_fault_at_token heof herror
  | ok p =>
    rw [hp] at h hrun
    have hok := Parser.halts_ok_iff.mp hrun
    change Grammar.program (Lexer.ofSource source).tokenize.1 = _ at hok
    have hformed := Reader.Reached.start.program_formed hp
    rcases hformed.place_of_generate (Program.generate_of_assemble h) with
      ⟨d, hd, i, hi, hloc⟩ | ⟨r, hr, hloc⟩
    · rw [htokens] at hok ⊢
      rw [hloc]
      exact Grammar.program_items_at_tokens heof hok d hd i hi
    · have hstart := Reader.Reached.start.startAt_references hp
      have hmem : r.loc ∈ (Lexer.ofSource source).tokenize.1.map Token.loc :=
        hstart.subset (List.mem_map_of_mem hr)
      obtain ⟨t, ht, heq⟩ := List.mem_map.mp hmem
      exact ⟨t, ht, hloc.trans heq.symm⟩

/-- **Faults have real places.** Whenever a source is refused, whatever the configuration and the
stage that refuses it, the place of the fault is that of a token of the source, the end of the
source included. That token stands at a character of the source, or behind the last one, and at no
other offset of the source is the place the same. It is never the place of something that was not
read. -/
theorem compile_fault_place {config : Config} {source : String} {f : Fault}
    (h : compile config source = .error f) :
    ∃ t ∈ (Lexer.ofSource source).tokenize.1, f.loc = t.loc ∧
      (∃ i, t.StandsAt source.toList i ∧
        ∀ j ≤ source.toList.length, f.loc = .placeOf (source.toList.take j) → j = i) ∧
      f.loc ≠ .nowhere := by
  obtain ⟨t, ht, hloc⟩ := exists_token_of_fault h
  obtain ⟨i, hi⟩ := Lexer.exists_standsAt ht
  refine ⟨t, ht, hloc, ⟨i, hi, ?_⟩, ?_⟩
  -- no two positions of a source have the same line and column
  · intro j hj hplace
    have hsame : Location.placeOf (source.toList.take j) = .placeOf (source.toList.take i) := by
      rw [← hplace, hloc, hi.place]
    exact Location.placeOf_take_inj hj hi.le_length hsame
  · rw [hloc, hi.place]
    exact Location.placeOf_ne_nowhere _

/-- A reference on the second line with a subscript too many, and a program that ends too early. -/
theorem compile_fault_place_later :
    ∃ f g,
      compile {} "p: proc options(main); dcl a(3) fixed bin;\n  x = 1 + a(1, 2); end p;" =
        .error f ∧
      f.loc = ⟨2, 11⟩ ∧
      (∃ t ∈ (Lexer.ofSource
          "p: proc options(main); dcl a(3) fixed bin;\n  x = 1 + a(1, 2); end p;").tokenize.1,
        f.loc = t.loc) ∧
      compile {} "p: proc options(main);" = .error g ∧ g.loc = ⟨1, 23⟩ ∧
      ∃ t ∈ (Lexer.ofSource "p: proc options(main);").tokenize.1, g.loc = t.loc ∧
        (∃ i, t.StandsAt "p: proc options(main);".toList i ∧
          ∀ j ≤ "p: proc options(main);".toList.length,
            g.loc = .placeOf ("p: proc options(main);".toList.take j) → j = i) ∧
        g.loc ≠ .nowhere := by
  -- a fault of the generator on the second line, and one of the parser behind the last token
  have hfault : ∀ (source : String) (loc : Location),
      (match compile {} source with
        | .error f => decide (f.loc = loc)
        | .ok _ => false) = true → ∃ f, compile {} source = .error f ∧ f.loc = loc := by
    intro source loc h
    cases hc : compile {} source with
    | ok c =>
      rw [hc] at h
      cases h
    | error f =>
      rw [hc] at h
      exact ⟨f, rfl, of_decide_eq_true h⟩
  obtain ⟨f, hf, hfloc⟩ := hfault
    "p: proc options(main); dcl a(3) fixed bin;\n  x = 1 + a(1, 2); end p;" ⟨2, 11⟩
    (by decide +kernel)
  obtain ⟨g, hg, hgloc⟩ := hfault "p: proc options(main);" ⟨1, 23⟩ (by decide +kernel)
  obtain ⟨t, ht, hloc, -⟩ := compile_fault_place hf
  exact ⟨f, g, hf, hfloc, ⟨t, ht, hloc⟩, hg, hgloc, compile_fault_place hg⟩

end Plic
