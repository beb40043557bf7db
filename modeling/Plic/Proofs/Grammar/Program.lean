import Plic.Proofs.Grammar.Stmt

/-!
# The parser accepts its grammar

Around the statements stand the head and the end of the procedure. What the
scanner gives ends with the end of the source and has it nowhere else, so a
program that is read up to it has used all tokens.

Main results:

* `program_ok_iff` — on such a row of tokens without a declaration the parser
  answers a program exactly if the rules derive it.
* `program_iff_derives` — the same for every source.
-/

namespace Plic

/-! ## The tokens of a source -/

namespace Lexer

/-- A token as the scanner makes them. -/
def Spelled (t : Token) : Prop := ∃ behind, Spells t.kind t.lexeme.toList behind

/-- A token that is spelled is not the end. -/
theorem Spelled.ne_eof {t : Token} (h : Spelled t) : t.kind ≠ .eof := by
  obtain ⟨behind, hspells⟩ := h
  intro heof
  rw [heof] at hspells
  cases hspells

theorem spelled_of_cut {cs : List Char} {ps : List Piece} (h : Cut cs ps) (l : Location) :
    ∀ t ∈ (placed l ps).filterMap tokenOf, Spelled t := by
  induction h generalizing l with
  | nil =>
    intro t ht
    simp [placed] at ht
  | @cons p rest ps _ hfits _ ih =>
    intro t ht
    rw [placed, List.filterMap_cons] at ht
    cases hfits with
    -- only pieces of this kind leave a token
    | token hspells =>
      rcases List.mem_cons.mp ht with rfl | ht
      · exact ⟨rest, by simpa using hspells⟩
      · exact ih _ t ht
    | blank hblank | comment hcomment | dropped hdrops => exact ih _ t ht

/-- The tokens of a source, with the end of the source behind them. -/
theorem exists_tokens (source : String) :
    ∃ ts eof, (ofSource source).tokenize.1 = ts ++ [eof] ∧ (∀ t ∈ ts, Spelled t) ∧
      eof.kind = .eof :=
  ⟨_, _, rfl, spelled_of_cut (cut_pieces source.toList) .start, rfl⟩

end Lexer

namespace Grammar

open Plic.Parser

/-! ## Head and end of a procedure -/

variable {n : String} {ts rest : List Token} {eof : Token} {P : Program}

/-- A name may be spelled as a keyword. -/
theorem named_iff {t : Token} :
    Named t n ↔ t.kind = .name n ∨ (∃ k, t.kind = .keyword k) ∧ Text.lower t.lexeme = n := by
  constructor
  · rintro (ht | ht) <;> simp [ht]
  · rintro (ht | ⟨⟨k, ht⟩, rfl⟩)
    · exact .identifier ht
    · exact .keyword ht

/-- A name is read exactly if it is in front. -/
theorem name_ok_iff : Parser.name ts = .ok n rest ↔ ∃ t, Named t n ∧ ts = t :: rest := by
  rw [Parser.name, peek_bind]
  cases ts with
  | nil => simp [front, Token.endOfSource, named_iff]
  | cons t ts => cases ht : t.kind <;> simp [ht, named_iff]

theorem Named.ne_symbol {t : Token} (h : Named t n) (m : Symbol) : t.kind ≠ .symbol m := by
  cases h with
  | identifier ht => simp [ht]
  | keyword ht => simp [ht]

/-- A header is a label and its fixed words. -/
theorem header_ok_iff {name : String} : header ts = .ok name rest ↔
      ∃ n hs, Named n name ∧ hs.map Token.kind = headKinds ∧ ts = n :: (hs ++ rest) := by
  constructor
  · intro hts
    simp only [header, bind_ok_iff, name_ok_iff, symbol_ok_iff, keyword_ok_iff, pure_ok_iff] at hts
    obtain ⟨_, _, ⟨n, hn, rfl⟩, _, _, ⟨a, ha, rfl⟩, _, _, ⟨b, hb, rfl⟩, _, _, ⟨c, hc, rfl⟩, _, _,
      ⟨d, hd, rfl⟩, _, _, ⟨e, he, rfl⟩, _, _, ⟨f, hf, rfl⟩, _, _, ⟨g, hg, rfl⟩, rfl, rfl⟩ := hts
    exact ⟨n, [a, b, c, d, e, f, g], hn, by simp [ha, hb, hc, hd, he, hf, hg], rfl⟩
  · rintro ⟨n, hs, hn, hhs, rfl⟩
    -- seven tokens of known kinds, so they are named one by one
    simp only [headKinds, List.map_eq_cons_iff, List.map_eq_nil_iff] at hhs
    obtain ⟨a, _, rfl, ha, b, _, rfl, hb, c, _, rfl, hc, d, _, rfl, hd, e, _, rfl, he, f, _, rfl,
      hf, g, _, rfl, hg, rfl⟩ := hhs
    simp only [List.cons_append, List.nil_append]
    rw [header, bind_of_ok (name_ok_iff.mpr ⟨n, hn, rfl⟩), symbol_bind ha, keyword_bind hb,
      keyword_bind hc, symbol_bind hd, keyword_bind he, symbol_bind hf, symbol_bind hg]
    rfl

theorem ending_ok_iff {name : String} {u : Unit} : ending name ts = .ok u rest ↔
      ∃ (e s : Token) (ls : List Token), e.kind = .keyword .END ∧ Labelled name ls ∧
        s.kind = .symbol .semicolon ∧ ts = e :: (ls ++ s :: rest) := by
  rw [ending, keyword_bind_ok_iff]
  constructor
  · rintro ⟨e, mid, he, rfl, hts⟩
    rw [peek_bind] at hts
    by_cases hsemi : (front mid).kind = .symbol .semicolon
    · rw [if_pos hsemi] at hts
      obtain ⟨s, hs, rfl⟩ := symbol_ok_iff.mp hts
      exact ⟨e, s, [], he, .absent, hs, rfl⟩
    · rw [if_neg hsemi] at hts
      obtain ⟨label, mid, hname, hts⟩ := bind_ok_iff.mp hts
      obtain ⟨l, hl, rfl⟩ := name_ok_iff.mp hname
      -- a label that is not the name of the procedure is refused
      by_cases hlabel : label = name
      · rw [if_neg (not_not.mpr hlabel)] at hts
        obtain ⟨s, hs, rfl⟩ := symbol_ok_iff.mp hts
        exact ⟨e, s, [l], he, .same (hlabel ▸ hl), hs, rfl⟩
      · rw [if_pos hlabel, bind_ok_iff] at hts
        obtain ⟨u, mid, hrefuse, -⟩ := hts
        exact absurd hrefuse (refuse_ne_ok _ _ _ _ _)
  · rintro ⟨e, s, ls, he, hls, hs, rfl⟩
    refine ⟨e, ls ++ s :: rest, he, rfl, ?_⟩
    rw [peek_bind]
    cases hls with
    | absent =>
      rw [List.nil_append, front_cons, if_pos hs]
      exact symbol_cons hs _ _
    | @same l hl =>
      rw [List.singleton_append, front_cons, if_neg (hl.ne_symbol _)]
      refine (bind_of_ok (name_ok_iff.mpr ⟨l, hl, rfl⟩)).trans ?_
      rw [if_neg (by simp)]
      exact symbol_cons hs _ _

/-! ## Programs -/

/-- Without a declaration at the front none is read. -/
theorem declarations_of_front (h : (front ts).kind ≠ .keyword .DCL) :
    declarations ts = .ok [] ts := by
  -- the first round stops, without a look behind the first token
  have hstop : (do
      if ← check (.keyword .DCL) then return some (← declaration) else return none :
        Parser (Option Declaration)) ts = .ok none ts := by
    rw [bind_of_ok (show check (.keyword .DCL) ts = .ok false ts by rw [check, decide_eq_false h])]
    rfl
  rw [declarations, many]
  cases ts.length with
  | zero => rfl
  | succ n =>
    rw [manyUpTo, bind_of_ok hstop]
    rfl

/-- The part of a row of tokens that starts at the end of the source. -/
theorem eq_singleton_of_front_eof {xs : List Token} {s : Token}
    (hts : ∀ t ∈ ts, t.kind ≠ .eof) (hs : s.kind ≠ .eof) (heof : eof.kind = .eof)
    (hfront : (front rest).kind = .eof) (h : ts ++ [eof] = xs ++ s :: rest) : rest = [eof] := by
  -- compare the last tokens of both rows
  rcases List.eq_nil_or_concat rest with rfl | ⟨before, last, rfl⟩
  · have hlast : eof = s := by simpa using congrArg List.getLast? h
    exact absurd (hlast ▸ heof) hs
  · rw [List.concat_eq_append, ← List.cons_append, ← List.append_assoc] at h
    obtain ⟨hbefore, hlast⟩ := List.append_inj' h rfl
    cases before with
    | nil => exact hlast.symm
    | cons r more => exact absurd hfront (hts r (by simp [hbefore]))

/-- A program that is read up to the end of the source is derived from all of
its tokens, when none of them opens a declaration. -/
theorem derives_of_program
    (hts : ∀ t ∈ ts, t.kind ≠ .eof) (hdcl : ∀ t ∈ ts ++ [eof], t.kind ≠ .keyword .DCL)
    (heof : eof.kind = .eof) (h : program (ts ++ [eof]) = .ok P rest) :
    Derives (ts ++ [eof]) P := by
  rw [program, peek_bind, bind_ok_iff] at h
  obtain ⟨name, mid, hheader, h⟩ := h
  obtain ⟨n, hs, hn, hhs, htokens⟩ := header_ok_iff.mp hheader
  -- the head is followed by a token of the source or by nothing
  have hfront : (front mid).kind ≠ .keyword .DCL := by
    cases mid with
    | nil => simp [front, Token.endOfSource]
    | cons t mid => exact hdcl t (by simp [htokens])
  rw [bind_of_ok (declarations_of_front hfront)] at h
  simp only [bind_ok_iff, ending_ok_iff] at h
  obtain ⟨_, _, hstatements, _, mid, ⟨e, s, ls, he, hls, hsemi, rfl⟩, b, _, hcheck, h⟩ := h
  obtain ⟨xs, rfl, bodies, hxs, rfl⟩ := sound_statements hstatements
  injection hcheck with hb hmid
  subst hmid
  cases b with
  | false =>
    rw [if_neg (by simp), bind_ok_iff] at h
    obtain ⟨_, _, hunexpected, -⟩ := h
    exact absurd hunexpected (unexpected_ne_ok _ _ _ _ _)
  | true =>
    -- the check has seen the end of the source, and only the last token is that
    have hrow : ts ++ [eof] = (n :: hs ++ xs ++ e :: ls) ++ s :: mid := by simp [htokens]
    obtain rfl := eq_singleton_of_front_eof hts (by simp [hsemi]) heof (of_decide_eq_true hb) hrow
    injection h with hP _
    subst hP
    rw [hrow]
    exact .intro hn hhs hxs he hls hsemi heof

theorem program_of_derives (h : Derives ts P) : ∃ rest, program ts = .ok P rest := by
  cases h with
  | @intro n e s eof hs xs ls name bodies hn hhs hxs he hls hsemi heof =>
    have hfront : (front (xs ++ e :: (ls ++ [s, eof]))).kind ≠ .keyword .DCL := by
      -- the first group, or the `END` behind none, is at the front
      cases hxs with
      | nil => simp [he]
      | cons hgroup _ =>
        obtain ⟨t, us, rfl, ⟨m, ht⟩ | ⟨w, hw, ht⟩⟩ := hgroup.exists_begins
        · simp [ht]
        · have hw : w ≠ .DCL := by
            rintro rfl
            exact absurd hw (by decide)
          simp [ht, hw]
    have hcheck : check .eof [eof] = .ok true [eof] := by
      rw [check, front_cons, decide_eq_true heof]
    refine ⟨[eof], ?_⟩
    simp only [List.cons_append, List.append_assoc]
    rw [program, peek_bind, bind_of_ok (header_ok_iff.mpr ⟨n, hs, hn, hhs, rfl⟩),
      bind_of_ok (declarations_of_front hfront),
      bind_of_ok (complete_statements _ (Nat.le_refl _) ⟨bodies, hxs, rfl⟩ (by exact he)),
      bind_of_ok (ending_ok_iff (u := ()).mpr ⟨e, s, ls, he, hls, hsemi, rfl⟩),
      bind_of_ok hcheck]
    rfl

/-- And it is read as what the grammar derives, if no declaration comes late. -/
theorem program_ok_iff (hts : ∀ t ∈ ts, t.kind ≠ .eof)
    (hdcl : ∀ t ∈ ts ++ [eof], t.kind ≠ .keyword .DCL) (heof : eof.kind = .eof) :
    (∃ rest, program (ts ++ [eof]) = .ok P rest) ↔ Derives (ts ++ [eof]) P :=
  ⟨fun ⟨_, h⟩ => derives_of_program hts hdcl heof h, program_of_derives⟩

end Grammar

/-- **The parser accepts exactly its grammar.** For every source without a
declaration the parser answers a program exactly if the rules derive it from
the tokens of the source, and they derive no other. -/
theorem Reader.program_iff_derives (source : String)
    (hdcl : ∀ t ∈ (Lexer.ofSource source).tokenize.1, t.kind ≠ .keyword .DCL) :
    (∀ P, (Reader.ofSource source).program.1 = .ok P ↔
      Grammar.Derives (Lexer.ofSource source).tokenize.1 P) ∧
    ∀ P Q, Grammar.Derives (Lexer.ofSource source).tokenize.1 P →
      Grammar.Derives (Lexer.ofSource source).tokenize.1 Q → P = Q := by
  obtain ⟨ts, eof, htokens, hspelled, heof⟩ := Lexer.exists_tokens source
  have hok : ∀ P, (Reader.ofSource source).program.1 = .ok P ↔
      Grammar.Derives (Lexer.ofSource source).tokenize.1 P := by
    intro P
    rw [htokens] at hdcl ⊢
    rw [← Grammar.program_ok_iff (fun t ht => (hspelled t ht).ne_eof) hdcl heof, Reader.program]
    have hrest : (Reader.ofSource source).rest = ts ++ [eof] := htokens
    rw [hrest]
    cases Grammar.program (ts ++ [eof]) with
    | ok p rest => simp
    | error f rest => simp
  refine ⟨hok, fun P Q hP hQ => ?_⟩
  -- the parser is a function, so two derivations give one program
  have hsame := ((hok P).mpr hP).symm.trans ((hok Q).mpr hQ)
  exact Except.ok.inj hsame

/-- The rules derive a program with a group that becomes part of a branch and
with a parenthesis that belongs to an operand, not to the condition. -/
theorem Reader.program_iff_derives_group :
    ∃ source, source = "p: PROC OPTIONS(MAIN); IF (a) < 1 THEN DO; END; ELSE x = -a; END P;" ∧
      (∀ t ∈ (Lexer.ofSource source).tokenize.1, t.kind ≠ .keyword .DCL) ∧
      ∃ P, Grammar.Derives (Lexer.ofSource source).tokenize.1 P := by
  refine ⟨_, rfl, ?_⟩
  have hdcl : ∀ t ∈ (Lexer.ofSource
      "p: PROC OPTIONS(MAIN); IF (a) < 1 THEN DO; END; ELSE x = -a; END P;").tokenize.1,
      t.kind ≠ .keyword .DCL := by decide +kernel
  have hok : (Reader.ofSource
      "p: PROC OPTIONS(MAIN); IF (a) < 1 THEN DO; END; ELSE x = -a; END P;").program.1.isOk := by
    decide +kernel
  cases hP : (Reader.ofSource
      "p: PROC OPTIONS(MAIN); IF (a) < 1 THEN DO; END; ELSE x = -a; END P;").program.1 with
  | ok P => exact ⟨hdcl, P, ((Reader.program_iff_derives _ hdcl).1 P).mp hP⟩
  | error f =>
    rw [hP] at hok
    exact absurd hok (by simp [Except.isOk, Except.toBool])

end Plic
