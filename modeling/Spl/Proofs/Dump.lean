import Spl.Proofs.Diagnostic.Placing
import Spl.Proofs.Parser.Soundness
import Spl.Proofs.Program.Blocks

/-!
What is written while the table of a program is built. With listings the output
gets one block for each procedure that was entered, and nothing else is
different. If the output takes only so much, it gets what fits, and the
procedure in whose block the limit lies is blamed.
-/

namespace Spl

open Outcome Text

/-! ### Listings are determined -/

theorem Procedure.Shows.unique {p : Procedure} {globals : List Binding} {text text' : String}
    (h : p.Shows globals text) (h' : p.Shows globals text') : text = text' := by
  obtain ⟨own, outer, hown, houter, rfl⟩ := h
  obtain ⟨own', outer', hown', houter', rfl⟩ := h'
  rw [hown.unique hown' fun _ => Iff.rfl, houter.unique houter' fun _ => Iff.rfl]

theorem Lists.unique {c c₁ c₂ : Contents} {d : Declaration} {bs bs' : List Block}
    (h : Lists c d bs c₁) (h' : Lists c d bs' c₂) : bs = bs' ∧ c₁ = c₂ := by
  cases h with
  | type h =>
      cases h' with
      | type h' =>
          cases h
          cases h'
          exact ⟨rfl, rfl⟩
  | procedure h htext =>
      cases h' with
      | procedure h' htext' =>
          cases h
          cases h'
          exact ⟨by rw [htext.unique htext'], rfl⟩

/-- What is written of declarations is determined by them. -/
theorem Listed.unique {c c₁ c₂ : Contents} {ds : List Declaration} {bs bs' : List Block}
    (h : Listed c ds bs c₁) (h' : Listed c ds bs' c₂) : bs = bs' ∧ c₁ = c₂ := by
  induction h generalizing bs' with
  | nil =>
      cases h'
      exact ⟨rfl, rfl⟩
  | cons h _ ih =>
      cases h' with
      | cons h' hs' =>
          obtain ⟨rfl, rfl⟩ := h.unique h'
          obtain ⟨rfl, rfl⟩ := ih hs'
          exact ⟨rfl, rfl⟩

/-! ### An output that takes everything -/

/-- Building a table does the same in every phase, for an output that takes
everything. In the phase that lists tables, the output gets the blocks of the
procedures that were entered, in their order and each with the global scope as
it was then; in all others it gets nothing. A scope has one text only, which
shows each of its bindings once: it comes from sorting them by name, in whatever
arrangement they are found. -/
theorem Program.buildTable_lists {file : String} {tokens rest : List Token} {p : Program}
    (hparse : parse file tokens = .ok p rest) (library : Library) (fresh : Nat) {output : Sink}
    (houtput : output.Endless) :
    (∃ entered pending bs c, Listed library.contents entered bs c ∧
      (∀ bs' c', Listed library.contents entered bs' c' → bs' = bs) ∧
      FitsUpTo library p.declarations (entered.map Declaration.eraseTypes) ∧
      ∃ (d : Draft) (result : Except Halt SymbolTable), ∀ phase,
        p.buildTable ⟨phase, library⟩ fresh output =
          ⟨(⟨entered ++ pending, p.span⟩,
            { d with output := output.append (if phase = .tables then bytesOfBlocks bs else []) }),
            result⟩) ∧
      ∀ (level : Nat) (bindings : List Binding) (text : String), Renders level bindings text →
        (∀ arranged : List Binding, arranged.Perm bindings →
          text = linesFor level (byName arranged)) ∧
        ∀ (bindings' : List Binding) (text' : String), (∀ b, b ∈ bindings ↔ b ∈ bindings') →
          Renders level bindings' text' → text = text' := by
  refine ⟨?_, fun _ _ _ h => ⟨fun _ harranged => h.eq_linesFor harranged,
    fun _ _ hsame h' => h.unique h' hsame⟩⟩
  obtain ⟨entered, pending, bs, c, hlisted, hfits, silent, hafter, hsilent, hwrites⟩ :=
    exists_blocks (fresh_of_parse hparse) library fresh
  refine ⟨entered, pending, bs, c, hlisted, fun _ _ h => (h.unique hlisted).1, hfits,
    silent.after.2, silent.result, fun phase => ?_⟩
  by_cases hphase : phase = .tables
  · subst hphase
    have hrun := hwrites output
    rw [houtput.writeBlocks_eq] at hrun
    rw [hrun.eq_of_ok, redirect_eq hafter, if_pos rfl]
  · rw [hsilent phase output hphase, redirect_eq hafter, if_neg hphase, Sink.append_nil]

/-- A program whose second declaration cannot be entered. Every phase says so,
and only the one that lists tables has written something by then. -/
theorem listed_before_undefined_type :
    let t (kind : TokenKind) (value : String) (start stop : UInt32) : Token :=
      ⟨kind, value, ⟨⟨start, "a.spl"⟩, ⟨stop, "a.spl"⟩⟩⟩
    let tokens := [t .procWord "proc" 0 4, t .identifier "main" 5 9, t .openParen "(" 9 10,
      t .closeParen ")" 10 11, t .openCurly "\x7b" 12 13, t .closeCurly "\x7d" 13 14,
      t .typeWord "type" 15 19, t .identifier "u" 20 21, t .equals "=" 22 23,
      t .identifier "v" 24 25, t .semicolon ";" 25 26, t .eof "EOF" 26 26]
    let main : Procedure := ⟨"main", [], [], [], ⟨5, "a.spl"⟩⟩
    let p : Program :=
      ⟨[.procedure main, .type ⟨"u", .named "v" ⟨24, "a.spl"⟩ none, ⟨15, "a.spl"⟩⟩],
      ⟨⟨0, "a.spl"⟩, ⟨26, "a.spl"⟩⟩⟩
    ∃ rest, parse "a.spl" tokens = .ok p rest ∧ Sink.unlimited.Endless ∧
      ∃ bs, (∃ entered c, Listed Library.standard.contents entered bs c) ∧ ∀ phase,
        let o := p.buildTable ⟨phase, .standard⟩ 0 .unlimited
        o.result = .error (Cause.halt (.undefinedType "v") ⟨24, "a.spl"⟩) ∧
          o.after.2.output.written = if phase = .tables then bytesOfBlocks bs else [] := by
  intro t tokens main p
  have hparse : parse "a.spl" tokens = .ok p [t .eof "EOF" 26 26] := by rfl
  have hends : (p.buildTable ⟨.all, .standard⟩ 0 .unlimited).result.map (fun _ => ()) =
      .error (Cause.halt (.undefinedType "v") ⟨24, "a.spl"⟩) := by
    decide +kernel
  obtain ⟨⟨entered, pending, bs, c, hlisted, -, -, d, result, hall⟩, -⟩ :=
    Program.buildTable_lists hparse .standard 0 Sink.endless_unlimited
  refine ⟨_, hparse, Sink.endless_unlimited, bs, ⟨entered, c, hlisted⟩, fun phase => ?_⟩
  rw [hall] at hends
  cases result with
  | ok table => cases hends
  | error halt =>
      dsimp only
      rw [hall]
      refine ⟨?_, rfl⟩
      cases hends
      rfl

/-! ### An output that takes only so much -/

/-- The procedures of a program stand at their names. -/
theorem Program.name_shows_of_parse {file : String} {tokens rest : List Token} {p : Program}
    (htokens : Legible tokens) (hparse : parse file tokens = .ok p rest) {q : Procedure}
    (hq : q ∈ p.procedures) :
    q.position.Shows tokens fun t => t.IsName q.name ∧ t.Behind tokens (·.kind = .procWord) := by
  obtain ⟨pre, last, hsplit, hderives, -, -⟩ :=
    (Grammar.runs_program file htokens).of_ok hparse
  have hpre : pre <:+: tokens := by
    rw [hsplit]
    exact (List.prefix_append _ _).isInfix
  have hall := Sequence.forall_placed (P := fun d => ∀ q, d = Declaration.procedure q →
    q.position.Shows tokens fun t => t.IsName q.name ∧ t.Behind tokens (·.kind = .procWord))
    (fun vs d hd hvs => ?_) hderives hpre
  · exact hall _ (mem_procedures_iff.mp hq) q rfl
  · rintro q rfl
    cases hd with
    | procedure h => exact h.name_shows hvs

/-- The procedure of a block is the one of that number in the program. -/
theorem FitsUpTo.getElem?_procedures {library : Library} {p : Program}
    {entered : List Declaration} {c c' : Contents} {bs : List Block}
    (h : FitsUpTo library p.declarations (entered.map Declaration.eraseTypes))
    (hlisted : Listed c entered bs c') {j : Nat} {b : Block} (hb : bs[j]? = some b) :
    p.procedures[j]? = some b.procedure.eraseTypes := by
  obtain ⟨after, hafter⟩ := h.is_start
  have hblocks : (entered.map Declaration.eraseTypes).filterMap Declaration.procedure? =
      bs.map fun b => b.procedure.eraseTypes := by
    rw [filterMap_procedure?_eraseTypes, ← hlisted.map_procedure, List.map_map]
    rfl
  have hlt : j < bs.length := (List.getElem?_eq_some_iff.mp hb).1
  rw [Program.procedures, ← hafter, List.filterMap_append, hblocks,
    List.getElem?_append_left (by simpa using hlt), List.getElem?_map, hb]
  rfl

/-- An output that takes `limit` bytes gets what fits of the blocks that an output
without a limit would get. If all of them fit, nothing else is different.
Otherwise the first procedure whose block ends behind the limit is blamed, at
its name, whatever would have come of the rest of the program. How the text is
cut into pieces, and how much of them each call takes, does not matter. -/
theorem Program.buildTable_cut_off {tokens rest : List Token} (htokens : Legible tokens)
    {file : String} {p : Program} (hparse : parse file tokens = .ok p rest) (library : Library)
    (fresh : Nat) (reason : String) :
    (∃ entered pending bs c, Listed library.contents entered bs c ∧
      FitsUpTo library p.declarations (entered.map Declaration.eraseTypes) ∧
      ∃ (d : Draft) (result : Except Halt SymbolTable),
        p.buildTable ⟨.tables, library⟩ fresh .unlimited =
          ⟨(⟨entered ++ pending, p.span⟩,
            { d with output := Sink.unlimited.append (bytesOfBlocks bs) }), result⟩ ∧
        ∀ limit,
          let o := p.buildTable ⟨.tables, library⟩ fresh ⟨[], some limit, reason, false⟩
          ((bytesOfBlocks bs).length ≤ limit →
            o.after.2.output.written = bytesOfBlocks bs ∧ o.result = result ∧
              o.after.1 = ⟨entered ++ pending, p.span⟩) ∧
          (limit < (bytesOfBlocks bs).length →
            o.after.2.output.written = (bytesOfBlocks bs).take limit ∧
              ∃ j q, p.procedures[j]? = some q ∧
                (∀ i, limit < (bytesOfBlocks (bs.take (i + 1))).length ↔ j ≤ i) ∧
                (q.position.Shows tokens fun t =>
                  t.IsName q.name ∧ t.Behind tokens (·.kind = .procWord)) ∧
                o.result = .error (Cause.halt (.tableDumpFailed reason) q.position))) ∧
      ∀ (s s' : Sink) (text : String) (pieces : List (List UInt8)) (complete : Bool),
        pieces.flatten = bytesOf text →
          (s.WritesPieces pieces s' complete ↔ s.write text = (s', complete)) := by
  refine ⟨?_, fun s s' text pieces complete hpieces => ?_⟩
  swap
  · rw [Sink.writesPieces_iff, hpieces]
    rfl
  obtain ⟨entered, pending, bs, c, hlisted, hfits, silent, hafter, -, hwrites⟩ :=
    exists_blocks (fresh_of_parse hparse) library fresh
  refine ⟨entered, pending, bs, c, hlisted, hfits, silent.after.2, silent.result, ?_,
    fun limit => ⟨fun hall => ?_, fun hover => ?_⟩⟩
  · have hrun := hwrites .unlimited
    rw [Sink.endless_unlimited.writeBlocks_eq] at hrun
    rw [hrun.eq_of_ok, redirect_eq hafter]
  · have hrun := hwrites ⟨[], some limit, reason, false⟩
    rw [Sink.writeBlocks_of_fits rfl rfl hall] at hrun
    rw [hrun.eq_of_ok, redirect_eq hafter]
    exact ⟨rfl, rfl, rfl⟩
  · have hrun := hwrites ⟨[], some limit, reason, false⟩
    obtain ⟨j, b, hb, hleast, hblocks⟩ :=
      Sink.writeBlocks_of_exceeds (s := ⟨[], some limit, reason, false⟩) rfl rfl hover
    rw [hblocks] at hrun
    obtain ⟨houtput, hresult⟩ := hrun.of_error
    have hq := hfits.getElem?_procedures hlisted hb
    refine ⟨by rw [houtput]; rfl, j, b.procedure.eraseTypes, hq, hleast, ?_, hresult⟩
    exact name_shows_of_parse htokens hparse (List.mem_of_getElem? hq)

/-- An output that takes nothing fails for the first procedure, at its name, and
not for the declaration behind it. -/
theorem cut_off_before_undefined_type :
    let t (kind : TokenKind) (value : String) (start stop : UInt32) : Token :=
      ⟨kind, value, ⟨⟨start, "a.spl"⟩, ⟨stop, "a.spl"⟩⟩⟩
    let tokens := [t .procWord "proc" 0 4, t .identifier "main" 5 9, t .openParen "(" 9 10,
      t .closeParen ")" 10 11, t .openCurly "\x7b" 12 13, t .closeCurly "\x7d" 13 14,
      t .typeWord "type" 15 19, t .identifier "u" 20 21, t .equals "=" 22 23,
      t .identifier "v" 24 25, t .semicolon ";" 25 26, t .eof "EOF" 26 26]
    let main : Procedure := ⟨"main", [], [], [], ⟨5, "a.spl"⟩⟩
    let p : Program :=
      ⟨[.procedure main, .type ⟨"u", .named "v" ⟨24, "a.spl"⟩ none, ⟨15, "a.spl"⟩⟩],
      ⟨⟨0, "a.spl"⟩, ⟨26, "a.spl"⟩⟩⟩
    Legible tokens ∧ (∃ rest, parse "a.spl" tokens = .ok p rest) ∧
      (p.buildTable ⟨.tables, .standard⟩ 0 ⟨[], some 0, "closed", false⟩).result =
        .error (Cause.halt (.tableDumpFailed "closed") ⟨5, "a.spl"⟩) := by
  intro t tokens main p
  have hparse : parse "a.spl" tokens = .ok p [t .eof "EOF" 26 26] := by rfl
  have hlegible : Legible tokens := by
    have hlast : Legible [t .eof "EOF" 26 26] := .last rfl
    have hinside : Inside (tokens.take 11) := by simp [tokens, t, Inside, Token.Lexical]
    exact hlast.append hinside
  have hmain : (Declaration.procedure main).FitsAfter .standard [] :=
    ⟨by decide, by decide +kernel, List.not_mem_nil,
      ⟨by simp [main], by simp [main], by simp [main], by simp [main]⟩⟩
  obtain ⟨⟨entered, pending, bs, c, hlisted, hfits, d, result, -, hlimit⟩, -⟩ :=
    Program.buildTable_cut_off hlegible hparse .standard 0 "closed"
  refine ⟨hlegible, ⟨_, hparse⟩, ?_⟩
  -- The procedure is entered, so there is a block, and it is not empty.
  have hsome : 0 < (bytesOfBlocks bs).length := by
    obtain ⟨after, hafter⟩ := hfits.is_start
    cases entered with
    | nil => exact absurd hmain (hfits.stops _ _ rfl)
    | cons x entered =>
        have hx : x.eraseTypes = .procedure main := (List.cons.inj hafter).1
        cases hlisted with
        | cons hfirst _ =>
            cases hfirst with
            | type _ => cases hx
            | procedure _ htext =>
                obtain ⟨own, outer, -, -, rfl⟩ := htext
                have hlast : (bytesOf "\n").length = 1 := by rw [bytesOf_eq]; rfl
                rw [List.singleton_append, bytesOfBlocks_cons, bytesOf_append, List.length_append,
                  List.length_append, hlast]
                omega
  obtain ⟨-, j, q, hq, -, -, hresult⟩ := (hlimit 0).2 hsome
  rw [hresult]
  have hmem : q ∈ p.procedures := List.mem_of_getElem? hq
  obtain rfl : q = main := by simpa [p, Program.procedures, Declaration.procedure?] using hmem
  rfl

end Spl
