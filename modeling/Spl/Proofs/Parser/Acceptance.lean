import Spl.Proofs.Parser.Completeness
import Spl.Proofs.Parser.Soundness
import Spl.Proofs.Syntax.NearestElse

/-!
The parser and the grammar. On tokens as a source is cut into, the parser
accepts exactly what the grammar derives, and answers what is derived when each
`else` belongs to the nearest `if`.
-/

namespace Spl

/-- The parser accepts tokens exactly if declarations are derived from all of
them but the last, whatever `if` each `else` belongs to. Its answer is the
program whose declarations are derived with each `else` at the nearest `if`. -/
theorem parse_eq_ok_iff_derives {file : String} {ts : List Token} {eof : Token}
    (hts : ∀ t ∈ ts, t.kind ≠ .eof ∧ t.Lexical) (heof : eof.kind = .eof) :
    ((∃ p rest, parse file (ts ++ [eof]) = .ok p rest) ↔ ∃ ds, Program.Derives .any ts ds) ∧
      ∀ p rest, parse file (ts ++ [eof]) = .ok p rest ↔
        Program.Derives .nearest ts p.declarations ∧ p.span = ⟨⟨0, file⟩, eof.span.start⟩ ∧
          rest = [eof] := by
  have hiff : ∀ p rest, parse file (ts ++ [eof]) = .ok p rest ↔
      Program.Derives .nearest ts p.declarations ∧ p.span = ⟨⟨0, file⟩, eof.span.start⟩ ∧
        rest = [eof] := by
    intro p rest
    constructor
    · intro hparse
      obtain ⟨pre, last, htokens, hderives, hspan, rfl⟩ :=
        (Grammar.runs_program file ((Legible.last heof).append hts)).of_ok hparse
      obtain ⟨rfl, hlast⟩ := List.append_inj' htokens rfl
      obtain rfl := List.head_eq_of_cons_eq hlast
      exact ⟨hderives, hspan, rfl⟩
    · rintro ⟨hderives, hspan, rfl⟩
      rw [parse, Grammar.program_of_derives file hderives (fun t ht => (hts t ht).2) heof, ← hspan]
  refine ⟨?_, hiff⟩
  rw [Program.exists_derives_iff]
  constructor
  · rintro ⟨p, rest, hparse⟩
    exact ⟨p.declarations, ((hiff p rest).mp hparse).1⟩
  · rintro ⟨ds, hderives⟩
    exact ⟨⟨ds, ⟨⟨0, file⟩, eof.span.start⟩⟩, [eof], (hiff _ _).mpr ⟨hderives, rfl, rfl⟩⟩

/-- Of two `if` in front of an `else` the second one gets it. -/
theorem derives_dangling_else :
    let t (kind : TokenKind) (value : String) : Token := ⟨kind, value, ⟨.null, .null⟩⟩
    let ts := [t .procWord "proc", t .identifier "p", t .openParen "(", t .closeParen ")",
      t .openCurly "\x7b", t .ifWord "if", t .openParen "(", t .character "a", t .closeParen ")",
      t .ifWord "if", t .openParen "(", t .character "b", t .closeParen ")", t .semicolon ";",
      t .elseWord "else", t .semicolon ";", t .closeCurly "\x7d"]
    let ds : List Declaration := [.procedure ⟨"p", [], [],
      [.conditional (.int 97 .null none)
        (.conditional (.int 98 .null none) (.empty .null) (.empty .null) .null)
        (.empty .null) .null], .null⟩]
    (∀ t ∈ ts, t.kind ≠ .eof ∧ t.Lexical) ∧ Program.Derives .nearest ts ds := by
  intro t ts ds
  have hts : ∀ t ∈ ts, t.kind ≠ .eof ∧ t.Lexical := by
    simp [ts, t, Token.Lexical]
  have hparse : parse "a.spl" (ts ++ [t .eof "EOF"]) =
      .ok ⟨ds, ⟨⟨0, "a.spl"⟩, .null⟩⟩ [t .eof "EOF"] := by cbv
  exact ⟨hts, (((parse_eq_ok_iff_derives hts rfl).2 _ _).mp hparse).1⟩

end Spl
