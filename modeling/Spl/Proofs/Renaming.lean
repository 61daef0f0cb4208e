import Mathlib.Logic.Equiv.Basic
import Spl.Proofs.Parser.Renaming
import Spl.Proofs.Translating

/-!
Names matter only up to renaming. Where the identifiers of a source are given
other names, each its own, its analysis says the same of the new names as it did
of the given ones; only `int`, `main` and the names of the library stay.
-/

namespace Spl

/-- Changes names only. -/
def Relabelling.ofNames (name : String → String) : Relabelling :=
  ⟨name, id⟩

theorem Relabelling.faithful_ofNames {name : String → String} (h : Function.Injective name) :
    (ofNames name).translation.Faithful :=
  ⟨h, Function.injective_id, Function.injective_id, rfl⟩

theorem Relabelling.token_ofNames_eq_self {name : String → String} {t : Token}
    (h : t.kind = .identifier → name t.value = t.value) : (ofNames name).token t = t := by
  obtain ⟨kind, value, span⟩ := t
  have hvalue : (if kind = .identifier then name value else value) = value :=
    ite_eq_right_iff.mpr h
  exact congrArg (Token.mk kind · span) hvalue

theorem Library.shift_nil (library : Library) : library.shift [] = id := by
  funext scope
  rw [shift]
  split <;> rfl

variable {name : String → String}

theorem parseTokens_rename (name : String → String) {tokens : List Token} {file : String}
    {p : Program} (h : parseTokens tokens file = .ok p) :
    parseTokens (tokens.map (Relabelling.ofNames name).token) file =
      .ok (p.relabel (.ofNames name)) := by
  obtain ⟨rest, hrest⟩ := parseTokens_eq_ok_iff.mp h
  have hfile : (Relabelling.ofNames name).place ⟨0, file⟩ = ⟨0, file⟩ := rfl
  have hnatural := Grammar.standard.natural_program hfile tokens
  rw [show Grammar.standard.program file tokens = _ from hrest] at hnatural
  exact parseTokens_eq_ok_iff.mpr ⟨_, hnatural⟩

/-- The passes on a renamed program end as they do on the given one, with the new
names. -/
theorem Program.analysis_rename (options : Options) (hname : Function.Injective name)
    (hint : name "int" = "int") (hmain : name "main" = "main")
    (hlibrary : ∀ n ∈ options.library.names, name n = n)
    (p : Program) :
    ResultFollows (Halt.relabel (.ofNames name)) True
      (AnalysisTranslated (Relabelling.ofNames name).translation []) (p.analysis options).result
      ((p.relabel (.ofNames name)).analysis options).result := by
  have hkeeps := (Relabelling.ofNames name).keepsTypes_translation
  have hhalt : Halt.translate (Relabelling.ofNames name).translation =
      Halt.relabel (.ofNames name) :=
    funext (Halt.translate_eq_relabel hkeeps)
  have hprogram := p.translate_eq_relabel hkeeps
  rw [← hhalt, show p.relabel (.ofNames name) = _ from hprogram.symm]
  refine Program.follows_analysis (Relabelling.faithful_ofNames hname) hkeeps hmain rfl
    (fun _ _ => List.not_mem_nil) rfl (fun t t' ht ht' => ?_) fun _ _ => List.not_mem_nil
  have hmore : options.library.procedures = options.library.procedures ++ [] :=
    (List.append_nil _).symm
  exact SymbolTable.translated_initial hmore options.library.shift_nil.symm
    (List.forall_mem_cons.mpr ⟨hint, hlibrary⟩) ht ht'

end Spl
