import Spl.Proofs.Token.Literal
import Spl.Token.Parser

/-!
Tokens to read, and what it means that a reader runs on them: it ends with an
answer or with a diagnostic, and never with a fault.
-/

namespace Spl

/-! ### Tokens to read -/

/-- Tokens as a source is cut into: literals have their written forms, and the
end of the source is marked by the last token and by no other. -/
inductive Legible : List Token → Prop
  | last {t : Token} (h : t.kind = .eof) : Legible [t]
  | cons {t : Token} {ts : List Token} (hkind : t.kind ≠ .eof) (ht : t.Lexical)
      (hts : Legible ts) : Legible (t :: ts)

/-- Tokens of which the last one marks the end. Others may do so, too. -/
inductive Closed : List Token → Prop
  | last {t : Token} (h : t.kind = .eof) : Closed [t]
  | cons {t : Token} {ts : List Token} (ht : t.Lexical) (hts : Closed ts) : Closed (t :: ts)

/-- Tokens from within a source. -/
def Inside (ts : List Token) : Prop :=
  ∀ t ∈ ts, t.kind ≠ .eof ∧ t.Lexical

theorem Token.lexical_of_eof {t : Token} (h : t.kind = .eof) : t.Lexical := by
  rw [Lexical, h]
  trivial

namespace Inside

variable {t : Token} {ts us : List Token}

theorem nil : Inside [] := by simp [Inside]

theorem cons (hkind : t.kind ≠ .eof) (ht : t.Lexical) (hts : Inside ts) : Inside (t :: ts) :=
  List.forall_mem_cons.mpr ⟨⟨hkind, ht⟩, hts⟩

theorem append (hts : Inside ts) (hus : Inside us) : Inside (ts ++ us) :=
  List.forall_mem_append.mpr ⟨hts, hus⟩

end Inside

namespace Closed

variable {t : Token} {ts pre : List Token}

theorem lexical (h : Closed ts) : ∀ t ∈ ts, t.Lexical := by
  induction h with
  | last heof => simpa using Token.lexical_of_eof heof
  | cons ht _ ih => exact List.forall_mem_cons.mpr ⟨ht, ih⟩

/-- More tokens follow one that does not mark the end. -/
theorem exists_next (h : Closed (t :: ts)) (ht : t.kind ≠ .eof) :
    ∃ u us, ts = u :: us ∧ Closed (u :: us) := by
  cases h with
  | last heof => exact absurd heof ht
  | cons _ hts =>
      cases ts with
      | nil => cases hts
      | cons u us => exact ⟨u, us, rfl, hts⟩

theorem ne_nil (h : Closed ts) : ts ≠ [] := by
  cases h <;> exact List.cons_ne_nil _ _

theorem exists_cons (h : Closed ts) : ∃ t us, ts = t :: us :=
  List.exists_cons_of_ne_nil h.ne_nil

theorem behind (h : Closed (pre ++ t :: ts)) : Closed (t :: ts) := by
  induction pre with
  | nil => exact h
  | cons u pre ih =>
      cases hrest : pre ++ t :: ts with
      | nil => simp at hrest
      | cons v vs =>
          rw [List.cons_append, hrest] at h
          cases h with
          | cons _ hvs => exact ih (by rwa [hrest])

end Closed

namespace Legible

variable {ts us : List Token}

/-- Tokens from within a source can stand before all others. -/
theorem append (hus : Legible us) (hts : Inside ts) : Legible (ts ++ us) := by
  induction ts with
  | nil => exact hus
  | cons t ts ih =>
      obtain ⟨⟨hkind, ht⟩, hts⟩ := List.forall_mem_cons.mp hts
      exact .cons hkind ht (ih hts)

theorem closed (h : Legible ts) : Closed ts := by
  induction h with
  | last heof => exact .last heof
  | cons _ ht _ ih => exact .cons ht ih

/-- Behind a mark of the end there are no tokens. -/
theorem eq_nil_of_eof {pre post : List Token} {t : Token} (h : Legible (pre ++ t :: post))
    (ht : t.kind = .eof) : post = [] := by
  induction pre with
  | nil =>
      cases h with
      | last _ => rfl
      | cons hkind _ _ => exact absurd ht hkind
  | cons u pre ih =>
      generalize hrest : pre ++ t :: post = rest at ih
      rw [List.cons_append, hrest] at h
      cases h with
      | last _ => simp at hrest
      | cons _ _ hrest => exact ih hrest

end Legible

namespace Parser

variable {α : Type}

/-- The reader ends, on these tokens, with an answer and tokens left that have
the property, or with a diagnostic. -/
def Runs (p : Parser α) (ts : List Token) (Q : α → List Token → Prop) : Prop :=
  match p ts with
  | .ok a rest => Q a rest
  | .error (.diagnostic _) _ => True
  | .error (.fault _) _ => False

theorem Runs.of_ok {p : Parser α} {ts : List Token} {Q : α → List Token → Prop} {a : α}
    {rest : List Token} (h : Runs p ts Q) (hp : p ts = .ok a rest) : Q a rest := by
  rw [Runs, hp] at h
  exact h

theorem Runs.mono {p : Parser α} {ts : List Token} {Q R : α → List Token → Prop}
    (h : Runs p ts Q) (hQ : ∀ a rest, Q a rest → R a rest) : Runs p ts R := by
  rw [Runs] at h ⊢
  split at h
  · exact hQ _ _ h
  · trivial
  · exact h

/-- The reader ends with a diagnostic, or it moves forward: it takes a token at
least, and none that marks the end. -/
def Advances (p : Parser α) (ts : List Token) : Prop :=
  Runs p ts fun _ rest => ∃ pre, ts = pre ++ rest ∧ pre ≠ [] ∧ Inside pre ∧ Closed rest

end Parser

end Spl
