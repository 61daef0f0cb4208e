import Spl.Scope.Context

/-!
The nearest entry of a name, as a relation between scopes and entries. A
table is grounded if every scope lies in one that was made before it; then
the way outwards ends, and looking a name up finds exactly its nearest entry.
-/

namespace Spl

namespace SymbolTable

/-- The entry that a name means in a scope: the one of that scope, or, if it
has none, the one that the name means in the scope around it. -/
inductive Nearest (t : SymbolTable) (name : String) : ScopeId → Entry → Prop
  | here {id : ScopeId} {s : Scope} {entry : Entry} (hs : t.scope id = .ok s)
      (hget : s.get? name = some entry) : Nearest t name id entry
  | outside {id outer : ScopeId} {s : Scope} {entry : Entry} (hs : t.scope id = .ok s)
      (hget : s.get? name = none) (hparent : s.parent = some outer)
      (h : Nearest t name outer entry) : Nearest t name id entry

/-- What the nearest entry is, seen from one scope. -/
theorem nearest_iff {t : SymbolTable} {name : String} {id : ScopeId} {s : Scope} {entry : Entry}
    (hs : t.scope id = .ok s) :
    t.Nearest name id entry ↔
      s.get? name = some entry ∨
        s.get? name = none ∧ ∃ outer, s.parent = some outer ∧ t.Nearest name outer entry := by
  constructor
  · intro h
    cases h with
    | here hs' hget =>
        obtain rfl := Except.ok.inj (hs.symm.trans hs')
        exact .inl hget
    | outside hs' hget hparent h =>
        obtain rfl := Except.ok.inj (hs.symm.trans hs')
        exact .inr ⟨hget, _, hparent, h⟩
  · rintro (hget | ⟨hget, outer, hparent, h⟩)
    · exact .here hs hget
    · exact .outside hs hget hparent h

theorem Nearest.unique {t : SymbolTable} {name : String} {id : ScopeId} {e₁ e₂ : Entry}
    (h₁ : t.Nearest name id e₁) (h₂ : t.Nearest name id e₂) : e₁ = e₂ := by
  induction h₁ with
  | here hs hget =>
      rw [nearest_iff hs, hget] at h₂
      simpa using h₂
  | outside hs hget hparent _ ih =>
      rw [nearest_iff hs, hget, hparent] at h₂
      exact ih (by simpa using h₂)

theorem scope_eq_ok_iff {t : SymbolTable} {id : ScopeId} {s : Scope} :
    t.scope id = .ok s ↔ t.scopes[id.index]? = some s := by
  unfold scope
  split <;> simp_all

theorem index_lt_of_scope {t : SymbolTable} {id : ScopeId} {s : Scope}
    (h : t.scope id = .ok s) : id.index < t.size :=
  (Array.getElem?_eq_some_iff.mp (scope_eq_ok_iff.mp h)).1

theorem exists_scope {t : SymbolTable} {id : ScopeId} (h : id.index < t.size) :
    ∃ s, t.scope id = .ok s := by
  have hsize : id.index < t.scopes.size := h
  exact ⟨t.scopes[id.index], scope_eq_ok_iff.mpr (Array.getElem?_eq_getElem hsize)⟩

/-- Every scope lies in one of a smaller index. -/
def Grounded (t : SymbolTable) : Prop :=
  ∀ id s outer, t.scope id = .ok s → s.parent = some outer → outer.index < id.index

/-- In a grounded table the way outwards from a scope is found in as many
steps as its index allows, and it passes the nearest entry of every name. -/
theorem chainWithin_of_grounded {t : SymbolTable} (ht : t.Grounded) (n : Nat) (id : ScopeId)
    (hn : id.index < n) (hid : id.index < t.size) :
    ∃ scopes, t.chainWithin n id = .ok scopes ∧
      ∀ name entry, scopes.findSome? (·.get? name) = some entry ↔ t.Nearest name id entry := by
  induction n generalizing id with
  | zero => omega
  | succ n ih =>
      obtain ⟨s, hs⟩ := exists_scope hid
      cases hparent : s.parent with
      | none =>
          refine ⟨[s], by simp [chainWithin, hs, hparent, bind, Except.bind, pure, Except.pure], ?_⟩
          intro name entry
          rw [nearest_iff hs, hparent]
          simp
      | some outer =>
          -- Each step outwards leads to a smaller index.
          have hlt : outer.index < id.index := ht id s outer hs hparent
          obtain ⟨scopes, hchain, hnearest⟩ := ih outer (by omega) (by omega)
          refine ⟨s :: scopes,
            by simp [chainWithin, hs, hparent, hchain, bind, Except.bind, pure, Except.pure], ?_⟩
          intro name entry
          rw [nearest_iff hs, hparent, List.findSome?_cons]
          cases hget : s.get? name with
          | some own => simp
          | none => simpa using hnearest name entry

theorem exists_chain {t : SymbolTable} (ht : t.Grounded) {id : ScopeId} (hid : id.index < t.size) :
    ∃ scopes, t.chain id = .ok scopes := by
  obtain ⟨scopes, h, -⟩ := chainWithin_of_grounded ht t.scopes.size id hid hid
  exact ⟨scopes, h⟩

/-- Looking a name up in a grounded table always has an answer, which is the
nearest entry if there is one. -/
theorem lookup_of_grounded {t : SymbolTable} (ht : t.Grounded) {id : ScopeId}
    (hid : id.index < t.size) (name : String) :
    ∃ found, t.lookup id name = .ok found ∧
      ∀ entry, found = some entry ↔ t.Nearest name id entry := by
  obtain ⟨scopes, hchain, hnearest⟩ := chainWithin_of_grounded ht t.scopes.size id hid hid
  refine ⟨scopes.findSome? (·.get? name), ?_, hnearest name⟩
  rw [lookup, chain, hchain]
  rfl

end SymbolTable

namespace Context

/-- A scope of a grounded table. -/
structure Valid (Γ : Context) : Prop where
  grounded : Γ.table.Grounded
  exists_scope : Γ.scope.index < Γ.table.size

variable {Γ : Context}

/-- The entry that a name means where it is used. -/
def Means (Γ : Context) (name : String) (entry : Entry) : Prop :=
  Γ.table.Nearest name Γ.scope entry

theorem Means.unique {name : String} {e₁ e₂ : Entry} (h₁ : Γ.Means name e₁)
    (h₂ : Γ.Means name e₂) : e₁ = e₂ :=
  SymbolTable.Nearest.unique h₁ h₂

theorem lookup_of_valid (hΓ : Γ.Valid) (name : String) :
    ∃ found, Γ.lookup name = .ok found ∧ ∀ entry, found = some entry ↔ Γ.Means name entry := by
  obtain ⟨found, h, hfound⟩ := SymbolTable.lookup_of_grounded hΓ.grounded hΓ.exists_scope name
  refine ⟨found, ?_, hfound⟩
  rw [lookup, h]
  rfl

theorem lookup_of_means (hΓ : Γ.Valid) {name : String} {entry : Entry} (h : Γ.Means name entry) :
    Γ.lookup name = .ok (some entry) := by
  obtain ⟨found, hlookup, hfound⟩ := lookup_of_valid hΓ name
  rw [hlookup, (hfound entry).mpr h]

theorem lookup_of_not_means (hΓ : Γ.Valid) {name : String} (h : ∀ entry, ¬Γ.Means name entry) :
    Γ.lookup name = .ok none := by
  obtain ⟨found, hlookup, hfound⟩ := lookup_of_valid hΓ name
  have hnone : found = none :=
    Option.eq_none_iff_forall_ne_some.mpr fun entry heq => h entry ((hfound entry).mp heq)
  rw [hlookup, hnone]

end Context

end Spl
