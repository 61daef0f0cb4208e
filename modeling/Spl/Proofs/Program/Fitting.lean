import Spl.Proofs.Program.WellDeclared

/-!
What is entered fits. Behind declarations that were entered into the initial
table, names stand for types as the declarations say, so that each declaration
fits those before it.
-/

namespace Spl

theorem Enters.not_mem_names {c c' : Contents} {d : Declaration} (h : Enters c d c') :
    d.name ∉ c.names := by
  cases h with
  | type _ hfree => exact hfree
  | procedure _ hfree => exact hfree

theorem Enters.namesType_iff {c c' : Contents} {d : Declaration} (h : Enters c d c')
    {name : String} {ty : Ty} :
    c'.NamesType name ty ↔
      c.NamesType name ty ∨ ∃ t, d = .type t ∧ t.name = name ∧ t.type.found = ty := by
  cases h with
  | @type t => simp [eq_comm]
  | procedure => simp

namespace Entered

variable {c c' : Contents} {ds : List Declaration} {library : Library} {name : String} {ty : Ty}

/-- Behind declarations, names stand for the types that they stood for before
and for those of the declarations. -/
theorem namesType_iff (h : Entered c ds c') :
    c'.NamesType name ty ↔ c.NamesType name ty ∨
      ∃ t : TypeDeclaration, .type t ∈ ds ∧ t.name = name ∧ t.type.found = ty := by
  induction h with
  | nil => simp
  | @cons _ _ _ d ds h _ ih =>
      rw [ih, h.namesType_iff, or_assoc]
      refine or_congr_right ⟨?_, ?_⟩
      · rintro (⟨t, rfl, ht⟩ | ⟨t, hmem, ht⟩)
        · exact ⟨t, List.mem_cons_self, ht⟩
        · exact ⟨t, List.mem_cons_of_mem d hmem, ht⟩
      · rintro ⟨t, hmem, ht⟩
        cases List.mem_cons.mp hmem with
        | inl heq => exact .inl ⟨t, heq.symm, ht⟩
        | inr hmem => exact .inr ⟨t, hmem, ht⟩

theorem nodup (h : Entered c ds c') (hc : c.names.Nodup) : c'.names.Nodup := by
  induction h with
  | nil => exact hc
  | cons h _ ih =>
      apply ih
      rw [h.names_eq, (List.perm_append_singleton _ _).nodup_iff]
      exact List.nodup_cons.mpr ⟨h.not_mem_names, hc⟩

theorem nodup_names (h : Entered library.contents ds c) : c.names.Nodup := by
  apply h.nodup
  rw [library.names_contents]
  exact library.nodup_names

theorem exists_namesType_iff (h : Entered library.contents ds c) :
    (∃ ty, c.NamesType name ty) ↔ IsTypeName ds name := by
  rw [IsTypeName]
  constructor
  · rintro ⟨ty, hty⟩
    cases h.namesType_iff.mp hty with
    | inl hlibrary => exact .inl (library.namesType_contents.mp hlibrary).1
    | inr hdeclared =>
        obtain ⟨t, ht, hname, -⟩ := hdeclared
        exact .inr ⟨t, ht, hname⟩
  · rintro (rfl | ⟨t, ht, rfl⟩)
    · exact ⟨.int, h.namesType_iff.mpr (.inl (library.namesType_contents.mpr ⟨rfl, rfl⟩))⟩
    · exact ⟨t.type.found, h.namesType_iff.mpr (.inr ⟨t, ht, rfl, rfl⟩)⟩

theorem namesType_unique (h : Entered library.contents ds c) {ty' : Ty}
    (hty : c.NamesType name ty) (hty' : c.NamesType name ty') : ty = ty' := by
  have hlookup := (Scope.lookup_eq_some_iff_mem h.nodup_names).mpr hty
  have hlookup' := (Scope.lookup_eq_some_iff_mem h.nodup_names).mpr hty'
  simpa using hlookup.symm.trans hlookup'

/-- A declared type carries the type that its own type expression was found to
have, among the declarations before it. -/
theorem of_type {before after : List Declaration} {t : TypeDeclaration}
    (h : Entered c (before ++ .type t :: after) c') :
    ∃ c₁, Entered c before c₁ ∧ t.type.Resolved c₁.NamesType t.type.found ∧
      t.name ∉ c₁.names := by
  obtain ⟨c₁, hbefore, hrest⟩ := h.split
  cases hrest with
  | cons hstep _ =>
      cases hstep with
      | type htype hfree => exact ⟨c₁, hbefore, htype, hfree⟩

/-- The type that was found for a type expression is an array exactly if the
declarations say so. -/
theorem isArray_iff (h : Entered library.contents ds c) {e : TypeExpr}
    (he : e.Resolved c.NamesType ty) : ty.isArray = true ↔ e.IsArray ds := by
  -- An alias leads to a shorter list of declarations.
  induction hlength : ds.length using Nat.strongRecOn generalizing ds c e ty with
  | ind n ih =>
      subst hlength
      cases he with
      | array => exact ⟨fun _ => .array, fun _ => rfl⟩
      | @named name position ty hname =>
          have halias : ∀ before t after, ds = before ++ .type t :: after →
              (t.type.found.isArray = true ↔ t.type.IsArray before) := by
            rintro before t after rfl
            obtain ⟨c₁, hbefore, htype, -⟩ := h.of_type
            exact ih before.length (by simp) hbefore htype rfl
          constructor
          · intro harray
            cases h.namesType_iff.mp hname with
            | inl hlibrary =>
                obtain ⟨rfl, rfl⟩ := library.namesType_contents.mp hlibrary
                cases harray
            | inr hdeclared =>
                obtain ⟨t, ht, rfl, rfl⟩ := hdeclared
                obtain ⟨before, after, rfl⟩ := List.append_of_mem ht
                exact .named ((halias before t after rfl).mp harray)
          · intro harray
            cases harray with
            | @named before after t _ _ ht =>
                have hfound : c.NamesType t.name t.type.found :=
                  h.namesType_iff.mpr (.inr ⟨t, by simp, rfl, rfl⟩)
                rw [h.namesType_unique hname hfound]
                exact (halias before t after rfl).mpr ht

theorem fitsAfter (h : Entered library.contents ds c) {d : Declaration} (hd : Enters c d c') :
    d.FitsAfter library ds := by
  have hfree : d.name ∉ "int" :: library.names ++ ds.map Declaration.name := by
    rw [← library.names_contents, ← h.names_eq]
    exact hd.not_mem_names
  rw [List.mem_append, List.mem_cons, not_or, not_or] at hfree
  obtain ⟨⟨hint, hlibrary⟩, hearlier⟩ := hfree
  have hmeans : ∀ {n : String}, (∃ ty, c.NamesType n ty) → IsTypeName ds n :=
    h.exists_namesType_iff.mp
  refine ⟨hint, hlibrary, hearlier, ?_⟩
  cases hd with
  | type htype => exact fun n hn => hmeans (htype.exists_means n hn)
  | @procedure p hdeclared =>
      refine ⟨?_, ?_, hdeclared.nodup, ?_⟩
      · exact fun q hq n hn => hmeans ((hdeclared.parameters q hq).1.exists_means n hn)
      · intro before v after hsplit n hn
        obtain ⟨ty, hty, hnot⟩ := (hdeclared.locals before v after hsplit).exists_means n hn
        rw [List.mem_append, not_or] at hnot
        exact ⟨hmeans ⟨ty, hty⟩, hnot⟩
      · intro q hq harray
        obtain ⟨hresolved, hreference⟩ := hdeclared.parameters q hq
        exact hreference ((h.isArray_iff hresolved).mpr harray)

/-- Each of the declarations that were entered fits those before it. -/
theorem fits (h : Entered library.contents ds c) :
    ∀ before d after, ds = before ++ d :: after → d.FitsAfter library before := by
  rintro before d after rfl
  obtain ⟨c₁, hbefore, hrest⟩ := h.split
  cases hrest with
  | cons hstep _ => exact hbefore.fitsAfter hstep

end Entered

end Spl
