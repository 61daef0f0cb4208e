import Spl.Proofs.Scope.Contents

/-!
The contents of the table that every program starts with: the type `int`, and
the procedures of the library with scopes that bind nothing.
-/

namespace Spl

/-- What a procedure of the library expects of its arguments. -/
def LibraryProcedure.formals (p : LibraryProcedure) : List Formal :=
  p.byReference.map fun byReference => ⟨.int, byReference⟩

def Contents.addLibrary (c : Contents) (p : LibraryProcedure) : Contents :=
  c.addProcedure p.name p.formals []

namespace Library

/-- What the initial table holds. -/
def contents (library : Library) : Contents :=
  library.procedures.foldl Contents.addLibrary ⟨[("int", .type .int)], []⟩

/-- The names that are taken before the first declaration. -/
def names (library : Library) : List String :=
  library.procedures.map LibraryProcedure.name

theorem nodup_names (library : Library) : ("int" :: library.names).Nodup := by
  cases library <;> decide +kernel

/-- What holds of the type `int` alone and is kept by each procedure holds of
the whole library. -/
theorem contents_induction {P : Contents → Prop} (library : Library)
    (int : P ⟨[("int", .type .int)], []⟩)
    (procedure : ∀ c, ∀ p ∈ library.procedures, P c → P (c.addLibrary p)) :
    P library.contents := by
  rw [contents]
  generalize hc : (⟨[("int", .type .int)], []⟩ : Contents) = c at int
  clear hc
  generalize library.procedures = ps at procedure
  induction ps generalizing c with
  | nil => exact int
  | cons p ps ih =>
      apply ih
      · exact procedure c p List.mem_cons_self int
      · exact fun c q hq => procedure c q (List.mem_cons_of_mem p hq)

/-- Each procedure of a library gets the next scope. -/
theorem globals_foldl (ps : List LibraryProcedure) (c : Contents) :
    (ps.foldl Contents.addLibrary c).globals = c.globals ++
      ps.mapIdx fun i p => (p.name, .procedure ⟨⟨c.locals.length + i + 1⟩, p.formals⟩) := by
  induction ps generalizing c with
  | nil => simp
  | cons p ps ih =>
      rw [List.foldl_cons, ih, List.mapIdx_cons]
      simp [Contents.addLibrary, Contents.addProcedure, Nat.add_assoc, Nat.add_comm 1]

theorem locals_foldl (ps : List LibraryProcedure) (c : Contents) :
    (ps.foldl Contents.addLibrary c).locals = c.locals ++ ps.map fun _ => [] := by
  induction ps generalizing c with
  | nil => simp
  | cons p ps ih => simp [ih, Contents.addLibrary]

theorem names_foldl (ps : List LibraryProcedure) (c : Contents) :
    (ps.foldl Contents.addLibrary c).names = c.names ++ ps.map LibraryProcedure.name := by
  induction ps generalizing c with
  | nil => simp
  | cons p ps ih => simp [ih, Contents.addLibrary]

theorem names_contents (library : Library) : library.contents.names = "int" :: library.names :=
  names_foldl _ _

theorem locals_contents (library : Library) :
    library.contents.locals = library.procedures.map fun _ => [] := by
  rw [contents, locals_foldl, List.nil_append]

theorem length_locals_contents (library : Library) :
    library.contents.locals.length = library.procedures.length := by
  rw [locals_contents, List.length_map]

/-- A procedure of the library has a scope that binds nothing. -/
theorem exists_procedure (library : Library) {p : LibraryProcedure} (hp : p ∈ library.procedures) :
    ∃ i, (p.name, .procedure ⟨⟨i + 1⟩, p.formals⟩) ∈ library.contents.globals ∧
      library.contents.locals[i]? = some [] := by
  obtain ⟨i, hi, rfl⟩ := List.mem_iff_getElem.mp hp
  refine ⟨i, ?_, ?_⟩
  · rw [contents, globals_foldl]
    refine List.mem_append_right _ (List.mem_mapIdx.mpr ⟨i, hi, ?_⟩)
    simp
  · rw [contents, locals_foldl]
    simp [hi]

/-- The only type of the library is `int`. -/
theorem namesType_contents (library : Library) {name : String} {ty : Ty} :
    library.contents.NamesType name ty ↔ name = "int" ∧ ty = .int := by
  apply contents_induction (P := fun c => c.NamesType name ty ↔ name = "int" ∧ ty = .int)
  · simp [Contents.NamesType]
  · intro c p _ h
    simp [Contents.addLibrary, h]

end Library

namespace SymbolTable

theorem Holds.declareLibrary {t : SymbolTable} {c : Contents} (h : t.Holds c.scopes)
    {p : LibraryProcedure} (hfree : p.name ∉ c.names) :
    ∃ u, t.declareLibrary p = .ok u ∧ u.Holds (c.addLibrary p).scopes := by
  have hnest : (t.nest .global).1.Holds (c.globals :: (c.locals ++ [[]])) := h.nest
  have hscope : (t.nest .global).2 = ⟨c.locals.length + 1⟩ := h.snd_nest
  have hglobal : (c.globals :: (c.locals ++ [[]]))[ScopeId.global.index]? = some c.globals := rfl
  obtain ⟨u, hu⟩ := hnest.exists_declare hglobal hfree
    (.procedure ⟨(t.nest .global).2, p.formals⟩) (libraryClash p.name)
  have hholds := (hnest.declare hglobal hu).2
  refine ⟨u, hu, ?_⟩
  rw [hscope] at hholds
  exact hholds

theorem Holds.foldlM_declareLibrary {t : SymbolTable} {c : Contents} (h : t.Holds c.scopes)
    {ps : List LibraryProcedure} (hfree : (c.names ++ ps.map LibraryProcedure.name).Nodup) :
    ∃ u, ps.foldlM SymbolTable.declareLibrary t = .ok u ∧
      u.Holds (ps.foldl Contents.addLibrary c).scopes := by
  induction ps generalizing t c with
  | nil => exact ⟨t, rfl, h⟩
  | cons p ps ih =>
      have hp : p.name ∉ c.names := by
        intro hmem
        exact (List.nodup_append.mp hfree).2.2 _ hmem _ List.mem_cons_self rfl
      obtain ⟨u, hu, hholds⟩ := h.declareLibrary hp
      have hrest : ((c.addLibrary p).names ++ ps.map LibraryProcedure.name).Nodup := by
        simpa [Contents.addLibrary] using hfree
      obtain ⟨v, hv, hholds'⟩ := ih hholds hrest
      exact ⟨v, by rw [List.foldlM_cons, hu]; exact hv, hholds'⟩

/-- The initial table can be made, and it holds the library. -/
theorem exists_initial (library : Library) :
    ∃ t, initial library = .ok t ∧ t.Holds library.contents.scopes := by
  have hglobal : ([[]] : List (List Binding))[ScopeId.global.index]? = some [] := rfl
  have hfree : "int" ∉ ([] : List Binding).map Prod.fst := List.not_mem_nil
  obtain ⟨t, ht⟩ := holds_empty.exists_declare hglobal hfree (.type .int) (libraryClash "int")
  have hholds : t.Holds (Contents.scopes ⟨[("int", .type .int)], []⟩) :=
    (holds_empty.declare hglobal ht).2
  obtain ⟨u, hu, hholds'⟩ := hholds.foldlM_declareLibrary library.nodup_names
  refine ⟨u, ?_, hholds'⟩
  rw [initial, ht]
  exact hu

end SymbolTable

end Spl
