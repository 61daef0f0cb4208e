import Spl.Proofs.Annotation.Erasure
import Spl.Proofs.Program.Entering
import Spl.Proofs.Scope.Library

/-!
Well-formed declarations. Declarations are read in their order, and each has
to fit what is declared before it: its name is new, the names in its types
stand for types, and arrays are passed by reference. Nothing here refers to
tables, and types that were written into the program do not matter. What was
entered into a table fits.
-/

namespace Spl

/-! ### The rules -/

/-- The names that stand for types behind these declarations. -/
def IsTypeName (earlier : List Declaration) (name : String) : Prop :=
  name = "int" ∨ ∃ t : TypeDeclaration, Declaration.type t ∈ earlier ∧ t.name = name

/-- The type expression stands for an array: it is one, or it is the name of a
type that is declared as one. -/
inductive TypeExpr.IsArray : List Declaration → TypeExpr → Prop
  | array {earlier : List Declaration} {size : UInt32} {element : TypeExpr} {position : Position}
      {slot : Slot} : IsArray earlier (.array size element position slot)
  | named {before after : List Declaration} {t : TypeDeclaration} {position : Position}
      {slot : Slot} (h : IsArray before t.type) :
      IsArray (before ++ .type t :: after) (.named t.name position slot)

/-- A procedure that fits the declarations before it. The types of parameters
are looked up globally; those of variables among the parameters and variables
before them, where no name stands for a type. -/
structure Procedure.FitsAfter (earlier : List Declaration) (p : Procedure) : Prop where
  parameterTypes : ∀ q ∈ p.parameters, ∀ n ∈ q.type.names, IsTypeName earlier n
  localTypes : ∀ before v after, p.locals = before ++ v :: after → ∀ n ∈ v.type.names,
    IsTypeName earlier n ∧ n ∉ p.parameters.map Parameter.name ∧
      n ∉ before.map LocalVariable.name
  distinct : (p.parameters.map Parameter.name ++ p.locals.map LocalVariable.name).Nodup
  arrays : ∀ q ∈ p.parameters, q.type.IsArray earlier → q.byReference = true

/-- What is declared fits the declarations before it, apart from its name. -/
def Declaration.PartsFit (earlier : List Declaration) : Declaration → Prop
  | type t => ∀ n ∈ t.type.names, IsTypeName earlier n
  | procedure p => p.FitsAfter earlier

/-- A declaration that fits the declarations before it. -/
structure Declaration.FitsAfter (library : Library) (earlier : List Declaration)
    (d : Declaration) : Prop where
  not_int : d.name ≠ "int"
  not_library : d.name ∉ library.procedures.map LibraryProcedure.name
  not_earlier : d.name ∉ earlier.map Declaration.name
  parts : d.PartsFit earlier

/-- There is a procedure `main` that takes nothing. -/
def HasMain (ds : List Declaration) : Prop :=
  ∃ p, Declaration.procedure p ∈ ds ∧ p.name = "main" ∧ p.parameters = []

/-- A program whose declarations fit one after the other, and which has a
procedure to start with. -/
structure Program.WellDeclared (library : Library) (p : Program) : Prop where
  fits : ∀ before d after, p.declarations = before ++ d :: after → d.FitsAfter library before
  main : HasMain p.declarations

/-! ### Types in the program do not matter -/

theorem forall_split_map_iff {α β : Type} {f : α → β} {xs : List α} {P : List β → β → Prop} :
    (∀ before y after, xs.map f = before ++ y :: after → P before y) ↔
      ∀ before x after, xs = before ++ x :: after → P (before.map f) (f x) := by
  constructor
  · rintro h before x after rfl
    exact h _ _ (after.map f) (by simp)
  · intro h before y after hsplit
    obtain ⟨before', rest, rfl, rfl, hrest⟩ := List.map_eq_append_iff.mp hsplit
    obtain ⟨x, after', rfl, rfl, rfl⟩ := List.map_eq_cons_iff.mp hrest
    exact h before' x after' rfl

@[simp] theorem Declaration.name_eraseTypes (d : Declaration) : d.eraseTypes.name = d.name := by
  cases d <;> rfl

@[simp] theorem Declaration.name_comp_eraseTypes :
    Declaration.name ∘ Declaration.eraseTypes = Declaration.name :=
  funext Declaration.name_eraseTypes

@[simp] theorem Parameter.name_comp_erase :
    Parameter.name ∘ Parameter.erase = Parameter.name := rfl

@[simp] theorem LocalVariable.name_comp_erase :
    LocalVariable.name ∘ LocalVariable.erase = LocalVariable.name := rfl

theorem Declaration.eraseTypes_eq_type_iff {d : Declaration} {t : TypeDeclaration} :
    d.eraseTypes = .type t ↔ ∃ t', d = .type t' ∧ t'.erase = t := by
  cases d <;> simp [eraseTypes]

theorem isTypeName_eraseTypes {earlier : List Declaration} {name : String} :
    IsTypeName (earlier.map Declaration.eraseTypes) name ↔ IsTypeName earlier name := by
  have hdeclared : (∃ t, .type t ∈ earlier.map Declaration.eraseTypes ∧ t.name = name) ↔
      ∃ t, .type t ∈ earlier ∧ t.name = name := by
    constructor
    · rintro ⟨t, ht, rfl⟩
      obtain ⟨d, hd, hdt⟩ := List.mem_map.mp ht
      obtain ⟨t', rfl, rfl⟩ := Declaration.eraseTypes_eq_type_iff.mp hdt
      exact ⟨t', hd, rfl⟩
    · rintro ⟨t, ht, rfl⟩
      exact ⟨t.erase, List.mem_map.mpr ⟨_, ht, rfl⟩, rfl⟩
  rw [IsTypeName, IsTypeName, hdeclared]

namespace TypeExpr

theorem IsArray.erase {earlier : List Declaration} {e : TypeExpr} (h : e.IsArray earlier) :
    e.erase.IsArray (earlier.map Declaration.eraseTypes) := by
  induction h with
  | array => exact .array
  | @named before after t _ _ _ ih =>
      rw [List.map_append, List.map_cons]
      exact .named ih

theorem IsArray.of_erase {earlier : List Declaration} {e : TypeExpr}
    (h : e.erase.IsArray (earlier.map Declaration.eraseTypes)) : e.IsArray earlier := by
  generalize hearlier' : earlier.map Declaration.eraseTypes = earlier', he' : e.erase = e' at h
  induction h generalizing earlier e with
  | array =>
      cases e with
      | named => cases he'
      | array => exact .array
  | @named before after t _ _ _ ih =>
      cases e with
      | array => cases he'
      | named name position slot =>
          obtain rfl : name = t.name := (TypeExpr.named.inj he').1
          obtain ⟨before', rest, rfl, rfl, hrest⟩ := List.map_eq_append_iff.mp hearlier'
          obtain ⟨d, after', rfl, hd, rfl⟩ := List.map_eq_cons_iff.mp hrest
          obtain ⟨t', rfl, rfl⟩ := Declaration.eraseTypes_eq_type_iff.mp hd
          exact .named (t := t') (ih rfl rfl)

theorem isArray_erase {earlier : List Declaration} {e : TypeExpr} :
    e.erase.IsArray (earlier.map Declaration.eraseTypes) ↔ e.IsArray earlier :=
  ⟨IsArray.of_erase, IsArray.erase⟩

end TypeExpr

theorem Procedure.fitsAfter_eraseTypes {earlier : List Declaration} {p : Procedure} :
    p.eraseTypes.FitsAfter (earlier.map Declaration.eraseTypes) ↔ p.FitsAfter earlier := by
  have hparameters : p.eraseTypes.parameters = p.parameters.map Parameter.erase := rfl
  have hlocals : p.eraseTypes.locals = p.locals.map LocalVariable.erase := rfl
  constructor
  · rintro ⟨htypes, hlocalTypes, hdistinct, harrays⟩
    rw [hlocals, forall_split_map_iff] at hlocalTypes
    simp only [hparameters, List.forall_mem_map, List.map_map, Parameter.name_comp_erase,
      LocalVariable.name_comp_erase, isTypeName_eraseTypes] at htypes hlocalTypes harrays
    simp only [hparameters, hlocals, List.map_map, Parameter.name_comp_erase,
      LocalVariable.name_comp_erase] at hdistinct
    exact ⟨fun q hq n hn => htypes q hq n (q.type.names_erase ▸ hn),
      fun before v after h n hn => hlocalTypes before v after h n (v.type.names_erase ▸ hn),
      hdistinct, fun q hq harray => harrays q hq (TypeExpr.isArray_erase.mpr harray)⟩
  · rintro ⟨htypes, hlocalTypes, hdistinct, harrays⟩
    refine ⟨?_, ?_, ?_, ?_⟩
    · simp only [hparameters, List.forall_mem_map, isTypeName_eraseTypes]
      exact fun q hq n hn => htypes q hq n (q.type.names_erase ▸ hn)
    · rw [hlocals, forall_split_map_iff]
      simp only [hparameters, List.map_map, Parameter.name_comp_erase,
        LocalVariable.name_comp_erase, isTypeName_eraseTypes]
      exact fun before v after h n hn => hlocalTypes before v after h n (v.type.names_erase ▸ hn)
    · simpa only [hparameters, hlocals, List.map_map, Parameter.name_comp_erase,
        LocalVariable.name_comp_erase] using hdistinct
    · simp only [hparameters, List.forall_mem_map]
      exact fun q hq harray => harrays q hq (TypeExpr.isArray_erase.mp harray)

theorem Declaration.fitsAfter_eraseTypes {library : Library} {earlier : List Declaration}
    {d : Declaration} :
    d.eraseTypes.FitsAfter library (earlier.map Declaration.eraseTypes) ↔
      d.FitsAfter library earlier := by
  have hparts : d.eraseTypes.PartsFit (earlier.map Declaration.eraseTypes) ↔
      d.PartsFit earlier := by
    cases d with
    | type t =>
        have hnames : t.type.erase.names = t.type.names := t.type.names_erase
        simp only [eraseTypes, PartsFit, TypeDeclaration.erase, hnames, isTypeName_eraseTypes]
    | procedure p => exact Procedure.fitsAfter_eraseTypes
  have hnames : (earlier.map Declaration.eraseTypes).map Declaration.name =
      earlier.map Declaration.name := by
    simp
  constructor
  · rintro ⟨h₁, h₂, h₃, h₄⟩
    rw [name_eraseTypes] at h₁ h₂ h₃
    exact ⟨h₁, h₂, hnames ▸ h₃, hparts.mp h₄⟩
  · rintro ⟨h₁, h₂, h₃, h₄⟩
    exact ⟨by rwa [name_eraseTypes], by rwa [name_eraseTypes], by rwa [name_eraseTypes, hnames],
      hparts.mpr h₄⟩

theorem hasMain_eraseTypes {ds : List Declaration} :
    HasMain (ds.map Declaration.eraseTypes) ↔ HasMain ds := by
  constructor
  · rintro ⟨p, hp, hname, hparameters⟩
    obtain ⟨d, hd, hdp⟩ := List.mem_map.mp hp
    cases d with
    | type t => cases hdp
    | procedure q =>
        cases hdp
        exact ⟨q, hd, hname, List.map_eq_nil_iff.mp hparameters⟩
  · rintro ⟨p, hp, hname, hparameters⟩
    exact ⟨p.eraseTypes, List.mem_map.mpr ⟨_, hp, rfl⟩, hname,
      List.map_eq_nil_iff.mpr hparameters⟩

theorem Program.wellDeclared_eraseTypes {library : Library} {p : Program} :
    p.eraseTypes.WellDeclared library ↔ p.WellDeclared library := by
  have hdeclarations : p.eraseTypes.declarations = p.declarations.map Declaration.eraseTypes := rfl
  constructor
  · rintro ⟨hfits, hmain⟩
    rw [hdeclarations] at hfits hmain
    rw [forall_split_map_iff] at hfits
    exact ⟨fun before d after h => Declaration.fitsAfter_eraseTypes.mp (hfits before d after h),
      hasMain_eraseTypes.mp hmain⟩
  · rintro ⟨hfits, hmain⟩
    refine ⟨?_, hasMain_eraseTypes.mpr hmain⟩
    rw [hdeclarations, forall_split_map_iff]
    exact fun before d after h => Declaration.fitsAfter_eraseTypes.mpr (hfits before d after h)

end Spl
