import Mathlib.Data.List.Nodup
import Spl.Proofs.Annotation.Erasure
import Spl.Proofs.Scope.Contents
import Spl.TypeExpr.Resolution

/-!
Resolved type expressions. All nodes of a resolved type expression carry
types: a name the type that it means, and an array a type of its own. The
identities of the array types that are made one after the other are the
numbers in a row.
-/

namespace Spl

/-! ### Names -/

namespace Context

variable {Γ : Context}

/-- The name means a type where it is used. -/
def NamesType (Γ : Context) (name : String) (ty : Ty) : Prop :=
  Γ.Means name (.type ty)

theorem typeNamed_eq_ok_iff (hΓ : Γ.Valid) {name : String} {position : Position} {ty : Ty} :
    Γ.typeNamed name position = .ok ty ↔ Γ.NamesType name ty := by
  obtain ⟨found, hlookup, hfound⟩ := lookup_of_valid hΓ name
  rw [NamesType, ← hfound, typeNamed, hlookup]
  cases found with
  | none => simp [bind, Except.bind, throw, throwThe, MonadExceptOf.throw]
  | some entry =>
      cases entry <;>
        simp [bind, Except.bind, pure, Except.pure, throw, throwThe, MonadExceptOf.throw]

end Context

/-! ### Rows of numbers -/

/-- The numbers from `first` up to, and without, `next`, each once, in whatever
order. -/
structure Numbered (first next : Nat) (numbers : List Nat) : Prop where
  next_eq : next = first + numbers.length
  perm : numbers.Perm (List.range' first numbers.length)

namespace Numbered

variable {first middle next : Nat} {xs ys : List Nat}

theorem nil : Numbered first first [] :=
  ⟨rfl, .nil⟩

theorem nodup (h : Numbered first next xs) : xs.Nodup :=
  h.perm.nodup_iff.mpr List.nodup_range'

theorem append (hx : Numbered first middle xs) (hy : Numbered middle next ys) :
    Numbered first next (xs ++ ys) := by
  have hmiddle := hx.next_eq
  subst hmiddle
  refine ⟨?_, ?_⟩
  · rw [hy.next_eq, List.length_append, Nat.add_assoc]
  · rw [List.length_append, ← List.range'_append_1]
    exact hx.perm.append hy.perm

theorem cons (h : Numbered first middle xs) : Numbered first (middle + 1) (middle :: xs) := by
  have hlast : Numbered middle (middle + 1) [middle] := ⟨rfl, .refl _⟩
  have happend := h.append hlast
  exact ⟨by simpa using happend.next_eq,
    (List.perm_append_singleton middle xs).symm.trans (by simpa using happend.perm)⟩

end Numbered

section Unique

variable {α β : Type} {xs : List α} {x y : α} {b : β} {i j : Nat}

/-- In a row without repetitions each element stands behind one index only. -/
theorem index_unique_of_nodup_flatMap {f : α → List β} (h : (xs.flatMap f).Nodup)
    (hx : xs[i]? = some x) (hy : xs[j]? = some y) (hbx : b ∈ f x) (hby : b ∈ f y) : i = j := by
  obtain ⟨-, hpairwise⟩ := List.nodup_flatMap.mp h
  obtain ⟨hi, rfl⟩ := List.getElem?_eq_some_iff.mp hx
  obtain ⟨hj, rfl⟩ := List.getElem?_eq_some_iff.mp hy
  have hdisjoint := List.pairwise_iff_getElem.mp hpairwise
  rcases Nat.lt_trichotomy i j with hlt | heq | hgt
  · exact absurd hby (hdisjoint i j hi hj hlt hbx)
  · exact heq
  · exact absurd hbx (hdisjoint j i hj hi hgt hby)

theorem index_unique_of_nodup_filterMap {f : α → Option β} (h : (xs.filterMap f).Nodup)
    (hx : xs[i]? = some x) (hy : xs[j]? = some y) (hbx : f x = some b) (hby : f y = some b) :
    i = j := by
  rw [List.filterMap_eq_flatMap_toList] at h
  exact index_unique_of_nodup_flatMap h hx hy (by simpa using hbx) (by simpa using hby)

end Unique

/-! ### Type expressions -/

namespace TypeExpr

/-- The names in a type expression. There is one, behind all sizes. -/
def names : TypeExpr → List String
  | named name _ _ => [name]
  | array _ element _ _ => element.names

/-- The type that was found for the whole type expression, `int` if none was. -/
def found (e : TypeExpr) : Ty :=
  e.ty.getD .int

/-- The type expression and those inside of it, from the outside in. -/
def nodes : TypeExpr → List TypeExpr
  | named name position slot => [named name position slot]
  | array size element position slot => array size element position slot :: element.nodes

/-- The identity of the array type that a node makes. -/
def identity? : TypeExpr → Option Nat
  | array _ _ _ (some (.array identity _ _)) => some identity
  | _ => none

/-- The identities of the array types that the type expression makes. -/
def identities (e : TypeExpr) : List Nat :=
  e.nodes.filterMap identity?

/-- The type expression carries its types, of which `ty` is the type of the
whole: a name carries a type that it means, and an array a type of its size
with the type of the element expression. -/
inductive Resolved (means : String → Ty → Prop) : TypeExpr → Ty → Prop
  | named {name : String} {position : Position} {ty : Ty} (h : means name ty) :
      Resolved means (.named name position (some ty)) ty
  | array {size : UInt32} {element : TypeExpr} {position : Position} {identity : Nat}
      {elementTy : Ty} (h : Resolved means element elementTy) :
      Resolved means (.array size element position (some (.array identity size elementTy)))
        (.array identity size elementTy)

namespace Resolved

variable {means means' : String → Ty → Prop} {e : TypeExpr} {ty : Ty}

theorem mono (h : e.Resolved means ty) (hmeans : ∀ name ty, means name ty → means' name ty) :
    e.Resolved means' ty := by
  induction h with
  | named h => exact .named (hmeans _ _ h)
  | array _ ih => exact .array ih

theorem ty_eq (h : e.Resolved means ty) : e.ty = some ty := by
  cases h <;> rfl

theorem found_eq (h : e.Resolved means ty) : e.found = ty := by
  rw [found, h.ty_eq, Option.getD_some]

theorem exists_means (h : e.Resolved means ty) : ∀ n ∈ e.names, ∃ ty, means n ty := by
  induction h with
  | named h =>
      intro n hn
      obtain rfl := List.mem_singleton.mp hn
      exact ⟨_, h⟩
  | array _ ih => exact ih

/-- Types made from types without booleans have none. -/
theorem nameable (h : e.Resolved means ty) (hmeans : ∀ name ty, means name ty → ty.Nameable) :
    ty.Nameable := by
  induction h with
  | named h => exact hmeans _ _ h
  | array _ ih => exact ih

/-- All nodes of a resolved type expression are resolved. -/
theorem of_mem_nodes {n : TypeExpr} (h : e.Resolved means ty) (hn : n ∈ e.nodes) :
    n.Resolved means n.found := by
  induction h with
  | named hname =>
      obtain rfl := List.mem_singleton.mp hn
      exact .named hname
  | array helement ih =>
      cases List.mem_cons.mp hn with
      | inl heq =>
          subst heq
          exact .array helement
      | inr hmem => exact ih hmem

end Resolved

theorem names_erase (e : TypeExpr) : e.erase.names = e.names := by
  induction e with
  | named name position slot => rfl
  | array size element position slot ih => exact ih

/-- What resolution yields carries its types, and the array types made on the
way are the next in the row. -/
theorem of_yields_resolve {Γ : Context} (hΓ : Γ.Valid) {e e' : TypeExpr} {fresh fresh' : Nat}
    {ty : Ty} (h : (e.resolve Γ fresh).Yields (e', fresh') ty) :
    e'.Resolved Γ.NamesType ty ∧ Numbered fresh fresh' e'.identities := by
  induction e generalizing e' fresh' ty with
  | named name position slot =>
      rw [resolve] at h
      split at h
      · next found hfound =>
          obtain ⟨-, hnode, rfl⟩ := Outcome.yields_write_iff.mp h
          cases hnode
          exact ⟨.named ((Context.typeNamed_eq_ok_iff hΓ).mp hfound), .nil⟩
      · exact absurd h Outcome.not_yields_error
  | array size element position slot ih =>
      rw [resolve] at h
      obtain ⟨⟨element', middle⟩, elementTy, helement, hwrite⟩ := Outcome.yields_andThen_iff.mp h
      obtain ⟨-, hnode, rfl⟩ := Outcome.yields_write_iff.mp hwrite
      cases hnode
      obtain ⟨hresolved, hnumbered⟩ := ih helement
      exact ⟨.array hresolved, hnumbered.cons⟩

/-- Resolution finishes on a type expression without types if its names mean
types. -/
theorem exists_yields_resolve {Γ : Context} (hΓ : Γ.Valid) {e : TypeExpr} (he : e.Fresh)
    (hnames : ∀ n ∈ e.names, ∃ ty, Γ.NamesType n ty) (fresh : Nat) :
    ∃ after ty, (e.resolve Γ fresh).Yields after ty := by
  induction e with
  | named name position slot =>
      obtain rfl : slot = none := he
      obtain ⟨ty, hty⟩ := hnames name (List.mem_singleton.mpr rfl)
      rw [resolve, (Context.typeNamed_eq_ok_iff hΓ).mpr hty]
      exact ⟨_, ty, rfl⟩
  | array size element position slot ih =>
      obtain ⟨helement, rfl⟩ := he
      obtain ⟨after, elementTy, hyields⟩ := ih helement hnames
      rw [resolve]
      exact ⟨_, _, Outcome.yields_andThen_iff.mpr ⟨after, elementTy, hyields, rfl⟩⟩

end TypeExpr

end Spl
