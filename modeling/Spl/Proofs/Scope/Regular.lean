import Spl.Proofs.Scope.Nearest
import Spl.Proofs.Settling
import Spl.Scope.Initial

/-!
Regular symbol tables, the ones that programs build. All scopes lie in the
global one, signatures refer to scopes of the table, no entry mentions
booleans, and arrays are passed by reference. New scopes and declarations of
regular entries keep a table regular, and every program starts with a regular
table.
-/

namespace Spl

/-- A type that declarations can make, which has no booleans in it. -/
def Ty.Nameable : Ty → Prop
  | .int => True
  | .bool => False
  | .array _ _ element => element.Nameable

structure Formal.Regular (f : Formal) : Prop where
  nameable : f.ty.Nameable
  byReference : f.ty.isArray = true → f.byReference = true

/-- An entry that a table of `size` scopes can hold. -/
def Entry.Regular (size : Nat) : Entry → Prop
  | .type ty => ty.Nameable
  | .var ty _ => ty.Nameable
  | .procedure signature =>
    signature.scope.index < size ∧ ∀ f ∈ signature.formals, f.Regular

theorem Entry.Regular.mono {size size' : Nat} {e : Entry} (h : e.Regular size)
    (hsize : size ≤ size') : e.Regular size' := by
  cases e with
  | type ty => exact h
  | var ty byReference => exact h
  | procedure signature => exact ⟨Nat.lt_of_lt_of_le h.1 hsize, h.2⟩

namespace SymbolTable

structure Regular (t : SymbolTable) : Prop where
  size_pos : 0 < t.size
  parent : ∀ id s, t.scope id = .ok s → s.parent = if id = .global then none else some .global
  entry : ∀ id s name e, t.scope id = .ok s → s.get? name = some e → e.Regular t.size

variable {t u : SymbolTable}

theorem Regular.grounded (h : t.Regular) : t.Grounded := by
  intro id s outer hs houter
  rw [h.parent id s hs] at houter
  split at houter
  · cases houter
  · next hid =>
      obtain rfl := Option.some.inj houter
      obtain ⟨index⟩ := id
      have hindex : index ≠ 0 := fun h0 => hid (by rw [h0]; rfl)
      exact Nat.pos_of_ne_zero hindex

theorem Regular.valid (h : t.Regular) {id : ScopeId} (hid : id.index < t.size) :
    Context.Valid ⟨t, id⟩ :=
  ⟨h.grounded, hid⟩

theorem Regular.entry_of_nearest (h : t.Regular) {name : String} {id : ScopeId} {e : Entry}
    (he : t.Nearest name id e) : e.Regular t.size := by
  induction he with
  | here hs hget => exact h.entry _ _ _ _ hs hget
  | outside _ _ _ _ ih => exact ih

theorem get_eq_ok_some_iff {id : ScopeId} {name : String} {e : Entry} :
    t.get id name = .ok (some e) ↔ ∃ s, t.scope id = .ok s ∧ s.get? name = some e := by
  rw [get]
  cases t.scope id with
  | error fault => simp [Except.map]
  | ok s => simp [Except.map]

theorem Regular.entry_of_get (h : t.Regular) {id : ScopeId} {name : String} {e : Entry}
    (he : t.get id name = .ok (some e)) : e.Regular t.size := by
  obtain ⟨s, hs, hget⟩ := get_eq_ok_some_iff.mp he
  exact h.entry id s name e hs hget

theorem exists_get {id : ScopeId} (hid : id.index < t.size) (name : String) :
    ∃ found, t.get id name = .ok found := by
  obtain ⟨s, hs⟩ := exists_scope hid
  exact ⟨s.get? name, by rw [get, hs]; rfl⟩

/-! ### New scopes -/

theorem scope_nest {parent id : ScopeId} :
    (t.nest parent).1.scope id =
      if id.index = t.size then .ok ⟨[], some parent⟩ else t.scope id := by
  have hpush : (t.nest parent).1.scopes[id.index]? =
      if id.index = t.scopes.size then some ⟨[], some parent⟩ else t.scopes[id.index]? :=
    Array.getElem?_push
  rw [scope, scope, hpush, size]
  by_cases hid : id.index = t.scopes.size
  · rw [if_pos hid, if_pos hid]
  · rw [if_neg hid, if_neg hid]

theorem Regular.nest (h : t.Regular) : (t.nest .global).1.Regular := by
  refine ⟨by rw [size_nest]; omega, ?_, ?_⟩
  · intro id s hs
    rw [scope_nest] at hs
    split at hs
    · next hid =>
        obtain rfl := Except.ok.inj hs
        have hne : id ≠ .global := by
          rintro rfl
          exact absurd hid (Nat.ne_of_lt h.size_pos)
        rw [if_neg hne]
    · exact h.parent id s hs
  · intro id s name e hs he
    rw [scope_nest] at hs
    rw [size_nest]
    split at hs
    · obtain rfl := Except.ok.inj hs
      cases he
    · exact (h.entry id s name e hs he).mono (Nat.le_succ _)

/-! ### Declarations -/

theorem size_declare {id : ScopeId} {name : String} {entry : Entry} {complaint : Diagnostic}
    (h : t.declare id name entry complaint = .ok u) : u.size = t.size := by
  obtain ⟨s, -, -, rfl⟩ := (declare_eq_ok_iff ..).mp h
  simp [size]

/-- A declaration changes its own scope only. -/
theorem scope_declare {id : ScopeId} {name : String} {entry : Entry} {complaint : Diagnostic}
    {s : Scope} (hs : t.scope id = .ok s) (h : t.declare id name entry complaint = .ok u)
    (other : ScopeId) :
    u.scope other = if other = id then .ok (s.insert name entry) else t.scope other := by
  obtain ⟨s', hs', -, rfl⟩ := (declare_eq_ok_iff ..).mp h
  obtain rfl := Except.ok.inj (hs.symm.trans hs')
  have hid : id.index < t.scopes.size := index_lt_of_scope hs
  obtain ⟨i⟩ := id
  obtain ⟨j⟩ := other
  simp only [scope, Array.set!_eq_setIfInBounds, Array.getElem?_setIfInBounds, ScopeId.mk.injEq]
  by_cases hij : i = j
  · subst hij
    simp [hid]
  · simp [hij, Ne.symm hij]

theorem Regular.declare (h : t.Regular) {id : ScopeId} {name : String} {entry : Entry}
    {complaint : Diagnostic} (hentry : entry.Regular t.size)
    (hu : t.declare id name entry complaint = .ok u) : u.Regular := by
  obtain ⟨s, hs, hfree, -⟩ := (declare_eq_ok_iff ..).mp hu
  have hsize := size_declare hu
  refine ⟨by rw [hsize]; exact h.size_pos, ?_, ?_⟩
  -- The scope of the declaration has one more entry, all others are as before.
  · intro other s' hs'
    rw [scope_declare hs hu] at hs'
    split at hs'
    · next hother =>
        obtain rfl := Except.ok.inj hs'
        rw [Scope.parent_insert, hother]
        exact h.parent id s hs
    · exact h.parent other s' hs'
  · intro other s' name' e hs' he
    rw [scope_declare hs hu] at hs'
    rw [hsize]
    split at hs'
    · obtain rfl := Except.ok.inj hs'
      by_cases hname : name' = name
      · rw [hname, Scope.get?_insert_self] at he
        obtain rfl := Option.some.inj he
        exact hentry
      · rw [Scope.get?_insert_of_ne s hname] at he
        exact h.entry id s name' e hs he
    · exact h.entry other s' name' e hs' he

/-- A declaration in a scope of a regular table settles with a regular table
of the same size. -/
theorem Regular.settles_declare (h : t.Regular) {id : ScopeId} (hid : id.index < t.size)
    (name : String) {entry : Entry} (hentry : entry.Regular t.size) (complaint : Diagnostic) :
    Settles (t.declare id name entry complaint) fun u => u.Regular ∧ u.size = t.size := by
  cases hu : t.declare id name entry complaint with
  | ok u => exact ⟨h.declare hentry hu, size_declare hu⟩
  | error halt =>
      obtain ⟨s, hs⟩ := exists_scope hid
      cases hget : s.get? name with
      | some taken =>
          obtain rfl := Except.error.inj ((declare_of_taken hs hget).symm.trans hu)
          trivial
      | none =>
          rw [declare_of_free hs hget] at hu
          cases hu

/-! ### The table that programs start with -/

theorem regular_empty : empty.Regular := by
  have hscope : ∀ id s, empty.scope id = .ok s → id = .global ∧ s = ⟨[], none⟩ := by
    rintro ⟨index⟩ s hs
    have h := scope_eq_ok_iff.mp hs
    cases index with
    | zero => exact ⟨rfl, (Option.some.inj h).symm⟩
    | succ index => simp [empty] at h
  refine ⟨Nat.one_pos, ?_, ?_⟩
  · intro id s hs
    obtain ⟨rfl, rfl⟩ := hscope id s hs
    rfl
  · intro id s name e hs he
    obtain ⟨rfl, rfl⟩ := hscope id s hs
    cases he

theorem Regular.settles_declareLibrary (h : t.Regular) (p : LibraryProcedure) :
    Settles (t.declareLibrary p) Regular := by
  have hentry : (Entry.procedure ⟨(t.nest .global).2,
      p.byReference.map fun byReference => ⟨.int, byReference⟩⟩).Regular
      (t.nest .global).1.size := by
    refine ⟨?_, ?_⟩
    · rw [size_nest]
      exact Nat.lt_succ_self _
    · intro f hf
      obtain ⟨byReference, -, rfl⟩ := List.mem_map.mp hf
      exact ⟨trivial, fun harray => absurd harray Bool.false_ne_true⟩
  have hid : ScopeId.global.index < (t.nest .global).1.size := by
    rw [size_nest]
    exact Nat.succ_pos _
  exact (h.nest.settles_declare hid p.name hentry _).mono fun u hu => hu.1

theorem settles_initial (library : Library) : Settles (initial library) Regular := by
  apply Settles.bind
  apply Settles.mono (regular_empty.settles_declare Nat.one_pos "int"
    (show (Entry.type .int).Regular _ from trivial) _)
  rintro t ⟨ht, -⟩
  exact Settles.foldlM ht fun u p _ hu => hu.settles_declareLibrary p

end SymbolTable

end Spl
