import Spl.Proofs.Scope.Regular

/-!
What tables hold. The entries of a scope are a list of bindings of different
names, in an order that does not matter, and a table of one level is the list
of what its scopes bind: first the global scope, then the scopes that lie in
it, in the order in which they were made. The operations on tables are
operations on such lists.
-/

namespace Spl

/-- A name and what it stands for. -/
abbrev Binding := String × Entry

/-! ### Scopes -/

namespace Scope

/-- The scope binds these names, each to one entry, and no others. -/
structure Binds (s : Scope) (bindings : List Binding) : Prop where
  perm : s.entries.Perm bindings
  nodup : (bindings.map Prod.fst).Nodup

variable {s : Scope} {bindings : List Binding} {name : String} {entry : Entry}

theorem lookup_eq_some_iff_mem {entries : List Binding} (h : (entries.map Prod.fst).Nodup) :
    entries.lookup name = some entry ↔ (name, entry) ∈ entries := by
  induction entries with
  | nil => simp
  | cons b entries ih =>
      obtain ⟨n, e⟩ := b
      obtain ⟨hn, hentries⟩ : n ∉ entries.map Prod.fst ∧ (entries.map Prod.fst).Nodup := by
        simpa using h
      by_cases hname : name = n
      · subst hname
        have hmem : (name, entry) ∉ entries := fun hmem => hn (List.mem_map.mpr ⟨_, hmem, rfl⟩)
        simp [hmem, eq_comm]
      · have hne : (name == n) = false := beq_eq_false_iff_ne.mpr hname
        simp [List.lookup_cons, hne, hname, ih hentries]

theorem perm_insertSorted (name : String) (entry : Entry) (entries : List Binding) :
    (insertSorted name entry entries).Perm ((name, entry) :: entries) := by
  induction entries with
  | nil => rfl
  | cons b entries ih =>
      rw [insertSorted]
      split
      · exact (ih.cons b).trans (.swap _ _ _)
      · rfl

theorem Binds.get?_eq_some_iff (h : s.Binds bindings) :
    s.get? name = some entry ↔ (name, entry) ∈ bindings := by
  have hentries : (s.entries.map Prod.fst).Nodup := (h.perm.map Prod.fst).nodup_iff.mpr h.nodup
  rw [get?, lookup_eq_some_iff_mem hentries, h.perm.mem_iff]

theorem Binds.get?_eq_none_iff (h : s.Binds bindings) :
    s.get? name = none ↔ name ∉ bindings.map Prod.fst := by
  rw [Option.eq_none_iff_forall_ne_some]
  simp [h.get?_eq_some_iff]

theorem binds_nil (parent : Option ScopeId) : Binds ⟨[], parent⟩ [] :=
  ⟨.nil, .nil⟩

theorem Binds.insert (h : s.Binds bindings) (hfree : name ∉ bindings.map Prod.fst)
    (entry : Entry) : (s.insert name entry).Binds (bindings ++ [(name, entry)]) := by
  constructor
  · have hcons : (insertSorted name entry s.entries).Perm ((name, entry) :: bindings) :=
      (perm_insertSorted name entry s.entries).trans (h.perm.cons _)
    exact hcons.trans (List.perm_append_singleton _ _).symm
  · rw [List.map_append, List.map_singleton, (List.perm_append_singleton _ _).nodup_iff]
    exact List.nodup_cons.mpr ⟨hfree, h.nodup⟩

end Scope

/-! ### Tables -/

namespace SymbolTable

/-- The scopes of the table bind these names, the global scope first; all
others lie in it. -/
structure Holds (t : SymbolTable) (scopes : List (List Binding)) : Prop where
  size_eq : t.size = scopes.length
  scope : ∀ i bindings, scopes[i]? = some bindings → ∃ s, t.scope ⟨i⟩ = .ok s ∧
    s.parent = (if i = 0 then none else some .global) ∧ s.Binds bindings

variable {t u : SymbolTable} {scopes : List (List Binding)} {bindings globals : List Binding}
  {id : ScopeId} {name : String} {entry : Entry} {complaint : Diagnostic}

theorem Holds.of_scope (h : t.Holds scopes) {s : Scope} (hs : t.scope id = .ok s) :
    ∃ bindings, scopes[id.index]? = some bindings ∧
      s.parent = (if id.index = 0 then none else some .global) ∧ s.Binds bindings := by
  have hlt : id.index < scopes.length := h.size_eq ▸ index_lt_of_scope hs
  obtain ⟨s', hs', hparent, hbinds⟩ := h.scope id.index _ (List.getElem?_eq_getElem hlt)
  have hsame : s' = s := Except.ok.inj (hs'.symm.trans hs)
  exact ⟨_, List.getElem?_eq_getElem hlt, hsame ▸ hparent, hsame ▸ hbinds⟩

theorem Holds.parent (h : t.Holds scopes) {s : Scope} (hs : t.scope id = .ok s) :
    s.parent = if id = .global then none else some .global := by
  obtain ⟨-, -, hparent, -⟩ := h.of_scope hs
  rw [hparent]
  obtain ⟨index⟩ := id
  simp [ScopeId.global]

theorem Holds.grounded (h : t.Holds scopes) : t.Grounded := by
  intro id s outer hs houter
  obtain ⟨-, -, hparent, -⟩ := h.of_scope hs
  rw [hparent] at houter
  split at houter
  · cases houter
  · next hindex =>
      obtain rfl := Option.some.inj houter
      exact Nat.pos_of_ne_zero hindex

theorem Holds.lt_size (h : t.Holds scopes) (hid : scopes[id.index]? = some bindings) :
    id.index < t.size := by
  rw [h.size_eq]
  exact (List.getElem?_eq_some_iff.mp hid).1

theorem Holds.valid (h : t.Holds scopes) (hid : scopes[id.index]? = some bindings) :
    Context.Valid ⟨t, id⟩ :=
  ⟨h.grounded, h.lt_size hid⟩

theorem holds_empty : empty.Holds [[]] := by
  refine ⟨rfl, fun i bindings hi => ?_⟩
  cases i with
  | zero =>
      obtain rfl : [] = bindings := Option.some.inj hi
      exact ⟨⟨[], none⟩, rfl, rfl, Scope.binds_nil none⟩
  | succ i => cases hi

/-- A new scope comes behind all others. -/
theorem Holds.snd_nest (h : t.Holds (globals :: scopes)) :
    (t.nest .global).2 = ⟨scopes.length + 1⟩ :=
  congrArg ScopeId.mk h.size_eq

theorem Holds.nest (h : t.Holds (globals :: scopes)) :
    (t.nest .global).1.Holds (globals :: (scopes ++ [[]])) := by
  have hsize : t.size = scopes.length + 1 := h.size_eq
  refine ⟨by simp [hsize], fun i bindings hi => ?_⟩
  rw [scope_nest, hsize]
  by_cases hlast : i = scopes.length + 1
  · subst hlast
    obtain rfl : [] = bindings := by simpa using hi
    exact ⟨_, if_pos rfl, rfl, Scope.binds_nil _⟩
  · have hlt : i < scopes.length + 1 := by
      have hlt' := (List.getElem?_eq_some_iff.mp hi).1
      simp at hlt'
      omega
    rw [if_neg hlast]
    apply h.scope
    rwa [← List.cons_append, List.getElem?_append_left (by simpa using hlt)] at hi

theorem Holds.get_eq_ok_some_iff (h : t.Holds scopes) (hid : scopes[id.index]? = some bindings) :
    t.get id name = .ok (some entry) ↔ (name, entry) ∈ bindings := by
  obtain ⟨s, hs, -, hbinds⟩ := h.scope id.index _ hid
  have hget : t.get id name = .ok (s.get? name) := by
    rw [get, show t.scope id = .ok s from hs]
    rfl
  rw [hget, Except.ok.injEq, hbinds.get?_eq_some_iff]

theorem Holds.get_global_iff (h : t.Holds (globals :: scopes)) :
    t.get .global name = .ok (some entry) ↔ (name, entry) ∈ globals :=
  h.get_eq_ok_some_iff rfl

/-- The scopes that are not global bind what the rest of the list says. -/
theorem Holds.of_local_scope (h : t.Holds (globals :: scopes)) (hid : id ≠ .global) {s : Scope}
    (hs : t.scope id = .ok s) :
    ∃ i bindings, id = ⟨i + 1⟩ ∧ scopes[i]? = some bindings ∧ s.Binds bindings := by
  obtain ⟨index⟩ := id
  obtain ⟨bindings, hindex, -, hbinds⟩ := h.of_scope hs
  cases index with
  | zero => exact absurd rfl hid
  | succ i => exact ⟨i, bindings, rfl, hindex, hbinds⟩

/-- A name that its scope does not bind can be declared there. -/
theorem Holds.exists_declare (h : t.Holds scopes) (hid : scopes[id.index]? = some bindings)
    (hfree : name ∉ bindings.map Prod.fst) (entry : Entry) (complaint : Diagnostic) :
    ∃ u, t.declare id name entry complaint = .ok u := by
  obtain ⟨s, hs, -, hbinds⟩ := h.scope id.index _ hid
  exact ⟨_, (declare_eq_ok_iff ..).mpr ⟨s, hs, hbinds.get?_eq_none_iff.mpr hfree, rfl⟩⟩

/-- A declared name was not bound in its scope before, and now is. -/
theorem Holds.declare (h : t.Holds scopes) (hid : scopes[id.index]? = some bindings)
    (hu : t.declare id name entry complaint = .ok u) :
    name ∉ bindings.map Prod.fst ∧
      u.Holds (scopes.set id.index (bindings ++ [(name, entry)])) := by
  obtain ⟨s, hs, hget, -⟩ := (declare_eq_ok_iff ..).mp hu
  obtain ⟨bindings', hid', hparent, hbinds⟩ := h.of_scope hs
  obtain rfl : bindings = bindings' := Option.some.inj (hid.symm.trans hid')
  have hfree := hbinds.get?_eq_none_iff.mp hget
  refine ⟨hfree, by rw [size_declare hu, h.size_eq, List.length_set], fun i other hi => ?_⟩
  rw [scope_declare hs hu]
  by_cases hsame : i = id.index
  · subst hsame
    have hlt := (List.getElem?_eq_some_iff.mp hid).1
    obtain rfl : bindings ++ [(name, entry)] = other := by simpa [hlt] using hi
    exact ⟨_, if_pos rfl, hparent, hbinds.insert hfree entry⟩
  · have hne : (⟨i⟩ : ScopeId) ≠ id := fun heq => hsame (congrArg ScopeId.index heq)
    rw [if_neg hne]
    apply h.scope
    rwa [List.getElem?_set_ne (Ne.symm hsame)] at hi

/-! ### The nearest binding -/

theorem Holds.nearest_global_iff (h : t.Holds (globals :: scopes)) :
    t.Nearest name .global entry ↔ (name, entry) ∈ globals := by
  obtain ⟨s, hs, hparent, hbinds⟩ := h.scope 0 globals rfl
  have hs : t.scope .global = .ok s := hs
  simp [nearest_iff hs, hparent, hbinds.get?_eq_some_iff]

/-- Behind the bindings of a scope are the global ones. -/
theorem Holds.nearest_iff (h : t.Holds (globals :: scopes)) {i : Nat}
    (hi : scopes[i]? = some bindings) :
    t.Nearest name ⟨i + 1⟩ entry ↔
      (name, entry) ∈ bindings ∨ name ∉ bindings.map Prod.fst ∧ (name, entry) ∈ globals := by
  obtain ⟨s, hs, hparent, hbinds⟩ := h.scope (i + 1) bindings hi
  rw [SymbolTable.nearest_iff hs, hparent, if_neg (Nat.succ_ne_zero i), hbinds.get?_eq_some_iff,
    hbinds.get?_eq_none_iff]
  simp [h.nearest_global_iff]

end SymbolTable

/-! ### Tables of one level -/

/-- What the global scope of a table binds, and what the scopes in it bind. -/
structure Contents where
  globals : List Binding
  locals : List (List Binding)

namespace Contents

def scopes (c : Contents) : List (List Binding) :=
  c.globals :: c.locals

/-- The names of the global scope. -/
def names (c : Contents) : List String :=
  c.globals.map Prod.fst

/-- The name stands for a type globally. -/
def NamesType (c : Contents) (name : String) (ty : Ty) : Prop :=
  (name, Entry.type ty) ∈ c.globals

/-- The contents with one more type. -/
def addType (c : Contents) (name : String) (ty : Ty) : Contents :=
  { c with globals := c.globals ++ [(name, .type ty)] }

/-- The contents with one more procedure, which has the next scope. -/
def addProcedure (c : Contents) (name : String) (formals : List Formal)
    (bindings : List Binding) : Contents :=
  ⟨c.globals ++ [(name, .procedure ⟨⟨c.locals.length + 1⟩, formals⟩)], c.locals ++ [bindings]⟩

variable (c : Contents) (name : String) (ty : Ty) (formals : List Formal)
  (bindings : List Binding)

@[simp] theorem names_addType : (c.addType name ty).names = c.names ++ [name] := by
  simp [names, addType]

@[simp] theorem names_addProcedure :
    (c.addProcedure name formals bindings).names = c.names ++ [name] := by
  simp [names, addProcedure]

@[simp] theorem namesType_addType {other : String} {ty' : Ty} :
    (c.addType name ty).NamesType other ty' ↔
      c.NamesType other ty' ∨ other = name ∧ ty' = ty := by
  simp [NamesType, addType]

@[simp] theorem namesType_addProcedure {other : String} {ty' : Ty} :
    (c.addProcedure name formals bindings).NamesType other ty' ↔ c.NamesType other ty' := by
  simp [NamesType, addProcedure]

@[simp] theorem locals_addType : (c.addType name ty).locals = c.locals := rfl

@[simp] theorem locals_addProcedure :
    (c.addProcedure name formals bindings).locals = c.locals ++ [bindings] := rfl

end Contents

end Spl
