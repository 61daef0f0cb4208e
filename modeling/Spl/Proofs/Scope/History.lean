import Mathlib.Data.List.Forall2
import Mathlib.Logic.Relation
import Spl.Proofs.Scope.Regular

/-!
Histories of symbol tables. A table starts with its global scope, and from then
on scopes are made and names are declared in it, in any order and to any depth.
What a name means in a scope then follows from what was done: it is what was
declared first, in the nearest of the scopes that have the name.
-/

namespace Spl

namespace SymbolTable

variable {t u : SymbolTable} {id : ScopeId} {name : String} {entry : Entry}
  {complaint : Diagnostic}

theorem parent_declare (h : t.declare id name entry complaint = .ok u) (other : ScopeId) :
    (u.scope other).map Scope.parent = (t.scope other).map Scope.parent := by
  obtain ⟨s, hs, -⟩ := (declare_eq_ok_iff ..).mp h
  rw [scope_declare hs h]
  by_cases hother : other = id
  · simp [hother, hs, Except.map]
  · rw [if_neg hother]

/-- A declaration that is accepted changes one answer. -/
theorem get_declare (h : t.declare id name entry complaint = .ok u) (other : ScopeId)
    (name' : String) :
    u.get other name' =
      if other = id ∧ name' = name then .ok (some entry) else t.get other name' := by
  obtain ⟨s, hs, -⟩ := (declare_eq_ok_iff ..).mp h
  rw [get, get, scope_declare hs h]
  by_cases hother : other = id
  · subst hother
    by_cases hname : name' = name
    · simp [hname, Except.map]
    · simp [hname, hs, Except.map, Scope.get?_insert_of_ne s hname]
  · simp [hother]

end SymbolTable

/-- What can be done to a table. -/
inductive Change
  | nest (parent : ScopeId)
  | declare (scope : ScopeId) (name : String) (entry : Entry) (complaint : Diagnostic)

/-- The scope that a change is made in. -/
def Change.scope : Change → ScopeId
  | nest parent => parent
  | declare scope _ _ _ => scope

/-- A table, and how it came about: the scopes that were handed out, each with the
scope it was made in, and the declarations that were accepted, first ones first. -/
structure History where
  table : SymbolTable
  scopes : List (ScopeId × Option ScopeId)
  declared : List (ScopeId × String × Entry)

namespace History

/-- A new table. Its global scope is known from the start. -/
def start : History :=
  ⟨.empty, [(.global, none)], []⟩

/-- A change to the table of a history. The table is what the change has left, and a
declaration counts if it was accepted. -/
def perform (h : History) : Change → History
  | .nest parent =>
    ⟨(h.table.nest parent).1, h.scopes ++ [((h.table.nest parent).2, some parent)], h.declared⟩
  | .declare scope name entry complaint =>
    let o := h.table.enter scope name entry complaint
    ⟨o.after, h.scopes, h.declared ++ if o.result.isOk then [(scope, name, entry)] else []⟩

/-- The scopes that can be used: the global one, and all that were handed out. -/
def handed (h : History) : List ScopeId :=
  h.scopes.map Prod.fst

/-- One more change, in a scope that can be used. -/
def Next (h h' : History) : Prop :=
  ∃ change : Change, change.scope ∈ h.handed ∧ h' = h.perform change

/-- Any number of changes later. -/
abbrev Later : History → History → Prop :=
  Relation.ReflTransGen Next

/-- The entry that was first accepted for a name in a scope. -/
def first? (h : History) (id : ScopeId) (name : String) : Option Entry :=
  h.declared.findSome? fun d => if d.1 = id ∧ d.2.1 = name then some d.2.2 else none

/-- A scope lies in these scopes, from the inside out. -/
inductive Lies (h : History) : ScopeId → List ScopeId → Prop
  | outermost {id : ScopeId} (hid : (id, none) ∈ h.scopes) : Lies h id []
  | inside {id parent : ScopeId} {outer : List ScopeId} (hid : (id, some parent) ∈ h.scopes)
      (hparent : Lies h parent outer) : Lies h id (parent :: outer)

/-! ### Tables agree with their histories -/

/-- The table of a history holds what the history says. -/
structure Sound (h : History) : Prop where
  handed_iff : ∀ id, id ∈ h.handed ↔ id.index < h.table.size
  scope : ∀ id parent, (id, parent) ∈ h.scopes → ∃ s, h.table.scope id = .ok s ∧
    s.parent = parent ∧ ∀ name, s.get? name = h.first? id name
  outermost : ∀ id parent, (id, parent) ∈ h.scopes → (id = .global ↔ parent = none)
  inside : ∀ id parent, (id, some parent) ∈ h.scopes → parent.index < id.index
  declared : ∀ d ∈ h.declared, d.1 ∈ h.handed

variable {h h' : History} {id : ScopeId} {outer : List ScopeId} {name : String} {entry : Entry}
  {complaint : Diagnostic}

theorem first?_append (table : SymbolTable) (scopes : List (ScopeId × Option ScopeId))
    (d : ScopeId × String × Entry) :
    first? ⟨table, scopes, h.declared ++ [d]⟩ id name =
      (h.first? id name).or (if d.1 = id ∧ d.2.1 = name then some d.2.2 else none) := by
  simp [first?, List.findSome?_append]

theorem Sound.first?_of_not_handed (hh : h.Sound) (hid : id ∉ h.handed) :
    h.first? id name = none := by
  rw [first?, List.findSome?_eq_none_iff]
  intro d hd
  rw [if_neg]
  rintro ⟨rfl, -⟩
  exact hid (hh.declared d hd)

theorem Sound.exists_scope (hh : h.Sound) (hid : id ∈ h.handed) :
    ∃ s parent, (id, parent) ∈ h.scopes ∧ h.table.scope id = .ok s ∧ s.parent = parent ∧
      ∀ name, s.get? name = h.first? id name := by
  obtain ⟨⟨_, parent⟩, hmem, rfl⟩ := List.mem_map.mp hid
  obtain ⟨s, hs, hparent, hget⟩ := hh.scope _ _ hmem
  exact ⟨s, parent, hmem, hs, hparent, hget⟩

theorem sound_start : start.Sound where
  handed_iff id := by
    obtain ⟨index⟩ := id
    simp [handed, start, SymbolTable.empty, SymbolTable.size, ScopeId.global]
  scope id parent hid := by
    obtain ⟨rfl, rfl⟩ : id = .global ∧ parent = none := by simpa [start] using hid
    exact ⟨⟨[], none⟩, rfl, rfl, fun name => rfl⟩
  outermost id parent hid := by
    obtain ⟨rfl, rfl⟩ : id = .global ∧ parent = none := by simpa [start] using hid
    simp
  inside id parent hid := by simp [start] at hid
  declared d hd := by simp [start] at hd

/-- A new scope is known to the table only from now on, so nothing was declared in it. -/
theorem Sound.nest (hh : h.Sound) {parent : ScopeId} (hparent : parent ∈ h.handed) :
    (h.perform (.nest parent)).Sound := by
  have hnew : (h.table.nest parent).2 = ⟨h.table.size⟩ := rfl
  have hlt := (hh.handed_iff parent).mp hparent
  have hhanded : (h.perform (.nest parent)).handed = h.handed ++ [⟨h.table.size⟩] := by
    simp [perform, handed, hnew]
  refine ⟨fun id => ?_, fun id outer hid => ?_, fun id outer hid => ?_, fun id outer hid => ?_,
    fun d hd => ?_⟩
  · have hsize : (h.perform (.nest parent)).table.size = h.table.size + 1 :=
      SymbolTable.size_nest ..
    obtain ⟨index⟩ := id
    rw [hhanded, hsize, List.mem_append, List.mem_singleton, hh.handed_iff, ScopeId.mk.injEq]
    exact Nat.lt_succ_iff_lt_or_eq.symm
  · simp only [perform, hnew, List.mem_append, List.mem_singleton, Prod.mk.injEq] at hid
    rcases hid with hid | ⟨rfl, rfl⟩
    · obtain ⟨s, hs, hrest⟩ := hh.scope id outer hid
      refine ⟨s, ?_, hrest⟩
      have hold : id.index < h.table.size := SymbolTable.index_lt_of_scope hs
      rw [perform, SymbolTable.scope_nest, if_neg (by omega), hs]
    · refine ⟨⟨[], some parent⟩, SymbolTable.scope_nest_self .., rfl, fun name => ?_⟩
      have hfree : (⟨h.table.size⟩ : ScopeId) ∉ h.handed := by
        rw [hh.handed_iff]
        exact Nat.lt_irrefl _
      exact (hh.first?_of_not_handed hfree).symm
  · simp only [perform, hnew, List.mem_append, List.mem_singleton, Prod.mk.injEq] at hid
    rcases hid with hid | ⟨rfl, rfl⟩
    · exact hh.outermost id outer hid
    · have hpos : 0 < h.table.size := Nat.zero_lt_of_lt hlt
      simp [ScopeId.global, Nat.ne_of_gt hpos]
  · simp only [perform, hnew, List.mem_append, List.mem_singleton, Prod.mk.injEq,
      Option.some.injEq] at hid
    rcases hid with hid | ⟨rfl, rfl⟩
    · exact hh.inside id outer hid
    · exact hlt
  · rw [hhanded]
    exact List.mem_append_left _ (hh.declared d hd)

/-! ### Declaring -/

/-- The scopes of a history answer for a name what was declared first. -/
theorem Sound.get_eq (hh : h.Sound) (hid : id ∈ h.handed) (name : String) :
    h.table.get id name = .ok (h.first? id name) := by
  obtain ⟨s, _, -, hs, -, hget⟩ := hh.exists_scope hid
  rw [SymbolTable.get, hs, ← hget name]
  rfl

theorem Sound.declare_of_none (hh : h.Sound) (hid : id ∈ h.handed)
    (hfree : h.first? id name = none) (entry : Entry) (complaint : Diagnostic) :
    ∃ u, h.table.declare id name entry complaint = .ok u := by
  obtain ⟨s, _, -, hs, -, hget⟩ := hh.exists_scope hid
  exact ⟨_, SymbolTable.declare_of_free hs ((hget name).trans hfree)⟩

theorem Sound.declare_of_some (hh : h.Sound) (hid : id ∈ h.handed) {taken : Entry}
    (htaken : h.first? id name = some taken) (entry : Entry) (complaint : Diagnostic) :
    h.table.declare id name entry complaint = .error (.diagnostic complaint) := by
  obtain ⟨s, _, -, hs, -, hget⟩ := hh.exists_scope hid
  exact SymbolTable.declare_of_taken hs ((hget name).trans htaken)

theorem perform_of_declare {u : SymbolTable}
    (hu : h.table.declare id name entry complaint = .ok u) :
    h.perform (.declare id name entry complaint) =
      ⟨u, h.scopes, h.declared ++ [(id, name, entry)]⟩ := by
  rw [perform, SymbolTable.enter_of_declare hu]
  rfl

/-- What is refused makes no difference. -/
theorem perform_of_error {halt : Halt}
    (hrefused : (h.table.enter id name entry complaint).result = .error halt) :
    h.perform (.declare id name entry complaint) = h := by
  rw [perform, SymbolTable.after_enter_of_error hrefused, hrefused]
  exact congrArg (mk h.table h.scopes) (List.append_nil _)

theorem Sound.declare (hh : h.Sound) (hid : id ∈ h.handed) (name : String) (entry : Entry)
    (complaint : Diagnostic) : (h.perform (.declare id name entry complaint)).Sound := by
  cases hfirst : h.first? id name with
  | some taken =>
      have hrefused := SymbolTable.enter_of_declare_error
        (hh.declare_of_some hid hfirst entry complaint)
      rwa [perform_of_error (congrArg Outcome.result hrefused)]
  | none =>
      obtain ⟨u, hu⟩ := hh.declare_of_none hid hfirst entry complaint
      rw [perform_of_declare hu]
      refine ⟨fun id => ?_, fun other parent hother => ?_, hh.outermost, hh.inside, fun d hd => ?_⟩
      · rw [SymbolTable.size_declare hu]
        exact hh.handed_iff id
      · obtain ⟨s, hs, hparent, hget⟩ := hh.scope other parent hother
        obtain ⟨s₀, hs₀, -⟩ := (SymbolTable.declare_eq_ok_iff ..).mp hu
        simp only [first?_append]
        rw [SymbolTable.scope_declare hs₀ hu]
        by_cases hsame : other = id
        · subst hsame
          obtain rfl : s₀ = s := Except.ok.inj (hs₀.symm.trans hs)
          refine ⟨_, if_pos rfl, hparent, fun name' => ?_⟩
          by_cases hname : name' = name
          · simp [hname, hfirst]
          · simp [Scope.get?_insert_of_ne s₀ hname, hget, Ne.symm hname]
        · refine ⟨s, by rw [if_neg hsame, hs], hparent, fun name' => ?_⟩
          simp [hget, Ne.symm hsame]
      · rw [List.mem_append, List.mem_singleton] at hd
        rcases hd with hd | rfl
        · exact hh.declared d hd
        · exact hid

theorem Sound.next (hh : h.Sound) (hnext : h.Next h') : h'.Sound := by
  obtain ⟨change, hscope, rfl⟩ := hnext
  cases change with
  | nest parent => exact hh.nest hscope
  | declare id name entry complaint => exact hh.declare hscope name entry complaint

theorem Sound.later (hh : h.Sound) (hlater : h.Later h') : h'.Sound := by
  induction hlater with
  | refl => exact hh
  | tail _ hnext ih => exact ih.next hnext

/-! ### What is kept -/

theorem Next.scopes_subset (hnext : h.Next h') : h.scopes ⊆ h'.scopes := by
  obtain ⟨change, -, rfl⟩ := hnext
  cases change with
  | nest parent => exact List.subset_append_left _ _
  | declare id name entry complaint =>
      exact List.Subset.refl _

theorem Next.first?_eq (hnext : h.Next h') (hfirst : h.first? id name = some entry) :
    h'.first? id name = some entry := by
  obtain ⟨change, -, rfl⟩ := hnext
  cases change with
  | nest parent => exact hfirst
  | declare scope other other' complaint =>
      rw [first?, perform, List.findSome?_append, ← first?, hfirst, Option.some_or]

theorem Later.scopes_subset (hlater : h.Later h') : h.scopes ⊆ h'.scopes := by
  induction hlater with
  | refl => exact List.Subset.refl _
  | tail _ hnext ih => exact List.Subset.trans ih hnext.scopes_subset

theorem Later.first?_eq (hlater : h.Later h') (hfirst : h.first? id name = some entry) :
    h'.first? id name = some entry := by
  induction hlater with
  | refl => exact hfirst
  | tail _ hnext ih => exact hnext.first?_eq ih

/-! ### The way outwards -/

theorem Sound.parent_unique (hh : h.Sound) {parent parent' : Option ScopeId}
    (hid : (id, parent) ∈ h.scopes) (hid' : (id, parent') ∈ h.scopes) : parent = parent' := by
  obtain ⟨s, hs, rfl, -⟩ := hh.scope id parent hid
  obtain ⟨s', hs', rfl, -⟩ := hh.scope id parent' hid'
  rw [Except.ok.inj (hs.symm.trans hs')]

theorem Sound.parent_handed (hh : h.Sound) {parent : ScopeId}
    (hid : (id, some parent) ∈ h.scopes) : parent ∈ h.handed := by
  have hlt := hh.inside id parent hid
  have hsize := (hh.handed_iff id).mp (List.mem_map_of_mem hid)
  rw [hh.handed_iff]
  omega

theorem Sound.lies_unique (hh : h.Sound) {outer' : List ScopeId} (hlies : h.Lies id outer)
    (hlies' : h.Lies id outer') : outer = outer' := by
  induction hlies generalizing outer' with
  | outermost hid =>
      cases hlies' with
      | outermost => rfl
      | inside hid' => cases hh.parent_unique hid hid'
  | inside hid _ ih =>
      cases hlies' with
      | outermost hid' => cases hh.parent_unique hid hid'
      | inside hid' hparent' =>
          cases hh.parent_unique hid hid'
          rw [ih hparent']

/-- Every scope lies in scopes of smaller indices, which end with the global one. -/
theorem Sound.exists_lies (hh : h.Sound) (hid : id ∈ h.handed) : ∃ outer, h.Lies id outer := by
  induction hindex : id.index using Nat.strongRecOn generalizing id with
  | ind index ih =>
      obtain ⟨s, parent, hmem, hs, -⟩ := hh.exists_scope hid
      cases parent with
      | none => exact ⟨[], .outermost hmem⟩
      | some parent =>
          have hlt := hh.inside _ _ hmem
          obtain ⟨outer, houter⟩ := ih _ (hindex ▸ hlt) (hh.parent_handed hmem) rfl
          exact ⟨parent :: outer, .inside hmem houter⟩

/-- The table finds the way outwards in as many steps as it has scopes. -/
theorem Sound.chainWithin_eq (hh : h.Sound) (hlies : h.Lies id outer)
    {n : Nat} (hn : id.index < n) :
    ∃ scopes, h.table.chainWithin n id = .ok scopes ∧
      List.Forall₂ (fun id s => h.table.scope id = .ok s) (id :: outer) scopes := by
  induction hlies generalizing n with
  | outermost hid =>
      obtain ⟨n, rfl⟩ := Nat.exists_eq_add_one_of_ne_zero (Nat.ne_zero_of_lt hn)
      obtain ⟨s, hs, hparent, -⟩ := hh.scope _ _ hid
      refine ⟨[s], ?_, .cons hs .nil⟩
      simp [SymbolTable.chainWithin, hs, hparent, bind, Except.bind, pure, Except.pure]
  | inside hid _ ih =>
      obtain ⟨n, rfl⟩ := Nat.exists_eq_add_one_of_ne_zero (Nat.ne_zero_of_lt hn)
      obtain ⟨s, hs, hparent, -⟩ := hh.scope _ _ hid
      have hlt := hh.inside _ _ hid
      obtain ⟨scopes, hchain, hscopes⟩ := ih (n := n) (by omega)
      refine ⟨s :: scopes, ?_, .cons hs hscopes⟩
      simp [SymbolTable.chainWithin, hs, hparent, hchain, bind, Except.bind, pure, Except.pure]

theorem Sound.chain_eq (hh : h.Sound) (hid : id ∈ h.handed)
    (hlies : h.Lies id outer) :
    ∃ scopes, h.table.chain id = .ok scopes ∧
      List.Forall₂ (fun id s => h.table.scope id = .ok s) (id :: outer) scopes :=
  hh.chainWithin_eq hlies ((hh.handed_iff id).mp hid)

theorem Lies.forall_handed (hlies : h.Lies id outer) :
    ∀ other ∈ id :: outer, other ∈ h.handed := by
  induction hlies with
  | outermost hid => exact List.forall_mem_singleton.mpr (List.mem_map_of_mem hid)
  | inside hid _ ih => exact List.forall_mem_cons.mpr ⟨List.mem_map_of_mem hid, ih⟩

theorem Sound.level_eq (hh : h.Sound) (hid : id ∈ h.handed) (hlies : h.Lies id outer) :
    h.table.level id = .ok outer.length := by
  obtain ⟨scopes, hchain, hscopes⟩ := hh.chain_eq hid hlies
  rw [SymbolTable.level, hchain]
  simp [Except.map, ← hscopes.length_eq]

/-- The first scope with an entry is the first one in which the name was declared. -/
theorem Sound.findSome?_eq (hh : h.Sound) {ids : List ScopeId} {scopes : List Scope}
    (hscopes : List.Forall₂ (fun id s => h.table.scope id = .ok s) ids scopes)
    (hhanded : ∀ id ∈ ids, id ∈ h.handed) (name : String) :
    scopes.findSome? (·.get? name) = ids.findSome? (h.first? · name) := by
  induction hscopes with
  | nil => rfl
  | @cons id s ids scopes hs _ ih =>
      obtain ⟨hfirst, hrest⟩ := List.forall_mem_cons.mp hhanded
      obtain ⟨s', _, -, hs', -, hget⟩ := hh.exists_scope hfirst
      obtain rfl : s = s' := Except.ok.inj (hs.symm.trans hs')
      rw [List.findSome?_cons, List.findSome?_cons, hget name, ih hrest]

theorem Sound.lookup_eq (hh : h.Sound) (hid : id ∈ h.handed) (hlies : h.Lies id outer)
    (name : String) :
    h.table.lookup id name = .ok ((id :: outer).findSome? (h.first? · name)) := by
  obtain ⟨scopes, hchain, hscopes⟩ := hh.chain_eq hid hlies
  rw [SymbolTable.lookup, hchain]
  exact congrArg Except.ok (hh.findSome?_eq hscopes hlies.forall_handed name)

/-! ### Trees of scopes -/

/-- A scope of the table was handed out, and it lies in the scope that it was made in. -/
theorem Sound.mem_scopes (hh : h.Sound) {s : Scope} (hs : h.table.scope id = .ok s) :
    (id, s.parent) ∈ h.scopes := by
  have hid : id ∈ h.handed := (hh.handed_iff id).mpr (SymbolTable.index_lt_of_scope hs)
  obtain ⟨s', parent, hmem, hs', rfl, -⟩ := hh.exists_scope hid
  rwa [Except.ok.inj (hs.symm.trans hs')]

/-- Only the global scope lies in no other, and all others lie in earlier ones. -/
theorem Sound.parent_cases (hh : h.Sound) {s : Scope} (hs : h.table.scope id = .ok s) :
    (id = .global ∧ s.parent = none) ∨
      id ≠ .global ∧ ∃ parent ∈ h.handed, s.parent = some parent ∧ parent.index < id.index := by
  have hmem := hh.mem_scopes hs
  have houtermost := hh.outermost id s.parent hmem
  cases hparent : s.parent with
  | none => exact .inl ⟨houtermost.mpr hparent, rfl⟩
  | some parent =>
      rw [hparent] at hmem
      refine .inr ⟨fun hid => ?_, parent, hh.parent_handed hmem, rfl, hh.inside id parent hmem⟩
      simp [hparent] at houtermost
      exact houtermost hid

/-- Scopes stay where they are. -/
theorem Lies.mono (hlies : h.Lies id outer) (hscopes : h.scopes ⊆ h'.scopes) :
    h'.Lies id outer := by
  induction hlies with
  | outermost hid => exact .outermost (hscopes hid)
  | inside hid _ ih => exact .inside (hscopes hid) ih

/-- A declaration is found from the scopes that lie in its own only. -/
theorem Sound.lookup_of_declare (hh : h.Sound) (hid : id ∈ h.handed) {u : SymbolTable}
    (hu : h.table.declare id name entry complaint = .ok u) {other : ScopeId}
    (hother : other ∈ h.handed) (hlies : h.Lies other outer) (hapart : id ∉ other :: outer)
    (name' : String) : u.lookup other name' = h.table.lookup other name' := by
  have hafter := hh.declare hid name entry complaint
  rw [perform_of_declare hu] at hafter
  rw [hafter.lookup_eq hother (hlies.mono (List.Subset.refl _)), hh.lookup_eq hother hlies]
  have hsame : ∀ scope ∈ other :: outer,
      first? ⟨u, h.scopes, h.declared ++ [(id, name, entry)]⟩ scope name' =
        h.first? scope name' := by
    intro scope hscope
    have hne : id ≠ scope := fun heq => hapart (heq ▸ hscope)
    simp [first?_append, hne]
  rw [← List.head?_filterMap, List.filterMap_congr hsame, List.head?_filterMap]

/-- A table that was made by any changes is a tree of scopes in which every name is
written once. Its scopes are those that were handed out, and each but the global
one lies in an earlier one, so that the way outwards ends. A name means what was
first accepted for it in the nearest scope on this way that accepted anything for
it. A declaration is accepted exactly if its own scope does not have the name;
else it gets its own complaint as the answer and leaves the table as it is. An
accepted one changes the answers for this name in this scope, and nothing that is
found from scopes that do not lie in it. No later change takes anything back. -/
theorem tree_of_changes (hh : start.Later h) :
    (∀ id ∈ h.handed, ∃ s, h.table.scope id = .ok s) ∧
    (∀ id s, h.table.scope id = .ok s → (id, s.parent) ∈ h.scopes ∧
      ((id = .global ∧ s.parent = none) ∨
        id ≠ .global ∧ ∃ parent ∈ h.handed, s.parent = some parent ∧ parent.index < id.index)) ∧
    (∀ id ∈ h.handed, ∃ outer, h.Lies id outer ∧ (∀ other, h.Lies id other → other = outer) ∧
      h.table.level id = .ok outer.length ∧ ∀ name,
        h.table.get id name = .ok (h.first? id name) ∧
        h.table.lookup id name = .ok ((id :: outer).findSome? (h.first? · name))) ∧
    (∀ id ∈ h.handed, ∀ name entry complaint,
      let change := Change.declare id name entry complaint
      let answer := h.table.enter id name entry complaint
      let u := answer.after
      (answer.result = .ok () ↔ h.table.get id name = .ok none) ∧
      (∀ halt, answer.result = .error halt →
        halt = .diagnostic complaint ∧ u = h.table ∧ h.perform change = h) ∧
      (answer.result = .ok () → (h.perform change).table = u ∧ u.size = h.table.size ∧
        (∀ other, (u.scope other).map Scope.parent = (h.table.scope other).map Scope.parent) ∧
        (∀ other name', u.get other name' =
          if other = id ∧ name' = name then .ok (some entry) else h.table.get other name') ∧
        ∀ other outer, h.Lies other outer → id ∉ other :: outer → ∀ name',
          u.lookup other name' = h.table.lookup other name')) ∧
    ∀ h', h.Later h' → ∀ id name entry, h.table.get id name = .ok (some entry) →
      h'.table.get id name = .ok (some entry) := by
  have hsound : h.Sound := sound_start.later hh
  refine ⟨fun id hid => ?_, fun id s hs => ⟨hsound.mem_scopes hs, hsound.parent_cases hs⟩,
    fun id hid => ?_, fun id hid name entry complaint => ?_,
    fun h' hlater id name entry hget => ?_⟩
  · exact SymbolTable.exists_scope ((hsound.handed_iff id).mp hid)
  · obtain ⟨outer, hlies⟩ := hsound.exists_lies hid
    exact ⟨outer, hlies, fun other hother => hsound.lies_unique hother hlies,
      hsound.level_eq hid hlies,
      fun name => ⟨hsound.get_eq hid name, hsound.lookup_eq hid hlies name⟩⟩
  · rw [hsound.get_eq hid, Except.ok.injEq]
    cases hfirst : h.first? id name with
    | none =>
        obtain ⟨u, hu⟩ := hsound.declare_of_none hid hfirst entry complaint
        rw [SymbolTable.enter_of_declare hu]
        refine ⟨by simp, nofun, fun _ => ⟨congrArg table (perform_of_declare hu),
          SymbolTable.size_declare hu, SymbolTable.parent_declare hu, SymbolTable.get_declare hu,
          ?_⟩⟩
        intro other outer hlies hapart name'
        exact hsound.lookup_of_declare hid hu (hlies.forall_handed other List.mem_cons_self) hlies
          hapart name'
    | some taken =>
        have hrefused := SymbolTable.enter_of_declare_error
          (hsound.declare_of_some hid hfirst entry complaint)
        have hsame := perform_of_error (congrArg Outcome.result hrefused)
        rw [hrefused]
        refine ⟨by simp, ?_, nofun⟩
        rintro _ ⟨⟩
        exact ⟨rfl, rfl, hsame⟩
  · have hid : id ∈ h.handed := by
      obtain ⟨s, hs, -⟩ := SymbolTable.get_eq_ok_some_iff.mp hget
      exact (hsound.handed_iff id).mpr (SymbolTable.index_lt_of_scope hs)
    have hid' : id ∈ h'.handed := List.map_subset Prod.fst hlater.scopes_subset hid
    rw [hsound.get_eq hid, Except.ok.injEq] at hget
    rw [(hsound.later hlater).get_eq hid', hlater.first?_eq hget]

/-- A name of the global scope that is declared again in a scope of it, where a third
declaration is refused; what lies two levels deep finds the second one. -/
theorem nearest_of_two_declarations :
    let complaint : Diagnostic := ⟨.redeclarationAsVariable "x", .null⟩
    let nested := ((start.perform (.declare .global "x" (.type .int) complaint)).perform
      (.nest .global)).perform (.nest ⟨1⟩)
    let before := nested.perform (.declare ⟨1⟩ "x" (.var .int false) complaint)
    let h := before.perform (.declare ⟨1⟩ "x" (.type .bool) complaint)
    start.Later h ∧ h.Lies ⟨2⟩ [⟨1⟩, .global] ∧
      before.table.enter ⟨1⟩ "x" (.type .bool) complaint =
        ⟨before.table, .error (.diagnostic complaint)⟩ ∧
      h = before ∧
      h.table.level ⟨2⟩ = .ok 2 ∧ h.table.lookup ⟨2⟩ "x" = .ok (some (.var .int false)) := by
  intro complaint nested before h
  have step : ∀ (h : History) (change : Change), start.Later h → change.scope ∈ h.handed →
      start.Later (h.perform change) := fun _ change hh hscope => hh.tail ⟨change, hscope, rfl⟩
  have hnested : start.Later nested :=
    step _ _ (step _ _ (step _ _ .refl (by decide)) (by decide)) (by decide)
  have hbefore : start.Later before := step _ _ hnested (by decide)
  have hh : start.Later h := step _ _ hbefore (by decide)
  have hlies : h.Lies ⟨2⟩ [⟨1⟩, .global] :=
    .inside (by decide) (.inside (by decide) (.outermost (by decide)))
  obtain ⟨-, -, -, hanswer, -⟩ := tree_of_changes hbefore
  obtain ⟨hfree, hrefused, -⟩ := hanswer ⟨1⟩ (by decide) "x" (.type .bool) complaint
  obtain ⟨outer, -, hunique, hlevel, hanswers⟩ := (tree_of_changes hh).2.2.1 ⟨2⟩ (by decide)
  obtain rfl := hunique _ hlies
  generalize before.table.enter ⟨1⟩ "x" (.type .bool) complaint = o at hfree hrefused ⊢
  obtain ⟨after, result⟩ := o
  cases result with
  | ok _ => cases hfree.mp rfl
  | error halt =>
      obtain ⟨rfl, rfl, hsame⟩ := hrefused halt rfl
      exact ⟨hh, hlies, rfl, hsame, hlevel, (hanswers "x").2⟩

end History

end Spl
