import Spl.Proofs.Typing.Naturality

/-!
Tables in translation. What one table binds, the other binds in translation,
scope by scope; only the global scope of the second table may bind more. The
operations of the builder keep this, so building the table of a program in
translation follows building the table of the program.
-/

namespace Spl

open Outcome

/-- Different names, array types and scopes stay different, and the global scope
stays the global one. -/
structure Translation.Faithful (m : Translation) : Prop where
  name : Function.Injective m.name
  identity : Function.Injective m.identity
  scope : Function.Injective m.scope
  global : m.scope .global = .global

theorem Scope.Binds.of_perm {s : Scope} {bindings bindings' : List Binding}
    (h : s.Binds bindings) (hperm : bindings.Perm bindings') : s.Binds bindings' :=
  ⟨h.perm.trans hperm, (hperm.map Prod.fst).nodup_iff.mp h.nodup⟩

namespace SymbolTable

/-! ### Tables of one level -/

/-- All scopes but the global one lie in the global one. -/
def Flat (t : SymbolTable) : Prop :=
  ∃ globals locals, t.Holds (globals :: locals)

section Flat

variable {t u : SymbolTable} {id : ScopeId} {s : Scope} {name : String} {entry : Entry}
  {complaint : Diagnostic}

theorem Flat.size_pos (h : t.Flat) : 0 < t.size := by
  obtain ⟨globals, locals, h⟩ := h
  rw [h.size_eq]
  exact Nat.succ_pos _

theorem Flat.exists_global (h : t.Flat) : ∃ s, t.scope .global = .ok s :=
  exists_scope h.size_pos

theorem Flat.binds (h : t.Flat) (hs : t.scope id = .ok s) : s.Binds s.entries := by
  obtain ⟨globals, locals, h⟩ := h
  obtain ⟨bindings, -, -, hbinds⟩ := h.of_scope hs
  exact ⟨.refl _, (hbinds.perm.map Prod.fst).nodup_iff.mpr hbinds.nodup⟩

theorem Flat.nest (h : t.Flat) : (t.nest .global).1.Flat := by
  obtain ⟨globals, locals, h⟩ := h
  exact ⟨globals, _, h.nest⟩

theorem Flat.declare (h : t.Flat) (hu : t.declare id name entry complaint = .ok u) : u.Flat := by
  obtain ⟨globals, locals, h⟩ := h
  obtain ⟨s, hs, -⟩ := (declare_eq_ok_iff ..).mp hu
  obtain ⟨bindings, hid, -⟩ := h.of_scope hs
  have hholds := (h.declare hid hu).2
  cases hindex : id.index with
  | zero =>
      rw [hindex] at hholds
      exact ⟨_, _, hholds⟩
  | succ i =>
      rw [hindex] at hholds
      exact ⟨_, _, hholds⟩

theorem scope_eq_error {fault : Fault} (h : t.scope id = .error fault) :
    fault = .unknownScope ∧ t.size ≤ id.index := by
  rw [scope] at h
  split at h
  · cases h
  · next hnone =>
      cases h
      exact ⟨rfl, Array.getElem?_eq_none_iff.mp hnone⟩

theorem scope_of_size_le (h : t.size ≤ id.index) : t.scope id = .error .unknownScope := by
  have hnone : t.scopes[id.index]? = none := Array.getElem?_eq_none_iff.mpr h
  rw [scope, hnone]

theorem Flat.exists_chain (h : t.Flat) (hs : t.scope id = .ok s) :
    ∃ scopes, t.chain id = .ok scopes := by
  obtain ⟨globals, locals, h⟩ := h
  exact SymbolTable.exists_chain h.grounded (index_lt_of_scope hs)

/-- The scopes around a scope that is not there cannot be found. -/
theorem Flat.chain_of_size_le (h : t.Flat) (hid : t.size ≤ id.index) :
    t.chain id = .error .unknownScope := by
  obtain ⟨n, hn⟩ := Nat.exists_eq_add_one.mpr h.size_pos
  rw [chain, show t.scopes.size = n + 1 from hn, chainWithin, scope_of_size_le hid]
  rfl

/-- A name means what its own scope binds it to, or else what the global one does. -/
theorem Flat.lookup_eq (h : t.Flat) (hs : t.scope id = .ok s) {g : Scope}
    (hg : t.scope .global = .ok g) (name : String) :
    t.lookup id name = .ok ((s.get? name).or (if id = .global then none else g.get? name)) := by
  obtain ⟨globals, locals, hholds⟩ := h
  obtain ⟨found, hlookup, hfound⟩ :=
    lookup_of_grounded hholds.grounded (index_lt_of_scope hs) name
  rw [hlookup]
  refine congrArg Except.ok (Option.ext fun e => ?_)
  rw [hfound, nearest_iff hs, hholds.parent hs]
  by_cases hid : id = .global
  · simp [hid]
  · have hglobal : t.Nearest name .global e ↔ g.get? name = some e := by
      rw [nearest_iff hg, hholds.parent hg]
      simp
    cases s.get? name <;> simp [hid, hglobal]

end Flat

/-! ### Tables in translation -/

/-- The second table binds in each scope in translation what the first one
binds, and `extra` besides in the global scope. Scopes that are yet to be made
correspond too. -/
structure Translated (m : Translation) (extra : List Binding) (t t' : SymbolTable) : Prop where
  flat : t.Flat
  flat' : t'.Flat
  scope : ∀ id s, t.scope id = .ok s → ∃ s', t'.scope (m.scope id) = .ok s' ∧
    s'.Binds (s.entries.map m.binding ++ if id = .global then extra else [])
  later : ∀ k, m.scope ⟨t.size + k⟩ = ⟨t'.size + k⟩

variable {m : Translation} {strict : Prop} {extra : List Binding} {t t' u u' : SymbolTable}

/-- Contents in translation are held by tables in translation. -/
theorem Holds.translated {c c' : Contents} (h : t.Holds c.scopes) (h' : t'.Holds c'.scopes)
    (hglobal : m.scope .global = .global)
    (hglobals : c'.globals.Perm (c.globals.map m.binding ++ extra))
    (hlocals : ∀ i bindings, c.locals[i]? = some bindings →
      ∃ i', m.scope ⟨i + 1⟩ = ⟨i' + 1⟩ ∧ c'.locals[i']? = some (bindings.map m.binding))
    (hlater : ∀ k, m.scope ⟨c.locals.length + 1 + k⟩ = ⟨c'.locals.length + 1 + k⟩) :
    t.Translated m extra t' := by
  refine ⟨⟨_, _, h⟩, ⟨_, _, h'⟩, fun id s hs => ?_, fun k => ?_⟩
  · obtain ⟨bindings, hid, -, hbinds⟩ := h.of_scope hs
    have hentries := hbinds.perm.map m.binding
    obtain ⟨index⟩ := id
    cases index with
    | zero =>
        obtain rfl := Option.some.inj hid
        obtain ⟨s', hs', -, hbinds'⟩ := h'.scope 0 c'.globals rfl
        rw [show (⟨0⟩ : ScopeId) = .global from rfl, hglobal, if_pos rfl]
        exact ⟨s', hs', hbinds'.of_perm (hglobals.trans (hentries.symm.append_right extra))⟩
    | succ i =>
        obtain ⟨i', hi', hbindings⟩ := hlocals i bindings hid
        obtain ⟨s', hs', -, hbinds'⟩ := h'.scope (i' + 1) _ hbindings
        have hlocal : (⟨i + 1⟩ : ScopeId) ≠ .global := fun heq => nomatch congrArg ScopeId.index heq
        rw [hi', if_neg hlocal, List.append_nil]
        exact ⟨s', hs', hbinds'.of_perm hentries.symm⟩
  · rw [h.size_eq, h'.size_eq]
    exact hlater k

theorem found_of_binds (hm : m.Faithful) {s s' : Scope} {more : List Binding}
    (hs : s.Binds s.entries) (hs' : s'.Binds (s.entries.map m.binding ++ more)) {name : String}
    (hmore : strict → m.name name ∉ more.map Prod.fst) :
    Found (Entry.translate m) strict (s.get? name) (s'.get? (m.name name)) := by
  cases hget : s.get? name with
  | some entry =>
      have hmem : (name, entry) ∈ s.entries := hs.get?_eq_some_iff.mp hget
      have hget' : s'.get? (m.name name) = some (entry.translate m) :=
        hs'.get?_eq_some_iff.mpr (List.mem_append_left _ (List.mem_map_of_mem hmem))
      rw [hget']
      exact .some entry
  | none =>
      refine .none fun hstrict => hs'.get?_eq_none_iff.mpr ?_
      have hnot := hs.get?_eq_none_iff.mp hget
      rw [List.map_append, List.mem_append, not_or]
      refine ⟨fun hmem => hnot ?_, hmore hstrict⟩
      obtain ⟨_, hbinding, heq⟩ := List.mem_map.mp hmem
      obtain ⟨b, hb, rfl⟩ := List.mem_map.mp hbinding
      exact List.mem_map.mpr ⟨b, hb, hm.name heq⟩

namespace Translated

theorem exists_global (h : Translated m extra t t') (hm : m.Faithful) :
    ∃ g g', t.scope .global = .ok g ∧ t'.scope .global = .ok g' ∧
      g'.Binds (g.entries.map m.binding ++ extra) := by
  obtain ⟨g, hg⟩ := h.flat.exists_global
  obtain ⟨g', hg', hbinds⟩ := h.scope .global g hg
  rw [hm.global] at hg'
  exact ⟨g, g', hg, hg', by simpa using hbinds⟩

theorem size_le (h : Translated m extra t t') {id : ScopeId} (hid : t.size ≤ id.index) :
    t'.size ≤ (m.scope id).index := by
  obtain ⟨k, hk⟩ := Nat.exists_eq_add_of_le hid
  have hlater := h.later k
  rw [← hk] at hlater
  rw [show id = ⟨id.index⟩ from rfl, hlater]
  exact Nat.le_add_right _ _

/-- Names mean in translation in the second table what they mean in the first. -/
theorem follows (h : Translated m extra t t') (hm : m.Faithful)
    (hextra : strict → ∀ name, m.name name ∉ extra.map Prod.fst) :
    SymbolTable.Follows m strict t t' := by
  obtain ⟨g, g', hg, hg', hglobal⟩ := h.exists_global hm
  have hfound : ∀ name, Found (Entry.translate m) strict (g.get? name) (g'.get? (m.name name)) :=
    fun name => found_of_binds hm (h.flat.binds hg) hglobal fun hstrict => hextra hstrict name
  constructor
  · intro id name
    rw [Context.lookup, Context.lookup]
    suffices h : ResultFollows (Fault.translate m) strict (Found (Entry.translate m) strict)
        (t.lookup id name) (t'.lookup (m.scope id) (m.name name)) from h.mapError fun _ => rfl
    cases hs : t.scope id with
    | error fault =>
        have hid := (scope_eq_error hs).2
        rw [lookup, lookup, h.flat.chain_of_size_le hid, h.flat'.chain_of_size_le (h.size_le hid)]
        exact .error fun _ => rfl
    | ok s =>
        obtain ⟨s', hs', hbinds⟩ := h.scope id s hs
        rw [h.flat.lookup_eq hs hg, h.flat'.lookup_eq hs' hg']
        refine .ok ?_
        by_cases hid : id = .global
        · subst hid
          obtain rfl := Except.ok.inj (hg.symm.trans hs)
          rw [hm.global] at hs' ⊢
          obtain rfl := Except.ok.inj (hg'.symm.trans hs')
          simpa using hfound name
        · have hne : m.scope id ≠ .global := fun heq => hid (hm.scope (heq.trans hm.global.symm))
          rw [if_neg hid] at hbinds
          rw [if_neg hid, if_neg hne]
          -- A scope that is not global binds nothing more.
          exact (found_of_binds hm (h.flat.binds hs) hbinds fun _ => List.not_mem_nil).or
            (hfound name)
  · intro name
    rw [get, get, hg, hg']
    exact .ok (hfound name)

theorem declare (h : Translated m extra t t') (hm : m.Faithful) {id : ScopeId} {name : String}
    {entry : Entry} {complaint complaint' : Diagnostic}
    (hu : t.declare id name entry complaint = .ok u)
    (hu' : t'.declare (m.scope id) (m.name name) (entry.translate m) complaint' = .ok u') :
    Translated m extra u u' := by
  obtain ⟨s, hs, -, -⟩ := (declare_eq_ok_iff ..).mp hu
  obtain ⟨s', hs', hget', -⟩ := (declare_eq_ok_iff ..).mp hu'
  refine ⟨h.flat.declare hu, h.flat'.declare hu', fun other r hr => ?_, ?_⟩
  · rw [scope_declare hs hu] at hr
    rw [scope_declare hs' hu']
    split at hr
    · next hother =>
        obtain rfl := Except.ok.inj hr
        obtain ⟨s₁, hs₁, hbinds⟩ := h.scope id s hs
        obtain rfl := Except.ok.inj (hs'.symm.trans hs₁)
        have hinsert := hbinds.insert (hbinds.get?_eq_none_iff.mp hget') (entry.translate m)
        rw [if_pos (congrArg m.scope hother), hother]
        refine ⟨_, rfl, hinsert.of_perm ?_⟩
        -- Only the order in which the bindings were made is different.
        have hsorted := ((Scope.perm_insertSorted name entry s.entries).map m.binding).append_right
          (if id = .global then extra else [])
        exact ((List.perm_append_singleton _ _).trans hsorted.symm)
    · next hother =>
        rw [if_neg fun heq => hother (hm.scope heq)]
        exact h.scope other r hr
  · rw [size_declare hu, size_declare hu']
    exact h.later

/-- A declaration follows one in the first table, unless the second table binds
the name already. -/
theorem follows_declare (strict : Prop) (h : Translated m extra t t') (hm : m.Faithful)
    (id : ScopeId) (name : String) (entry : Entry) (complaint : Diagnostic)
    (hname : id = .global → m.name name ∉ extra.map Prod.fst) :
    ResultFollows (Halt.translate m) strict (Translated m extra)
      (t.declare id name entry complaint)
      (t'.declare (m.scope id) (m.name name) (entry.translate m)
        (complaint.relabel m.toRelabelling)) := by
  cases hs : t.scope id with
  | error fault =>
      obtain ⟨rfl, hid⟩ := scope_eq_error hs
      rw [declare_of_fault hs, declare_of_fault (scope_of_size_le (h.size_le hid))]
      exact .error fun _ => rfl
  | ok s =>
      obtain ⟨s', hs', hbinds⟩ := h.scope id s hs
      have hmore : m.name name ∉
          (if id = .global then extra else [] : List Binding).map Prod.fst := by
        split
        · next hid => exact hname hid
        · exact List.not_mem_nil
      have hfound : Found (Entry.translate m) True (s.get? name) (s'.get? (m.name name)) :=
        found_of_binds hm (h.flat.binds hs) hbinds fun _ => hmore
      cases hget : s.get? name with
      | some old =>
          rw [hget] at hfound
          rw [declare_of_taken hs hget, declare_of_taken hs' hfound.eq_some]
          exact .error fun _ => rfl
      | none =>
          rw [hget] at hfound
          have hu : t.declare id name entry complaint = _ := declare_of_free hs hget
          have hu' : t'.declare (m.scope id) (m.name name) (entry.translate m)
              (complaint.relabel m.toRelabelling) = _ := declare_of_free hs' hfound.eq_none
          rw [hu, hu']
          exact .ok (h.declare hm hu hu')

theorem nest (h : Translated m extra t t') :
    (t'.nest .global).2 = m.scope (t.nest .global).2 ∧
      Translated m extra (t.nest .global).1 (t'.nest .global).1 := by
  refine ⟨(h.later 0).symm, h.flat.nest, h.flat'.nest, fun id s hs => ?_, fun k => ?_⟩
  · rw [scope_nest] at hs
    split at hs
    · next hid =>
        obtain rfl := Except.ok.inj hs
        have hnew : m.scope id = ⟨t'.size⟩ := by
          rw [show id = ⟨t.size + 0⟩ from congrArg ScopeId.mk hid, h.later]
          rfl
        have hlocal : id ≠ .global := by
          rintro rfl
          exact absurd hid (Nat.ne_of_lt h.flat.size_pos)
        rw [scope_nest, hnew, if_pos rfl, if_neg hlocal]
        exact ⟨_, rfl, Scope.binds_nil _⟩
    · obtain ⟨s', hs', hbinds⟩ := h.scope id s hs
      rw [scope_nest, if_neg (Nat.ne_of_lt (index_lt_of_scope hs'))]
      exact ⟨s', hs', hbinds⟩
  · rw [size_nest, size_nest, Nat.add_assoc, Nat.add_assoc]
    exact h.later (1 + k)

end Translated

end SymbolTable

end Spl
