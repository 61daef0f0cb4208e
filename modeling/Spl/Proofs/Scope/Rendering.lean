import Spl.Proofs.Scope.Library
import Spl.Proofs.Text.ByteOrder
import Spl.Scope.Listing

/-!
What listings of scopes say. A listing shows every binding once, in the order
of the bytes of the names. So it is determined by what the scope binds, in
whatever order that was declared.
-/

namespace Spl

open Text

/-! ### Scopes in order -/

namespace Scope

variable {s : Scope} {name : String} {entry : Entry}

/-- The entries stand in the order of their names, and no name is there twice. -/
def Sorted (s : Scope) : Prop :=
  s.entries.Pairwise fun b b' => b.1 < b'.1

theorem sorted_nil (parent : Option ScopeId) : Sorted ⟨[], parent⟩ :=
  .nil

theorem pairwise_insertSorted {entries : List Binding}
    (h : entries.Pairwise fun b b' => b.1 < b'.1) (hfree : name ∉ entries.map Prod.fst) :
    (insertSorted name entry entries).Pairwise fun b b' => b.1 < b'.1 := by
  induction entries with
  | nil => exact List.pairwise_singleton _ _
  | cons b entries ih =>
      obtain ⟨hb, hentries⟩ := List.pairwise_cons.mp h
      rw [List.map_cons, List.mem_cons, not_or] at hfree
      rw [insertSorted]
      split
      · next hlt =>
          refine List.pairwise_cons.mpr ⟨fun b' hb' => ?_, ih hentries hfree.2⟩
          cases List.mem_cons.mp ((perm_insertSorted name entry entries).mem_iff.mp hb') with
          | inl hnew => rwa [hnew]
          | inr hold => exact hb b' hold
      · next hle =>
          have hlt : name < b.1 := by
            refine String.not_le.mp fun hge => hfree.1 ?_
            exact String.le_antisymm (String.not_lt.mp hle) hge
          refine List.pairwise_cons.mpr ⟨fun b' hb' => ?_, h⟩
          cases List.mem_cons.mp hb' with
          | inl hfirst => rwa [hfirst]
          | inr hlater => exact String.lt_trans hlt (hb b' hlater)

theorem Sorted.insert (h : s.Sorted) (hfree : s.get? name = none) (entry : Entry) :
    (s.insert name entry).Sorted := by
  refine pairwise_insertSorted h fun hmem => ?_
  obtain ⟨b, hb, rfl⟩ := List.mem_map.mp hmem
  rw [get?, List.lookup_eq_none_iff] at hfree
  simpa using hfree b hb

end Scope

namespace SymbolTable

variable {t u : SymbolTable}

/-- All scopes of the table are in order. -/
def Sorted (t : SymbolTable) : Prop :=
  ∀ id s, t.scope id = .ok s → s.Sorted

theorem Sorted.nest (h : t.Sorted) (parent : ScopeId) : (t.nest parent).1.Sorted := by
  intro id s hs
  rw [scope_nest] at hs
  split at hs
  · obtain rfl := Except.ok.inj hs
    exact Scope.sorted_nil _
  · exact h id s hs

theorem Sorted.declare (h : t.Sorted) {id : ScopeId} {name : String} {entry : Entry}
    {complaint : Diagnostic} (hu : t.declare id name entry complaint = .ok u) : u.Sorted := by
  obtain ⟨s, hs, hfree, -⟩ := (declare_eq_ok_iff ..).mp hu
  intro other s' hs'
  rw [scope_declare hs hu] at hs'
  split at hs'
  · obtain rfl := Except.ok.inj hs'
    exact (h id s hs).insert hfree entry
  · exact h other s' hs'

theorem sorted_empty : empty.Sorted := by
  intro id s hs
  have hmem : s ∈ empty.scopes := Array.mem_of_getElem? (scope_eq_ok_iff.mp hs)
  obtain rfl : s = ⟨[], none⟩ := by simpa [empty] using hmem
  exact Scope.sorted_nil _

theorem Sorted.foldlM_declareLibrary (h : t.Sorted) {ps : List LibraryProcedure}
    (hu : ps.foldlM declareLibrary t = .ok u) : u.Sorted := by
  induction ps generalizing t with
  | nil =>
      obtain rfl := Except.ok.inj hu
      exact h
  | cons p ps ih =>
      rw [List.foldlM_cons] at hu
      cases hp : t.declareLibrary p with
      | error halt =>
          rw [hp] at hu
          cases hu
      | ok v =>
          rw [hp] at hu
          exact ih ((h.nest .global).declare hp) hu

/-- Every program starts with a table in order. -/
theorem sorted_initial {library : Library} (h : initial library = .ok t) : t.Sorted := by
  rw [initial] at h
  cases hint : empty.declare .global "int" (.type .int) (libraryClash "int") with
  | error halt =>
      rw [hint] at h
      cases h
  | ok u =>
      rw [hint] at h
      exact (sorted_empty.declare hint).foldlM_declareLibrary h

end SymbolTable

/-! ### What a listing says -/

/-- The first binding comes before the second by the bytes of its name. -/
def NamedBefore (b b' : Binding) : Prop :=
  bytesOf b.1 < bytesOf b'.1

/-- The lines for a scope of this level with these bindings. -/
def linesFor (level : Nat) (bindings : List Binding) : String :=
  "  level " ++ toString level ++ "\n" ++
    if bindings.isEmpty then "    <empty>\n"
    else String.join (bindings.map fun (name, entry) => Scope.listingLine name entry)

/-- The text shows the bindings of a scope of this level, each of them once and
in the order of their names. -/
def Renders (level : Nat) (bindings : List Binding) (text : String) : Prop :=
  ∃ sorted : List Binding, sorted.Perm bindings ∧ sorted.Pairwise NamedBefore ∧
    text = linesFor level sorted

/-- Bindings that come in any arrangement, in the order of their names. -/
def byName (arranged : List Binding) : List Binding :=
  arranged.mergeSort fun b b' => bytesOf b.1 ≤ bytesOf b'.1

theorem nodup_of_namedBefore {bindings : List Binding} (h : bindings.Pairwise NamedBefore) :
    bindings.Nodup := by
  refine h.imp ?_
  rintro b b' hb rfl
  exact List.lt_irrefl _ hb

/-- There is only one text for a set of bindings. -/
theorem Renders.unique {level : Nat} {bindings bindings' : List Binding} {text text' : String}
    (h : Renders level bindings text) (h' : Renders level bindings' text')
    (hsame : ∀ b, b ∈ bindings ↔ b ∈ bindings') : text = text' := by
  obtain ⟨sorted, hperm, hsorted, rfl⟩ := h
  obtain ⟨sorted', hperm', hsorted', rfl⟩ := h'
  have hsets : sorted.Perm sorted' := by
    refine (List.perm_ext_iff_of_nodup (nodup_of_namedBefore hsorted)
      (nodup_of_namedBefore hsorted')).mpr fun b => ?_
    rw [hperm.mem_iff, hperm'.mem_iff, hsame]
  have hlists : sorted = sorted' := by
    refine List.Perm.eq_of_pairwise (fun b b' _ _ hb hb' => ?_) hsorted hsorted' hsets
    exact absurd hb' (List.lt_asymm hb)
  rw [hlists]

theorem perm_byName (arranged : List Binding) : (byName arranged).Perm arranged :=
  List.mergeSort_perm ..

/-- Sorting puts bindings with different names in order. -/
theorem pairwise_byName {arranged : List Binding}
    (h : arranged.Pairwise fun b b' => bytesOf b.1 ≠ bytesOf b'.1) :
    (byName arranged).Pairwise NamedBefore := by
  have hle : (byName arranged).Pairwise fun b b' =>
      decide (bytesOf b.1 ≤ bytesOf b'.1) = true := by
    refine List.pairwise_mergeSort (fun b b' b'' hb hb' => ?_) (fun b b' => ?_) arranged
    · rw [decide_eq_true_iff] at hb hb' ⊢
      exact List.le_trans hb hb'
    · simpa using List.le_total (bytesOf b.1) (bytesOf b'.1)
  have hne := (perm_byName arranged).symm.pairwise h Ne.symm
  exact (hle.and hne).imp fun hb => Std.lt_of_le_of_ne (of_decide_eq_true hb.1) hb.2

/-- The text for bindings comes from sorting them, however they were arranged. -/
theorem Renders.eq_linesFor {level : Nat} {bindings arranged : List Binding} {text : String}
    (h : Renders level bindings text) (harranged : arranged.Perm bindings) :
    text = linesFor level (byName arranged) := by
  have hdistinct : arranged.Pairwise fun b b' => bytesOf b.1 ≠ bytesOf b'.1 := by
    obtain ⟨sorted, hperm, hsorted, -⟩ := h
    refine (hperm.trans harranged.symm).pairwise (hsorted.imp fun hb hname => ?_) Ne.symm
    rw [NamedBefore, hname] at hb
    exact List.lt_irrefl _ hb
  have hsame : Renders level bindings (linesFor level (byName arranged)) :=
    ⟨_, (perm_byName arranged).trans harranged, pairwise_byName hdistinct, rfl⟩
  exact h.unique hsame fun _ => Iff.rfl

theorem Scope.Sorted.renders {s : Scope} (h : s.Sorted) {bindings : List Binding}
    (hbinds : s.Binds bindings) (level : Nat) :
    Renders level bindings ("  level " ++ toString level ++ "\n" ++ s.listing) := by
  refine ⟨s.entries, hbinds.perm, ?_, rfl⟩
  exact h.imp bytesOf_lt

/-- The listing of a scope that lies in the global one shows both. -/
theorem SymbolTable.Holds.listing_eq {t : SymbolTable} {globals bindings : List Binding}
    {scopes : List (List Binding)} {i : Nat} (h : t.Holds (globals :: scopes)) (ht : t.Sorted)
    (hi : scopes[i]? = some bindings) :
    ∃ own outer, t.listing ⟨i + 1⟩ = .ok (own ++ outer) ∧ Renders 1 bindings own ∧
      Renders 0 globals outer := by
  obtain ⟨s, hs, hparent, hbinds⟩ := h.scope (i + 1) bindings hi
  obtain ⟨g, hg, hground, hglobals⟩ := h.scope 0 globals rfl
  obtain ⟨n, hn⟩ : ∃ n, t.scopes.size = n + 2 := by
    have hlt : i < scopes.length := (List.getElem?_eq_some_iff.mp hi).1
    have hsize : t.scopes.size = scopes.length + 1 := h.size_eq
    exact ⟨scopes.length - 1, by omega⟩
  have hchain : t.chain ⟨i + 1⟩ = .ok [s, g] := by
    rw [chain, hn, chainWithin, hs]
    simp [bind, Except.bind, hparent, chainWithin, ScopeId.global, hg, hground, pure, Except.pure]
  refine ⟨_, _, ?_, (ht _ s hs).renders hbinds 1, (ht _ g hg).renders hglobals 0⟩
  rw [listing, hchain]
  simp [listingOf, Except.map, String.append_assoc]

end Spl
