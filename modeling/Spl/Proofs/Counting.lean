import Spl.Proofs.Program.Building
import Spl.Proofs.Translating

/-!
Array types are told apart by counting them, and the count to start with is
arbitrary. If more types were made before, the builder makes the same table with
greater numbers in it, and it writes the same listings.
-/

namespace Spl

open Outcome Outcome.Follows

/-- Where `k` more array types are in use. -/
def Translation.later (k : Nat) : Translation :=
  .ofNumbers (· + k) id

variable {k : Nat} {strict : Prop}

theorem Translation.faithful_later : (later k).Faithful :=
  ⟨Function.injective_id, fun _ _ => Nat.add_right_cancel, Function.injective_id, rfl⟩

/-! ### Programs without types -/

theorem Stmt.translateAll_later {ss : List Stmt} (h : ∀ s ∈ ss, s.Fresh) :
    translateAll (.later k) ss = ss :=
  (translateAll_of_fresh _ ss h).trans (relabelAll_identical ss)

/-! ### Tables -/

namespace Scope

def later (k : Nat) (s : Scope) : Scope :=
  { s with entries := s.entries.map (Translation.later k).binding }

variable {s : Scope}

theorem get?_later (name : String) :
    (s.later k).get? name = (s.get? name).map (Entry.translate (.later k)) := by
  obtain ⟨entries, parent⟩ := s
  rw [get?, get?, later]
  induction entries with
  | nil => rfl
  | cons b entries ih =>
      have hname : ((Translation.later k).binding b).1 = b.1 := rfl
      rw [List.map_cons, List.lookup_cons, List.lookup_cons, hname]
      split
      · rfl
      · exact ih

theorem insert_later (name : String) (entry : Entry) :
    (s.insert name entry).later k = (s.later k).insert name (entry.translate (.later k)) := by
  obtain ⟨entries, parent⟩ := s
  suffices h : (insertSorted name entry entries).map (Translation.later k).binding =
      insertSorted name (entry.translate (.later k))
        (entries.map (Translation.later k).binding) from
    congrArg (Scope.mk · parent) h
  induction entries with
  | nil => rfl
  | cons b entries ih =>
      have hbinding : (Translation.later k).binding b = (b.1, b.2.translate (.later k)) := rfl
      rw [insertSorted, List.map_cons, hbinding, insertSorted]
      split
      · rw [List.map_cons, ih]
        rfl
      · rfl

end Scope

theorem Formal.text_translate (m : Translation) (f : Formal) : (f.translate m).text = f.text := by
  rw [text, text, translate, Ty.text_translate]

/-- A listing does not show which array type is meant. -/
theorem Entry.text_translate (m : Translation) (e : Entry) : (e.translate m).text = e.text := by
  cases e with
  | type ty => simp [translate, text, kind]
  | var ty byReference =>
      have hformal := Formal.text_translate m ⟨ty, byReference⟩
      rw [translate, text, text]
      exact congrArg _ hformal
  | procedure signature =>
      have hformals : (signature.translate m).formals.map Formal.text =
          signature.formals.map Formal.text := by
        rw [Signature.translate, List.map_map]
        exact List.map_congr_left fun f _ => f.text_translate m
      rw [translate, text, text, hformals]
      rfl

theorem Scope.listing_later {s : Scope} : (s.later k).listing = s.listing := by
  have hempty : (s.later k).isEmpty = s.isEmpty := List.isEmpty_map
  rw [listing, listing, hempty, later, List.map_map]
  congr 3
  funext ⟨name, entry⟩
  exact congrArg (fun text => "    " ++ padRight 15 name ++ " : " ++ text ++ "\n")
    (entry.text_translate _)

theorem listingOf_later (scopes : List Scope) :
    listingOf (scopes.map (Scope.later k)) = listingOf scopes := by
  induction scopes with
  | nil => rfl
  | cons s outer ih =>
      rw [List.map_cons, listingOf, listingOf, ih, s.listing_later, List.length_map]

namespace SymbolTable

def later (k : Nat) (t : SymbolTable) : SymbolTable :=
  ⟨t.scopes.map (Scope.later k)⟩

variable {t : SymbolTable}

theorem size_later : (t.later k).scopes.size = t.scopes.size :=
  Array.size_map

theorem scope_later (id : ScopeId) :
    ResultFollows (Fault.translate (.later k)) strict (Image (Scope.later k)) (t.scope id)
      ((t.later k).scope id) := by
  rw [scope, scope, later, Array.getElem?_map]
  cases t.scopes[id.index]? with
  | none => exact .error fun _ => rfl
  | some s => exact .ok rfl

theorem chainWithin_later (n : Nat) (id : ScopeId) :
    ResultFollows (Fault.translate (.later k)) strict (Image (List.map (Scope.later k)))
      (t.chainWithin n id) ((t.later k).chainWithin n id) := by
  induction n generalizing id with
  | zero => exact .error fun _ => rfl
  | succ n ih =>
      refine (scope_later id).bind ?_
      rintro s _ rfl
      rw [show (s.later k).parent = s.parent from rfl]
      cases s.parent with
      | none => exact .ok rfl
      | some parent =>
          refine (ih parent).bind ?_
          rintro scopes _ rfl
          exact .ok rfl

theorem chain_later (id : ScopeId) :
    ResultFollows (Fault.translate (.later k)) strict (Image (List.map (Scope.later k)))
      (t.chain id) ((t.later k).chain id) := by
  rw [chain, chain, size_later]
  exact chainWithin_later ..

theorem listing_later (scope : ScopeId) :
    ResultFollows (Fault.translate (.later k)) strict (Image id) (t.listing scope)
      ((t.later k).listing scope) := by
  refine (chain_later scope).map ?_
  rintro scopes _ rfl
  exact listingOf_later scopes

theorem findSome?_get?_later (scopes : List Scope) (name : String) :
    (scopes.map (Scope.later k)).findSome? (·.get? name) =
      (scopes.findSome? (·.get? name)).map (Entry.translate (.later k)) := by
  induction scopes with
  | nil => rfl
  | cons s scopes ih =>
      rw [List.map_cons, List.findSome?_cons, List.findSome?_cons, s.get?_later]
      cases s.get? name with
      | none => exact ih
      | some entry => rfl

theorem follows_later : SymbolTable.Follows (.later k) strict t (t.later k) where
  context scope name := by
    suffices h : ResultFollows (Fault.translate (.later k)) strict
        (Found (Entry.translate (.later k)) strict) (t.lookup scope name)
        ((t.later k).lookup scope name) from h.mapError fun _ => rfl
    refine (chain_later scope).map ?_
    rintro scopes _ rfl
    rw [findSome?_get?_later]
    exact .of_map _
  get name := by
    refine (scope_later .global).map ?_
    rintro s _ rfl
    rw [s.get?_later]
    exact .of_map _

theorem nest_later (parent : ScopeId) :
    (t.later k).nest parent = ((t.nest parent).1.later k, (t.nest parent).2) := by
  rw [nest, nest, size_later, later, later, Array.map_push]
  rfl

theorem declare_later (scope : ScopeId) (name : String) (entry : Entry) (complaint : Diagnostic) :
    ResultFollows (Halt.translate (.later k)) strict (Image (later k))
      (t.declare scope name entry complaint)
      ((t.later k).declare scope name (entry.translate (.later k))
        (complaint.relabel .identical)) := by
  have hscope : ResultFollows (Fault.translate (.later k)) True (Image (Scope.later k)) _ _ :=
    scope_later (t := t) scope
  generalize hfound : t.scope scope = found, hfound' : (t.later k).scope scope = found' at hscope
  cases hscope with
  | error h =>
      rw [declare_of_fault hfound, declare_of_fault (hfound'.trans (h trivial))]
      exact .error fun _ => rfl
  | @ok s _ hs =>
      subst hs
      have hget' := s.get?_later (k := k) name
      cases hget : s.get? name with
      | some taken =>
          rw [hget] at hget'
          rw [declare_of_taken hfound hget, declare_of_taken hfound' hget']
          exact .error fun _ => rfl
      | none =>
          rw [hget] at hget'
          rw [declare_of_free hfound hget, declare_of_free hfound' hget']
          refine .ok ?_
          rw [← s.insert_later]
          exact congrArg SymbolTable.mk (by simp [later])

/-- The table to start with has no array types. -/
theorem initial_later {library : Library} (ht : initial library = .ok t) : t.later k = t := by
  obtain ⟨_, hu, hholds⟩ := exists_initial library
  obtain rfl := Except.ok.inj (ht.symm.trans hu)
  have hself : ∀ s ∈ t.scopes, s.later k = s := by
    intro s hs
    obtain ⟨i, hi, rfl⟩ := Array.mem_iff_getElem.mp hs
    have hscope : t.scope ⟨i⟩ = .ok t.scopes[i] := by
      rw [scope, Array.getElem?_eq_getElem hi]
    obtain ⟨bindings, hbindings, -, hbinds⟩ := hholds.of_scope hscope
    have hentries : ∀ b ∈ t.scopes[i].entries, (Translation.later k).binding b = b := by
      intro b hb
      have hmem : b ∈ bindings := hbinds.perm.mem_iff.mp hb
      cases i with
      | zero =>
          obtain rfl := Option.some.inj hbindings
          exact library.binding_eq_self (fun _ _ => rfl) (fun _ _ => rfl) b hmem
      | succ i =>
          -- The procedures of a library have scopes that bind nothing.
          have hlocal : library.contents.locals[i]? = some bindings := hbindings
          rw [library.locals_contents, List.getElem?_map] at hlocal
          obtain ⟨_, -, rfl⟩ := Option.map_eq_some_iff.mp hlocal
          exact absurd hmem List.not_mem_nil
    exact congrArg (Scope.mk · _) ((List.map_congr_left hentries).trans (List.map_id _))
  exact congrArg SymbolTable.mk ((Array.map_congr_left hself).trans (Array.map_id _))

end SymbolTable

/-! ### The builder -/

namespace Draft

def later (k : Nat) (d : Draft) : Draft :=
  ⟨d.table.later k, d.fresh + k, d.output⟩

theorem simulation_later :
    Draft.Simulation (.later k) True (fun _ => True) (Image (later k)) where
  global := rfl
  main := rfl
  null := rfl
  table := by
    rintro d _ rfl
    exact d.table.follows_later
  identity := by
    rintro d _ rfl made
    exact Nat.add_right_comm ..
  fresh := by
    rintro d _ rfl made
    exact congrArg (Draft.mk _ · _) (Nat.add_right_comm ..)
  nest := by
    rintro d _ rfl
    have hnest : (d.later k).table.nest .global = _ := d.table.nest_later .global
    rw [hnest]
    exact ⟨fun _ _ => trivial, rfl, rfl⟩
  declare := by
    rintro d _ rfl scope name entry complaint -
    have hd : Image (later k) d (d.later k) := rfl
    refine Draft.follows_declare hd ?_ (d.table.declare_later scope name entry complaint)
    rintro t _ rfl
    rfl
  list := by
    rintro d _ rfl p scope
    have hd : Image (later k) d (d.later k) := rfl
    refine Draft.follows_list hd ?_ (fun output => ?_) ?_ ?_ (d.table.listing_later scope)
    all_goals rfl

end Draft

/-- A complaint is the same whatever the numbers are. -/
theorem Settles.mapError_later {α : Type} {x : Except Halt α} {Q : α → Prop} (h : Settles x Q) :
    x.mapError (Halt.translate (.later k)) = x := by
  match x, h with
  | .ok _, _ => rfl
  | .error (.diagnostic d), _ =>
      exact congrArg (fun d => Except.error (Halt.diagnostic d)) d.relabel_identical

/-- Where more array types are in use, the builder makes the same with later
numbers, or stops for the same reason. -/
theorem Program.buildTable_later {p : Program} (hp : p.Fresh) (options : Options) (fresh k : Nat)
    (output : Text.Sink) :
    p.buildTable options (fresh + k) output =
      let o := p.buildTable options fresh output
      ⟨o.after.map (Program.translate (.later k)) (Draft.later k),
        o.result.map (SymbolTable.later k)⟩ := by
  have hstart : ∀ t t', SymbolTable.initial options.library = .ok t →
      SymbolTable.initial options.library = .ok t' →
      Image (Draft.later k) ⟨t, fresh, output⟩ ⟨t', fresh + k, output⟩ := by
    intro t t' ht ht'
    obtain rfl := Except.ok.inj (ht.symm.trans ht')
    exact congrArg (Draft.mk · (fresh + k) output) (SymbolTable.initial_later ht).symm
  have hfollows := Program.follows_buildTable (Draft.simulation_later (k := k)) rfl (p := p)
    (fun _ _ => trivial) fresh (fresh + k) output output hstart
  have hself : p.translate (.later k) = p :=
    (Program.translate_of_fresh _ hp).trans p.relabel_identical
  rw [hself] at hfollows
  let view := Prod.map (Program.translate (.later k)) (Draft.later k)
  have hstrict : (p.buildTable options fresh output).Follows (.later k) True (Image view)
      (Image (SymbolTable.later k)) (p.buildTable options (fresh + k) output) := by
    refine hfollows.mono ?_ ?_
    · rintro ⟨_, _⟩ ⟨_, _⟩ ⟨rfl, rfl⟩
      rfl
    · rintro _ _ ⟨d, _, rfl, rfl, rfl⟩
      rfl
  have hsettles : Settles ((p.buildTable options fresh output).result.map (SymbolTable.later k))
      fun _ => True :=
    .map (.mono (settles_buildTable options hp fresh output) fun _ _ => trivial)
  rw [hstrict.eq_of_strict, hsettles.mapError_later]

end Spl
