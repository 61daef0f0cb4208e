import Spl.Proofs.Diagnostic.Blame
import Spl.Proofs.Program.Accepted
import Spl.Proofs.Program.Naturality

/-!
Listings of scopes. The builder needs room for nothing else than to write them.
So where its output takes everything, it never ends because of a listing.
-/

namespace Spl

variable {α β ν μ : Type}

/-! ### The judgment -/

/-- The diagnostic is not about a listing. -/
def Diagnostic.Unlisted (d : Diagnostic) : Prop :=
  ∀ reason, d.cause ≠ .tableDumpFailed reason

namespace Outcome

theorem Blames.not_dumpFails {o : Outcome ν α} (h : o.Blames Diagnostic.Unlisted) :
    ¬o.DumpFails := by
  rintro ⟨reason, position, hresult⟩
  exact h _ hresult reason rfl

/-- The output takes everything after the pass, which does not end because of a listing. -/
structure HasRoom (draft : ν → Draft) (o : Outcome ν α) : Prop where
  endless : (draft o.after).output.Endless
  blames : o.Blames Diagnostic.Unlisted

namespace HasRoom

variable {draft : ν → Draft} {draft' : μ → Draft} {o : Outcome ν α}

theorem andThen {rebuild : ν → μ} {next : ν → α → Outcome μ β} (h : o.HasRoom draft)
    (hstop : ∀ x, (draft x).output.Endless → (draft' (rebuild x)).output.Endless)
    (hgo : ∀ x a, (draft x).output.Endless → (next x a).HasRoom draft') :
    (o.andThen rebuild next).HasRoom draft' := by
  refine ⟨?_, .andThen h.blames fun a _ => (hgo _ a h.endless).blames⟩
  obtain ⟨x, result⟩ := o
  cases result with
  | ok a => exact (hgo x a h.endless).endless
  | error halt => exact hstop x h.endless

theorem map {rebuild : ν → μ} {value : α → β} (h : o.HasRoom draft)
    (hrebuild : ∀ x, (draft x).output.Endless → (draft' (rebuild x)).output.Endless) :
    (o.map rebuild value).HasRoom draft' :=
  ⟨hrebuild _ h.endless, .map h.blames⟩

theorem threadAll {visit : ν → Draft → Outcome (ν × Draft) α}
    (h : ∀ x d, d.output.Endless → (visit x d).HasRoom Prod.snd) (xs : List ν) {d : Draft}
    (hd : d.output.Endless) : (Outcome.threadAll visit xs d).HasRoom Prod.snd := by
  induction xs generalizing d with
  | nil => exact ⟨hd, .ok⟩
  | cons x xs ih =>
      refine (h x d hd).andThen (fun _ hx => hx) ?_
      rintro ⟨y, d⟩ a hy
      exact (ih hy).map fun _ hys => hys

end HasRoom

end Outcome

open Outcome

/-! ### The builder -/

theorem TypeExpr.unlisted_resolve (Γ : Context) (e : TypeExpr) (fresh : Nat) :
    (e.resolve Γ fresh).Blames Diagnostic.Unlisted := by
  induction e with
  | named name position slot =>
      have hname : Blames (Γ.typeNamed name position) Diagnostic.Unlisted :=
        Context.blames_lookup fun found => by
          match found with
          | none => exact .halt fun _ => Cause.noConfusion
          | some (.type _) => exact .ok
          | some (.var _ _) => exact .halt fun _ => Cause.noConfusion
          | some (.procedure _) => exact .halt fun _ => Cause.noConfusion
      rw [resolve]
      split
      · exact .write
      · next halt hhalt => exact hname.error hhalt
  | array size element position slot ih => exact .andThen ih fun _ _ => .write

section Builder

variable {d : Draft} (hd : d.output.Endless)
include hd

theorem TypeExpr.hasRoom_resolveIn (scope : ScopeId) (e : TypeExpr) :
    (e.resolveIn scope d).HasRoom Prod.snd :=
  ⟨⟨hd.room, hd.flush⟩, .map (e.unlisted_resolve ⟨d.table, scope⟩ d.fresh)⟩

theorem Draft.hasRoom_declare (scope : ScopeId) (name : String) (entry : Entry)
    {complaint : Diagnostic} (hcomplaint : complaint.Unlisted) :
    (d.declare scope name entry complaint).HasRoom id := by
  cases hs : d.table.scope scope with
  | error fault =>
      rw [declare_of_error (SymbolTable.declare_of_fault hs)]
      exact ⟨hd, .fault⟩
  | ok s =>
      cases hget : s.get? name with
      | some taken =>
          rw [declare_of_error (SymbolTable.declare_of_taken hs hget)]
          exact ⟨hd, .diagnostic hcomplaint⟩
      | none =>
          rw [declare_of_ok (SymbolTable.declare_of_free hs hget)]
          exact ⟨hd, .ok⟩

theorem TypeDeclaration.hasRoom_declare (t : TypeDeclaration) :
    (t.declare d).HasRoom Prod.snd := by
  refine (t.type.hasRoom_resolveIn hd .global).andThen (fun _ hx => hx) ?_
  rintro ⟨type, d⟩ ty hd
  exact (Draft.hasRoom_declare hd _ _ _ fun _ => Cause.noConfusion).map fun _ hd => hd

theorem Parameter.hasRoom_declare (scope : ScopeId) (p : Parameter) :
    (p.declare scope d).HasRoom Prod.snd := by
  refine (p.type.hasRoom_resolveIn hd .global).andThen (fun _ hx => hx) ?_
  rintro ⟨type, d⟩ ty hd
  dsimp only
  split
  · exact ⟨hd, .halt fun _ => Cause.noConfusion⟩
  · exact (Draft.hasRoom_declare hd _ _ _ fun _ => Cause.noConfusion).map fun _ hd => hd

theorem LocalVariable.hasRoom_declare (scope : ScopeId) (v : LocalVariable) :
    (v.declare scope d).HasRoom Prod.snd := by
  refine (v.type.hasRoom_resolveIn hd scope).andThen (fun _ hx => hx) ?_
  rintro ⟨type, d⟩ ty hd
  exact (Draft.hasRoom_declare hd _ _ _ fun _ => Cause.noConfusion).map fun _ hd => hd

theorem Procedure.hasRoom_declare (p : Procedure) : (p.declare d).HasRoom Prod.snd := by
  rw [declare]
  generalize d.table.nest .global = nested
  obtain ⟨table, scope⟩ := nested
  refine (HasRoom.threadAll (fun q _ hd => q.hasRoom_declare hd scope) p.parameters ?_).andThen
    (fun _ hx => hx) ?_
  · exact ⟨hd.room, hd.flush⟩
  rintro ⟨parameters, d⟩ formals hd
  refine (HasRoom.threadAll (fun v _ hd => v.hasRoom_declare hd scope) p.locals hd).andThen
    (fun _ hx => hx) ?_
  rintro ⟨locals, d⟩ units hd
  exact (Draft.hasRoom_declare hd _ _ _ fun _ => Cause.noConfusion).map fun _ hd => hd

/-- What takes everything takes a listing. -/
theorem Draft.hasRoom_list (p : Procedure) (scope : ScopeId) : (d.list p scope).HasRoom id := by
  rw [list]
  cases d.table.listing scope with
  | error fault => exact ⟨hd, .fault⟩
  | ok listing =>
      obtain ⟨table, fresh, written, room, reason, flushFails⟩ := d
      obtain ⟨hroom, hflush⟩ := hd
      dsimp only at hroom hflush
      subst hroom hflush
      exact ⟨⟨rfl, rfl⟩, .ok⟩

theorem Declaration.hasRoom_declare (options : Options) (declaration : Declaration) :
    (declaration.declare options d).HasRoom Prod.snd := by
  cases declaration with
  | type t =>
      rw [declare]
      exact (t.hasRoom_declare hd).map fun _ hd => hd
  | procedure p =>
      rw [declare]
      refine (p.hasRoom_declare hd).andThen (fun _ hx => hx) ?_
      rintro ⟨p, d⟩ scope hd
      dsimp only
      split
      · exact (Draft.hasRoom_list hd p scope).map fun _ hd => hd
      · exact ⟨hd, .ok⟩

end Builder

theorem Diagnostic.IsOfMain.unlisted {d : Diagnostic} (h : d.IsOfMain) : d.Unlisted := by
  simp only [IsOfMain, List.mem_cons, List.not_mem_nil, or_false] at h
  obtain rfl | rfl | rfl := h <;> exact fun _ => Cause.noConfusion

theorem Program.hasRoom_buildTable {output : Text.Sink} (h : output.Endless) (options : Options)
    (p : Program) (fresh : Nat) : (p.buildTable options fresh output).HasRoom Prod.snd := by
  obtain ⟨t, ht, -⟩ := SymbolTable.exists_initial options.library
  rw [buildTable, ht]
  have hstart : Text.Sink.Endless (Draft.output ⟨t, fresh, output⟩) := h
  refine (HasRoom.threadAll (fun x d hd => x.hasRoom_declare hd options) p.declarations
    hstart).andThen (fun _ hx => hx) ?_
  rintro ⟨declarations, d⟩ units hd
  have hmain : Blames d.table.entryPoint Diagnostic.Unlisted :=
    d.table.blames_entryPoint.mono fun _ => Diagnostic.IsOfMain.unlisted
  exact ⟨hd, Spl.Blames.map hmain⟩

/-- Where the output takes everything, no listing fails. -/
theorem Program.not_dumpFails_of_endless {output : Text.Sink} (h : output.Endless)
    (options : Options) (p : Program) (fresh : Nat) :
    ¬(p.buildTable options fresh output).DumpFails :=
  (p.hasRoom_buildTable h options fresh).blames.not_dumpFails

end Spl
