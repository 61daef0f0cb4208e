import Mathlib.Logic.Equiv.Basic
import Spl.Proofs.Program.Fitting
import Spl.Proofs.Syntax.Translation

/-!
Entering the same declarations twice. Apart from the numbers of the array types
that they make, declarations that were entered are determined by what was
written. So if they are entered again, with other numbers, they are the given
ones in translation.
-/

namespace Spl

/-! ### Other numbers -/

/-- One row of numbers becomes another one with the same numbers, if each number
is replaced by the one that stands in its place. -/
theorem exists_map_eq_of_perm {xs ys : List Nat} (h : xs.Perm ys) (hnodup : xs.Nodup) :
    ∃ σ : Equiv.Perm Nat, xs.map σ = ys ∧ ∀ i ∉ xs, σ i = i := by
  induction h with
  | nil => exact ⟨.refl Nat, rfl, fun _ _ => rfl⟩
  | cons x _ ih =>
      obtain ⟨hx, hxs⟩ := List.nodup_cons.mp hnodup
      obtain ⟨σ, hmap, hother⟩ := ih hxs
      refine ⟨σ, ?_, fun i hi => hother i fun hmem => hi (List.mem_cons_of_mem x hmem)⟩
      rw [List.map_cons, hother x hx, hmap]
  | swap x y xs =>
      obtain ⟨hy, hx, -⟩ : y ∉ x :: xs ∧ x ∉ xs ∧ xs.Nodup := by simpa using hnodup
      have hkept : ∀ i ∈ xs, Equiv.swap x y i = i := fun i hi =>
        Equiv.swap_apply_of_ne_of_ne (fun heq => hx (heq ▸ hi))
          fun heq => hy (List.mem_cons_of_mem x (heq ▸ hi))
      refine ⟨Equiv.swap x y, ?_, fun i hi => ?_⟩
      · rw [List.map_cons, List.map_cons, Equiv.swap_apply_left, Equiv.swap_apply_right,
          List.map_congr_left hkept, List.map_id']
      · simp only [List.mem_cons, not_or] at hi
        exact Equiv.swap_apply_of_ne_of_ne hi.2.1 hi.1
  | trans hxy _ ihxy ihyz =>
      obtain ⟨σ, hσ, hother⟩ := ihxy hnodup
      obtain ⟨τ, hτ, hother'⟩ := ihyz (hxy.nodup_iff.mp hnodup)
      refine ⟨σ.trans τ, ?_, fun i hi => ?_⟩
      · rw [← hτ, ← hσ, List.map_map]
        rfl
      · rw [Equiv.trans_apply, hother i hi, hother' i fun hmem => hi (hxy.mem_iff.mpr hmem)]

/-- With the numbers before and behind it, a row has all numbers up to a bound. -/
theorem Numbered.perm_range {first next bound : Nat} {xs : List Nat} (h : Numbered first next xs)
    (hbound : next ≤ bound) :
    (xs ++ (List.range first ++ List.range' next (bound - next))).Perm (List.range bound) := by
  obtain ⟨rest, rfl⟩ := Nat.exists_eq_add_of_le hbound
  have hsplit : List.range (next + rest) = List.range first ++
      (List.range' first xs.length ++ List.range' next (next + rest - next)) := by
    have hfirst := List.range'_append_1 (s := 0) (m := first) (n := xs.length + rest)
    rw [Nat.zero_add, ← List.range_eq_range', ← List.range_eq_range', ← List.range'_append_1,
      ← Nat.add_assoc, ← h.next_eq] at hfirst
    rw [Nat.add_sub_cancel_left, hfirst]
  rw [hsplit, ← List.append_assoc, ← List.append_assoc]
  exact (List.perm_append_comm.trans (List.Perm.append_left _ h.perm)).append_right _

theorem Numbered.of_perm {first next : Nat} {xs ys : List Nat} (h : Numbered first next xs)
    (hperm : xs.Perm ys) : Numbered first next ys := by
  obtain ⟨hnext, hxs⟩ := h
  rw [hperm.length_eq] at hnext hxs
  exact ⟨hnext, hperm.symm.trans hxs⟩

theorem Numbered.exists_perm {first first' next next' : Nat} {xs ys : List Nat}
    (hx : Numbered first next xs) (hy : Numbered first' next' ys)
    (hlength : xs.length = ys.length) :
    ∃ σ : Equiv.Perm Nat, xs.map σ = ys := by
  have hx' := hx.perm_range (Nat.le_max_left next next')
  have hy' := hy.perm_range (Nat.le_max_right next next')
  obtain ⟨σ, hmap, -⟩ := exists_map_eq_of_perm (hx'.trans hy'.symm)
    (hx'.nodup_iff.mpr List.nodup_range)
  rw [List.map_append] at hmap
  exact ⟨σ, (List.append_inj hmap (by simpa using hlength)).1⟩

/-! ### Type expressions -/

/-- The number of array types that the type expression makes. -/
def TypeExpr.depth : TypeExpr → Nat
  | named _ _ _ => 0
  | array _ element _ _ => element.depth + 1

theorem TypeExpr.depth_erase (e : TypeExpr) : e.erase.depth = e.depth := by
  induction e with
  | named => rfl
  | array _ _ _ _ ih => rw [erase, depth, depth, ih]

theorem TypeExpr.Resolved.length_identities {means : String → Ty → Prop} {e : TypeExpr} {ty : Ty}
    (h : e.Resolved means ty) : e.identities.length = e.depth := by
  induction h with
  | named => rfl
  | array _ ih => exact congrArg (· + 1) ih

/-- How many array types are made can be told from what is written. -/
theorem length_identitiesOf {means : String → Ty → Prop} {es : List TypeExpr}
    (h : ∀ e ∈ es, e.Resolved means e.found) :
    (identitiesOf es).length = (es.map TypeExpr.erase).foldr (·.depth + ·) 0 := by
  induction es with
  | nil => rfl
  | cons e es ih =>
      obtain ⟨he, hes⟩ := List.forall_mem_cons.mp h
      have hsplit : identitiesOf (e :: es) = e.identities ++ identitiesOf es := rfl
      rw [hsplit, List.length_append, he.length_identities, ih hes, List.map_cons, List.foldr_cons,
        e.depth_erase]

section Renumbered

variable {identity : Nat → Nat} {scope : ScopeId → ScopeId} {means means' : String → Ty → Prop}
  (hmeans : ∀ name ty ty', means name ty → means' name ty' →
    ty' = ty.translate (.ofNumbers identity scope))
include hmeans

theorem TypeExpr.Resolved.eq_translate {e e' : TypeExpr} {ty ty' : Ty} (h : e.Resolved means ty)
    (h' : e'.Resolved means' ty') (herase : e'.erase = e.erase)
    (hidentities : e.identities.map identity = e'.identities) :
    e' = e.translate (.ofNumbers identity scope) ∧
      ty' = ty.translate (.ofNumbers identity scope) := by
  induction h generalizing e' ty' with
  | @named name position ty hname =>
      cases h' with
      | named hname' =>
          obtain ⟨rfl, rfl, -⟩ := TypeExpr.named.inj herase
          obtain rfl := hmeans _ _ _ hname hname'
          exact ⟨rfl, rfl⟩
      | array => cases herase
  | @array size element position i elementTy h ih =>
      cases h' with
      | named => cases herase
      | @array _ element' _ i' _ h' =>
          obtain ⟨rfl, helement, rfl, -⟩ := TypeExpr.array.inj herase
          obtain ⟨hi, hrest⟩ :
              identity i = i' ∧ element.identities.map identity = element'.identities :=
            List.cons.inj hidentities
          obtain ⟨rfl, rfl⟩ := ih h' helement hrest
          subst hi
          exact ⟨rfl, rfl⟩

theorem eq_translate_of_resolved {es es' : List TypeExpr}
    (h : ∀ e ∈ es, e.Resolved means e.found) (h' : ∀ e ∈ es', e.Resolved means' e.found)
    (herase : es'.map TypeExpr.erase = es.map TypeExpr.erase)
    (hidentities : (identitiesOf es).map identity = identitiesOf es') :
    es' = es.map (TypeExpr.translate (.ofNumbers identity scope)) := by
  induction es generalizing es' with
  | nil => exact List.map_eq_nil_iff.mp herase
  | cons e es ih =>
      obtain ⟨e', es', rfl, hfirst, hrest⟩ := List.map_eq_cons_iff.mp herase
      rw [List.forall_mem_cons] at h h'
      have hlength : (e.identities.map identity).length = e'.identities.length := by
        rw [List.length_map, h.1.length_identities, h'.1.length_identities, ← e.depth_erase,
          ← hfirst, e'.depth_erase]
      have hsplit : e.identities.map identity ++ (identitiesOf es).map identity =
          e'.identities ++ identitiesOf es' := List.map_append.symm.trans hidentities
      obtain ⟨hidentity, hidentities⟩ := List.append_inj hsplit hlength
      rw [List.map_cons, ← ih h.2 h'.2 hrest hidentities,
        ← (h.1.eq_translate hmeans h'.1 hfirst hidentity).1]

end Renumbered

/-! ### Declarations -/

theorem Declaration.typeExprs_eraseTypes (d : Declaration) :
    d.eraseTypes.typeExprs = d.typeExprs.map TypeExpr.erase := by
  cases d with
  | type t => rfl
  | procedure p =>
      simp [eraseTypes, Procedure.eraseTypes, typeExprs, Function.comp_def, Parameter.erase,
        LocalVariable.erase]

/-- If two views determine an element, a list is determined by what they show of
its elements. -/
theorem eq_map_of_views {α β γ : Type} {view : α → β} {part : α → γ} {f : α → α}
    (hf : ∀ x y, view y = view x → part y = part (f x) → y = f x) {xs ys : List α}
    (hview : ys.map view = xs.map view) (hpart : ys.map part = xs.map fun x => part (f x)) :
    ys = xs.map f := by
  induction xs generalizing ys with
  | nil => exact List.map_eq_nil_iff.mp hview
  | cons x xs ih =>
      obtain ⟨y, ys, rfl, hfirst, hrest⟩ := List.map_eq_cons_iff.mp hview
      obtain ⟨hfirst', hrest'⟩ := List.cons.inj hpart
      rw [List.map_cons, hf x y hfirst hfirst', ih hrest hrest']

variable {identity : Nat → Nat} {scope : ScopeId → ScopeId}

theorem TypeDeclaration.eq_translate {t t' : TypeDeclaration} (herase : t'.erase = t.erase)
    (htype : t'.type = t.type.translate (.ofNumbers identity scope)) :
    t' = t.translate (.ofNumbers identity scope) := by
  have hname : t'.name = t.name := (congrArg TypeDeclaration.name herase :)
  have hposition : t'.position = t.position := (congrArg TypeDeclaration.position herase :)
  show t' = ⟨t.name, _, t.position⟩
  rw [← hname, ← htype, ← hposition]

theorem Parameter.eq_translate {p p' : Parameter} (herase : p'.erase = p.erase)
    (htype : p'.type = p.type.translate (.ofNumbers identity scope)) :
    p' = p.translate (.ofNumbers identity scope) := by
  have hname : p'.name = p.name := (congrArg Parameter.name herase :)
  have hreference : p'.byReference = p.byReference := (congrArg Parameter.byReference herase :)
  have hposition : p'.position = p.position := (congrArg Parameter.position herase :)
  show p' = ⟨p.name, _, p.byReference, p.position⟩
  rw [← hname, ← htype, ← hreference, ← hposition]

theorem LocalVariable.eq_translate {v v' : LocalVariable} (herase : v'.erase = v.erase)
    (htype : v'.type = v.type.translate (.ofNumbers identity scope)) :
    v' = v.translate (.ofNumbers identity scope) := by
  have hname : v'.name = v.name := (congrArg LocalVariable.name herase :)
  have hposition : v'.position = v.position := (congrArg LocalVariable.position herase :)
  show v' = ⟨v.name, _, v.position⟩
  rw [← hname, ← htype, ← hposition]

theorem Procedure.eq_translate {p p' : Procedure} (herase : p'.eraseTypes = p.eraseTypes)
    (htypes : p'.parameters.map Parameter.type ++ p'.locals.map LocalVariable.type =
      (p.parameters.map Parameter.type ++ p.locals.map LocalVariable.type).map
        (TypeExpr.translate (.ofNumbers identity scope)))
    (hbody : ∀ s ∈ p.body, s.Fresh) : p' = p.translate (.ofNumbers identity scope) := by
  have hname : p'.name = p.name := (congrArg Procedure.name herase :)
  have hposition : p'.position = p.position := (congrArg Procedure.position herase :)
  have herased : p'.parameters.map Parameter.erase = p.parameters.map Parameter.erase :=
    (congrArg Procedure.parameters herase :)
  have herased' : p'.locals.map LocalVariable.erase = p.locals.map LocalVariable.erase :=
    (congrArg Procedure.locals herase :)
  rw [List.map_append] at htypes
  obtain ⟨htypes, htypes'⟩ := List.append_inj htypes (by simpa using congrArg List.length herased)
  rw [List.map_map] at htypes htypes'
  have hparameters : p'.parameters = p.parameters.map (Parameter.translate _) :=
    eq_map_of_views (fun _ _ => Parameter.eq_translate) herased htypes
  have hlocals : p'.locals = p.locals.map (LocalVariable.translate _) :=
    eq_map_of_views (fun _ _ => LocalVariable.eq_translate) herased' htypes'
  -- Nothing is written into a body before it is checked.
  have hsame : p'.body = Stmt.translateAll (.ofNumbers identity scope) p.body := by
    rw [Stmt.translateAll_of_fresh _ _ hbody]
    exact (congrArg Procedure.body herase).trans (Stmt.relabelAll_identical p.body).symm
  show p' = ⟨p.name, _, _, _, p.position⟩
  rw [← hname, ← hparameters, ← hlocals, ← hsame, ← hposition]

theorem Declaration.eq_translate {d d' : Declaration} (herase : d'.eraseTypes = d.eraseTypes)
    (htypes : d'.typeExprs = d.typeExprs.map (TypeExpr.translate (.ofNumbers identity scope)))
    (hbody : ∀ q, d.procedure? = some q → ∀ s ∈ q.body, s.Fresh) :
    d' = d.translate (.ofNumbers identity scope) := by
  cases d with
  | type t =>
      cases d' with
      | procedure => cases herase
      | type t' =>
          exact congrArg Declaration.type (TypeDeclaration.eq_translate
            (Declaration.type.inj herase) (List.cons.inj htypes).1)
  | procedure p =>
      cases d' with
      | type => cases herase
      | procedure p' =>
          exact congrArg Declaration.procedure (Procedure.eq_translate
            (Declaration.procedure.inj herase) htypes (hbody p rfl))

/-! ### Runs -/

theorem TypeExpr.found_translate (m : Translation) (e : TypeExpr) :
    (e.translate m).found = e.found.translate m := by
  have hslot : ∀ slot : Slot, (slot.translate m).getD .int = (slot.getD .int).translate m := by
    rintro (_ | ty) <;> rfl
  cases e with
  | named name position slot => exact hslot slot
  | array size element position slot => exact hslot slot

/-- Wherever names mean types in both contents, they mean the same in translation. -/
def Contents.TypesFollow (m : Translation) (c c' : Contents) : Prop :=
  ∀ name ty ty', c.NamesType name ty → c'.NamesType name ty' → ty' = ty.translate m

theorem Contents.mem_names_of_namesType {c : Contents} {name : String} {ty : Ty}
    (h : c.NamesType name ty) : name ∈ c.names :=
  List.mem_map_of_mem (f := Prod.fst) h

theorem Contents.TypesFollow.enters {c c' c₁ c₁' : Contents} {d : Declaration}
    (hc : c.TypesFollow (.ofNumbers identity scope) c') (h : Enters c d c₁)
    (h' : Enters c' (d.translate (.ofNumbers identity scope)) c₁') :
    c₁.TypesFollow (.ofNumbers identity scope) c₁' := by
  intro name ty ty' hty hty'
  have hfree := h.not_mem_names
  have hfree' := h'.not_mem_names
  obtain hty | ⟨t, rfl, rfl, rfl⟩ := h.namesType_iff.mp hty <;>
    obtain hty' | ⟨t', ht', hname, rfl⟩ := h'.namesType_iff.mp hty'
  · exact hc name ty ty' hty hty'
  · -- A name that is new in one of them is new in the other.
    cases d with
    | procedure => cases ht'
    | type t =>
        obtain rfl := Declaration.type.inj ht'
        subst hname
        exact absurd (Contents.mem_names_of_namesType hty) hfree
  · exact absurd (Contents.mem_names_of_namesType hty') hfree'
  · obtain rfl := Declaration.type.inj ht'
    exact t.type.found_translate _

/-- Declarations that are entered again, with other numbers, are the given ones
in translation. -/
theorem Entered.eq_translate {c c' c₁ c₁' : Contents} {ds ds' : List Declaration}
    (hc : c.TypesFollow (.ofNumbers identity scope) c') (h : Entered c ds c₁)
    (h' : Entered c' ds' c₁')
    (herase : ds'.map Declaration.eraseTypes = ds.map Declaration.eraseTypes)
    (hidentities : (identitiesOf (ds.flatMap Declaration.typeExprs)).map identity =
      identitiesOf (ds'.flatMap Declaration.typeExprs))
    (hbodies : ∀ d ∈ ds, ∀ q, d.procedure? = some q → ∀ s ∈ q.body, s.Fresh) :
    ds' = ds.map (Declaration.translate (.ofNumbers identity scope)) := by
  induction h generalizing c' ds' with
  | nil => exact List.map_eq_nil_iff.mp herase
  | @cons c c₂ _ d ds h _ ih =>
      obtain ⟨d', ds', rfl, hfirst, hrest⟩ := List.map_eq_cons_iff.mp herase
      cases h' with
      | cons h' hs' =>
          rw [List.flatMap_cons, List.flatMap_cons, identitiesOf_append, identitiesOf_append,
            List.map_append] at hidentities
          have htypes : d'.typeExprs.map TypeExpr.erase = d.typeExprs.map TypeExpr.erase := by
            rw [← d.typeExprs_eraseTypes, ← d'.typeExprs_eraseTypes, hfirst]
          have hlength : ((identitiesOf d.typeExprs).map identity).length =
              (identitiesOf d'.typeExprs).length := by
            rw [List.length_map, length_identitiesOf h.resolved, length_identitiesOf h'.resolved,
              htypes]
          obtain ⟨hidentity, hothers⟩ := List.append_inj hidentities hlength
          obtain rfl : d' = d.translate (.ofNumbers identity scope) :=
            Declaration.eq_translate hfirst
              (eq_translate_of_resolved hc h.resolved h'.resolved htypes hidentity)
              (hbodies d List.mem_cons_self)
          rw [List.map_cons, ih (hc.enters h h') hs' hrest hothers fun d hd =>
            hbodies d (List.mem_cons_of_mem _ hd)]

theorem resolved_of_entered {c c' : Contents} {ds : List Declaration} (h : Entered c ds c') :
    ∀ e ∈ ds.flatMap Declaration.typeExprs, e.Resolved c'.NamesType e.found := by
  intro e he
  obtain ⟨d, hd, he⟩ := List.mem_flatMap.mp he
  exact Declaration.resolved_of_entered h hd e he

theorem map_erase_typeExprs (ds : List Declaration) :
    (ds.flatMap Declaration.typeExprs).map TypeExpr.erase =
      (ds.map Declaration.eraseTypes).flatMap Declaration.typeExprs := by
  rw [List.map_flatMap, List.flatMap_map]
  exact List.flatMap_congr fun d _ => d.typeExprs_eraseTypes.symm

/-- What is entered twice has as many array types, so those of one run can be
numbered as those of the other. -/
theorem Entered.exists_eq_translate {library : Library} {c c' : Contents}
    {ds ds' : List Declaration} (h : Entered library.contents ds c)
    (h' : Entered library.contents ds' c')
    (herase : ds'.map Declaration.eraseTypes = ds.map Declaration.eraseTypes)
    {first first' next next' : Nat}
    (hnumbered : Numbered first next (identitiesOf (ds.flatMap Declaration.typeExprs)))
    (hnumbered' : Numbered first' next' (identitiesOf (ds'.flatMap Declaration.typeExprs)))
    (hbodies : ∀ d ∈ ds, ∀ q, d.procedure? = some q → ∀ s ∈ q.body, s.Fresh) :
    ∃ σ : Equiv.Perm Nat, ∀ scope,
      ds' = ds.map (Declaration.translate (.ofNumbers σ scope)) := by
  have hlength : (identitiesOf (ds.flatMap Declaration.typeExprs)).length =
      (identitiesOf (ds'.flatMap Declaration.typeExprs)).length := by
    rw [length_identitiesOf (resolved_of_entered h), length_identitiesOf (resolved_of_entered h'),
      map_erase_typeExprs, map_erase_typeExprs, herase]
  obtain ⟨σ, hσ⟩ := hnumbered.exists_perm hnumbered' hlength
  refine ⟨σ, fun scope => h.eq_translate (fun name ty ty' hty hty' => ?_) h' herase hσ hbodies⟩
  obtain ⟨-, rfl⟩ := library.namesType_contents.mp hty
  obtain ⟨-, rfl⟩ := library.namesType_contents.mp hty'
  rfl

end Spl
