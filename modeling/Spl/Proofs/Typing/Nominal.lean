import Spl.Proofs.Program.Fitting
import Spl.Proofs.Program.Layout
import Spl.Proofs.Typing.Acceptance
import Spl.Proofs.Typing.Origin

/-!
Array types are nominal. In a program that was analysed without error, two
nodes carry the same array type exactly if they have the same origin.
-/

namespace Spl

open Outcome

/-! ### Nodes of type expressions -/

namespace TypeExpr

variable {e : TypeExpr}

theorem nodes_zero (e : TypeExpr) : e.nodes[0]? = some e := by
  cases e <;> rfl

/-- Inside of an array type expression is that of its elements. -/
theorem nodes_succ {k : Nat} {size : UInt32} {element : TypeExpr} {position : Position}
    {slot : Slot}
    (h : e.nodes[k]? = some (.array size element position slot)) :
    e.nodes[k + 1]? = some element := by
  induction e generalizing k with
  | named name position' slot' =>
      rw [nodes, List.getElem?_singleton] at h
      split at h
      · cases h
      · cases h
  | array size' element' position' slot' ih =>
      rw [nodes] at h ⊢
      cases k with
      | zero =>
          cases h
          exact nodes_zero _
      | succ k => exact ih h

end TypeExpr

/-! ### Sites -/

namespace Program

variable {p : Program} {site : TypeSite} {e : TypeExpr}

theorem typeAt_eq_some_iff :
    p.typeAt site = some e ↔ ∃ d root, p.declarations[site.declaration]? = some d ∧
      d.typeExprs[site.part]? = some root ∧ root.nodes[site.depth]? = some e := by
  simp [typeAt, Option.bind_eq_some_iff]

theorem typeAt_root {i j : Nat} {d : Declaration} (hd : p.declarations[i]? = some d)
    (he : d.typeExprs[j]? = some e) : p.typeAt ⟨i, j, 0⟩ = some e :=
  typeAt_eq_some_iff.mpr ⟨d, e, hd, he, e.nodes_zero⟩

theorem typeAt_element {size : UInt32} {element : TypeExpr} {position : Position} {slot : Slot}
    (h : p.typeAt site = some (.array size element position slot)) :
    p.typeAt site.element = some element := by
  obtain ⟨d, root, hd, hroot, hnode⟩ := typeAt_eq_some_iff.mp h
  exact typeAt_eq_some_iff.mpr ⟨d, root, hd, hroot, TypeExpr.nodes_succ hnode⟩

/-- What is known of a program and its table after an analysis. -/
structure Analysed (library : Library) (c : Contents) (table : SymbolTable) (p : Program) :
    Prop where
  entered : Entered library.contents p.declarations c
  holds : table.Holds c.scopes
  nodup : (identitiesOf (p.declarations.flatMap Declaration.typeExprs)).Nodup
  annotated : ∀ q ∈ p.procedures, q.Annotated table

/-- The array type that is made at a site. -/
inductive Makes (p : Program) : TypeSite → Ty → Prop
  | mk {site : TypeSite} {size : UInt32} {element : TypeExpr} {position : Position}
      {identity : Nat} {elementTy : Ty}
      (h : p.typeAt site =
        some (.array size element position (some (.array identity size elementTy)))) :
      Makes p site (.array identity size elementTy)

section Sites

variable {library : Library} {c : Contents} {table : SymbolTable} {o : TypeSite}

theorem Analysed.resolved (h : p.Analysed library c table) (he : p.typeAt site = some e) :
    e.Resolved c.NamesType e.found := by
  obtain ⟨d, root, hd, hroot, hnode⟩ := typeAt_eq_some_iff.mp he
  have hresolved := Declaration.resolved_of_entered h.entered (List.mem_of_getElem? hd) root
    (List.mem_of_getElem? hroot)
  exact hresolved.of_mem_nodes (List.mem_of_getElem? hnode)

/-- No identity is made twice. -/
theorem Analysed.site_unique (h : p.Analysed library c table) {site' : TypeSite} {e' : TypeExpr}
    {identity : Nat} (he : p.typeAt site = some e) (he' : p.typeAt site' = some e')
    (hidentity : e.identity? = some identity) (hidentity' : e'.identity? = some identity) :
    site = site' := by
  obtain ⟨d, root, hd, hroot, hnode⟩ := typeAt_eq_some_iff.mp he
  obtain ⟨d', root', hd', hroot', hnode'⟩ := typeAt_eq_some_iff.mp he'
  have hmem : identity ∈ root.identities :=
    List.mem_filterMap.mpr ⟨e, List.mem_of_getElem? hnode, hidentity⟩
  have hmem' : identity ∈ root'.identities :=
    List.mem_filterMap.mpr ⟨e', List.mem_of_getElem? hnode', hidentity'⟩
  have hall : (p.declarations.flatMap fun d => d.typeExprs.flatMap TypeExpr.identities).Nodup := by
    rw [← List.flatMap_assoc]
    exact h.nodup
  have hin : identity ∈ d.typeExprs.flatMap TypeExpr.identities :=
    List.mem_flatMap.mpr ⟨root, List.mem_of_getElem? hroot, hmem⟩
  have hin' : identity ∈ d'.typeExprs.flatMap TypeExpr.identities :=
    List.mem_flatMap.mpr ⟨root', List.mem_of_getElem? hroot', hmem'⟩
  have hdeclaration := index_unique_of_nodup_flatMap hall hd hd' hin hin'
  obtain rfl : d = d' := by simpa [hdeclaration, hd'] using hd.symm
  have hpart := index_unique_of_nodup_flatMap
    ((List.nodup_flatMap.mp hall).1 d (List.mem_of_getElem? hd)) hroot hroot' hmem hmem'
  obtain rfl : root = root' := by simpa [hpart, hroot'] using hroot.symm
  have hdepth := index_unique_of_nodup_filterMap
    ((List.nodup_flatMap.mp ((List.nodup_flatMap.mp hall).1 d (List.mem_of_getElem? hd))).1 root
      (List.mem_of_getElem? hroot)) hnode hnode' hidentity hidentity'
  cases site
  cases site'
  simp_all

namespace Makes

variable {site' : TypeSite} {ty ty' : Ty}

theorem isArray (h : p.Makes site ty) : ty.isArray = true := by
  cases h
  rfl

/-- Different sites make different types. -/
theorem same_iff (hp : p.Analysed library c table) (h : p.Makes site ty)
    (h' : p.Makes site' ty') : ty.same ty' = true ↔ site = site' := by
  cases h with
  | mk h =>
      cases h' with
      | mk h' =>
          constructor
          · intro hsame
            obtain rfl := beq_iff_eq.mp hsame
            exact hp.site_unique h h' rfl rfl
          · rintro rfl
            obtain heq := Option.some.inj (h.symm.trans h')
            cases heq
            exact Ty.same_self _

/-- An array has the elements that its expression says. -/
theorem element {identity : Nat} {size : UInt32} {elementTy : Ty} (hp : p.Analysed library c table)
    (h : p.Makes site (.array identity size elementTy)) :
    ∃ e, p.typeAt site.element = some e ∧ e.found = elementTy := by
  cases h with
  | mk h =>
      refine ⟨_, typeAt_element h, ?_⟩
      cases hp.resolved h with
      | array helement => exact helement.found_eq

end Makes

/-- The type of a type expression is made at its origin. -/
theorem Origin.makes (hp : p.Analysed library c table) (h : p.Origin site o)
    (he : p.typeAt site = some e) {ty : Ty} (hty : e.Resolved c.NamesType ty) : p.Makes o ty := by
  induction h generalizing e ty with
  | array h =>
      obtain rfl := Option.some.inj (h.symm.trans he)
      cases hty with
      | array helement => exact .mk he
  | @named site o position slot i t h ht _ ih =>
      obtain rfl := Option.some.inj (h.symm.trans he)
      have ht' : p.typeAt ⟨i, 0, 0⟩ = some t.type := typeAt_root ht rfl
      have hmeans : c.NamesType t.name t.type.found :=
        (hp.entered.mem_type (List.mem_of_getElem? ht)).1
      cases hty with
      | named hname =>
          rw [hp.entered.namesType_unique hname hmeans]
          exact ih ht' (hp.resolved ht')

theorem exists_origin_of_isArray {earlier : List Declaration} (h : e.IsArray earlier)
    (hearlier : earlier <+: p.declarations) (he : p.typeAt site = some e) :
    ∃ o, p.Origin site o := by
  induction h generalizing site with
  | array => exact ⟨site, .array he⟩
  | @named before after t position slot _ ih =>
      obtain ⟨rest, hdeclarations⟩ := hearlier
      have ht : p.declarations[before.length]? = some (.type t) := by
        rw [← hdeclarations]
        simp
      have hbefore : before <+: p.declarations :=
        ⟨.type t :: after ++ rest, by rw [← hdeclarations]; simp⟩
      have ht' : p.typeAt ⟨before.length, 0, 0⟩ = some t.type := typeAt_root ht rfl
      obtain ⟨o, ho⟩ := ih hbefore ht'
      exact ⟨o, .named he ht ho⟩

theorem Origin.exists_typeAt (h : p.Origin site o) : ∃ e, p.typeAt site = some e := by
  cases h with
  | array h => exact ⟨_, h⟩
  | named h _ _ => exact ⟨_, h⟩

/-- What stands for an array has an origin. -/
theorem exists_origin (hp : p.Analysed library c table) (he : p.typeAt site = some e)
    (harray : e.found.isArray = true) : ∃ o, p.Origin site o :=
  exists_origin_of_isArray ((hp.entered.isArray_iff (hp.resolved he)).mp harray)
    (List.prefix_refl _) he

end Sites

end Program

/-! ### Variables -/

namespace Procedure

/-- The parameters and variables of a procedure alike: the name, the type
expression, and whether it is a reference. -/
def declared (p : Procedure) : List (String × TypeExpr × Bool) :=
  p.parameters.map (fun q => (q.name, q.type, q.byReference)) ++
    p.locals.map fun v => (v.name, v.type, false)

theorem localNames_eq (p : Procedure) : p.localNames = p.declared.map fun x => x.1 := by
  rw [declared, List.map_append, List.map_map, List.map_map]
  rfl

theorem typeExprs_eq (p : Procedure) :
    (Declaration.procedure p).typeExprs = p.declared.map fun x => x.2.1 := by
  rw [declared, List.map_append, List.map_map, List.map_map]
  rfl

theorem getElem?_typeExprs {p : Procedure} {j : Nat} {x : String × TypeExpr × Bool}
    (hj : p.declared[j]? = some x) : (Declaration.procedure p).typeExprs[j]? = some x.2.1 := by
  rw [typeExprs_eq, List.getElem?_map, hj, Option.map_some]

theorem bindings_eq (p : Procedure) :
    p.bindings = p.declared.map fun x => (x.1, .var x.2.1.found x.2.2) := by
  rw [declared, List.map_append, List.map_map, List.map_map]
  rfl

end Procedure

namespace Program

variable {p : Program} {library : Library} {c : Contents} {table : SymbolTable} {i k : Nat}
  {q : Procedure} {v : Variable} {o : TypeSite} {ty : Ty}

/-- The names of parameters and variables mean what they are declared as. -/
theorem Analysed.means_iff (hp : p.Analysed library c table)
    (hq : p.declarations[i]? = some (.procedure q)) (hk : c.locals[k]? = some q.bindings)
    {name : String} :
    (∃ byReference, Context.Means ⟨table, ⟨k + 1⟩⟩ name (.var ty byReference)) ↔
      ∃ (j : Nat) (e : TypeExpr), q.localNames[j]? = some name ∧
        p.typeAt ⟨i, j, 0⟩ = some e ∧ e.found = ty := by
  have hglobal : ∀ byReference, (name, .var ty byReference) ∉ c.globals := by
    intro byReference hmem
    have horderly := (Contents.Orderly.library library).entered hp.entered
    obtain ⟨_, hentry, -⟩ | ⟨_, hentry, -⟩ := horderly.globals _ hmem
    · cases hentry
    · cases hentry
  have hmeans : ∀ byReference, Context.Means ⟨table, ⟨k + 1⟩⟩ name (.var ty byReference) ↔
      (name, .var ty byReference) ∈ q.bindings := by
    intro byReference
    rw [Context.Means, hp.holds.nearest_iff hk]
    simp [hglobal]
  simp only [hmeans]
  constructor
  · rintro ⟨byReference, hmem⟩
    rw [q.bindings_eq] at hmem
    obtain ⟨x, hx, hxentry⟩ := List.mem_map.mp hmem
    obtain ⟨j, hj⟩ := List.mem_iff_getElem?.mp hx
    refine ⟨j, x.2.1, ?_, typeAt_root hq (Procedure.getElem?_typeExprs hj), ?_⟩
    · rw [q.localNames_eq, List.getElem?_map, hj, Option.map_some]
      exact congrArg (fun b : Binding => some b.1) hxentry
    · exact (Entry.var.inj (congrArg Prod.snd hxentry)).1
  · rintro ⟨j, e, hname, he, rfl⟩
    rw [q.localNames_eq, List.getElem?_map, Option.map_eq_some_iff] at hname
    obtain ⟨x, hj, rfl⟩ := hname
    have hx := typeAt_root hq (Procedure.getElem?_typeExprs hj)
    obtain rfl : x.2.1 = e := Option.some.inj (hx.symm.trans he)
    refine ⟨x.2.2, ?_⟩
    rw [q.bindings_eq]
    exact List.mem_map.mpr ⟨x, List.mem_of_getElem? hj, rfl⟩

/-- The type of a variable is made at its origin. -/
theorem VariableOrigin.makes (hp : p.Analysed library c table)
    (hq : p.declarations[i]? = some (.procedure q)) (hk : c.locals[k]? = some q.bindings)
    (h : p.VariableOrigin i q v o) (hty : v.HasType ⟨table, ⟨k + 1⟩⟩ ty) : p.Makes o ty := by
  induction h generalizing ty with
  | @named name position slot j o hj ho =>
      obtain ⟨e, he⟩ := ho.exists_typeAt
      obtain ⟨byReference, hdeclared⟩ := (hp.means_iff hq hk).mpr ⟨j, e, hj, he, rfl⟩
      cases hty with
      | named hname =>
          obtain ⟨rfl, -⟩ := Entry.var.inj (Context.Means.unique hname hdeclared)
          exact ho.makes hp he (hp.resolved he)
  | @element array index position slot a o ha ho ih =>
      cases hty with
      | element harray hindex =>
          obtain ⟨e, he, rfl⟩ := (ih harray).element hp
          exact ho.makes hp he (hp.resolved he)

/-- Every variable of an array type has an origin. -/
theorem exists_variableOrigin (hp : p.Analysed library c table)
    (hq : p.declarations[i]? = some (.procedure q)) (hk : c.locals[k]? = some q.bindings)
    {ty : Ty} :
    (v : Variable) → v.HasType ⟨table, ⟨k + 1⟩⟩ ty → ty.isArray = true →
      ∃ o, p.VariableOrigin i q v o
  | .named name position slot, .named hname, harray => by
      obtain ⟨j, e, hj, he, rfl⟩ := (hp.means_iff hq hk).mp ⟨_, hname⟩
      obtain ⟨o, ho⟩ := exists_origin hp he harray
      exact ⟨o, .named hj ho⟩
  | .element array index position slot, .element ha hi, harray => by
      obtain ⟨a, horigin⟩ := exists_variableOrigin hp hq hk array ha rfl
      obtain ⟨e, he, rfl⟩ := (horigin.makes hp hq hk ha).element hp
      obtain ⟨o, ho⟩ := exists_origin hp he harray
      exact ⟨o, .element horigin ho⟩

/-! ### Nodes -/

/-- The nodes of a body have the types that they carry, in the scope of the
procedure. -/
theorem Analysed.spot_hasType (hp : p.Analysed library c table)
    (hq : p.declarations[i]? = some (.procedure q)) {spot : Spot} (hspot : spot ∈ q.spots)
    (hty : spot.ty = some ty) :
    ∃ k, c.locals[k]? = some q.bindings ∧ spot.HasType ⟨table, ⟨k + 1⟩⟩ ty := by
  have hmem := List.mem_of_getElem? hq
  obtain ⟨k, hglobal, hk, -⟩ := hp.entered.exists_procedure hmem
  obtain ⟨signature, hget, hspots⟩ := hp.annotated q (mem_procedures_iff.mpr hmem)
  have hget' := hp.holds.get_global_iff.mpr hglobal
  rw [hget] at hget'
  cases hget'
  obtain ⟨ty', htype, hslot⟩ := hspots spot hspot
  obtain rfl := Option.some.inj (hslot.symm.trans hty)
  exact ⟨k, hk, htype⟩

variable {node : Node}

/-- The type of a node is made at its origin. -/
theorem NodeOrigin.makes (hp : p.Analysed library c table) (h : p.NodeOrigin node o)
    (hnode : p.Carries node ty) : p.Makes o ty := by
  cases h with
  | type ho =>
      cases hnode with
      | type he hty =>
          obtain rfl := Option.some.inj ((hp.resolved he).ty_eq.symm.trans hty)
          exact ho.makes hp he (hp.resolved he)
  | var hq ho =>
      cases hnode with
      | body hq' hspot hty =>
          obtain ⟨rfl⟩ := Declaration.procedure.inj (Option.some.inj (hq.symm.trans hq'))
          obtain ⟨k, hk, htype⟩ := hp.spot_hasType hq hspot hty
          exact ho.makes hp hq hk htype
  | expr hq ho =>
      cases hnode with
      | body hq' hspot hty =>
          obtain ⟨rfl⟩ := Declaration.procedure.inj (Option.some.inj (hq.symm.trans hq'))
          obtain ⟨k, hk, htype⟩ := hp.spot_hasType hq hspot hty
          cases htype with
          | var htype => exact ho.makes hp hq hk htype

/-- Every node of an array type has an origin. Only variables are expressions
of such a type. -/
theorem exists_nodeOrigin (hp : p.Analysed library c table) (h : p.Carries node ty)
    (harray : ty.isArray = true) : ∃ o, p.NodeOrigin node o := by
  cases h with
  | type he hty =>
      obtain rfl := Option.some.inj ((hp.resolved he).ty_eq.symm.trans hty)
      obtain ⟨o, ho⟩ := exists_origin hp he harray
      exact ⟨o, .type ho⟩
  | @body i q spot _ hq hspot hty =>
      obtain ⟨k, hk, htype⟩ := hp.spot_hasType hq hspot hty
      cases spot with
      | var place v =>
          obtain ⟨o, ho⟩ := exists_variableOrigin hp hq hk v htype harray
          exact ⟨o, .var hq ho⟩
      | expr place e =>
          cases htype with
          | var hv =>
              obtain ⟨o, ho⟩ := exists_variableOrigin hp hq hk _ hv harray
              exact ⟨o, .expr hq ho⟩
          | int | minus _ | arithmetic _ _ _ | comparison _ _ _ => cases harray

end Program

/-! ### Analyses -/

/-- Bodies have no part in what is entered. -/
theorem enters_eraseBody_iff {c c' : Contents} {d : Declaration} :
    Enters c d.eraseBody c' ↔ Enters c d c' := by
  cases d with
  | type t => rfl
  | procedure p =>
      constructor
      · intro h
        cases h with
        | procedure hdeclared hfree =>
            exact .procedure (p := p)
              ⟨hdeclared.parameters, hdeclared.locals, hdeclared.nodup⟩ hfree
      · intro h
        cases h with
        | procedure hdeclared hfree =>
            exact .procedure (p := p.eraseBody)
              ⟨hdeclared.parameters, hdeclared.locals, hdeclared.nodup⟩ hfree

theorem entered_eraseBody_iff {c c' : Contents} {ds : List Declaration} :
    Entered c (ds.map Declaration.eraseBody) c' ↔ Entered c ds c' := by
  induction ds generalizing c with
  | nil => rfl
  | cons d ds ih =>
      constructor
      · intro h
        cases h with
        | cons hd hds => exact .cons (enters_eraseBody_iff.mp hd) (ih.mp hds)
      · intro h
        cases h with
        | cons hd hds => exact .cons (enters_eraseBody_iff.mpr hd) (ih.mpr hds)

theorem Program.analysed_of_analyze {source file : String} {options : Options} {p : Program}
    {table : SymbolTable} (h : (analyze source file options).result = .ok (p, table)) :
    ∃ c, p.Analysed options.library c table := by
  obtain ⟨tokens, rest, parsed, hphases, rfl⟩ := phases_of_analyze h
  have hsettled :=
    Program.settles_built options (Program.fresh_of_parse hphases.parse_eq) 0 .unlimited
  obtain ⟨hregular, -, hbodies⟩ := hsettled.of_ok hphases.buildTable_eq
  obtain ⟨built, d, c, hyields, hentered, hholds, -, hnumbered⟩ :=
    Program.entered_of_buildTable hphases.buildTable_eq
  have hafter : (parsed.buildTable options 0 .unlimited).after.1 = built :=
    congrArg Prod.fst hyields.after_eq
  have hcheck := hphases.check_eq
  rw [hafter] at hbodies hcheck ⊢
  -- The checker leaves the type expressions as they were.
  have herase : (built.check table).after.declarations.map Declaration.eraseBody =
      built.declarations.map Declaration.eraseBody :=
    congrArg Program.declarations (Program.leaves_check table built)
  refine ⟨c, ?_, hholds, ?_, (Program.after_check_of_ok hregular hbodies hcheck).2⟩
  · rwa [← entered_eraseBody_iff, herase, entered_eraseBody_iff]
  · have htypes : ∀ ds : List Declaration,
        (ds.map Declaration.eraseBody).flatMap Declaration.typeExprs =
          ds.flatMap Declaration.typeExprs := by
      intro ds
      simp [List.flatMap_map, Declaration.typeExprs_eraseBody]
    rw [← htypes, herase, htypes]
    exact hnumbered.nodup

/-- In a program that was analysed without error the nodes that carry array
types are those that have an origin, and two of them carry the same type
exactly if they have the same origin. So no two array type expressions stand
for the same type, whatever their sizes and elements, and names of types make
no difference. -/
theorem same_iff_origin_of_analyze {source file : String} {options : Options} {p : Program}
    {table : SymbolTable} (h : (analyze source file options).result = .ok (p, table)) :
    (∀ node ty, p.Carries node ty → (ty.isArray = true ↔ ∃ o, p.NodeOrigin node o)) ∧
    ∀ node₁ node₂ ty₁ ty₂ o₁ o₂, p.Carries node₁ ty₁ → p.Carries node₂ ty₂ →
      p.NodeOrigin node₁ o₁ → p.NodeOrigin node₂ o₂ → (ty₁.same ty₂ = true ↔ o₁ = o₂) := by
  obtain ⟨c, hp⟩ := Program.analysed_of_analyze h
  refine ⟨fun node ty hnode => ⟨Program.exists_nodeOrigin hp hnode, ?_⟩, ?_⟩
  · rintro ⟨o, ho⟩
    exact (ho.makes hp hnode).isArray
  · intro node₁ node₂ ty₁ ty₂ o₁ o₂ hnode₁ hnode₂ ho₁ ho₂
    exact (ho₁.makes hp hnode₁).same_iff hp (ho₂.makes hp hnode₂)

/-- Two arrays of the same size and elements have origins of their own. An alias has
that of the type that it names, a variable that of its declared type, and an element
that of the type of the elements, also where it is passed. The index has none. -/
theorem origins_alias : ∃ p table q b access argument index o₁ o₂ o₃,
    (analyze "type V = array [2] of int;
      type W = array [2] of int;
      type U = V;
      proc g(ref a: U) \x7b \x7d
      proc main() \x7b var b: array [3] of V; g(b[0]); \x7d" "a.spl" .default).result =
        .ok (p, table) ∧
    p.declarations[4]? = some (.procedure q) ∧
    q.spots = [.expr (.argument "g" 0) argument, .var (.read (.argument "g" 0)) access,
      .var .indexed b, .expr .index index] ∧
    o₁ ≠ o₂ ∧ o₁ ≠ o₃ ∧ o₂ ≠ o₃ ∧
    (∀ node ∈ [.type ⟨0, 0, 0⟩, .type ⟨2, 0, 0⟩, .body 4 (.var (.read (.argument "g" 0)) access),
      .body 4 (.expr (.argument "g" 0) argument)], ∀ o, p.NodeOrigin node o ↔ o = o₁) ∧
    (∀ o, p.NodeOrigin (.type ⟨1, 0, 0⟩) o ↔ o = o₂) ∧
    (∀ node ∈ [.type ⟨4, 0, 0⟩, .body 4 (.var .indexed b)], ∀ o, p.NodeOrigin node o ↔ o = o₃) ∧
    ∀ o, ¬ p.NodeOrigin (.body 4 (.expr .index index)) o := by
  let v : Ty := .array 0 2 .int
  let w : Ty := .array 1 2 .int
  let vs : Ty := .array 2 3 v
  let b : Variable := .named "b" ⟨150, "a.spl"⟩ (some vs)
  let index : Expr := .int 0 ⟨152, "a.spl"⟩ (some .int)
  let access : Variable := .element b index ⟨150, "a.spl"⟩ (some v)
  let argument : Expr := .var access ⟨150, "a.spl"⟩ (some v)
  let spots : List Spot := [.expr (.argument "g" 0) argument, .var (.read (.argument "g" 0)) access,
    .var .indexed b, .expr .index index]
  have haccepted : (analyze "type V = array [2] of int;
      type W = array [2] of int;
      type U = V;
      proc g(ref a: U) \x7b \x7d
      proc main() \x7b var b: array [3] of V; g(b[0]); \x7d"
      "a.spl" .default).result.toOption.map (fun found =>
        ([0, 1, 2, 4].map fun i => (found.1.typeAt ⟨i, 0, 0⟩).bind TypeExpr.ty,
          (found.1.declarations[4]?.bind Declaration.procedure?).map Procedure.spots)) =
      some ([some v, some w, some v, some vs], some spots) := by
    decide +kernel
  obtain ⟨p, table, hanalyze, hview⟩ := exists_analyze_of_map haccepted
  obtain ⟨htypes, hbody⟩ := Prod.mk.inj hview
  obtain ⟨q, hq, hspots⟩ := Option.map_eq_some_iff.mp hbody
  have hmain : p.declarations[4]? = some (.procedure q) := by
    obtain ⟨d, hd, hprocedure⟩ := Option.bind_eq_some_iff.mp hq
    cases d with
    | type t => cases hprocedure
    | procedure r => exact Option.some.inj hprocedure ▸ hd
  have hcarries : ∀ i ty, (p.typeAt ⟨i, 0, 0⟩).bind TypeExpr.ty = some ty →
      p.Carries (.type ⟨i, 0, 0⟩) ty := by
    intro i ty hty
    obtain ⟨e, he, hslot⟩ := Option.bind_eq_some_iff.mp hty
    exact .type he hslot
  have hcarries' : ∀ spot ∈ spots, ∀ ty, spot.ty = some ty → p.Carries (.body 4 spot) ty :=
    fun spot hspot ty hty => .body hmain (hspots ▸ hspot) hty
  simp only [List.map_cons, List.map_nil, List.cons.injEq, and_true] at htypes
  simp only [spots, List.forall_mem_cons] at hcarries'
  obtain ⟨hv, hw, hu, hvs⟩ := htypes
  obtain ⟨hargument, haccess, hb, hindex, -⟩ := hcarries'
  obtain ⟨horigin, hsame⟩ := same_iff_origin_of_analyze hanalyze
  obtain ⟨o₁, ho₁⟩ := (horigin _ _ (hcarries 0 _ hv)).mp rfl
  obtain ⟨o₂, ho₂⟩ := (horigin _ _ (hcarries 1 _ hw)).mp rfl
  obtain ⟨o₃, ho₃⟩ := (horigin _ _ (hcarries 4 _ hvs)).mp rfl
  -- A node has the origin of another one that carries the same type, and no other origin.
  have hsole : ∀ {node node' ty o'}, p.Carries node ty → p.Carries node' ty →
      p.NodeOrigin node' o' → ∀ o, p.NodeOrigin node o ↔ o = o' := by
    intro node node' ty o' hnode hnode' ho' o
    have harray := (horigin _ _ hnode').mpr ⟨o', ho'⟩
    obtain ⟨o'', ho''⟩ := (horigin _ _ hnode).mp harray
    have heq : ∀ o, p.NodeOrigin node o → o = o' := fun o ho =>
      (hsame _ _ _ _ _ _ hnode hnode' ho ho').mp ty.same_self
    exact ⟨heq o, fun h => h ▸ heq o'' ho'' ▸ ho''⟩
  refine ⟨p, table, q, b, access, argument, index, o₁, o₂, o₃, hanalyze, hmain, hspots,
    ?_, ?_, ?_, ?_, hsole (hcarries 1 _ hw) (hcarries 1 _ hw) ho₂, ?_, ?_⟩
  · intro heq
    exact absurd ((hsame _ _ _ _ _ _ (hcarries 0 _ hv) (hcarries 1 _ hw) ho₁ ho₂).mpr heq)
      (by decide)
  · intro heq
    exact absurd ((hsame _ _ _ _ _ _ (hcarries 0 _ hv) (hcarries 4 _ hvs) ho₁ ho₃).mpr heq)
      (by decide)
  · intro heq
    exact absurd ((hsame _ _ _ _ _ _ (hcarries 1 _ hw) (hcarries 4 _ hvs) ho₂ ho₃).mpr heq)
      (by decide)
  · simp only [List.forall_mem_cons]
    exact ⟨hsole (hcarries 0 _ hv) (hcarries 0 _ hv) ho₁,
      hsole (hcarries 2 _ hu) (hcarries 0 _ hv) ho₁,
      hsole (haccess _ rfl) (hcarries 0 _ hv) ho₁, hsole (hargument _ rfl) (hcarries 0 _ hv) ho₁,
      List.forall_mem_nil _⟩
  · simp only [List.forall_mem_cons]
    exact ⟨hsole (hcarries 4 _ hvs) (hcarries 4 _ hvs) ho₃, hsole (hb _ rfl) (hcarries 4 _ hvs) ho₃,
      List.forall_mem_nil _⟩
  · intro o ho
    exact absurd ((horigin _ _ (hindex _ rfl)).mpr ⟨o, ho⟩) (by decide)

end Spl
