import Spl.Proofs.Typing.Acceptance

/-!
Where booleans and arrays occur. In a program that was analysed without error
conditions are the only booleans. An array is only indexed or passed as a
whole, and then by reference, to a parameter of the same array type. All that
is assigned and all indices are integers.
-/

namespace Spl

/-! ### What a place admits -/

/-- What the rules of typing ask of an expression for the sake of its place. -/
def ExprPlace.Admits (Γ : Context) (e : Expr) : ExprPlace → Prop
  | condition => e.HasType Γ .bool
  | assigned => e.HasType Γ .int
  | operand => e.HasType Γ .int
  | index => e.HasType Γ .int
  | argument procedure i =>
    ∃ signature formal, Γ.Means procedure (.procedure signature) ∧
      signature.formals[i]? = some formal ∧ formal.Takes Γ e

/-- What the rules of typing ask of a variable for the sake of its place. -/
def VariablePlace.Admits (Γ : Context) (v : Variable) : VariablePlace → Prop
  | target => v.HasType Γ .int
  | read place => ∃ position slot, place.Admits Γ (.var v position slot)
  | indexed => True

def Spot.Admitted (Γ : Context) : Spot → Prop
  | expr place e => place.Admits Γ e
  | var place v => place.Admits Γ v

variable {Γ : Context}

mutual

theorem Expr.admitted_of_hasType {ty : Ty} :
    (e : Expr) → e.HasType Γ ty → (place : ExprPlace) → place.Admits Γ e →
      ∀ spot ∈ e.spots place, spot.Admitted Γ
  | .int value position slot, _, place, hplace => by
      rw [Expr.spots]
      exact List.forall_mem_singleton.mpr hplace
  | .var v position slot, .var h, place, hplace => by
      rw [Expr.spots]
      exact List.forall_mem_cons.mpr
        ⟨hplace, Variable.admitted_of_hasType v h (.read place) ⟨position, slot, hplace⟩⟩
  | .unary _ operand position slot, .minus h, place, hplace => by
      rw [Expr.spots]
      exact List.forall_mem_cons.mpr
        ⟨hplace, Expr.admitted_of_hasType operand h .operand h⟩
  | .binary op left right position slot, h, place, hplace => by
      obtain ⟨hl, hr, -⟩ := Expr.hasType_binary_iff.mp h
      rw [Expr.spots]
      exact List.forall_mem_cons.mpr ⟨hplace, List.forall_mem_append.mpr
        ⟨Expr.admitted_of_hasType left hl .operand hl,
          Expr.admitted_of_hasType right hr .operand hr⟩⟩

theorem Variable.admitted_of_hasType {ty : Ty} :
    (v : Variable) → v.HasType Γ ty → (place : VariablePlace) → place.Admits Γ v →
      ∀ spot ∈ v.spots place, spot.Admitted Γ
  | .named name position slot, _, place, hplace => by
      rw [Variable.spots]
      exact List.forall_mem_singleton.mpr hplace
  | .element array index position slot, .element ha hi, place, hplace => by
      rw [Variable.spots]
      exact List.forall_mem_cons.mpr ⟨hplace, List.forall_mem_append.mpr
        ⟨Variable.admitted_of_hasType array ha .indexed trivial,
          Expr.admitted_of_hasType index hi .index hi⟩⟩

end

theorem admitted_of_takes {procedure : String} {signature : Signature} {arguments : List Expr}
    (hp : Γ.Means procedure (.procedure signature))
    (ha : List.Forall₂ (Formal.Takes Γ) signature.formals arguments) :
    ∀ spot ∈ argumentSpots procedure 0 arguments, spot.Admitted Γ := by
  intro spot hspot
  obtain ⟨i, e, he, hspot⟩ := mem_argumentSpots.mp hspot
  rw [Nat.zero_add] at hspot
  obtain ⟨hi, rfl⟩ := List.getElem?_eq_some_iff.mp he
  have hi' : i < signature.formals.length := by rwa [ha.length_eq]
  obtain ⟨ty, hty, htake⟩ := ha.get hi' hi
  refine Expr.admitted_of_hasType _ hty _ ?_ spot hspot
  exact ⟨signature, signature.formals[i], hp, List.getElem?_eq_getElem hi', ty, hty, htake⟩

mutual

theorem Stmt.admitted_of_wellTyped :
    (s : Stmt) → s.WellTyped Γ → ∀ spot ∈ s.spots, spot.Admitted Γ
  | .empty _, _ => fun _ hspot => absurd hspot List.not_mem_nil
  | .compound body _, .compound h => admitted_of_all_wellTyped body h
  | .assign target value _, .assign ht hv =>
      List.forall_mem_append.mpr ⟨Variable.admitted_of_hasType target ht .target ht,
        Expr.admitted_of_hasType value hv .assigned hv⟩
  | .call _ _ _, .call hp ha => admitted_of_takes hp ha
  | .conditional condition thenBranch elseBranch _, .conditional hc ht he =>
      List.forall_mem_append.mpr ⟨Expr.admitted_of_hasType condition hc .condition hc,
        List.forall_mem_append.mpr ⟨Stmt.admitted_of_wellTyped thenBranch ht,
          Stmt.admitted_of_wellTyped elseBranch he⟩⟩
  | .loop condition body _, .loop hc hb =>
      List.forall_mem_append.mpr ⟨Expr.admitted_of_hasType condition hc .condition hc,
        Stmt.admitted_of_wellTyped body hb⟩

theorem admitted_of_all_wellTyped :
    (ss : List Stmt) → (∀ s ∈ ss, s.WellTyped Γ) → ∀ spot ∈ spotsOfAll ss, spot.Admitted Γ
  | [], _ => fun _ hspot => absurd hspot List.not_mem_nil
  | s :: ss, h => by
      obtain ⟨hs, hss⟩ := List.forall_mem_cons.mp h
      exact List.forall_mem_append.mpr
        ⟨Stmt.admitted_of_wellTyped s hs, admitted_of_all_wellTyped ss hss⟩

end

/-- What a place asks of a variable has nothing to do with slots. -/
theorem ExprPlace.Admits.with_slot {place : ExprPlace} {v : Variable} {position : Position}
    {slot : Slot} (h : place.Admits Γ (.var v position slot)) (slot' : Slot) :
    place.Admits Γ (.var v position slot') := by
  have hslot : ∀ ty, Expr.HasType Γ (.var v position slot) ty →
      Expr.HasType Γ (.var v position slot') ty := by
    rintro ty ⟨⟩
    exact .var ‹_›
  cases place with
  | condition | assigned | operand | index => exact hslot _ h
  | argument procedure i =>
      obtain ⟨signature, formal, hp, hi, ty, hty, htakes⟩ := h
      exact ⟨signature, formal, hp, hi, ty, hslot ty hty, htakes⟩

/-! ### What the annotations say -/

/-- The places for the types that an expression carries. -/
structure ExprPlacement (Γ : Context) (place : ExprPlace) (e : Expr) : Prop where
  bool_iff : e.ty = some .bool ↔ place = .condition
  array : ∀ ty, e.ty = some ty → ty.isArray = true →
    ∃ procedure i signature formal, place = .argument procedure i ∧ e.isVariable = true ∧
      Γ.Means procedure (.procedure signature) ∧ signature.formals[i]? = some formal ∧
      formal.byReference = true ∧ formal.ty.same ty = true
  assigned : place = .assigned → e.ty = some .int
  index : place = .index → e.ty = some .int

/-- The places for the types that a variable carries. -/
structure VariablePlacement (place : VariablePlace) (v : Variable) : Prop where
  array : ∀ ty, v.ty = some ty → ty.isArray = true →
    place = .indexed ∨ ∃ procedure i, place = .read (.argument procedure i)
  target : place = .target → v.ty = some .int

theorem Ty.eq_bool_of_same {ty : Ty} (h : ty.same .bool = true) : ty = .bool := by
  cases ty <;> simp [same] at h ⊢

theorem Ty.isArray_of_same {ty ty' : Ty} (h : ty.same ty' = true) (harray : ty'.isArray = true) :
    ty.isArray = true := by
  cases ty' with
  | int => cases harray
  | bool => cases harray
  | array => cases ty <;> simp [same, isArray, element?] at h ⊢

/-- An argument is no boolean, and an array among the arguments is passed by
reference. -/
theorem Formal.Takes.cases_type (hΓ : Γ.table.Regular) {procedure : String}
    {signature : Signature} {i : Nat} {formal : Formal} {e : Expr} {ty : Ty}
    (hp : Γ.Means procedure (.procedure signature)) (hi : signature.formals[i]? = some formal)
    (htakes : formal.Takes Γ e) (he : e.HasType Γ ty) :
    ty ≠ .bool ∧ formal.ty.same ty = true ∧
      (ty.isArray = true → formal.byReference = true ∧ e.isVariable = true) := by
  have hregular : formal.Regular :=
    (hΓ.entry_of_nearest hp).2 formal (List.mem_of_getElem? hi)
  obtain ⟨ty', hty', hsame, hvariable⟩ := htakes
  obtain rfl := he.unique hty'
  refine ⟨?_, hsame, fun harray => ?_⟩
  · rintro rfl
    have hnameable := hregular.nameable
    rw [Ty.eq_bool_of_same hsame] at hnameable
    exact hnameable
  · have hby := hregular.byReference (Ty.isArray_of_same hsame harray)
    exact ⟨hby, hvariable hby⟩

theorem exprPlacement_of_admits (hΓ : Γ.table.Regular) {place : ExprPlace} {e : Expr}
    (hadmits : place.Admits Γ e) (hannotated : (Spot.expr place e).Annotated Γ) :
    ExprPlacement Γ place e := by
  obtain ⟨ty, hty, hslot⟩ : ∃ ty, e.HasType Γ ty ∧ e.ty = some ty := hannotated
  cases place with
  | argument procedure i =>
      obtain ⟨signature, formal, hp, hi, htakes⟩ := hadmits
      obtain ⟨hbool, hsame, harray⟩ := htakes.cases_type hΓ hp hi hty
      refine ⟨by simpa [hslot] using hbool, ?_, by simp, by simp⟩
      rintro ty' hty' hisArray
      obtain rfl := Option.some.inj (hslot.symm.trans hty')
      obtain ⟨hby, hvariable⟩ := harray hisArray
      exact ⟨procedure, i, signature, formal, rfl, hvariable, hp, hi, hby, hsame⟩
  | condition =>
      obtain rfl := hty.unique hadmits
      refine ⟨by simpa using hslot, ?_, by simp, by simp⟩
      rintro ty' hty' hisArray
      obtain rfl := Option.some.inj (hslot.symm.trans hty')
      cases hisArray
  | assigned | operand | index =>
      obtain rfl := hty.unique hadmits
      refine ⟨by simp [hslot], ?_, fun _ => hslot, fun _ => hslot⟩
      rintro ty' hty' hisArray
      obtain rfl := Option.some.inj (hslot.symm.trans hty')
      cases hisArray

theorem variablePlacement_of_admits (hΓ : Γ.table.Regular) {place : VariablePlace} {v : Variable}
    (hadmits : place.Admits Γ v) (hannotated : (Spot.var place v).Annotated Γ) :
    VariablePlacement place v := by
  obtain ⟨ty, hty, hslot⟩ : ∃ ty, v.HasType Γ ty ∧ v.ty = some ty := hannotated
  cases place with
  | indexed => exact ⟨fun _ _ _ => .inl rfl, by simp⟩
  | target =>
      obtain rfl := hty.unique hadmits
      refine ⟨?_, fun _ => hslot⟩
      rintro ty' hty' hisArray
      obtain rfl := Option.some.inj (hslot.symm.trans hty')
      cases hisArray
  | read place =>
      obtain ⟨position, slot, hread⟩ := hadmits
      refine ⟨fun ty' hty' hisArray => .inr ?_, by simp⟩
      obtain rfl := Option.some.inj (hslot.symm.trans hty')
      have hplacement :=
        exprPlacement_of_admits hΓ (hread.with_slot (some ty)) ⟨ty, .var hty, rfl⟩
      obtain ⟨procedure, i, -, -, hplace, -⟩ := hplacement.array ty rfl hisArray
      exact ⟨procedure, i, by rw [hplace]⟩

/-- In a program that was analysed without error conditions are exactly the
expressions that carry booleans; an array is carried by the arguments for
reference parameters of the same type and by what is indexed; and all that is
assigned and all indices carry integers. -/
theorem placements_of_analyze {source file : String} {options : Options} {p : Program}
    {table : SymbolTable} (h : (analyze source file options).result = .ok (p, table)) :
    ∀ q ∈ p.procedures, ∃ signature,
      table.get .global q.name = .ok (some (.procedure signature)) ∧
      (∀ place e, .expr place e ∈ q.spots → ExprPlacement ⟨table, signature.scope⟩ place e) ∧
      (∀ place v, .var place v ∈ q.spots → VariablePlacement place v) := by
  obtain ⟨tokens, rest, parsed, hphases, rfl⟩ := phases_of_analyze h
  have hbuilt :=
    Program.settles_built options (Program.fresh_of_parse hphases.parse_eq) 0 .unlimited
  obtain ⟨hregular, -, hbodies⟩ := hbuilt.of_ok hphases.buildTable_eq
  obtain ⟨hwellTyped, hannotated⟩ :=
    Program.after_check_of_ok hregular hbodies hphases.check_eq
  intro q hq
  obtain ⟨signature, hget, hspots⟩ := hannotated q hq
  obtain ⟨signature', hget', hbody⟩ := hwellTyped q hq
  obtain rfl : signature = signature' := by
    rw [hget] at hget'
    cases hget'
    rfl
  have hadmitted := admitted_of_all_wellTyped q.body hbody
  refine ⟨signature, hget, ?_, ?_⟩
  · intro place e he
    exact exprPlacement_of_admits hregular (hadmitted _ he) (hspots _ he)
  · intro place v hv
    exact variablePlacement_of_admits hregular (hadmitted _ hv) (hspots _ hv)

/-- A procedure that passes an array of its own on, inside of an `if`. -/
theorem placements_nested_array : ∃ p table,
    (analyze "type V = array [2] of array [3] of int;
      proc g(ref a: V, i: int) \x7b a[0][i] := -i; \x7d
      proc main() \x7b var a: V; if (a[1][2] < 2) g(a, a[0][1]); \x7d" "a.spl" .default).result =
        .ok (p, table) ∧
    (∀ q ∈ p.procedures, ∃ signature,
      table.get .global q.name = .ok (some (.procedure signature)) ∧
      (∀ place e, .expr place e ∈ q.spots → ExprPlacement ⟨table, signature.scope⟩ place e) ∧
      (∀ place v, .var place v ∈ q.spots → VariablePlacement place v)) ∧
    ∃ q condition argument ty, p.procedures[1]? = some q ∧
      .expr .condition condition ∈ q.spots ∧ condition.ty = some .bool ∧
      .expr (.argument "g" 0) argument ∈ q.spots ∧ argument.ty = some ty ∧ ty.isArray = true := by
  let row : Ty := .array 0 3 .int
  let matrix : Ty := .array 1 2 row
  let a : Variable := .named "a" ⟨124, "a.spl"⟩ (some matrix)
  let first : Variable := .element a (.int 1 ⟨126, "a.spl"⟩ (some .int)) ⟨124, "a.spl"⟩ (some row)
  let second : Variable :=
    .element first (.int 2 ⟨129, "a.spl"⟩ (some .int)) ⟨124, "a.spl"⟩ (some .int)
  let condition : Expr := .binary .less (.var second ⟨124, "a.spl"⟩ (some .int))
    (.int 2 ⟨134, "a.spl"⟩ (some .int)) ⟨132, "a.spl"⟩ (some .bool)
  let argument : Expr :=
    .var (.named "a" ⟨139, "a.spl"⟩ (some matrix)) ⟨139, "a.spl"⟩ (some matrix)
  have haccepted : (analyze "type V = array [2] of array [3] of int;
      proc g(ref a: V, i: int) \x7b a[0][i] := -i; \x7d
      proc main() \x7b var a: V; if (a[1][2] < 2) g(a, a[0][1]); \x7d"
      "a.spl" .default).result.toOption.map (fun found =>
        found.1.procedures[1]?.map fun q => (q.spots[0]?, q.spots[8]?)) =
      some (some (some (.expr .condition condition), some (.expr (.argument "g" 0) argument))) := by
    decide +kernel
  obtain ⟨p, table, hanalyze, hview⟩ := exists_analyze_of_map haccepted
  obtain ⟨q, hq, hspots⟩ := Option.map_eq_some_iff.mp hview
  obtain ⟨hcondition, hargument⟩ := Prod.mk.inj hspots
  have hplacements := placements_of_analyze hanalyze
  obtain ⟨signature, -, hexprs, -⟩ := hplacements q (List.mem_of_getElem? hq)
  have hplacement := hexprs _ _ (List.mem_of_getElem? hcondition)
  exact ⟨p, table, hanalyze, hplacements, q, condition, argument, matrix, hq,
    List.mem_of_getElem? hcondition, hplacement.bool_iff.mpr rfl, List.mem_of_getElem? hargument,
    rfl, rfl⟩

end Spl
