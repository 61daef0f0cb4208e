import Spl.Program.Typing
import Spl.Proofs.Following
import Spl.TypeExpr.Resolution

/-!
Finding types does not look into labels and numbers, but for the meanings of
names. Where the new names mean in translation what the given ones do, the types
of the translation of a node are those of the node in translation, and what
stops the pass is the same in translation. If only the names that mean anything
are known to keep their meanings, this still holds of passes that finish.
-/

namespace Spl

open Outcome Outcome.Follows

variable {m : Translation} {strict : Prop}

/-! ### Names in use -/

/-- What was found in the first place, and what is found in the second. If the
comparison is not strict, something may be found there that was not here. -/
inductive Found {α β : Type} (view : α → β) (strict : Prop) : Option α → Option β → Prop
  | some (a : α) : Found view strict (some a) (some (view a))
  | none {found : Option β} (h : strict → found = none) : Found view strict none found

namespace Found

variable {α β : Type} {view : α → β} {a : α} {found other : Option α} {found' other' : Option β}

theorem of_map (found : Option α) : Found view strict found (found.map view) := by
  cases found with
  | none => exact .none fun _ => rfl
  | some a => exact .some a

theorem eq_some (h : Found view strict (.some a) found') : found' = .some (view a) := by
  cases h with
  | some => rfl

theorem eq_none (h : Found view True .none found') : found' = .none := by
  cases h with
  | none hnone => exact hnone trivial

/-- What is found in the second place counts only if nothing is found in the first. -/
theorem or (h : Found view True found found') (hother : Found view strict other other') :
    Found view strict (found.or other) (found'.or other') := by
  cases h with
  | some a => exact .some a
  | none hnone => rwa [hnone trivial]

end Found

/-- The new names mean in the second context in translation what the given ones
mean in the first. -/
def Context.Follows (m : Translation) (strict : Prop) (Γ Γ' : Context) : Prop :=
  ∀ name, ResultFollows (Halt.translate m) strict (Found (Entry.translate m) strict) (Γ.lookup name)
    (Γ'.lookup (m.name name))

namespace Context.Follows

variable {Γ Γ' : Context}

/-- What a name is used for depends on its entry. -/
theorem used (h : Context.Follows m strict Γ Γ') (name : String) {α α' : Type}
    {A : α → α' → Prop} {use : Option Entry → Except Halt α}
    {use' : Option Entry → Except Halt α'}
    (hnone : ∃ halt, use none = .error halt ∧ use' none = .error (halt.translate m))
    (hsome : ∀ entry, ResultFollows (Halt.translate m) strict A (use (some entry))
      (use' (some (entry.translate m)))) :
    ResultFollows (Halt.translate m) strict A (Γ.lookup name >>= use)
      (Γ'.lookup (m.name name) >>= use') := by
  refine (h name).bind fun found found' hfound => ?_
  cases hfound with
  | some entry => exact hsome entry
  | none hmissing =>
      obtain ⟨halt, huse, huse'⟩ := hnone
      rw [huse]
      exact .error fun hstrict => by rw [hmissing hstrict, huse']

theorem typeNamed (h : Context.Follows m strict Γ Γ') (name : String) (position : Position) :
    ResultFollows (Halt.translate m) strict (Image (Ty.translate m)) (Γ.typeNamed name position)
      (Γ'.typeNamed (m.name name) (m.place position)) := by
  refine h.used name ⟨_, rfl, rfl⟩ fun entry => ?_
  cases entry with
  | type ty => exact .ok rfl
  | var _ _ | procedure _ => exact .error fun _ => rfl

theorem variableNamed (h : Context.Follows m strict Γ Γ') (name : String) (position : Position) :
    ResultFollows (Halt.translate m) strict (Image (Ty.translate m)) (Γ.variableNamed name position)
      (Γ'.variableNamed (m.name name) (m.place position)) := by
  refine h.used name ⟨_, rfl, rfl⟩ fun entry => ?_
  cases entry with
  | var ty _ => exact .ok rfl
  | type _ | procedure _ => exact .error fun _ => rfl

theorem procedureNamed (h : Context.Follows m strict Γ Γ') (name : String) (position : Position) :
    ResultFollows (Halt.translate m) strict (Image (Signature.translate m))
      (Γ.procedureNamed name position) (Γ'.procedureNamed (m.name name) (m.place position)) := by
  refine h.used name ⟨_, rfl, rfl⟩ fun entry => ?_
  cases entry with
  | procedure signature => exact .ok rfl
  | type _ | var _ _ => exact .error fun _ => rfl

end Context.Follows

/-! ### Types as they are written -/

/-- The first identity that is not in use, after as many new array types. -/
def Ahead (fresh fresh' next next' : Nat) : Prop :=
  ∃ made, next = fresh + made ∧ next' = fresh' + made

theorem TypeExpr.follows_resolve {Γ Γ' : Context} (h : Context.Follows m strict Γ Γ')
    {fresh fresh' : Nat} (hfresh : ∀ made, m.identity (fresh + made) = fresh' + made)
    (e : TypeExpr) :
    (e.resolve Γ fresh).Follows m strict (Beside (TypeExpr.translate m) (Ahead fresh fresh'))
      (Image (Ty.translate m)) ((e.translate m).resolve Γ' fresh') := by
  induction e with
  | named name position slot =>
      have hnamed := h.typeNamed name position
      rw [translate, resolve, resolve]
      generalize Γ.typeNamed name position = found,
        Γ'.typeNamed (m.name name) (m.place position) = found' at hnamed ⊢
      cases hnamed with
      | error hfound =>
          exact .error fun hstrict => ⟨_, ⟨rfl, 0, rfl, rfl⟩, by rw [hfound hstrict]⟩
      | ok hty =>
          subst hty
          exact .write slot rfl fun _ => ⟨rfl, 0, rfl, rfl⟩
  | array size element position slot ih =>
      rw [translate, resolve, resolve]
      refine ih.andThen ?_ ?_
      · rintro ⟨element, _⟩ ⟨_, _⟩ ⟨rfl, made, rfl, rfl⟩
        exact ⟨rfl, made, rfl, rfl⟩
      · rintro ⟨element, _⟩ ⟨_, _⟩ elementTy _ ⟨rfl, made, rfl, rfl⟩ rfl
        have hty : Ty.array (fresh' + made) size (elementTy.translate m) =
            (Ty.array (fresh + made) size elementTy).translate m := by
          rw [Ty.translate, hfresh]
        exact .write slot hty fun _ => ⟨rfl, made + 1, rfl, rfl⟩

/-! ### Bodies -/

section Bodies

variable {Γ Γ' : Context}

mutual

theorem Expr.follows_check (h : Context.Follows m strict Γ Γ')
    (hm : Function.Injective m.identity) : (e : Expr) →
      (e.check Γ).Follows m strict (Image (Expr.translate m)) (Image (Ty.translate m))
        ((e.translate m).check Γ')
  | .int _ _ slot => .write slot rfl fun _ => rfl
  | .var v _ slot => by
      rw [Expr.translate, Expr.check, Expr.check]
      refine (Variable.follows_check h hm v).andThen ?_ ?_
      · rintro v _ rfl
        rfl
      · rintro v _ ty _ rfl rfl
        exact .write slot rfl fun _ => rfl
  | .unary _ operand _ slot => by
      rw [Expr.translate, Expr.check, Expr.check]
      refine (Expr.follows_check h hm operand).andThen ?_ ?_
      · rintro operand _ rfl
        rfl
      · rintro operand _ ty _ rfl rfl
        rw [Ty.isInt_translate, Ty.text_translate]
        split
        · exact .write slot rfl fun _ => rfl
        · exact .error fun _ => ⟨_, rfl, rfl⟩
  | .binary op left right _ slot => by
      rw [Expr.translate, Expr.check, Expr.check]
      refine (Expr.follows_check h hm left).andThen ?_ ?_
      · rintro left _ rfl
        rfl
      · rintro left _ leftTy _ rfl rfl
        refine (Expr.follows_check h hm right).andThen ?_ ?_
        · rintro right _ rfl
          rfl
        · rintro right _ rightTy _ rfl rfl
          rw [Ty.isInt_translate, Ty.same_translate hm, Ty.text_translate, Ty.text_translate]
          split
          · have hresult : op.resultTy = op.resultTy.translate m := by
              rw [BinaryOp.resultTy]
              split <;> rfl
            exact .write slot hresult fun _ => rfl
          · exact .error fun _ => ⟨_, rfl, rfl⟩

theorem Variable.follows_check (h : Context.Follows m strict Γ Γ')
    (hm : Function.Injective m.identity) : (v : Variable) →
      (v.check Γ).Follows m strict (Image (Variable.translate m)) (Image (Ty.translate m))
        ((v.translate m).check Γ')
  | .named name position slot => by
      have hnamed := h.variableNamed name position
      rw [Variable.translate, Variable.check, Variable.check]
      generalize Γ.variableNamed name position = found,
        Γ'.variableNamed (m.name name) (m.place position) = found' at hnamed ⊢
      cases hnamed with
      | error hfound => exact .error fun hstrict => ⟨_, rfl, by rw [hfound hstrict]; rfl⟩
      | ok hty =>
          subst hty
          exact .write slot rfl fun _ => rfl
  | .element array index _ slot => by
      rw [Variable.translate, Variable.check, Variable.check]
      refine (Variable.follows_check h hm array).andThen ?_ ?_
      · rintro array _ rfl
        rfl
      · rintro array _ arrayTy _ rfl rfl
        refine (Expr.follows_check h hm index).andThen ?_ ?_
        · rintro index _ rfl
          rfl
        · rintro index _ indexTy _ rfl rfl
          rw [Ty.element?_translate, Ty.isInt_translate]
          cases arrayTy.element? with
          | none => exact .error fun _ => ⟨_, rfl, rfl⟩
          | some elementTy =>
              dsimp only [Option.map]
              split
              · exact .write slot rfl fun _ => rfl
              · exact .error fun _ => ⟨_, rfl, rfl⟩

end

theorem follows_assignable (hm : Function.Injective m.identity) (targetTy valueTy : Ty)
    (position : Position) :
    ResultFollows (Halt.translate m) strict (Image id) (assignable targetTy valueTy position)
      (assignable (targetTy.translate m) (valueTy.translate m) (m.place position)) := by
  rw [assignable, assignable, Ty.same_translate hm, Ty.isInt_translate, Ty.text_translate,
    Ty.text_translate]
  split
  · exact .error fun _ => rfl
  · split
    · exact .error fun _ => rfl
    · exact .ok rfl

theorem follows_argumentsAgree (hm : Function.Injective m.identity) (procedure : String)
    (position : Position) (index : Nat) (formals : List Formal) (arguments : List Expr)
    (tys : List Ty) :
    ResultFollows (Halt.translate m) strict (Image id)
      (argumentsAgree procedure position index formals arguments tys)
      (argumentsAgree (m.name procedure) (m.place position) index
        (formals.map (Formal.translate m)) (arguments.map (Expr.translate m))
        (tys.map (Ty.translate m))) := by
  induction formals generalizing index arguments tys with
  | nil => exact .ok rfl
  | cons formal formals ih =>
      rcases arguments with _ | ⟨argument, arguments⟩
      · exact .ok rfl
      rcases tys with _ | ⟨ty, tys⟩
      · exact .ok rfl
      rw [List.map_cons, List.map_cons, List.map_cons, argumentsAgree, argumentsAgree,
        Formal.translate, Expr.isVariable_translate, Ty.same_translate hm, Ty.text_translate,
        Ty.text_translate]
      split
      · exact .error fun _ => rfl
      · split
        · exact .error fun _ => rfl
        · exact ih _ arguments tys

theorem follows_callable (hm : Function.Injective m.identity) (signature : Signature)
    (procedure : String) (arguments : List Expr) (tys : List Ty) (position : Position) :
    ResultFollows (Halt.translate m) strict (Image id)
      (callable signature procedure arguments tys position)
      (callable (signature.translate m) (m.name procedure) (arguments.map (Expr.translate m))
        (tys.map (Ty.translate m)) (m.place position)) := by
  rw [callable, callable, Signature.translate, List.length_map, List.length_map]
  split
  · exact .error fun _ => rfl
  · split
    · exact .error fun _ => rfl
    · exact follows_argumentsAgree hm procedure position 0 signature.formals arguments tys

theorem follows_checkCondition (h : Context.Follows m strict Γ Γ')
    (hm : Function.Injective m.identity) (condition : Expr) {cause : String → Cause}
    (hcause : ∀ actual, (cause actual).rename m.name = cause actual) (position : Position) :
    (checkCondition Γ condition cause position).Follows m strict (Image (Expr.translate m))
      (Image id) (checkCondition Γ' (condition.translate m) cause (m.place position)) := by
  rw [checkCondition, checkCondition]
  refine (Expr.follows_check h hm condition).andThen (fun _ _ hx => hx) ?_
  rintro condition _ ty _ rfl rfl
  rw [Ty.isBool_translate, Ty.text_translate]
  split
  · exact .ok rfl rfl
  · refine .error fun _ => ⟨_, rfl, ?_⟩
    simp only [Cause.halt, Halt.translate, Diagnostic.relabel, hcause]

namespace Stmt

mutual

theorem follows_check (h : Context.Follows m strict Γ Γ') (hm : Function.Injective m.identity) :
    (s : Stmt) →
      (s.check Γ).Follows m strict (Image (Stmt.translate m)) (Image id) ((s.translate m).check Γ')
  | .empty _ => .ok rfl rfl
  | .compound body _ => by
      rw [translate, check, check]
      refine (follows_checkAll h hm body).map ?_ fun _ _ ha => ha
      rintro body _ rfl
      rfl
  | .assign target value position => by
      rw [translate, check, check]
      refine (Variable.follows_check h hm target).andThen ?_ ?_
      · rintro target _ rfl
        rfl
      · rintro target _ targetTy _ rfl rfl
        refine (Expr.follows_check h hm value).andThen ?_ ?_
        · rintro value _ rfl
          rfl
        · rintro value _ valueTy _ rfl rfl
          exact .of_result rfl (follows_assignable hm targetTy valueTy position)
  | .call procedure arguments position => by
      have hnamed := h.procedureNamed procedure position
      rw [translate, check, check]
      generalize Γ.procedureNamed procedure position = found,
        Γ'.procedureNamed (m.name procedure) (m.place position) = found' at hnamed ⊢
      cases hnamed with
      | error hfound => exact .error fun hstrict => ⟨_, rfl, by rw [hfound hstrict]; rfl⟩
      | @ok signature _ hsignature =>
          subst hsignature
          refine (Follows.visitAll (Expr.follows_check h hm) arguments).andThen ?_ ?_
          · rintro arguments _ rfl
            rfl
          · rintro arguments _ tys _ rfl rfl
            exact .of_result rfl (follows_callable hm signature procedure arguments tys position)
  | .conditional condition thenBranch elseBranch position => by
      rw [translate, check, check]
      refine (follows_checkCondition h hm condition (fun _ => rfl) position).andThen ?_ ?_
      · rintro condition _ rfl
        rfl
      · rintro condition _ _ _ rfl -
        refine (follows_check h hm thenBranch).andThen ?_ ?_
        · rintro thenBranch _ rfl
          rfl
        · rintro thenBranch _ _ _ rfl -
          refine (follows_check h hm elseBranch).map ?_ fun _ _ ha => ha
          rintro elseBranch _ rfl
          rfl
  | .loop condition body position => by
      rw [translate, check, check]
      refine (follows_checkCondition h hm condition (fun _ => rfl) position).andThen ?_ ?_
      · rintro condition _ rfl
        rfl
      · rintro condition _ _ _ rfl -
        refine (follows_check h hm body).map ?_ fun _ _ ha => ha
        rintro body _ rfl
        rfl

theorem follows_checkAll (h : Context.Follows m strict Γ Γ')
    (hm : Function.Injective m.identity) : (ss : List Stmt) →
      (checkAll Γ ss).Follows m strict (Image (translateAll m)) (Image id)
        (checkAll Γ' (translateAll m ss))
  | [] => .ok rfl rfl
  | s :: ss => by
      rw [translateAll, checkAll, checkAll]
      refine (follows_check h hm s).andThen ?_ ?_
      · rintro s _ rfl
        rfl
      · rintro s _ _ _ rfl -
        refine (follows_checkAll h hm ss).map ?_ fun _ _ ha => ha
        rintro ss _ rfl
        rfl

end

end Stmt

end Bodies

/-! ### Programs -/

/-- The new names have in the second table the entries in translation that the
given ones have in the first. -/
structure SymbolTable.Follows (m : Translation) (strict : Prop) (t t' : SymbolTable) : Prop where
  context : ∀ scope, Context.Follows m strict ⟨t, scope⟩ ⟨t', m.scope scope⟩
  get : ∀ name, ResultFollows (Fault.translate m) strict (Found (Entry.translate m) strict)
    (t.get .global name) (t'.get .global (m.name name))

section Programs

variable {t t' : SymbolTable}

theorem SymbolTable.Follows.procedure? (h : SymbolTable.Follows m strict t t') (name : String) :
    ResultFollows (Fault.translate m) strict (Found (Signature.translate m) strict)
      (t.procedure? name) (t'.procedure? (m.name name)) := by
  refine (h.get name).map fun found found' hfound => ?_
  cases hfound with
  | none hnone => exact .none fun hstrict => by rw [hnone hstrict]
  | some entry =>
      cases entry with
      | procedure signature => exact .some signature
      | type _ | var _ _ => exact .none fun _ => rfl

theorem Procedure.follows_check (h : SymbolTable.Follows m strict t t')
    (hm : Function.Injective m.identity) (p : Procedure) :
    (p.check t).Follows m strict (Image (Procedure.translate m)) (Image id)
      ((p.translate m).check t') := by
  have hprocedure := h.procedure? p.name
  rw [Procedure.check, Procedure.check, show (p.translate m).name = m.name p.name from rfl]
  generalize t.procedure? p.name = found, t'.procedure? (m.name p.name) = found' at hprocedure ⊢
  cases hprocedure with
  | error hfound => exact .error fun hstrict => ⟨_, rfl, by rw [hfound hstrict]; rfl⟩
  | ok hfound =>
      cases hfound with
      | none hnone => exact .error fun hstrict => ⟨_, rfl, by rw [hnone hstrict]; rfl⟩
      | some signature =>
          refine (Stmt.follows_checkAll (h.context signature.scope) hm p.body).map ?_
            fun _ _ ha => ha
          rintro body _ rfl
          rfl

theorem Declaration.follows_check (h : SymbolTable.Follows m strict t t')
    (hm : Function.Injective m.identity) (d : Declaration) :
    (d.check t).Follows m strict (Image (Declaration.translate m)) (Image id)
      ((d.translate m).check t') := by
  cases d with
  | type d => exact .ok rfl rfl
  | procedure p =>
      refine (p.follows_check h hm).map ?_ fun _ _ ha => ha
      rintro p _ rfl
      rfl

/-- Checking the translation of a program follows checking the program. -/
theorem Program.follows_check (h : SymbolTable.Follows m strict t t')
    (hm : Function.Injective m.identity) (p : Program) :
    (p.check t).Follows m strict (Image (Program.translate m)) (Image id)
      ((p.translate m).check t') := by
  refine (Follows.visitAll (Declaration.follows_check h hm) p.declarations).map ?_ fun _ _ _ => rfl
  rintro declarations _ rfl
  rfl

end Programs

/-! ### Other labels -/

section Labels

variable {ρ : Relabelling}

/-- The new names mean in the second context what the given ones mean in the first. -/
def Context.Renamed (ρ : Relabelling) (Γ Γ' : Context) : Prop :=
  ∀ name, Γ'.table.lookup Γ'.scope (ρ.name name) = Γ.table.lookup Γ.scope name

/-- The new names have the entries in the second table that the given ones have in the first. -/
structure SymbolTable.Renamed (ρ : Relabelling) (t t' : SymbolTable) : Prop where
  lookup : ∀ scope name, t'.lookup scope (ρ.name name) = t.lookup scope name
  get : ∀ scope name, t'.get scope (ρ.name name) = t.get scope name

/-- Entries carry no labels. -/
theorem Found.of_labels (found : Except Fault (Option Entry)) :
    ResultFollows (Fault.translate ρ.translation) strict
      (Found (Entry.translate ρ.translation) strict) found found := by
  have hkeeps := ρ.keepsTypes_translation
  cases found with
  | error fault => exact .error fun _ => by rw [fault.translate_eq_self hkeeps]
  | ok found =>
      cases found with
      | none => exact .ok (.none fun _ => rfl)
      | some entry =>
          have hentry : entry.translate ρ.translation = entry :=
            entry.translate_eq_self hkeeps fun _ => rfl
          have hfound : Found (Entry.translate ρ.translation) strict _ _ := .some entry
          rw [hentry] at hfound
          exact .ok hfound

theorem Context.Renamed.follows {Γ Γ' : Context} (h : Context.Renamed ρ Γ Γ') :
    Context.Follows ρ.translation strict Γ Γ' := by
  intro name
  rw [Context.lookup, Context.lookup,
    show Γ'.table.lookup _ (ρ.translation.name name) = _ from h name]
  exact (Found.of_labels _).mapError fun _ => rfl

theorem SymbolTable.Renamed.follows {t t' : SymbolTable} (h : SymbolTable.Renamed ρ t t') :
    SymbolTable.Follows ρ.translation strict t t' where
  context scope := Context.Renamed.follows (h.lookup scope)
  get name := by
    rw [show t'.get .global (ρ.translation.name name) = _ from h.get .global name]
    exact Found.of_labels _

/-- Checking a relabelled program is checking the given one, relabelled. -/
theorem Program.check_relabel {t t' : SymbolTable} (h : SymbolTable.Renamed ρ t t')
    (p : Program) :
    (p.relabel ρ).check t' = (p.check t).relabel ρ (Program.relabel ρ) := by
  have hview : Program.translate ρ.translation = Program.relabel ρ :=
    funext (Program.translate_eq_relabel ρ.keepsTypes_translation)
  rw [← hview]
  exact (p.follows_check h.follows Function.injective_id).eq_relabel

end Labels

end Spl
