import Spl.Halt
import Spl.Outcome
import Spl.Program
import Spl.Token

/-!
Programs with other names and other places. A relabelling maps the names and
the places of tokens, of nodes and of diagnostics, and leaves types, values and
operators as they are. The phases of an analysis do not look into labels, so
what they do to a relabelled text or program is what they do to the given one,
relabelled.
-/

namespace Spl

structure Relabelling where
  name : String → String
  place : Position → Position

namespace Relabelling

/-- Only places change. -/
def KeepsNames (ρ : Relabelling) : Prop :=
  ∀ name, ρ.name name = name

/-- Keeps all names and forgets all places. -/
def placeless : Relabelling := ⟨id, fun _ => .null⟩

theorem keepsNames_placeless : placeless.KeepsNames := fun _ => rfl

/-- Changes nothing. -/
def identical : Relabelling := ⟨id, id⟩

def span (ρ : Relabelling) (s : Span) : Span := ⟨ρ.place s.start, ρ.place s.stop⟩

/-- Only identifiers are names. -/
def token (ρ : Relabelling) (t : Token) : Token :=
  ⟨t.kind, if t.kind = .identifier then ρ.name t.value else t.value, ρ.span t.span⟩

@[simp] theorem kind_token (ρ : Relabelling) (t : Token) : (ρ.token t).kind = t.kind := rfl

@[simp] theorem start_token (ρ : Relabelling) (t : Token) :
    (ρ.token t).span.start = ρ.place t.span.start := rfl

theorem value_token_of_identifier (ρ : Relabelling) {t : Token} (h : t.kind = .identifier) :
    (ρ.token t).value = ρ.name t.value :=
  if_pos h

theorem value_token_of_ne (ρ : Relabelling) {t : Token} (h : t.kind ≠ .identifier) :
    (ρ.token t).value = t.value :=
  if_neg h

theorem KeepsNames.value_token {ρ : Relabelling} (h : ρ.KeepsNames) (t : Token) :
    (ρ.token t).value = t.value := by
  rw [token, h t.value, ite_self]

end Relabelling

/-! ### Programs -/

def TypeExpr.relabel (ρ : Relabelling) : TypeExpr → TypeExpr
  | .named name position slot => .named (ρ.name name) (ρ.place position) slot
  | .array size element position slot =>
    .array size (element.relabel ρ) (ρ.place position) slot

mutual

def Expr.relabel (ρ : Relabelling) : Expr → Expr
  | .int value position slot => .int value (ρ.place position) slot
  | .var v position slot => .var (v.relabel ρ) (ρ.place position) slot
  | .unary op operand position slot => .unary op (operand.relabel ρ) (ρ.place position) slot
  | .binary op left right position slot =>
    .binary op (left.relabel ρ) (right.relabel ρ) (ρ.place position) slot

def Variable.relabel (ρ : Relabelling) : Variable → Variable
  | .named name position slot => .named (ρ.name name) (ρ.place position) slot
  | .element array index position slot =>
    .element (array.relabel ρ) (index.relabel ρ) (ρ.place position) slot

end

namespace Stmt

mutual

def relabel (ρ : Relabelling) : Stmt → Stmt
  | empty position => empty (ρ.place position)
  | compound body position => compound (relabelAll ρ body) (ρ.place position)
  | assign target value position =>
    assign (target.relabel ρ) (value.relabel ρ) (ρ.place position)
  | call procedure arguments position =>
    call (ρ.name procedure) (arguments.map (Expr.relabel ρ)) (ρ.place position)
  | conditional condition thenBranch elseBranch position =>
    conditional (condition.relabel ρ) (thenBranch.relabel ρ) (elseBranch.relabel ρ)
      (ρ.place position)
  | loop condition body position =>
    loop (condition.relabel ρ) (body.relabel ρ) (ρ.place position)

def relabelAll (ρ : Relabelling) : List Stmt → List Stmt
  | [] => []
  | s :: ss => s.relabel ρ :: relabelAll ρ ss

end

theorem relabelAll_eq_map (ρ : Relabelling) (ss : List Stmt) :
    relabelAll ρ ss = ss.map (relabel ρ) := by
  induction ss with
  | nil => rfl
  | cons s ss ih => rw [relabelAll, List.map_cons, ih]

end Stmt

variable (ρ : Relabelling)

def TypeDeclaration.relabel (t : TypeDeclaration) : TypeDeclaration :=
  ⟨ρ.name t.name, t.type.relabel ρ, ρ.place t.position⟩

def Parameter.relabel (p : Parameter) : Parameter :=
  ⟨ρ.name p.name, p.type.relabel ρ, p.byReference, ρ.place p.position⟩

def LocalVariable.relabel (v : LocalVariable) : LocalVariable :=
  ⟨ρ.name v.name, v.type.relabel ρ, ρ.place v.position⟩

def Procedure.relabel (p : Procedure) : Procedure :=
  ⟨ρ.name p.name, p.parameters.map (Parameter.relabel ρ), p.locals.map (LocalVariable.relabel ρ),
    Stmt.relabelAll ρ p.body, ρ.place p.position⟩

def Declaration.relabel : Declaration → Declaration
  | type t => type (t.relabel ρ)
  | procedure p => procedure (p.relabel ρ)

def Program.relabel (p : Program) : Program :=
  ⟨p.declarations.map (Declaration.relabel ρ), ρ.span p.span⟩

@[simp] theorem Declaration.name_relabel (d : Declaration) :
    (d.relabel ρ).name = ρ.name d.name := by
  cases d <;> rfl

@[simp] theorem Variable.position_relabel (v : Variable) :
    (v.relabel ρ).position = ρ.place v.position := by
  cases v <;> rfl

@[simp] theorem Expr.isVariable_relabel (e : Expr) : (e.relabel ρ).isVariable = e.isVariable := by
  cases e <;> rfl

/-! ### The labels that are there -/

section Identical

open Relabelling

theorem TypeExpr.relabel_identical (e : TypeExpr) : e.relabel identical = e := by
  induction e with
  | named name position slot => rfl
  | array size element position slot ih =>
      rw [relabel, ih]
      rfl

mutual

theorem Expr.relabel_identical : (e : Expr) → e.relabel identical = e
  | .int _ _ _ => rfl
  | .var v _ _ => by
      rw [Expr.relabel, Variable.relabel_identical v]
      rfl
  | .unary _ operand _ _ => by
      rw [Expr.relabel, Expr.relabel_identical operand]
      rfl
  | .binary _ left right _ _ => by
      rw [Expr.relabel, Expr.relabel_identical left, Expr.relabel_identical right]
      rfl

theorem Variable.relabel_identical : (v : Variable) → v.relabel identical = v
  | .named _ _ _ => rfl
  | .element array index _ _ => by
      rw [Variable.relabel, Variable.relabel_identical array, Expr.relabel_identical index]
      rfl

end

namespace Stmt

mutual

theorem relabel_identical : (s : Stmt) → s.relabel identical = s
  | .empty _ => rfl
  | .compound body _ => by
      rw [relabel, relabelAll_identical body]
      rfl
  | .assign target value _ => by
      rw [relabel, target.relabel_identical, value.relabel_identical]
      rfl
  | .call _ arguments _ => by
      rw [relabel, List.map_id'' Expr.relabel_identical]
      rfl
  | .conditional condition thenBranch elseBranch _ => by
      rw [relabel, condition.relabel_identical, relabel_identical thenBranch,
        relabel_identical elseBranch]
      rfl
  | .loop condition body _ => by
      rw [relabel, condition.relabel_identical, relabel_identical body]
      rfl

theorem relabelAll_identical : (ss : List Stmt) → relabelAll identical ss = ss
  | [] => rfl
  | s :: ss => by rw [relabelAll, relabel_identical s, relabelAll_identical ss]

end

end Stmt

theorem Declaration.relabel_identical (d : Declaration) : d.relabel identical = d := by
  cases d with
  | type t => rw [relabel, TypeDeclaration.relabel, t.type.relabel_identical]; rfl
  | procedure p =>
      have hparameters : p.parameters.map (Parameter.relabel identical) = p.parameters :=
        List.map_id'' (fun p => by rw [Parameter.relabel, p.type.relabel_identical]; rfl) _
      have hlocals : p.locals.map (LocalVariable.relabel identical) = p.locals :=
        List.map_id'' (fun v => by rw [LocalVariable.relabel, v.type.relabel_identical]; rfl) _
      rw [relabel, Procedure.relabel, hparameters, hlocals, Stmt.relabelAll_identical]
      rfl

theorem Program.relabel_identical (p : Program) : p.relabel identical = p := by
  rw [relabel, List.map_id'' Declaration.relabel_identical]
  rfl

end Identical

/-! ### Diagnostics -/

/-- The cause with other names in it. Tokens are texts and no names here. -/
def Cause.rename (name : String → String) : Cause → Cause
  | redeclarationAsType n => redeclarationAsType (name n)
  | redeclarationAsProcedure n => redeclarationAsProcedure (name n)
  | redeclarationAsVariable n => redeclarationAsVariable (name n)
  | redeclarationAsParameter n => redeclarationAsParameter (name n)
  | undefinedType n => undefinedType (name n)
  | notAType n => notAType (name n)
  | mustBeAReferenceParameter n => mustBeAReferenceParameter (name n)
  | undefinedVariable n => undefinedVariable (name n)
  | notAVariable n => notAVariable (name n)
  | undefinedProcedure n => undefinedProcedure (name n)
  | callOfNonProcedure n => callOfNonProcedure (name n)
  | tooManyArguments n => tooManyArguments (name n)
  | tooFewArguments n => tooFewArguments (name n)
  | argumentMustBeAVariable n index => argumentMustBeAVariable (name n) index
  | argumentTypeMismatch n index expected received =>
    argumentTypeMismatch (name n) index expected received
  | cause => cause

theorem Cause.rename_of_keepsNames {ρ : Relabelling} (h : ρ.KeepsNames) (cause : Cause) :
    cause.rename ρ.name = cause := by
  cases cause <;> simp only [rename, h _]

def Diagnostic.relabel (d : Diagnostic) : Diagnostic :=
  ⟨d.cause.rename ρ.name, ρ.place d.position⟩

theorem Diagnostic.relabel_identical (d : Diagnostic) : d.relabel .identical = d := by
  have hcause : d.cause.rename id = d.cause :=
    Cause.rename_of_keepsNames (ρ := .identical) (fun _ => rfl) d.cause
  exact congrArg (Diagnostic.mk · d.position) hcause

def Halt.relabel : Halt → Halt
  | diagnostic d => diagnostic (d.relabel ρ)
  | fault f => fault f

/-- The outcome with other labels, in what is there afterwards by `view`. -/
def Outcome.relabel {ν μ α : Type} (view : ν → μ) (o : Outcome ν α) : Outcome μ α :=
  ⟨view o.after, o.result.mapError (Halt.relabel ρ)⟩

end Spl
