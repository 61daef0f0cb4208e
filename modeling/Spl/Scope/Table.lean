import Spl.Outcome
import Spl.Scope.Entry

/-!
Symbol tables: scopes that lie in one another. A scope holds its entries in the order of their
names, so two scopes with the same bindings are equal. A name is looked up in a scope and then in
those around it, from the inside out.
-/

namespace Spl

structure Scope where
  entries : List (String × Entry)
  parent : Option ScopeId
  deriving DecidableEq, Repr

namespace Scope

def get? (s : Scope) (name : String) : Option Entry := s.entries.lookup name

def size (s : Scope) : Nat := s.entries.length

def isEmpty (s : Scope) : Bool := s.entries.isEmpty

/-- Puts a new entry before the first one of a greater name. -/
def insertSorted (name : String) (entry : Entry) : List (String × Entry) → List (String × Entry)
  | [] => [(name, entry)]
  | (n, e) :: rest =>
    if n < name then (n, e) :: insertSorted name entry rest else (name, entry) :: (n, e) :: rest

def insert (s : Scope) (name : String) (entry : Entry) : Scope :=
  { s with entries := insertSorted name entry s.entries }

theorem lookup_insertSorted (name other : String) (entry : Entry)
    (entries : List (String × Entry)) :
    (insertSorted name entry entries).lookup other =
      if other = name then some entry else entries.lookup other := by
  induction entries with
  | nil =>
    by_cases h : other = name
    · simp [insertSorted, h]
    · simp [insertSorted, List.lookup_cons, h, beq_eq_false_iff_ne.2 h]
  | cons p rest ih =>
    obtain ⟨n, e⟩ := p
    unfold insertSorted
    split
    · next hn =>
      by_cases h : other = n
      · have hne : n ≠ name := fun hname => String.lt_irrefl _ (hname ▸ hn)
        simp [h, hne]
      · simp [List.lookup_cons, beq_eq_false_iff_ne.2 h, ih]
    · by_cases h : other = name
      · simp [h]
      · simp [List.lookup_cons, h, beq_eq_false_iff_ne.2 h]

theorem length_insertSorted (name : String) (entry : Entry) (entries : List (String × Entry)) :
    (insertSorted name entry entries).length = entries.length + 1 := by
  induction entries with
  | nil => rfl
  | cons p rest ih =>
    unfold insertSorted
    split <;> simp [ih]

@[simp] theorem get?_insert_self (s : Scope) (name : String) (entry : Entry) :
    (s.insert name entry).get? name = some entry := by
  simp [get?, insert, lookup_insertSorted]

theorem get?_insert_of_ne (s : Scope) {name other : String} (h : other ≠ name) (entry : Entry) :
    (s.insert name entry).get? other = s.get? other := by
  simp [get?, insert, lookup_insertSorted, h]

@[simp] theorem size_insert (s : Scope) (name : String) (entry : Entry) :
    (s.insert name entry).size = s.size + 1 :=
  length_insertSorted ..

@[simp] theorem parent_insert (s : Scope) (name : String) (entry : Entry) :
    (s.insert name entry).parent = s.parent := rfl

end Scope

/-- All scopes of a program; the global one comes first. -/
structure SymbolTable where
  scopes : Array Scope
  deriving DecidableEq, Repr

namespace SymbolTable

/-- The table that has an empty global scope only. -/
def empty : SymbolTable := ⟨#[⟨[], none⟩]⟩

def size (t : SymbolTable) : Nat := t.scopes.size

/-- A table with one more scope, which is empty and lies in `parent`. -/
def nest (t : SymbolTable) (parent : ScopeId) : SymbolTable × ScopeId :=
  (⟨t.scopes.push ⟨[], some parent⟩⟩, ⟨t.scopes.size⟩)

def scope (t : SymbolTable) (id : ScopeId) : Except Fault Scope :=
  match t.scopes[id.index]? with
  | some s => .ok s
  | none => .error .unknownScope

/-- Enters a name into a scope. If that very scope has the name already, `complaint` is the answer;
the scopes around it do not matter. -/
def enter (t : SymbolTable) (id : ScopeId) (name : String) (entry : Entry)
    (complaint : Diagnostic) : Outcome SymbolTable Unit :=
  match t.scope id with
  | .error fault => ⟨t, .error (.fault fault)⟩
  | .ok s =>
    match s.get? name with
    | some _ => ⟨t, .error (.diagnostic complaint)⟩
    | none => ⟨⟨t.scopes.set! id.index (s.insert name entry)⟩, .ok ()⟩

/-- The table that a name has been entered into. -/
def declare (t : SymbolTable) (id : ScopeId) (name : String) (entry : Entry)
    (complaint : Diagnostic) : Except Halt SymbolTable :=
  let o := t.enter id name entry complaint
  o.result.map fun _ => o.after

@[simp] theorem size_nest (t : SymbolTable) (parent : ScopeId) :
    (t.nest parent).1.size = t.size + 1 := by
  simp [nest, size]

@[simp] theorem scope_nest_self (t : SymbolTable) (parent : ScopeId) :
    (t.nest parent).1.scope (t.nest parent).2 = .ok ⟨[], some parent⟩ := by
  simp [nest, scope]

section Entering

variable {t u : SymbolTable} {id : ScopeId} {s : Scope} {name : String} {entry taken : Entry}
  {complaint : Diagnostic}

theorem enter_of_fault {fault : Fault} (h : t.scope id = .error fault) :
    t.enter id name entry complaint = ⟨t, .error (.fault fault)⟩ := by
  simp only [enter, h]

theorem enter_of_taken (hs : t.scope id = .ok s) (h : s.get? name = some taken) :
    t.enter id name entry complaint = ⟨t, .error (.diagnostic complaint)⟩ := by
  simp only [enter, hs, h]

theorem enter_of_free (hs : t.scope id = .ok s) (h : s.get? name = none) :
    t.enter id name entry complaint =
      ⟨⟨t.scopes.set! id.index (s.insert name entry)⟩, .ok ()⟩ := by
  simp only [enter, hs, h]

/-- What is refused leaves the table as it is. -/
theorem after_enter_of_error {halt : Halt}
    (h : (t.enter id name entry complaint).result = .error halt) :
    (t.enter id name entry complaint).after = t := by
  cases hs : t.scope id with
  | error fault => rw [enter_of_fault hs]
  | ok s =>
      cases hget : s.get? name with
      | some taken => rw [enter_of_taken hs hget]
      | none =>
          rw [enter_of_free hs hget] at h
          cases h

theorem declare_of_fault {fault : Fault} (h : t.scope id = .error fault) :
    t.declare id name entry complaint = .error (.fault fault) := by
  rw [declare, enter_of_fault h]
  rfl

theorem declare_of_taken (hs : t.scope id = .ok s) (h : s.get? name = some taken) :
    t.declare id name entry complaint = .error (.diagnostic complaint) := by
  rw [declare, enter_of_taken hs h]
  rfl

theorem declare_of_free (hs : t.scope id = .ok s) (h : s.get? name = none) :
    t.declare id name entry complaint = .ok ⟨t.scopes.set! id.index (s.insert name entry)⟩ := by
  rw [declare, enter_of_free hs h]
  rfl

theorem declare_eq_ok_iff (t u : SymbolTable) (id : ScopeId) (name : String) (entry : Entry)
    (complaint : Diagnostic) :
    t.declare id name entry complaint = .ok u ↔
      ∃ s, t.scope id = .ok s ∧ s.get? name = none ∧
        u = ⟨t.scopes.set! id.index (s.insert name entry)⟩ := by
  cases hs : t.scope id with
  | error fault => simp [declare_of_fault hs]
  | ok s =>
      cases hget : s.get? name with
      | some taken => simp [declare_of_taken hs hget, hget]
      | none => simp [declare_of_free hs hget, hget, eq_comm]

theorem enter_of_declare (h : t.declare id name entry complaint = .ok u) :
    t.enter id name entry complaint = ⟨u, .ok ()⟩ := by
  obtain ⟨s, hs, hget, rfl⟩ := (declare_eq_ok_iff ..).mp h
  exact enter_of_free hs hget

theorem enter_of_declare_error {halt : Halt}
    (h : t.declare id name entry complaint = .error halt) :
    t.enter id name entry complaint = ⟨t, .error halt⟩ := by
  cases hs : t.scope id with
  | error fault =>
      obtain rfl := Except.error.inj ((declare_of_fault hs).symm.trans h)
      exact enter_of_fault hs
  | ok s =>
      cases hget : s.get? name with
      | some taken =>
          obtain rfl := Except.error.inj ((declare_of_taken hs hget).symm.trans h)
          exact enter_of_taken hs hget
      | none =>
          rw [declare_of_free hs hget] at h
          cases h

end Entering

/-- The entry of a name in one scope, without those around it. -/
def get (t : SymbolTable) (id : ScopeId) (name : String) : Except Fault (Option Entry) :=
  (t.scope id).map fun s => s.get? name

def chainWithin (t : SymbolTable) : Nat → ScopeId → Except Fault (List Scope)
  | 0, _ => .error .endlessScope
  | n + 1, id => do
    let s ← t.scope id
    match s.parent with
    | none => return [s]
    | some parent => return s :: (← t.chainWithin n parent)

/-- A scope and those around it, from the inside out. No scope lies in itself, so there are at most
as many as the table has. -/
def chain (t : SymbolTable) (id : ScopeId) : Except Fault (List Scope) :=
  t.chainWithin t.scopes.size id

/-- The nearest entry of a name. -/
def lookup (t : SymbolTable) (id : ScopeId) (name : String) : Except Fault (Option Entry) :=
  (t.chain id).map fun scopes => scopes.findSome? (·.get? name)

/-- The signature of a procedure that is declared globally. -/
def procedure? (t : SymbolTable) (name : String) : Except Fault (Option Signature) :=
  (t.get .global name).map fun
    | some (.procedure s) => some s
    | _ => none

/-- The number of scopes around a scope. -/
def level (t : SymbolTable) (id : ScopeId) : Except Fault Nat :=
  (t.chain id).map fun scopes => scopes.length - 1

end SymbolTable

end Spl
