import Spl.Outcome

/-!
Slots hold the types of nodes. A slot starts empty and is written once, by the pass that finds the
type.
-/

namespace Spl

/-- The type of a node, once a pass has found it. -/
abbrev Slot := Option Ty

namespace Slot

variable {α : Type}

/-- Writes the type of a node, which `node` builds from its slot. -/
def write (slot : Slot) (ty : Ty) (node : Slot → α) : Outcome α Ty :=
  match slot with
  | none => ⟨node (some ty), .ok ty⟩
  | some was => ⟨node slot, .error (.fault (.annotatedTwice was ty))⟩

@[simp] theorem write_none (ty : Ty) (node : Slot → α) :
    write none ty node = ⟨node (some ty), .ok ty⟩ := rfl

@[simp] theorem write_some (was ty : Ty) (node : Slot → α) :
    write (some was) ty node = ⟨node (some was), .error (.fault (.annotatedTwice was ty))⟩ := rfl

open Text in
def outline (slot : Slot) : Outline :=
  .tuple "DataType" [.ofOption "None" "Some" (slot.map Ty.outline)]

end Slot

end Spl
