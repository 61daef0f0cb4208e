import Spl.Fault

/-!
Counts and byte offsets are 64 bits wide. A sum that needs more is a fault.
-/

namespace Spl.Count

/-- The first number that is too large for a count. -/
def limit : Nat := UInt64.size

def add (m n : Nat) : Except Fault Nat :=
  if m + n < limit then .ok (m + n) else .error .countTooLarge

theorem add_eq_ok_iff {m n k : Nat} : add m n = .ok k ↔ m + n = k ∧ k < limit := by
  unfold add
  split
  · simp only [Except.ok.injEq]
    omega
  · simp only [reduceCtorEq, false_iff]
    omega

@[simp] theorem add_of_lt {m n : Nat} (h : m + n < limit) : add m n = .ok (m + n) :=
  add_eq_ok_iff.2 ⟨rfl, h⟩

end Spl.Count
