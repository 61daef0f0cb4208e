import Mathlib.Data.String.Basic
import Spl.Text.Bytes

/-!
Texts measured in bytes. Each character has one byte at least, and cuts between
characters are found by the length of what stands before them.
-/

namespace Spl.Text

theorem byteLength_pos {cs : List Char} (h : cs ≠ []) : 0 < byteLength cs := by
  obtain ⟨c, cs, rfl⟩ := List.exists_cons_of_ne_nil h
  have := c.utf8Size_pos
  rw [byteLength_cons]
  omega

theorem byteLength_toList (s : String) : byteLength s.toList = s.utf8ByteSize := by
  have hlength : ∀ cs : List Char, byteLength cs = String.utf8Len cs := by
    intro cs
    induction cs with
    | nil => rfl
    | cons c cs ih => rw [byteLength_cons, String.utf8Len_cons, ih, Nat.add_comm]
  rw [hlength, String.utf8Len_toList]

theorem takeBytes?_append (cs ds : List Char) :
    takeBytes? (byteLength cs) (cs ++ ds) = some cs := by
  induction cs with
  | nil => cases ds <;> rfl
  | cons c cs ih =>
      have hc : c.utf8Size ≠ 0 := Nat.ne_of_gt c.utf8Size_pos
      obtain ⟨k, hk⟩ := Nat.exists_eq_succ_of_ne_zero (n := c.utf8Size + byteLength cs) (by omega)
      rw [byteLength_cons, hk, List.cons_append, takeBytes?, ← Nat.succ_eq_add_one, ← hk,
        if_pos (Nat.le_add_right _ _), Nat.add_sub_cancel_left, ih]
      rfl

theorem length_le_byteLength (cs : List Char) : cs.length ≤ byteLength cs := by
  induction cs with
  | nil => exact Nat.le_refl 0
  | cons c cs ih =>
      have hc := c.utf8Size_pos
      rw [List.length_cons, byteLength_cons]
      omega

/-- Characters can be counted by bytes exactly where all are one byte long. -/
theorem byteLength_eq_length_iff {cs : List Char} :
    byteLength cs = cs.length ↔ ∀ c ∈ cs, c.utf8Size = 1 := by
  induction cs with
  | nil => simp
  | cons c cs ih =>
      have hc := c.utf8Size_pos
      have hcs := length_le_byteLength cs
      rw [List.forall_mem_cons, ← ih, byteLength_cons, List.length_cons]
      omega

end Spl.Text
