import Spl.Text.Sink

/-!
How bytes get into a sink. A text is handed over in pieces, each call takes some
of the bytes that are left of a piece, and the call is repeated until the piece
is through or nothing fits any more; then no later piece is tried. However the
text is cut and however much each call takes, the sink ends up with what fits of
the whole text.
-/

namespace Spl.Text.Sink

variable {s s' : Sink} {bytes taken left : List UInt8} {limit : Nat} {complete : Bool}

/-- The sink with more bytes in it. -/
def append (s : Sink) (bytes : List UInt8) : Sink :=
  { s with written := s.written ++ bytes }

/-- The sink with more bytes in it and so much room left. -/
def fill (s : Sink) (bytes : List UInt8) (room : Nat) : Sink :=
  { s with written := s.written ++ bytes, room := some room }

@[simp] theorem append_nil (s : Sink) : s.append [] = s := by
  simp [append]

@[simp] theorem append_append (s : Sink) (bytes bytes' : List UInt8) :
    (s.append bytes).append bytes' = s.append (bytes ++ bytes') := by
  simp [append]

theorem fill_nil (h : s.room = some limit) : s.fill [] limit = s := by
  simp [fill, ← h]

@[simp] theorem fill_fill (s : Sink) (bytes bytes' : List UInt8) (room room' : Nat) :
    (s.fill bytes room).fill bytes' room' = s.fill (bytes ++ bytes') room' := by
  simp [fill]

/-! ### Within a limit -/

theorem writeBytes_of_room_none (h : s.room = none) (bytes : List UInt8) :
    s.writeBytes bytes = (s.append bytes, true) := by
  simp [writeBytes, append, h]

theorem writeBytes_of_fits (hroom : s.room = some limit) (h : bytes.length ≤ limit) :
    s.writeBytes bytes = (s.fill bytes (limit - bytes.length), true) := by
  rw [writeBytes, hroom]
  simp [fill, List.take_of_length_le h, h]

theorem writeBytes_of_exceeds (hroom : s.room = some limit) (h : limit < bytes.length) :
    s.writeBytes bytes = (s.fill (bytes.take limit) 0, false) := by
  have hfull : limit - bytes.length = 0 := Nat.sub_eq_zero_of_le (Nat.le_of_lt h)
  rw [writeBytes, hroom]
  simp [fill, hfull, h]

theorem writeBytes_nil (s : Sink) : s.writeBytes [] = (s, true) := by
  cases hroom : s.room with
  | none => rw [writeBytes_of_room_none hroom, append_nil]
  | some limit =>
      have hnothing : ([] : List UInt8).length ≤ limit := Nat.zero_le limit
      rw [writeBytes_of_fits hroom hnothing, List.length_nil, Nat.sub_zero, fill_nil hroom]

/-- What is written in two parts is written as a whole, if the first part fits. -/
theorem writeBytes_append (s : Sink) (bytes bytes' : List UInt8) :
    s.writeBytes (bytes ++ bytes') =
      if (s.writeBytes bytes).2 then (s.writeBytes bytes).1.writeBytes bytes'
      else s.writeBytes bytes := by
  cases hroom : s.room with
  | none =>
      have hrest : (s.append bytes).room = none := hroom
      simp [writeBytes_of_room_none hroom, writeBytes_of_room_none hrest]
  | some limit =>
      by_cases hfirst : bytes.length ≤ limit
      · rw [writeBytes_of_fits hroom hfirst, if_pos rfl]
        have hrest : (s.fill bytes (limit - bytes.length)).room =
            some (limit - bytes.length) := rfl
        by_cases hsecond : bytes'.length ≤ limit - bytes.length
        · have hboth : (bytes ++ bytes').length ≤ limit := by
            rw [List.length_append]
            omega
          rw [writeBytes_of_fits hroom hboth, writeBytes_of_fits hrest hsecond, fill_fill,
            List.length_append, Nat.sub_sub]
        · have hboth : limit < (bytes ++ bytes').length := by
            rw [List.length_append]
            omega
          rw [writeBytes_of_exceeds hroom hboth,
            writeBytes_of_exceeds hrest (Nat.lt_of_not_le hsecond), fill_fill,
            List.take_append, List.take_of_length_le hfirst]
      · have hover := Nat.lt_of_not_le hfirst
        have hboth : limit < (bytes ++ bytes').length := by
          rw [List.length_append]
          omega
        rw [writeBytes_of_exceeds hroom hover, writeBytes_of_exceeds hroom hboth,
          List.take_append_of_le_length (Nat.le_of_lt hover)]
        rfl

/-! ### Single calls -/

/-- One call takes all of these bytes. -/
inductive Takes (s : Sink) (bytes : List UInt8) : Sink → Prop
  | endless (h : s.room = none) : Takes s bytes (s.append bytes)
  | limited {room : Nat} (h : s.room = some (bytes.length + room)) :
      Takes s bytes (s.fill bytes room)

/-- A piece is handed over call by call. Each takes a part, unless nothing fits. -/
inductive WritesAll : Sink → List UInt8 → Sink → Bool → Prop
  | done {s : Sink} : WritesAll s [] s true
  | part {s s' s'' : Sink} {taken left : List UInt8} {complete : Bool} (hne : taken ≠ [])
      (h : s.Takes taken s') (hs : WritesAll s' left s'' complete) :
      WritesAll s (taken ++ left) s'' complete
  | full {s : Sink} {bytes : List UInt8} (hne : bytes ≠ []) (h : s.room = some 0) :
      WritesAll s bytes s false

/-- Pieces are handed over one after the other, up to the first that fails. -/
inductive WritesPieces : Sink → List (List UInt8) → Sink → Bool → Prop
  | done {s : Sink} : WritesPieces s [] s true
  | cons {s s' s'' : Sink} {piece : List UInt8} {pieces : List (List UInt8)} {complete : Bool}
      (h : s.WritesAll piece s' true) (hs : WritesPieces s' pieces s'' complete) :
      WritesPieces s (piece :: pieces) s'' complete
  | fail {s s' : Sink} {piece : List UInt8} {pieces : List (List UInt8)}
      (h : s.WritesAll piece s' false) : WritesPieces s (piece :: pieces) s' false

/-! ### What they come to -/

theorem Takes.writeBytes_eq (h : s.Takes taken s') : s.writeBytes taken = (s', true) := by
  cases h with
  | endless h => exact writeBytes_of_room_none h taken
  | limited h => rw [writeBytes_of_fits h (Nat.le_add_right _ _), Nat.add_sub_cancel_left]

theorem WritesAll.writeBytes_eq (h : s.WritesAll bytes s' complete) :
    s.writeBytes bytes = (s', complete) := by
  induction h with
  | done => exact writeBytes_nil _
  | part _ h _ ih => rw [writeBytes_append, h.writeBytes_eq, if_pos rfl, ih]
  | @full s bytes hne h =>
      rw [writeBytes_of_exceeds h (List.length_pos_iff.mpr hne), List.take_zero, fill_nil h]

/-- One call is enough for bytes that fit. -/
theorem WritesAll.of_takes (hne : bytes ≠ []) (h : s.Takes bytes s') :
    s.WritesAll bytes s' true := by
  have hall : s.WritesAll (bytes ++ []) s' true := .part hne h .done
  rwa [List.append_nil] at hall

/-- Two calls are enough for bytes that do not: one takes what fits, and the other nothing. -/
theorem WritesAll.of_exceeds (hroom : s.room = some limit) (h : limit < bytes.length) :
    ∃ s', s.WritesAll bytes s' false := by
  have hne : bytes ≠ [] := List.ne_nil_of_length_pos (Nat.zero_lt_of_lt h)
  cases limit with
  | zero => exact ⟨s, .full hne hroom⟩
  | succ room =>
      have hlength : (bytes.take (room + 1)).length = room + 1 :=
        List.length_take_of_le (Nat.le_of_lt h)
      have htaken : bytes.take (room + 1) ≠ [] := by
        apply List.ne_nil_of_length_pos
        omega
      have hleft : bytes.drop (room + 1) ≠ [] := by
        apply List.ne_nil_of_length_pos
        rw [List.length_drop]
        omega
      have hlimit : s.room = some ((bytes.take (room + 1)).length + 0) := by
        rw [hlength, hroom]
      have hpart := WritesAll.part htaken (.limited hlimit) (.full hleft rfl)
      rw [List.take_append_drop] at hpart
      exact ⟨_, hpart⟩

theorem exists_writesAll (s : Sink) (bytes : List UInt8) :
    ∃ s' complete, s.WritesAll bytes s' complete := by
  by_cases hne : bytes = []
  · rw [hne]
    exact ⟨s, true, .done⟩
  cases hroom : s.room with
  | none => exact ⟨_, true, .of_takes hne (.endless hroom)⟩
  | some room =>
      by_cases hfits : bytes.length ≤ room
      · obtain ⟨more, rfl⟩ := Nat.exists_eq_add_of_le hfits
        exact ⟨_, true, .of_takes hne (.limited hroom)⟩
      · obtain ⟨s', h⟩ := WritesAll.of_exceeds hroom (Nat.lt_of_not_le hfits)
        exact ⟨s', false, h⟩

theorem exists_writesPieces (s : Sink) (pieces : List (List UInt8)) :
    ∃ s' complete, s.WritesPieces pieces s' complete := by
  induction pieces generalizing s with
  | nil => exact ⟨s, true, .done⟩
  | cons piece pieces ih =>
      obtain ⟨s', complete, h⟩ := exists_writesAll s piece
      cases complete with
      | false => exact ⟨s', false, .fail h⟩
      | true =>
          obtain ⟨s'', complete, hs⟩ := ih s'
          exact ⟨s'', complete, .cons h hs⟩

theorem WritesPieces.writeBytes_eq {pieces : List (List UInt8)}
    (h : s.WritesPieces pieces s' complete) : s.writeBytes pieces.flatten = (s', complete) := by
  induction h with
  | done => exact writeBytes_nil _
  | cons h _ ih => rw [List.flatten_cons, writeBytes_append, h.writeBytes_eq]; exact ih
  | fail h => rw [List.flatten_cons, writeBytes_append, h.writeBytes_eq]; rfl

/-- However a text is handed over, the sink takes what fits of it. -/
theorem writesPieces_iff {pieces : List (List UInt8)} :
    s.WritesPieces pieces s' complete ↔ s.writeBytes pieces.flatten = (s', complete) := by
  constructor
  · exact WritesPieces.writeBytes_eq
  · intro h
    obtain ⟨t, all, ht⟩ := exists_writesPieces s pieces
    obtain ⟨rfl, rfl⟩ := Prod.mk.inj (ht.writeBytes_eq.symm.trans h)
    exact ht

end Spl.Text.Sink
