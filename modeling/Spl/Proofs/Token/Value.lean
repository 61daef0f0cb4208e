import Spl.Proofs.Syntax.RoundTrip
import Spl.Proofs.Text.ByteOrder
import Spl.Proofs.Token.Lexing

/-!
The value of every literal. A literal that was cut out of a source text spells
exactly one number, whatever its length. It is read as this number if that fits,
as signed number if it is decimal and as 32 bits if it is hexadecimal, and is
complained about otherwise. A character always has its code as value.
-/

namespace Spl

/-- A character has four bytes at most. -/
theorem Text.byteLength_le (cs : List Char) : Text.byteLength cs ≤ 4 * cs.length := by
  induction cs with
  | nil => exact Nat.le_refl 0
  | cons c cs ih =>
      have hc := c.utf8Size_le_four
      rw [Text.byteLength_cons, List.length_cons]
      omega

namespace Literal

/-! ### Digits -/

theorem isSome_digitsFrom? {base value : Nat} {digit? : Char → Option Nat} {cs : List Char}
    (h : ∀ c ∈ cs, (digit? c).isSome = true) :
    (digitsFrom? base digit? value cs).isSome = true := by
  induction cs generalizing value with
  | nil => rfl
  | cons c cs ih =>
      obtain ⟨hc, hcs⟩ := List.forall_mem_cons.mp h
      obtain ⟨d, hd⟩ := Option.isSome_iff_exists.mp hc
      rw [digitsFrom?, hd, Option.bind_some]
      exact ih hcs

/-- Digits spell exactly one number. -/
theorem exists_spelled {base : Nat} {digit? : Char → Option Nat}
    (hdigit : ∀ {c d}, digit? c = some d ↔ d < base ∧ c.toLower = d.digitChar) {cs : List Char}
    (hne : cs ≠ []) (h : ∀ c ∈ cs, (digit? c).isSome = true) :
    ∃ v, digits? base digit? cs = some v ∧ ∀ w, Spells base cs w ↔ w = v := by
  obtain ⟨v, hv⟩ : ∃ v, digits? base digit? cs = some v := by
    obtain ⟨c, cs, rfl⟩ := List.exists_cons_of_ne_nil hne
    exact Option.isSome_iff_exists.mp (isSome_digitsFrom? h)
  refine ⟨v, hv, fun w => ?_⟩
  rw [← digits?_eq_some_iff hdigit, hv, Option.some_inj, eq_comm]

/-- A zero in front of other digits does not count. -/
theorem Spells.cons_zero {base : Nat} (hbase : 0 < base) {cs : List Char} {n : Nat}
    (h : Spells base cs n) : Spells base ('0' :: cs) n := by
  obtain ⟨ds, hds, -, rfl⟩ := h
  refine ⟨0 :: ds, .cons ⟨hbase, rfl⟩ hds, List.cons_ne_nil 0 ds, ?_⟩
  rw [List.reverse_cons, Nat.ofDigits_append, Nat.ofDigits_singleton, Nat.mul_zero, Nat.add_zero]

theorem Spells.append_zeros {base : Nat} (hbase : 0 < base) {cs : List Char} {n : Nat}
    (h : Spells base cs n) (k : Nat) : Spells base (List.replicate k '0' ++ cs) n := by
  induction k with
  | zero => exact h
  | succ k ih => exact ih.cons_zero hbase

/-- A number is spelled by as many digits as have room for it. -/
theorem exists_spells_of_lt {base k n : Nat} (hbase : 1 < base) (hle : base ≤ 16) (hk : 0 < k)
    (hn : n < base ^ k) : ∃ cs, cs.length = k ∧ Spells base cs n := by
  have hlength := Nat.toDigits_length base n k hk hn
  refine ⟨List.replicate (k - (Nat.toDigits base n).length) '0' ++ Nat.toDigits base n, ?_,
    (spells_toDigits hbase hle n).append_zeros (by omega) _⟩
  rw [List.length_append, List.length_replicate]
  omega

/-! ### Values -/

theorem value_of_number {t : Token} (hkind : t.kind = .number)
    (hdigits : ∀ c ∈ t.value.toList, c.isDigit = true) {v : Nat}
    (hv : decimalDigits? t.value.toList = some v) :
    value t = if v < 2 ^ 31 then .ok (Int32.ofNat v) else .error (unreadable t) := by
  rw [value, hkind]
  dsimp only
  rw [decimal?_of_isDigit hdigits, hv, Option.bind_some]
  split <;> rfl

theorem value_of_hexNumber {t : Token} (hkind : t.kind = .hexNumber) {x : Char}
    {digits : List Char} (hvalue : t.value.toList = '0' :: x :: digits) (hx : x = 'x' ∨ x = 'X')
    (hdigits : ∀ c ∈ digits, isHexDigit c = true) {v : Nat} (hv : hexDigits? digits = some v) :
    value t =
      if v < 2 ^ 32 then .ok (UInt32.ofNat v).toInt32 else .error (unreadable t) := by
  rw [value, hkind]
  dsimp only
  rw [hvalue, dropBytes?_hexadecimal hx]
  dsimp only
  rw [hexadecimal?_of_isHexDigit hdigits, hv, Option.bind_some]
  split <;> rfl

/-- The highest of 32 bits is the sign. -/
theorem toInt_ofBits {v : Nat} (hv : v < 2 ^ 32) :
    (UInt32.ofNat v).toInt32.toInt = if v < 2 ^ 31 then (v : Int) else v - 2 ^ 32 := by
  have hbits : (UInt32.ofNat v).toInt32.toBitVec.toNat = v := UInt32.toNat_ofNat_of_lt' hv
  rw [← Int32.toInt_toBitVec, BitVec.toInt_eq_toNat_cond, hbits]
  split <;> split <;> omega

end Literal

open Literal

/-- A literal token is read as what it spells: a decimal number that fits into
31 bits as this number, a hexadecimal one that fits into 32 bits as the signed
number of these bits, and a character as its code. -/
structure Token.ReadAsSpelled (t : Token) : Prop where
  number : t.kind = .number → ∃ v : Nat, (∀ w, Spells 10 t.value.toList w ↔ w = v) ∧
    (v < 2 ^ 31 → ∃ n, Literal.value t = .ok n ∧ n.toInt = v) ∧
    (2 ^ 31 ≤ v → Literal.value t = .error (unreadable t))
  hexNumber : t.kind = .hexNumber → ∃ (x : Char) (digits : List Char) (v : Nat),
    t.value.toList = '0' :: x :: digits ∧ (x = 'x' ∨ x = 'X') ∧
    (∀ w, Spells 16 digits w ↔ w = v) ∧
    (v < 2 ^ 32 → ∃ n, Literal.value t = .ok n ∧
      n.toInt = if v < 2 ^ 31 then (v : Int) else v - 2 ^ 32) ∧
    (2 ^ 32 ≤ v → Literal.value t = .error (unreadable t))
  character : t.kind = .character → ∃ n, Literal.value t = .ok n ∧
    (t.value = "\\n" ∧ n.toInt = 10 ∨ ∃ c, t.value.toList = [c] ∧ n.toInt = c.toNat)

theorem Token.Lexical.readAsSpelled {t : Token} (ht : t.Lexical) : t.ReadAsSpelled := by
  have h := ht
  unfold Token.Lexical at h
  refine ⟨fun hkind => ?_, fun hkind => ?_, fun hkind => ?_⟩
  · rw [hkind] at h
    obtain ⟨hne, hdigits⟩ := h
    obtain ⟨v, hv, hspells⟩ := exists_spelled decimalDigit?_eq_some_iff hne fun c hc => by
      rw [isSome_decimalDigit?, hdigits c hc]
    have hvalue := value_of_number hkind hdigits hv
    refine ⟨v, hspells, fun hfits => ?_, fun hlarge => ?_⟩
    · rw [if_pos hfits] at hvalue
      exact ⟨_, hvalue, Int32.toInt_ofNat_of_lt hfits⟩
    · rwa [if_neg (Nat.not_lt.mpr hlarge)] at hvalue
  · rw [hkind] at h
    obtain ⟨x, digits, htext, hx, hne, hdigits⟩ := h
    obtain ⟨v, hv, hspells⟩ := exists_spelled hexDigit?_eq_some_iff hne fun c hc => by
      rw [isSome_hexDigit?, hdigits c hc]
    have hvalue := value_of_hexNumber hkind htext hx hdigits hv
    refine ⟨x, digits, v, htext, hx, hspells, fun hfits => ?_, fun hlarge => ?_⟩
    · rw [if_pos hfits] at hvalue
      exact ⟨_, hvalue, toInt_ofBits hfits⟩
    · rwa [if_neg (Nat.not_lt.mpr hlarge)] at hvalue
  · rw [hkind] at h
    obtain htext | ⟨c, htext, -⟩ := h
    · exact ⟨_, value_of_denotes ht (.newline hkind htext), .inl ⟨String.ext htext, by decide⟩⟩
    · have hc : c.toNat < 0x110000 := Text.toNat_lt_of_char c
      exact ⟨_, value_of_denotes ht (.character hkind htext),
        .inr ⟨c, htext, Int32.toInt_ofNat_of_lt (Nat.lt_trans hc (by decide))⟩⟩

/-! ### Literals of all integers -/

/-- A lexeme that is all of a source is its only token. -/
theorem Lexeme.exists_tokenize {s : String} {kind : TokenKind} (hs : Lexeme s kind)
    (hlimit : s.utf8ByteSize < Count.limit) (file : Option String) :
    ∃ t eof, tokenize s file = .ok [t, eof] ∧ t.Reads s := by
  have hblank : Blank [] := by simp [Blank]
  have hspaced : Spaced [s] s.toList := by
    rw [← List.append_nil s.toList, ← List.nil_append (s.toList ++ [])]
    exact .some hblank (.done hblank)
  obtain ⟨ts, eof, htokens, -, hreads, -⟩ :=
    hspaced.exists_tokenize (List.forall_mem_singleton.mpr ⟨kind, hs⟩) hlimit file
  cases hreads with
  | cons ht hrest =>
      cases hrest
      exact ⟨_, eof, htokens, ht⟩

theorem Lexeme.of_hexadecimal {x : Char} (hx : x = 'x' ∨ x = 'X') {digits : List Char} {n : Nat}
    (h : Spells 16 digits n) : Lexeme (String.ofList ('0' :: x :: digits)) .hexNumber := by
  refine ⟨.hexadecimal, ?_, rfl⟩
  rw [String.toList_ofList]
  refine .hexadecimal hx h.ne_nil fun c hc => ?_
  rw [← isSome_hexDigit?]
  exact h.forall_isSome hexDigit?_eq_some_iff c hc

/-- Every integer is the value of the literal of eight digits that spells its bits. -/
theorem exists_hexadecimal_of_int32 (n : Int32) {x : Char} (hx : x = 'x' ∨ x = 'X')
    (file : Option String) :
    ∃ digits, digits.length = 8 ∧ Spells 16 digits n.toUInt32.toNat ∧
      ∃ t eof, tokenize (String.ofList ('0' :: x :: digits)) file = .ok [t, eof] ∧
        t.kind = .hexNumber ∧ t.value.toList = '0' :: x :: digits ∧ Literal.value t = .ok n := by
  obtain ⟨digits, hlength, hspells⟩ := @exists_spells_of_lt 16 8 _
    (by decide) (by decide) (by decide) n.toUInt32.toNat_lt
  have hlexeme := Lexeme.of_hexadecimal hx hspells
  have hlimit : (String.ofList ('0' :: x :: digits)).utf8ByteSize < Count.limit := by
    have hbytes := Text.byteLength_le ('0' :: x :: digits)
    rw [List.length_cons, List.length_cons, hlength] at hbytes
    rw [← Text.byteLength_toList, String.toList_ofList]
    exact Nat.lt_of_le_of_lt hbytes (by decide)
  obtain ⟨t, eof, htokens, ht⟩ := hlexeme.exists_tokenize hlimit file
  have hkind := ht.kind_eq hlexeme
  have htext : t.value.toList = '0' :: x :: digits := by
    rw [ht.value_eq (by rw [hkind]; decide), String.toList_ofList]
  have hbits : (UInt32.ofNat n.toUInt32.toNat).toInt32 = n := by
    rw [UInt32.ofNat_toNat, Int32.toInt32_toUInt32]
  refine ⟨digits, hlength, hspells, t, eof, htokens, hkind, htext, ?_⟩
  have hdigits := (digits?_eq_some_iff hexDigit?_eq_some_iff).mpr hspells
  rw [value_of_hexNumber hkind htext hx ?_ hdigits, if_pos n.toUInt32.toNat_lt, hbits]
  intro c hc
  rw [← isSome_hexDigit?]
  exact hspells.forall_isSome hexDigit?_eq_some_iff c hc

end Spl
