import Mathlib.Data.Nat.Digits.Defs
import Mathlib.Tactic.Ring
import Spl.Proofs.Settling
import Spl.Token.Lexeme
import Spl.Token.Literal

/-!
What literals stand for. A literal as it is cut out of a source text has a
value exactly if it fits into 32 bits, and its value is the number that its
digits spell or the code of its character.
-/

namespace Spl

namespace Literal

/-- The text consists of digits of the base, in either case, which spell the
number from the highest one on. -/
def Spells (base : Nat) (cs : List Char) (n : Nat) : Prop :=
  ∃ ds, List.Forall₂ (fun c d => d < base ∧ c.toLower = d.digitChar) cs ds ∧ ds ≠ [] ∧
    n = Nat.ofDigits base ds.reverse

end Literal

/-- A literal token has the form in which it is cut out of a source text. -/
def Token.Lexical (t : Token) : Prop :=
  match t.kind with
  | .number => t.value.toList ≠ [] ∧ ∀ c ∈ t.value.toList, c.isDigit = true
  | .hexNumber =>
    ∃ x digits, t.value.toList = '0' :: x :: digits ∧ (x = 'x' ∨ x = 'X') ∧ digits ≠ [] ∧
      ∀ c ∈ digits, isHexDigit c = true
  | .character =>
    t.value.toList = ['\\', 'n'] ∨ ∃ c, t.value.toList = [c] ∧ c ≠ '\'' ∧ c ≠ '\\'
  | _ => True

/-- Only literals have forms that matter. -/
theorem Token.lexical_of_kind {t : Token} (hnumber : t.kind ≠ .number) (hhex : t.kind ≠ .hexNumber)
    (hcharacter : t.kind ≠ .character) : t.Lexical := by
  unfold Lexical
  split <;> first | contradiction | trivial

/-- The integer that a literal token stands for. -/
inductive Token.Denotes : Token → Int32 → Prop
  | decimal {t : Token} {n : Nat} (kind : t.kind = .number)
      (digits : Literal.Spells 10 t.value.toList n) (fits : n < 2 ^ 31) :
      Denotes t (Int32.ofNat n)
  | hexadecimal {t : Token} {x : Char} {cs : List Char} {n : Nat} (kind : t.kind = .hexNumber)
      (value : t.value.toList = '0' :: x :: cs) (digits : Literal.Spells 16 cs n)
      (fits : n < 2 ^ 32) :
      Denotes t (UInt32.ofNat n).toInt32
  | newline {t : Token} (kind : t.kind = .character) (value : t.value.toList = ['\\', 'n']) :
      Denotes t (Int32.ofNat '\n'.toNat)
  | character {t : Token} {c : Char} (kind : t.kind = .character) (value : t.value.toList = [c]) :
      Denotes t (Int32.ofNat c.toNat)

theorem Token.Denotes.kind_ne_eof {t : Token} {n : Int32} (h : t.Denotes n) : t.kind ≠ .eof := by
  cases h with
  | decimal hkind _ _ | hexadecimal hkind _ _ _ | newline hkind _ | character hkind _ =>
      rw [hkind]
      decide

namespace Literal

/-! ### Digits

A digit is an ASCII character, so what the two readings of digits say is
compared by going through these. -/

theorem forall_ascii {P : Char → Prop} (h : ∀ n < 128, P (Char.ofNat n)) {c : Char}
    (hc : c.toNat < 128) : P c := by
  rw [← Char.ofNat_toNat c]
  exact h c.toNat hc

theorem toNat_lt_of_isHexDigit {c : Char} (h : isHexDigit c = true) : c.toNat < 128 := by
  simp only [isHexDigit, Bool.or_eq_true, Bool.and_eq_true, decide_eq_true_eq, Char.isDigit] at h
  have hle : c.toNat ≤ 'f'.toNat := by
    rcases h with (h | h) | h
    · exact Nat.le_trans h.2 (by decide)
    · exact h.2
    · exact Nat.le_trans h.2 (by decide)
  exact Nat.lt_of_le_of_lt hle (by decide)

theorem toNat_lt_of_toLower {c : Char} {d : Nat} (hd : d < 16) (h : c.toLower = d.digitChar) :
    c.toNat < 128 := by
  by_cases hupper : c.val ≥ 'A'.val ∧ c.val ≤ 'Z'.val
  · have hle : c.toNat ≤ 'Z'.toNat := hupper.2
    exact Nat.lt_of_le_of_lt hle (by decide)
  · have hlower : c.toLower = c := dif_neg hupper
    have hascii : ∀ d < 16, d.digitChar.toNat < 128 := by decide
    rw [← hlower, h]
    exact hascii d hd

theorem eq_some_iff_toLower {base : Nat} (hbase : base ≤ 16) {digit? : Char → Option Nat}
    (hex : ∀ c, (digit? c).isSome = true → isHexDigit c = true)
    (read : ∀ n < 128, ∀ d, digit? (Char.ofNat n) = some d →
      d < base ∧ (Char.ofNat n).toLower = d.digitChar)
    (spell : ∀ n < 128, ∀ d < base, (Char.ofNat n).toLower = d.digitChar →
      digit? (Char.ofNat n) = some d) {c : Char} {d : Nat} :
    digit? c = some d ↔ d < base ∧ c.toLower = d.digitChar := by
  constructor
  · intro h
    have hc : c.toNat < 128 := toNat_lt_of_isHexDigit (hex c (by rw [h]; rfl))
    exact forall_ascii (P := fun c => ∀ d, digit? c = some d → d < base ∧ c.toLower = d.digitChar)
      read hc d h
  · rintro ⟨hd, h⟩
    have hc : c.toNat < 128 := toNat_lt_of_toLower (Nat.lt_of_lt_of_le hd hbase) h
    exact forall_ascii (P := fun c => ∀ d < base, c.toLower = d.digitChar → digit? c = some d)
      spell hc d hd h

theorem isSome_decimalDigit? (c : Char) : (decimalDigit? c).isSome = c.isDigit := by
  rw [decimalDigit?]
  split <;> simp_all

theorem isSome_hexDigit? (c : Char) : (hexDigit? c).isSome = isHexDigit c := by
  simp only [hexDigit?, isHexDigit]
  split_ifs <;> simp_all

theorem isHexDigit_of_isDigit {c : Char} (h : c.isDigit = true) : isHexDigit c = true := by
  rw [isHexDigit, h]
  rfl

theorem decimalDigit?_eq_some_iff {c : Char} {d : Nat} :
    decimalDigit? c = some d ↔ d < 10 ∧ c.toLower = d.digitChar := by
  refine eq_some_iff_toLower (by decide) (fun c h => ?_) (by decide +kernel) (by decide +kernel)
  rw [isSome_decimalDigit?] at h
  exact isHexDigit_of_isDigit h

theorem hexDigit?_eq_some_iff {c : Char} {d : Nat} :
    hexDigit? c = some d ↔ d < 16 ∧ c.toLower = d.digitChar := by
  refine eq_some_iff_toLower (by decide) (fun c h => ?_) (by decide +kernel) (by decide +kernel)
  rwa [isSome_hexDigit?] at h

/-! ### Numbers -/

/-- Reading digits one by one adds the number that they spell, at the place
behind the value so far. -/
theorem digitsFrom?_eq_some_iff {base : Nat} {digit? : Char → Option Nat} {value n : Nat}
    {cs : List Char} :
    digitsFrom? base digit? value cs = some n ↔
      ∃ ds, List.Forall₂ (fun c d => digit? c = some d) cs ds ∧
        n = value * base ^ ds.length + Nat.ofDigits base ds.reverse := by
  induction cs generalizing value with
  | nil =>
      rw [digitsFrom?, Option.some_inj]
      constructor
      · rintro rfl
        exact ⟨[], .nil, by simp⟩
      · rintro ⟨ds, hds, rfl⟩
        cases hds
        simp
  | cons c cs ih =>
      have hplace : ∀ d ds, (value * base + d) * base ^ ds.length + Nat.ofDigits base ds.reverse =
          value * base ^ (d :: ds).length + Nat.ofDigits base (d :: ds).reverse := by
        intro d ds
        rw [List.reverse_cons, Nat.ofDigits_append, Nat.ofDigits_singleton, List.length_reverse,
          List.length_cons]
        ring
      rw [digitsFrom?, Option.bind_eq_some_iff]
      constructor
      · rintro ⟨d, hd, h⟩
        obtain ⟨ds, hds, rfl⟩ := ih.mp h
        exact ⟨d :: ds, .cons hd hds, hplace d ds⟩
      · rintro ⟨_, hds, rfl⟩
        cases hds with
        | cons hd hds => exact ⟨_, hd, ih.mpr ⟨_, hds, (hplace _ _).symm⟩⟩

theorem digits?_eq_some_iff {base : Nat} {digit? : Char → Option Nat}
    (hdigit : ∀ {c d}, digit? c = some d ↔ d < base ∧ c.toLower = d.digitChar) {cs : List Char}
    {n : Nat} : digits? base digit? cs = some n ↔ Spells base cs n := by
  cases cs with
  | nil =>
      refine iff_of_false (by simp [digits?]) ?_
      rintro ⟨ds, hds, hne, -⟩
      cases hds
      exact hne rfl
  | cons c cs =>
      rw [digits?.eq_2 _ _ _ (List.cons_ne_nil c cs), digitsFrom?_eq_some_iff, Spells]
      simp only [hdigit, Nat.zero_mul, Nat.zero_add]
      refine exists_congr fun ds => and_congr_right fun hds => ?_
      have hne : ds ≠ [] := by
        rintro rfl
        cases hds
      simp [hne]

/-! ### Values -/

/-- Digits have no sign in front of them. -/
theorem decimal?_of_isDigit {cs : List Char} (h : ∀ c ∈ cs, c.isDigit = true) :
    decimal? cs = (decimalDigits? cs).bind fun n =>
      if n < 2 ^ 31 then some (Int32.ofNat n) else none := by
  have hfits : ∀ n : Nat, (Int32.minValue.toInt ≤ Int.ofNat n ∧
      Int.ofNat n ≤ Int32.maxValue.toInt) ↔ n < 2 ^ 31 := by
    intro n
    rw [show Int32.minValue.toInt = -2147483648 from rfl,
      show Int32.maxValue.toInt = 2147483647 from rfl, Int.ofNat_eq_natCast]
    omega
  unfold decimal?
  split
  · exact absurd (h '+' List.mem_cons_self) (by decide)
  · exact absurd (h '-' List.mem_cons_self) (by decide)
  · cases decimalDigits? cs with
    | none => rfl
    | some n =>
        rw [Option.map_some, Option.bind_eq_bind, Option.bind_some, Option.bind_some]
        by_cases hn : n < 2 ^ 31
        · rw [if_pos hn]
          exact (if_pos ((hfits n).mpr hn)).trans (congrArg some Int32.ofInt_eq_ofNat)
        · rw [if_neg hn]
          exact if_neg (mt (hfits n).mp hn)

theorem hexadecimal?_of_isHexDigit {cs : List Char} (h : ∀ c ∈ cs, isHexDigit c = true) :
    hexadecimal? cs = (hexDigits? cs).bind fun n =>
      if n < 2 ^ 32 then some (UInt32.ofNat n).toInt32 else none := by
  unfold hexadecimal?
  split
  · exact absurd (h '+' List.mem_cons_self) (by decide)
  · rfl

theorem decimal?_eq_some_iff {cs : List Char} (h : ∀ c ∈ cs, c.isDigit = true) {m : Int32} :
    decimal? cs = some m ↔ ∃ n, Spells 10 cs n ∧ n < 2 ^ 31 ∧ m = Int32.ofNat n := by
  rw [decimal?_of_isDigit h, Option.bind_eq_some_iff]
  refine exists_congr fun n => ?_
  rw [decimalDigits?, digits?_eq_some_iff decimalDigit?_eq_some_iff, Option.ite_none_right_eq_some,
    Option.some_inj, eq_comm]

theorem hexadecimal?_eq_some_iff {cs : List Char} (h : ∀ c ∈ cs, isHexDigit c = true)
    {m : Int32} :
    hexadecimal? cs = some m ↔
      ∃ n, Spells 16 cs n ∧ n < 2 ^ 32 ∧ m = (UInt32.ofNat n).toInt32 := by
  rw [hexadecimal?_of_isHexDigit h, Option.bind_eq_some_iff]
  refine exists_congr fun n => ?_
  rw [hexDigits?, digits?_eq_some_iff hexDigit?_eq_some_iff, Option.ite_none_right_eq_some,
    Option.some_inj, eq_comm]

theorem settles_elim {t : Token} {found : Option Int32} {Q : Int32 → Prop}
    (h : ∀ n, found = some n → Q n) :
    Settles (found.elim (throw (unreadable t)) pure : Except Halt Int32) Q := by
  cases found with
  | none => exact Settles.diagnostic _
  | some n => exact h n rfl

/-- The two bytes before the digits of a hexadecimal number. -/
theorem dropBytes?_hexadecimal {x : Char} (hx : x = 'x' ∨ x = 'X') (digits : List Char) :
    Text.dropBytes? 2 ('0' :: x :: digits) = some digits := by
  rcases hx with rfl | rfl
  · exact Text.dropBytes?_append ['0', 'x'] digits
  · exact Text.dropBytes?_append ['0', 'X'] digits

theorem character?_singleton (c : Char) : character? [c] = some (Int32.ofNat c.toNat) := by
  simp [character?]

/-- Only literals have values, and those that they stand for. -/
theorem settles_value {t : Token} (ht : t.Lexical) : Settles (value t) t.Denotes := by
  unfold Token.Lexical at ht
  unfold value
  split
  · next hkind =>
      rw [hkind] at ht
      refine settles_elim fun n hn => ?_
      obtain ⟨n, hspells, hfits, rfl⟩ := (decimal?_eq_some_iff ht.2).mp hn
      exact .decimal hkind hspells hfits
  · next hkind =>
      rw [hkind] at ht
      obtain ⟨x, digits, hvalue, hx, -, hdigits⟩ := ht
      rw [hvalue, dropBytes?_hexadecimal hx]
      refine settles_elim fun n hn => ?_
      obtain ⟨n, hspells, hfits, rfl⟩ := (hexadecimal?_eq_some_iff hdigits).mp hn
      exact .hexadecimal hkind hvalue hspells hfits
  · next hkind =>
      rw [hkind] at ht
      refine settles_elim fun n hn => ?_
      rcases ht with hvalue | ⟨c, hvalue, -⟩
      · rw [hvalue] at hn
        obtain rfl := Option.some.inj hn
        exact .newline hkind hvalue
      · rw [hvalue, character?_singleton] at hn
        obtain rfl := Option.some.inj hn
        exact .character hkind hvalue
  · exact Settles.halt _ _

/-- A literal has the value that it stands for. -/
theorem value_of_denotes {t : Token} {n : Int32} (ht : t.Lexical) (h : t.Denotes n) :
    value t = .ok n := by
  unfold Token.Lexical at ht
  cases h with
  | decimal hkind hspells hfits =>
      rw [hkind] at ht
      rw [value, hkind]
      dsimp only
      rw [(decimal?_eq_some_iff ht.2).mpr ⟨_, hspells, hfits, rfl⟩]
      rfl
  | hexadecimal hkind hvalue hspells hfits =>
      rw [hkind] at ht
      obtain ⟨x, digits, hvalue', hx, -, hdigits⟩ := ht
      obtain ⟨-, rfl, rfl⟩ : '0' = '0' ∧ _ ∧ _ := by simpa [hvalue] using hvalue'
      rw [value, hkind]
      dsimp only
      rw [hvalue, dropBytes?_hexadecimal hx]
      dsimp only
      rw [(hexadecimal?_eq_some_iff hdigits).mpr ⟨_, hspells, hfits, rfl⟩]
      rfl
  | newline hkind hvalue =>
      rw [value, hkind]
      dsimp only
      rw [hvalue]
      rfl
  | character hkind hvalue =>
      rw [value, hkind]
      dsimp only
      rw [hvalue, character?_singleton]
      rfl

theorem settles_size {t : Token} (ht : t.Lexical) :
    Settles (size t) fun size => ∃ n, t.Denotes n ∧ 0 ≤ n ∧ size = n.toUInt32 := by
  rw [size]
  apply Settles.bind
  apply (settles_value ht).mono
  intro n hn
  split
  · next hsign => exact ⟨n, hn, hsign, rfl⟩
  · exact Settles.diagnostic _

theorem size_of_denotes {t : Token} {n : Int32} (ht : t.Lexical) (h : t.Denotes n) (hn : 0 ≤ n) :
    size t = .ok n.toUInt32 := by
  rw [size, value_of_denotes ht h]
  exact if_pos hn

end Literal

end Spl
