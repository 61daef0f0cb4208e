import Spl.Proofs.Scope.Library
import Spl.Proofs.Syntax.RoundTrip
import Spl.Proofs.Token.Touching
import Spl.Proofs.TypeExpr.Resolved

/-!
The texts of types as type expressions. The text of a type that is made of
integers and arrays is read as a type expression, and resolves to a type of the
same nesting and sizes. These are all that the text of a type tells.
-/

namespace Spl

namespace Ty

/-- The types have the same nesting and sizes, but need not be the same type. -/
inductive Alike : Ty → Ty → Prop
  | int : Alike .int .int
  | bool : Alike .bool .bool
  | array {i j : Nat} {size : UInt32} {t u : Ty} (h : Alike t u) :
      Alike (.array i size t) (.array j size u)

/-- The type is made of integers and arrays, and the sizes of the arrays are
integers of the language. -/
def Spellable : Ty → Prop
  | int => True
  | bool => False
  | array _ size element => size.toNat < 2 ^ 31 ∧ element.Spellable

/-- The type expression that the type reads like. -/
def expression : Ty → TypeExpr
  | int => .named "int" .null none
  | bool => .named "boolean" .null none
  | array _ size element => .array size element.expression .null none

variable {ty t u : Ty}

/-! ### Texts -/

theorem toList_text_array (i : Nat) (size : UInt32) (element : Ty) :
    (array i size element).text.toList =
      "array".toList ++ ' ' :: ("[".toList ++ ((toString size.toNat).toList ++
        ("]".toList ++ ' ' :: ("of".toList ++ ' ' :: element.text.toList)))) := by
  simp [text]

theorem text_eq_of_alike (h : t.Alike u) : t.text = u.text := by
  induction h with
  | int | bool => rfl
  | array _ ih => rw [text, text, ih]

/-- Digits end where a bracket stands. -/
theorem eq_of_digits_append {m n : Nat} {cs ds : List Char}
    (h : (toString m).toList ++ ']' :: cs = (toString n).toList ++ ']' :: ds) :
    m = n ∧ cs = ds := by
  have htake : ∀ (n : Nat) cs, ((toString n).toList ++ ']' :: cs).takeWhile Char.isDigit =
      Nat.toDigits 10 n := by
    intro n cs
    have hdigits : ∀ c ∈ Nat.toDigits 10 n, c.isDigit = true :=
      fun c hc => Nat.isDigit_of_mem_toDigits (by decide) (by decide) hc
    rw [Nat.toString_eq_ofList_toDigits, String.toList_ofList, List.takeWhile_append_of_pos hdigits,
      List.takeWhile_cons_of_neg (by decide), List.append_nil]
  have hdigits : Nat.toDigits 10 m = Nat.toDigits 10 n := by
    rw [← htake m cs, h, htake]
  obtain rfl : m = n := by
    rw [← Nat.ofDigitChars_ten_toDigits (n := m), hdigits, Nat.ofDigitChars_ten_toDigits]
  exact ⟨rfl, (List.cons_eq_cons.mp (List.append_cancel_left h)).2⟩

/-- The text tells in which way a type is made. -/
theorem alike_of_text_eq (h : t.text = u.text) : t.Alike u := by
  rw [← String.toList_inj] at h
  induction t generalizing u with
  | int =>
      cases u with
      | int => exact .int
      | bool => simp [text] at h
      | array => simp [text] at h
  | bool =>
      cases u with
      | bool => exact .bool
      | int => simp [text] at h
      | array => simp [text] at h
  | array i size element ih =>
      cases u with
      | int | bool => simp [text] at h
      | array j size' element' =>
          have hclosed : ∀ cs, "]".toList ++ cs = ']' :: cs := fun _ => rfl
          rw [toList_text_array, toList_text_array, hclosed, hclosed] at h
          simp only [List.append_cancel_left_eq, List.cons.injEq, true_and] at h
          obtain ⟨hsize, helement⟩ := eq_of_digits_append h
          simp only [List.append_cancel_left_eq, List.cons.injEq, true_and] at helement
          obtain rfl := UInt32.toNat_inj.mp hsize
          exact .array (ih helement)

theorem text_eq_iff_alike : t.text = u.text ↔ t.Alike u :=
  ⟨alike_of_text_eq, text_eq_of_alike⟩

/-! ### Lexemes -/

theorem spell_size {size : UInt32} (h : size.toNat < 2 ^ 31) :
    Literal.spell size.toInt32 = toString size.toNat := by
  rw [← UInt32.toUInt32_toInt32 size, Literal.toNat_lt_iff_nonneg] at h
  rw [Literal.spell, if_pos h, UInt32.toUInt32_toInt32, Nat.toString_eq_ofList_toDigits]

theorem writable_expression (h : ty.Spellable) : ty.expression.Writable := by
  induction ty with
  | int => exact (by decide : Spl.Nameable "int")
  | bool => exact h.elim
  | array i size element ih => exact ⟨h.1, ih h.2⟩

theorem bare_expression (ty : Ty) : ty.expression.bare = ty.expression := by
  induction ty with
  | int | bool => rfl
  | array i size element ih => rw [expression, TypeExpr.bare, ih]

theorem matches_decimal (n : Nat) : Pattern.Matches .decimal (toString n).toList := by
  rw [Nat.toString_eq_ofList_toDigits, String.toList_ofList]
  exact .decimal Nat.toDigits_ne_nil fun c hc =>
    Nat.isDigit_of_mem_toDigits (by decide) (by decide) hc

/-- The text of a type is cut into the lexemes of the type expression. -/
theorem cuts_text {file : String} (h : ty.Spellable) (read : List Char) :
    Cuts file read ty.text.toList ty.expression.lexemes := by
  have hword : ∀ s ∈ ["int", "array", "of"], Pattern.Matches .word s.toList := by
    have hmatch : ∀ s ∈ ["int", "array", "of"],
        Pattern.word.match? s.toList = some s.toList := by decide
    exact fun s hs => Pattern.matches_of_match? (by decide) (hmatch s hs)
  induction ty generalizing read with
  | int =>
      rw [← List.append_nil (text int).toList]
      exact .wordChars (hword "int" (by decide)) (by decide) rfl rfl .nil
  | bool => exact h.elim
  | array i size element ih =>
      obtain ⟨hsize, helement⟩ := h
      rw [toList_text_array, expression, TypeExpr.lexemes, spell_size hsize]
      refine .wordChars (hword "array" (by decide)) (by decide) rfl rfl (.blank rfl ?_)
      refine .lexeme (Pattern.munches_mark .openBracket (by decide) (by decide) _) rfl ?_
      refine .wordChars (matches_decimal size.toNat) (by decide) rfl rfl ?_
      refine .lexeme (Pattern.munches_mark .closeBracket (by decide) (by decide) _) rfl ?_
      refine .blank rfl (.wordChars (hword "of" (by decide)) (by decide) rfl rfl ?_)
      exact .blank rfl (ih helement _)

/-! ### Resolution -/

/-- Where `int` means the integers, what reads like a type resolves to one that
is made like it. -/
theorem exists_yields_of_expression {Γ : Context}
    (hint : ∀ position, Γ.typeNamed "int" position = .ok .int) {e : TypeExpr}
    (he : e.bare = ty.expression) (hfresh : e.Fresh) (h : ty.Spellable) (fresh : Nat) :
    ∃ after ty', (e.resolve Γ fresh).Yields after ty' ∧ ty'.Alike ty := by
  induction ty generalizing e with
  | int =>
      cases e with
      | array => cases he
      | named name position slot =>
          obtain rfl : name = "int" := (TypeExpr.named.inj he).1
          obtain rfl : slot = none := hfresh
          rw [TypeExpr.resolve, hint]
          exact ⟨_, _, rfl, .int⟩
  | bool => exact h.elim
  | array i size element ih =>
      cases e with
      | named => cases he
      | array size' e position slot =>
          obtain ⟨rfl, helement, -⟩ := TypeExpr.array.inj he
          obtain ⟨hfresh, rfl⟩ := hfresh
          obtain ⟨after, element', hyields, halike⟩ := ih helement hfresh h.2
          rw [TypeExpr.resolve]
          exact ⟨_, _, Outcome.yields_andThen_iff.mpr ⟨after, element', hyields, rfl⟩,
            .array halike⟩

/-- In the table that every program starts with, `int` means the integers. -/
theorem exists_initial_int (library : Library) :
    ∃ table, SymbolTable.initial library = .ok table ∧
      ∀ position, (⟨table, .global⟩ : Context).typeNamed "int" position = .ok .int := by
  obtain ⟨table, htable, hholds⟩ := SymbolTable.exists_initial library
  have hint : (⟨table, .global⟩ : Context).NamesType "int" .int :=
    hholds.nearest_global_iff.mpr ((Library.namesType_contents library).mpr ⟨rfl, rfl⟩)
  exact ⟨table, htable, fun _ => (Context.typeNamed_eq_ok_iff (hholds.valid rfl)).mpr hint⟩

/-- The text of a type, if it is one that the lexer can count, is tokenized and
read as a type expression up to its end. Resolved globally, before anything is
declared, the type expression makes a type of the same nesting and sizes, which
therefore has the same text. Types have the same text exactly if they have the
same nesting and sizes. -/
theorem text_is_expression (ty : Ty) :
    (ty.Spellable → ty.text.utf8ByteSize < Count.limit →
      ∀ (file : Option String) (library : Library) (fresh : Nat),
        ∃ ts eof e table ty', tokenize ty.text file = .ok (ts ++ [eof]) ∧ eof.kind = .eof ∧
          Grammar.standard.typeExpr (ts ++ [eof]) = .ok e [eof] ∧
          SymbolTable.initial library = .ok table ∧
          (e.resolve ⟨table, .global⟩ fresh).result = .ok ty' ∧ ty'.Alike ty ∧
          ty'.text = ty.text) ∧
    ∀ other : Ty, ty.text = other.text ↔ ty.Alike other := by
  refine ⟨fun h hlimit file library fresh => ?_, fun other => text_eq_iff_alike⟩
  obtain ⟨ts, eof, htokens, heof, hreads, hlexical⟩ := (cuts_text h []).exists_tokenize hlimit
  obtain ⟨e, hbare, hderives⟩ := (TypeExpr.writes_lexemes (writable_expression h)).2 ts hreads
  have hparse := Grammar.typeExpr_of_derives hderives hlexical eof []
  rw [bare_expression] at hbare
  obtain ⟨table, htable, hint⟩ := exists_initial_int library
  have hfresh := Grammar.returns_typeExpr _ _ _ _ hparse
  obtain ⟨after, ty', hyields, halike⟩ := exists_yields_of_expression hint hbare hfresh h fresh
  exact ⟨ts, eof, e, table, ty', htokens, heof, hparse, htable, hyields.result_eq, halike,
    text_eq_of_alike halike⟩

/-- Two dimensions with the largest and the smallest size. -/
theorem text_is_expression_matrix :
    let ty : Ty := .array 7 2147483647 (.array 7 0 .int)
    ty.text = "array [2147483647] of array [0] of int" ∧ ty.Spellable ∧
      ty.text.utf8ByteSize < Count.limit ∧
      ∃ ts eof e table ty', tokenize ty.text none = .ok (ts ++ [eof]) ∧ eof.kind = .eof ∧
        Grammar.standard.typeExpr (ts ++ [eof]) = .ok e [eof] ∧
        SymbolTable.initial .graphics = .ok table ∧
        (e.resolve ⟨table, .global⟩ 5).result = .ok ty' ∧ ty'.Alike ty ∧ ty'.text = ty.text := by
  intro ty
  have htext : ty.text = "array [2147483647] of array [0] of int" := by decide +kernel
  have hspellable : ty.Spellable := ⟨by decide, by decide, trivial⟩
  have hlimit : ty.text.utf8ByteSize < Count.limit := by
    rw [htext]
    decide +kernel
  exact ⟨htext, hspellable, hlimit, (text_is_expression ty).1 hspellable hlimit none .graphics 5⟩

end Ty

end Spl
