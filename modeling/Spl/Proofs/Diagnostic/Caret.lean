import Mathlib.Data.List.DropRight
import Spl.Diagnostic.Report
import Spl.Proofs.Text.Lines

/-!
Where the mark of a report stands. The line is shown without the white space at
its ends, but the mark is set by the bytes behind the line's blanks and tabs.
So the mark stands below the place it is for if what counts as indentation is
all the white space before it, and all characters from there on have one byte.
-/

namespace Spl

open Text

/-! ### Trimming -/

section DropWhile

variable {α : Type} {p q : α → Bool} {xs : List α}

/-- What the weaker test drops may be dropped by the stronger one before. -/
theorem dropWhile_dropWhile_of_imp (h : ∀ x, q x = true → p x = true) :
    (xs.dropWhile q).dropWhile p = xs.dropWhile p := by
  induction xs with
  | nil => rfl
  | cons x xs ih =>
      by_cases hx : q x = true
      · rw [List.dropWhile_cons_of_pos hx, List.dropWhile_cons_of_pos (h x hx), ih]
      · rw [List.dropWhile_cons_of_neg hx]

theorem dropWhile_append_cons {x : α} (hx : p x = false) (rest : List α) :
    (xs ++ x :: rest).dropWhile p = xs.dropWhile p ++ x :: rest := by
  rw [List.dropWhile_append]
  split <;> simp_all

theorem takeWhile_append_cons {x : α} (hx : p x = false) (rest : List α) :
    (xs ++ x :: rest).takeWhile p = xs.takeWhile p := by
  induction xs with
  | nil => simp [hx]
  | cons y ys ih => simp only [List.cons_append, List.takeWhile_cons, ih]

theorem length_dropWhile_eq_iff :
    (xs.dropWhile p).length = xs.length ↔ ∀ x ∈ xs.head?, p x = false := by
  cases xs with
  | nil => simp
  | cons x xs =>
      by_cases hx : p x = true
      · have hle := List.length_dropWhile_le p xs
        simp [hx]
        omega
      · simp [hx]

end DropWhile

theorem of_isIndentation {c : Char} (h : Diagnostic.isIndentation c = true) :
    isBlank c = true ∧ c.utf8Size = 1 := by
  rw [Diagnostic.isIndentation, Bool.or_eq_true, beq_iff_eq, beq_iff_eq] at h
  obtain rfl | rfl := h <;> exact ⟨by decide, by decide⟩

/-- Trimming a text with a character that is no white space. -/
theorem trimBlanks_append_cons {c : Char} (hc : isBlank c = false) (before after : List Char) :
    trimBlanks (before ++ c :: after) =
      before.dropWhile isBlank ++ c :: after.rdropWhile isBlank := by
  rw [trimBlanks, dropWhile_append_cons hc, List.reverse_append, List.reverse_cons,
    List.append_assoc, List.singleton_append, dropWhile_append_cons hc, List.reverse_append,
    List.reverse_cons, List.reverse_reverse, List.append_assoc, List.singleton_append]
  rfl

theorem trimBlanks_dropWhile_isIndentation (cs : List Char) :
    trimBlanks (cs.dropWhile Diagnostic.isIndentation) = trimBlanks cs := by
  rw [trimBlanks, trimBlanks, dropWhile_dropWhile_of_imp fun c h => (of_isIndentation h).1]

/-- The bytes of a text behind its blanks and tabs. -/
theorem byteLength_sub_length_indentation (cs : List Char) :
    byteLength cs - (cs.takeWhile Diagnostic.isIndentation).length =
      byteLength (cs.dropWhile Diagnostic.isIndentation) := by
  have hsplit := congrArg byteLength
    (List.takeWhile_append_dropWhile (p := Diagnostic.isIndentation) (l := cs))
  have hindentation : ∀ c ∈ cs.takeWhile Diagnostic.isIndentation, c.utf8Size = 1 := fun c hc =>
    (of_isIndentation (List.mem_takeWhile_imp hc)).2
  rw [byteLength_append, byteLength_eq_length_iff.mpr hindentation] at hsplit
  omega

namespace Diagnostic

/-! ### Excerpts -/

/-- A line of a source as a report shows it. -/
def sourceLine (number : String) (text : List Char) : String :=
  number ++ " | " ++ String.ofList text

/-- The line below it, with the mark in the given column of the text. -/
def markLine (number : String) (column : Nat) : String :=
  padLeft ' ' (number.length + 2) "|" ++ " " ++ padLeft '-' (column + 1) "^"

theorem length_sourceLine (number : String) (text : List Char) :
    (sourceLine number text).length = number.length + 3 + text.length := by
  have hbar : " | ".length = 3 := rfl
  rw [sourceLine, String.length_append, String.length_append, hbar,
    String.length_ofList (l := text)]

theorem length_padLeft (fill : Char) (width : Nat) (text : String) :
    (padLeft fill width text).length = max width text.length := by
  rw [padLeft, String.length_append, String.length_ofList, List.length_replicate]
  omega

theorem length_markLine (number : String) (column : Nat) :
    (markLine number column).length = number.length + 3 + column + 1 := by
  have hbar : "|".length = 1 ∧ " ".length = 1 ∧ "^".length = 1 := ⟨rfl, rfl, rfl⟩
  rw [markLine, String.length_append, String.length_append, length_padLeft, length_padLeft]
  omega

theorem excerpt_eq {c : Char} (hc : isBlank c = false) (number : Nat) (before after : List Char) :
    excerpt ⟨number, before ++ c :: after, byteLength before⟩ =
      padLeft ' ' ((toString number).length + 2) "|" ++ "\n"
        ++ sourceLine (toString number) (trimBlanks (before ++ c :: after)) ++ "\n"
        ++ markLine (toString number) (byteLength (before.dropWhile isIndentation)) ++ "\n" := by
  have hindentation : isIndentation c = false := by
    by_contra h
    exact absurd (of_isIndentation (Bool.of_not_eq_false h)).1 (by simp [hc])
  simp only [excerpt, sourceLine, markLine, takeWhile_append_cons hindentation,
    trimBlanks_dropWhile_isIndentation, byteLength_sub_length_indentation, String.append_assoc]

/-! ### Reports -/

/-- The report of a diagnostic with a place in the source ends with the excerpt. -/
theorem exists_report_eq {d : Diagnostic} {tip : Option String} (htip : d.cause.tip = .ok tip)
    (hnull : d.position.isNull = false) {source : String} {place : LinePlace}
    (hplace : lineAt source d.position.offset.toNat = some place) (path : String) :
    ∃ heading, d.report source path = .ok (heading ++ excerpt place) := by
  refine ⟨"Error: " ++ d.cause.name ++ " (" ++ tip.getD d.cause.message ++ ")\n-> " ++ path ++ "\n",
    ?_⟩
  rw [report, htip, hplace, hnull]
  rfl

/-- Whether bytes behind the indentation count the characters behind the white space. -/
theorem byteLength_eq_length_dropWhile_iff {cs : List Char} :
    byteLength cs = (cs.dropWhile isBlank).length ↔
      (∀ c ∈ cs.head?, isBlank c = false) ∧ ∀ c ∈ cs, c.utf8Size = 1 := by
  have hbytes := length_le_byteLength cs
  have hdrop := List.length_dropWhile_le isBlank cs
  rw [← length_dropWhile_eq_iff, ← byteLength_eq_length_iff]
  omega

/-- The report of a diagnostic whose place is a character that is no white
space. It shows the number of that character's line, the line without the white
space at its ends, and below it a line that ends with the mark. The mark stands
in the column of the character exactly if no other white space follows the
blanks and tabs that the line begins with, and all characters from there up to
the place are one byte long. -/
theorem report_marks_place {source : String} {pre post : List Char} {c : Char}
    (hsource : source.toList = pre ++ c :: post) (hc : isBlank c = false) {d : Diagnostic}
    (hoffset : d.position.offset.toNat = byteLength pre) (hnull : d.position.isNull = false)
    {tip : Option String} (htip : d.cause.tip = .ok tip) (path : String) :
    let number := toString (pre.count '\n' + 1)
    let before := pre.rtakeWhile (· ≠ '\n')
    let counted := before.dropWhile isIndentation
    let shown := before.dropWhile isBlank
    let mark := markLine number (byteLength counted)
    ∃ heading rest,
      d.report source path =
        .ok (heading ++ "\n" ++ sourceLine number (shown ++ c :: rest) ++ "\n" ++ mark ++ "\n") ∧
      trimBlanks (before ++ c :: post.takeWhile (· ≠ '\n')) = shown ++ c :: rest ∧
      (mark.length = (sourceLine number (shown ++ [c])).length ↔
        (∀ x ∈ counted.head?, isBlank x = false) ∧ ∀ x ∈ counted, x.utf8Size = 1) := by
  intro number before counted shown mark
  have hnewline : c ≠ '\n' := by
    rintro rfl
    exact absurd hc (by decide)
  obtain ⟨ending, hending, hline⟩ := exists_lineAt_eq hsource hnewline
  rw [← hoffset] at hline
  obtain ⟨heading, hreport⟩ := exists_report_eq htip hnull hline path
  -- A newline at the end of the line is trimmed away.
  have htrim : (post.takeWhile (· ≠ '\n') ++ ending).rdropWhile isBlank =
      (post.takeWhile (· ≠ '\n')).rdropWhile isBlank := by
    obtain rfl | rfl := hending
    · rw [List.append_nil]
    · exact List.rdropWhile_concat_pos _ _ _ (by decide)
  refine ⟨heading ++ padLeft ' ' (number.length + 2) "|",
    (post.takeWhile (· ≠ '\n')).rdropWhile isBlank, ?_, trimBlanks_append_cons hc _ _, ?_⟩
  · rw [hreport, List.append_assoc, List.cons_append, excerpt_eq hc, trimBlanks_append_cons hc,
      htrim]
    simp only [String.append_assoc, number, before, counted, shown, mark]
  · have hshown : counted.dropWhile isBlank = shown :=
      dropWhile_dropWhile_of_imp fun c h => (of_isIndentation h).1
    rw [← byteLength_eq_length_dropWhile_iff, hshown, length_markLine, length_sourceLine,
      List.length_append, List.length_singleton]
    omega

/-- A mark in its column, below a line that begins with a tab. -/
theorem mark_behind_tab : ∃ heading rest,
    (⟨.undefinedVariable "x", ⟨12, "a.spl"⟩⟩ : Diagnostic).report "y := 0;\n\t ; x := 1;\n"
        "a.spl" =
      .ok (heading ++ "\n" ++ sourceLine "2" ("; ".toList ++ 'x' :: rest) ++ "\n" ++ "  | --^"
        ++ "\n") ∧
    "  | --^".length = (sourceLine "2" ("; ".toList ++ ['x'])).length := by
  have hsource : "y := 0;\n\t ; x := 1;\n".toList =
      "y := 0;\n\t ; ".toList ++ 'x' :: " := 1;\n".toList := by
    decide
  obtain ⟨heading, rest, hreport, -, hcolumn⟩ :=
    report_marks_place (d := ⟨.undefinedVariable "x", ⟨12, "a.spl"⟩⟩) hsource (by decide)
      (by decide) (by decide) rfl "a.spl"
  have hhead : ∀ x ∈ [';', ' '].head?, isBlank x = false := by
    rintro x ⟨⟩
    decide
  have hbytes : ∀ x ∈ [';', ' '], x.utf8Size = 1 := by
    rw [List.forall_mem_cons, List.forall_mem_singleton]
    decide
  exact ⟨heading, rest, hreport, hcolumn.mpr ⟨hhead, hbytes⟩⟩

/-- A character of two bytes before the place puts the mark one column too far
to the right, and a no-break space before the line two columns. -/
theorem mark_misses_place :
    (⟨.undefinedVariable "x", ⟨14, "a.spl"⟩⟩ : Diagnostic).report "printc('é'); x := 1;" "a.spl" =
      .ok ("Error: UndefinedVariable (Variable `x` not declared)\n-> a.spl\n  |\n"
        ++ "1 | printc('é'); x := 1;\n"
        ++ "  | --------------^\n") ∧
    (⟨.undefinedVariable "x", ⟨2, "a.spl"⟩⟩ : Diagnostic).report "\u00a0x := 1;" "a.spl" =
      .ok ("Error: UndefinedVariable (Variable `x` not declared)\n-> a.spl\n  |\n"
        ++ "1 | x := 1;\n"
        ++ "  | --^\n") := by
  refine ⟨?_, ?_⟩ <;> decide +kernel

end Diagnostic

end Spl
