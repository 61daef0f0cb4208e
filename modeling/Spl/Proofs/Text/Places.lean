import Spl.Proofs.Text.Lines

/-!
The place of every offset. The pieces that a text is cut into are its lines, so
an offset within the text lies in one of them, and the end of the text lies
behind the last one.
-/

namespace Spl.Text

/-! ### The lines that a text is cut into -/

/-- A line stays one if the text before it begins earlier. -/
theorem IsLine.cons {pre line post : List Char} {c : Char} (h : IsLine pre line post)
    (hc : pre = [] → c = '\n') : IsLine (c :: pre) line post := by
  refine ⟨h.ne_nil, ?_, h.inner, h.stop⟩
  by_cases hpre : pre = []
  · subst hpre
    simpa using hc rfl
  · rw [List.getLast?_cons_of_ne_nil hpre]
    exact h.start

/-- The first line stays one if it begins earlier with something other than a newline. -/
theorem IsLine.cons_line {line post : List Char} {c : Char} (h : IsLine [] line post)
    (hc : c ≠ '\n') : IsLine [] (c :: line) post := by
  refine ⟨List.cons_ne_nil c line, h.start, ?_, ?_⟩
  · rw [List.dropLast_cons_of_ne_nil h.ne_nil, List.mem_cons, not_or]
    exact ⟨Ne.symm hc, h.inner⟩
  · rw [List.getLast?_cons_of_ne_nil h.ne_nil]
    exact h.stop

theorem isLine_of_lines_eq {cs line : List Char} {before after : List (List Char)}
    (h : lines cs = before ++ line :: after) : IsLine before.flatten line after.flatten := by
  induction cs generalizing before line after with
  | nil => simp [lines] at h
  | cons c cs ih =>
      rw [lines] at h
      split at h
      case isTrue hc =>
        subst hc
        cases before with
        | nil =>
            obtain ⟨rfl, -⟩ := List.cons_eq_cons.mp h
            exact ⟨by simp, by simp, by simp, .inr rfl⟩
        | cons first before =>
            obtain ⟨rfl, hlines⟩ := List.cons_eq_cons.mp h
            exact (ih hlines).cons fun _ => rfl
      case isFalse hc =>
        split at h
        case h_1 =>
          obtain ⟨rfl, rfl, rfl⟩ : before = [] ∧ line = [c] ∧ after = [] := by
            simpa [List.cons_eq_append_iff, and_assoc] using h
          exact ⟨by simp, by simp, by simp, .inl rfl⟩
        case h_2 first ls hlines =>
          have hfirst : IsLine [] first ls.flatten := @ih first [] ls hlines
          cases before with
          | nil =>
              obtain ⟨rfl, rfl⟩ := List.cons_eq_cons.mp h
              exact hfirst.cons_line hc
          | cons line' before =>
              obtain ⟨rfl, rfl⟩ := List.cons_eq_cons.mp h
              refine (@ih line (first :: before) after hlines).cons fun hnil => ?_
              exact absurd (List.append_eq_nil_iff.mp hnil).1 hfirst.ne_nil

/-! ### Offsets -/

/-- An offset within some pieces lies in one of them. -/
theorem exists_piece_of_lt {n : Nat} {ls : List (List Char)} (h : n < byteLength ls.flatten) :
    ∃ before line after k, ls = before ++ line :: after ∧
      byteLength before.flatten + k = n ∧ k < byteLength line := by
  induction ls generalizing n with
  | nil => exact absurd h (Nat.not_lt_zero n)
  | cons l ls ih =>
      by_cases hn : n < byteLength l
      · exact ⟨[], l, ls, n, rfl, Nat.zero_add n, hn⟩
      · rw [List.flatten_cons, byteLength_append] at h
        obtain ⟨before, line, after, k, rfl, hk, hlt⟩ := ih (n := n - byteLength l) (by omega)
        refine ⟨l :: before, line, after, k, rfl, ?_, hlt⟩
        rw [List.flatten_cons, byteLength_append]
        omega

theorem exists_isLine_of_lt {cs : List Char} {n : Nat} (h : n < byteLength cs) :
    ∃ pre line post k, cs = pre ++ (line ++ post) ∧ IsLine pre line post ∧
      byteLength pre + k = n ∧ k < byteLength line := by
  rw [← flatten_lines cs] at h
  obtain ⟨before, line, after, k, hlines, hk, hlt⟩ := exists_piece_of_lt h
  refine ⟨before.flatten, line, after.flatten, k, ?_, isLine_of_lines_eq hlines, hk, hlt⟩
  rw [← List.flatten_cons, ← List.flatten_append, ← hlines, flatten_lines]

/-- A text that is not empty has a last line. -/
theorem exists_last_isLine {cs : List Char} (h : cs ≠ []) :
    ∃ pre line, cs = pre ++ line ∧ IsLine pre line [] := by
  have hlast := List.dropLast_append_getLast (lines_ne_nil h)
  refine ⟨(lines cs).dropLast.flatten, (lines cs).getLast (lines_ne_nil h), ?_,
    isLine_of_lines_eq hlast.symm⟩
  conv_lhs => rw [← flatten_lines cs, ← hlast, List.flatten_append, List.flatten_singleton]

/-- What a line holds before the newline that may end it. -/
theorem IsLine.exists_body {pre line post : List Char} (h : IsLine pre line post) :
    ∃ body, '\n' ∉ body ∧ (line = body ∨ line = body ++ ['\n']) := by
  by_cases hline : '\n' ∈ line
  · refine ⟨line.dropLast, h.inner, .inr ?_⟩
    have hcut := List.dropLast_append_getLast h.ne_nil
    rw [← hcut, List.mem_append, List.mem_singleton] at hline
    rw [hline.resolve_left h.inner]
    exact hcut.symm
  · exact ⟨line, hline, .inl rfl⟩

/-- The end of a text is found in its last line, before the newline that may end it. -/
theorem IsLine.lineAt_end {source : String} {pre line body : List Char} (h : IsLine pre line [])
    (hsource : source.toList = pre ++ line) (hbody : '\n' ∉ body)
    (hline : line = body ∨ line = body ++ ['\n']) :
    lineAt source source.utf8ByteSize = some ⟨pre.count '\n' + 1, line, byteLength body⟩ := by
  have hcut : line.takeWhile (· ≠ '\n') = body := by
    have hall : ∀ c ∈ body, decide (c ≠ '\n') = true := fun c hc =>
      decide_eq_true (ne_of_mem_of_not_mem hc hbody)
    obtain rfl | rfl := hline
    · exact List.takeWhile_eq_self_iff.mpr hall
    · rw [List.takeWhile_append_of_pos hall]
      exact List.append_nil body
  have hlines := h.lines_eq
  have hplace := placeIn_append 1 (byteLength line) (lines pre) (List.cons_ne_nil line (lines []))
  rw [flatten_lines, length_lines h.start] at hplace
  rw [List.append_nil] at hlines
  rw [lineAt, ← byteLength_toList, hsource, hlines, byteLength_append, hplace, placeIn,
    if_neg (Nat.lt_irrefl _), lines, List.isEmpty_nil, if_pos rfl, if_pos rfl, hcut, Nat.add_comm]

/-- The line of an offset is found back. Outside of the text, and in an empty
one, there is none. Within the text it is the line whose bytes hold the offset,
and at its end the last line. -/
theorem lineAt_inverts_offset (source : String) (p : Nat) :
    (lineAt source p = none ↔ source.utf8ByteSize < p ∨ source = "") ∧
      (p < source.utf8ByteSize → ∃ pre line post k,
        source.toList = pre ++ (line ++ post) ∧ IsLine pre line post ∧
        byteLength pre + k = p ∧ k < byteLength line ∧
        lineAt source p = some ⟨pre.count '\n' + 1, line, k⟩) ∧
      (p = source.utf8ByteSize → source ≠ "" → ∃ pre line body,
        source.toList = pre ++ line ∧ IsLine pre line [] ∧
        '\n' ∉ body ∧ (line = body ∨ line = body ++ ['\n']) ∧
        lineAt source p = some ⟨pre.count '\n' + 1, line, byteLength body⟩) := by
  refine ⟨?_, fun hp => ?_, ?_⟩
  · rw [← Option.not_isSome_iff_eq_none, isSome_lineAt_iff, not_and_or, not_not, Nat.not_le,
      or_comm]
  · rw [← byteLength_toList] at hp
    obtain ⟨pre, line, post, k, hsource, hline, rfl, hk⟩ := exists_isLine_of_lt hp
    exact ⟨pre, line, post, k, hsource, hline, rfl, hk, hline.lineAt_eq hsource hk⟩
  · rintro rfl hne
    obtain ⟨pre, line, hsource, hline⟩ := exists_last_isLine (mt String.toList_eq_nil_iff.mp hne)
    obtain ⟨body, hbody, hcut⟩ := hline.exists_body
    exact ⟨pre, line, body, hsource, hline, hbody, hcut,
      hline.lineAt_end hsource hbody hcut⟩

/-- Of a character of two bytes the second one is in its line too, and the end of
the text is before the newline that ends it. -/
theorem lineAt_inverts_offset_umlaut :
    (∃ pre line post k, "a\nä\n".toList = pre ++ (line ++ post) ∧ IsLine pre line post ∧
      byteLength pre + k = 3 ∧ k < byteLength line ∧
      lineAt "a\nä\n" 3 = some ⟨pre.count '\n' + 1, line, k⟩) ∧
    (∃ pre line body, "a\nä\n".toList = pre ++ line ∧ IsLine pre line [] ∧
      '\n' ∉ body ∧ (line = body ∨ line = body ++ ['\n']) ∧
      lineAt "a\nä\n" 5 = some ⟨pre.count '\n' + 1, line, byteLength body⟩) :=
  ⟨(lineAt_inverts_offset "a\nä\n" 3).2.1 (by decide),
    (lineAt_inverts_offset "a\nä\n" 5).2.2 (by decide) (by decide)⟩

example : lineAt "a\nä\n" 3 = some ⟨2, ['ä', '\n'], 1⟩ := by decide

end Spl.Text
