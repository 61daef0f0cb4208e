import Mathlib.Data.List.DropRight
import Spl.Proofs.Text.Bytes
import Spl.Text.Line

/-!
Lines of a text. A line is a stretch between two newlines, with the one that
ends it; a text is made up of its lines, and a place in a line is found from
its byte offset in the whole text.
-/

namespace Spl.Text

/-! ### Lines -/

/-- A stretch of a text is one of its lines. It stands at the beginning of the
text or behind a newline, has no newline but at its end, and ends with one or
with the text. -/
structure IsLine (before line after : List Char) : Prop where
  ne_nil : line ≠ []
  start : ∀ c ∈ before.getLast?, c = '\n'
  inner : '\n' ∉ line.dropLast
  stop : after = [] ∨ line.getLast? = some '\n'

theorem lines_ne_nil {cs : List Char} (h : cs ≠ []) : lines cs ≠ [] := by
  intro hnil
  have hflatten := flatten_lines cs
  rw [hnil] at hflatten
  exact h hflatten.symm

/-- The lines behind a newline are apart from those before it. -/
theorem lines_append {before : List Char} (h : ∀ c ∈ before.getLast?, c = '\n')
    (rest : List Char) : lines (before ++ rest) = lines before ++ lines rest := by
  induction before with
  | nil => rfl
  | cons c cs ih =>
      by_cases hcs : cs = []
      · subst hcs
        obtain rfl : c = '\n' := h c rfl
        rfl
      · have hlast : ∀ c ∈ cs.getLast?, c = '\n' := by
          rwa [List.getLast?_cons_of_ne_nil hcs] at h
        rw [List.cons_append, lines, ih hlast, lines]
        split
        · rfl
        · obtain ⟨l, ls, hl⟩ := List.exists_cons_of_ne_nil (lines_ne_nil hcs)
          rw [hl]
          rfl

theorem lines_of_inner {line : List Char} (hne : line ≠ []) (h : '\n' ∉ line.dropLast) :
    lines line = [line] := by
  induction line with
  | nil => exact absurd rfl hne
  | cons c cs ih =>
      by_cases hcs : cs = []
      · subst hcs
        rw [lines]
        split <;> rfl
      · rw [List.dropLast_cons_of_ne_nil hcs, List.mem_cons, not_or] at h
        rw [lines, if_neg (Ne.symm h.1), ih hcs h.2]

theorem IsLine.lines_eq {before line after : List Char} (h : IsLine before line after) :
    lines (before ++ (line ++ after)) = lines before ++ line :: lines after := by
  rw [lines_append h.start]
  obtain rfl | hlast := h.stop
  · rw [List.append_nil, lines_of_inner h.ne_nil h.inner]
    rfl
  · rw [lines_append (by simp [hlast]), lines_of_inner h.ne_nil h.inner]
    rfl

/-- There are as many lines as newlines before the beginning of a line. -/
theorem length_lines {before : List Char} (h : ∀ c ∈ before.getLast?, c = '\n') :
    (lines before).length = before.count '\n' := by
  induction before with
  | nil => rfl
  | cons c cs ih =>
      by_cases hcs : cs = []
      · subst hcs
        obtain rfl : c = '\n' := h c rfl
        rfl
      · rw [List.getLast?_cons_of_ne_nil hcs] at h
        rw [lines, List.count_cons, ← ih h]
        obtain ⟨l, ls, hl⟩ := List.exists_cons_of_ne_nil (lines_ne_nil hcs)
        by_cases hc : c = '\n'
        · simp [hc]
        · simp [hc, hl]

/-! ### Places -/

/-- A place behind some lines is looked for behind them. -/
theorem placeIn_append (number n : Nat) (ls : List (List Char)) {rest : List (List Char)}
    (hrest : rest ≠ []) : placeIn number (byteLength ls.flatten + n) (ls ++ rest) =
      placeIn (number + ls.length) n rest := by
  induction ls generalizing number with
  | nil => simp
  | cons l ls ih =>
      have hne : (ls ++ rest).isEmpty = false := by simp [hrest]
      have hpast : ¬byteLength l + (byteLength ls.flatten + n) < byteLength l := by omega
      rw [List.cons_append, List.flatten_cons, byteLength_append, Nat.add_assoc, placeIn, hne,
        if_neg hpast, if_neg (by simp), Nat.add_sub_cancel_left, ih, List.length_cons,
        Nat.add_assoc, Nat.add_comm 1]

/-- A place within a line is found there. -/
theorem IsLine.lineAt_eq {source : String} {before line after : List Char}
    (h : IsLine before line after) (hsource : source.toList = before ++ (line ++ after)) {k : Nat}
    (hk : k < byteLength line) :
    lineAt source (byteLength before + k) = some ⟨before.count '\n' + 1, line, k⟩ := by
  have hplace := placeIn_append 1 k (lines before) (List.cons_ne_nil line (lines after))
  rw [flatten_lines, length_lines h.start] at hplace
  rw [lineAt, hsource, h.lines_eq, hplace, placeIn, if_pos hk, Nat.add_comm]

/-- The line around a stretch without newlines, which stands at the beginning of
a line. -/
theorem lineAt_of_parts {source : String} {previous before body rest : List Char}
    (hsource : source.toList = previous ++ (before ++ body ++ rest))
    (hprevious : ∀ c ∈ previous.getLast?, c = '\n') (hline : '\n' ∉ before ++ body)
    (hbody : body ≠ []) (hrest : ∀ c ∈ rest.head?, c = '\n') :
    ∃ ending, (ending = [] ∨ ending = ['\n']) ∧
      lineAt source (byteLength previous + byteLength before) =
        some ⟨previous.count '\n' + 1, before ++ body ++ ending, byteLength before⟩ := by
  have hpos := byteLength_pos hbody
  have hne : before ++ body ≠ [] := by simp [hbody]
  cases rest with
  | nil =>
      have hisLine : IsLine previous (before ++ body) [] :=
        ⟨hne, hprevious, fun h => hline ((List.dropLast_sublist _).subset h), .inl rfl⟩
      refine ⟨[], .inl rfl, ?_⟩
      rw [hisLine.lineAt_eq hsource (by rw [byteLength_append]; omega), List.append_nil]
  | cons c rest =>
      obtain rfl : c = '\n' := hrest c rfl
      have hisLine : IsLine previous (before ++ body ++ ['\n']) rest :=
        ⟨by simp, hprevious, by rwa [List.dropLast_concat], .inr List.getLast?_concat⟩
      have hlines : source.toList = previous ++ (before ++ body ++ ['\n'] ++ rest) := by
        rw [hsource, List.append_assoc (before ++ body), List.singleton_append]
      refine ⟨['\n'], .inr rfl, ?_⟩
      rw [hisLine.lineAt_eq hlines (by rw [byteLength_append, byteLength_append]; omega)]

/-- The line around a character that is no newline. -/
theorem exists_lineAt_eq {source : String} {pre post : List Char} {c : Char}
    (hsource : source.toList = pre ++ c :: post) (hc : c ≠ '\n') :
    ∃ ending, (ending = [] ∨ ending = ['\n']) ∧
      lineAt source (byteLength pre) =
        some ⟨pre.count '\n' + 1,
          pre.rtakeWhile (· ≠ '\n') ++ c :: post.takeWhile (· ≠ '\n') ++ ending,
          byteLength (pre.rtakeWhile (· ≠ '\n'))⟩ := by
  have hpre : pre.rdropWhile (· ≠ '\n') ++ pre.rtakeWhile (· ≠ '\n') = pre :=
    List.rdropWhile_append_rtakeWhile
  have hpost : post.takeWhile (· ≠ '\n') ++ post.dropWhile (· ≠ '\n') = post :=
    List.takeWhile_append_dropWhile
  have hprevious : ∀ x ∈ (pre.rdropWhile (· ≠ '\n')).getLast?, x = '\n' := by
    intro x hx
    obtain ⟨hne, rfl⟩ := List.mem_getLast?_eq_getLast hx
    simpa using List.rdropWhile_last_not _ _ hne
  have hbefore : '\n' ∉ pre.rtakeWhile (· ≠ '\n') := fun h => by
    simpa using List.mem_rtakeWhile_imp h
  have hafter : '\n' ∉ post.takeWhile (· ≠ '\n') := fun h => by
    simpa using List.mem_takeWhile_imp h
  have hrest : ∀ x ∈ (post.dropWhile (· ≠ '\n')).head?, x = '\n' := by
    intro x hx
    have hhead := List.head?_dropWhile_not (· ≠ '\n') post
    rw [Option.mem_def.mp hx] at hhead
    simpa using hhead
  have hcount : pre.count '\n' = (pre.rdropWhile (· ≠ '\n')).count '\n' := by
    conv_lhs => rw [← hpre, List.count_append, List.count_eq_zero.mpr hbefore, Nat.add_zero]
  have hbytes : byteLength pre =
      byteLength (pre.rdropWhile (· ≠ '\n')) + byteLength (pre.rtakeWhile (· ≠ '\n')) := by
    rw [← byteLength_append, hpre]
  have hparts : source.toList = pre.rdropWhile (· ≠ '\n') ++
      (pre.rtakeWhile (· ≠ '\n') ++ c :: post.takeWhile (· ≠ '\n') ++
        post.dropWhile (· ≠ '\n')) := by
    rw [hsource, List.append_assoc (pre.rtakeWhile _), List.cons_append, hpost,
      ← List.append_assoc, hpre]
  have hline : '\n' ∉ pre.rtakeWhile (· ≠ '\n') ++ c :: post.takeWhile (· ≠ '\n') := by
    rw [List.mem_append, List.mem_cons]
    rintro (h | h | h)
    · exact hbefore h
    · exact hc h.symm
    · exact hafter h
  rw [hbytes, hcount]
  exact lineAt_of_parts hparts hprevious hline (by simp) hrest

/-- A place lies in some line unless it is outside of the text or the text is empty. -/
theorem isSome_placeIn_iff {number n : Nat} {ls : List (List Char)} :
    (placeIn number n ls).isSome ↔ ls ≠ [] ∧ n ≤ byteLength ls.flatten := by
  induction ls generalizing number n with
  | nil => simp [placeIn]
  | cons l ls ih =>
      rw [placeIn, List.flatten_cons, byteLength_append]
      by_cases hn : n < byteLength l
      · simp [hn]
        omega
      · rw [if_neg hn]
        cases ls with
        | nil =>
            simp
            omega
        | cons l' ls =>
            rw [if_neg (by simp), ih]
            simp
            omega

theorem isSome_lineAt_iff {source : String} {offset : Nat} :
    (lineAt source offset).isSome ↔ source ≠ "" ∧ offset ≤ source.utf8ByteSize := by
  have hlines : lines source.toList ≠ [] ↔ source ≠ "" := by
    constructor
    · rintro h rfl
      exact h rfl
    · exact fun h => lines_ne_nil (by simpa using h)
  rw [lineAt, isSome_placeIn_iff, hlines, flatten_lines, byteLength_toList]

end Spl.Text
