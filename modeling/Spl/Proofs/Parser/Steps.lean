import Spl.Token.Parser

/-!
Steps of readers, on tokens whose beginning is known, and rounds of their loops.
-/

namespace Spl

namespace Parser

variable {α β : Type} {t : Token} {ts us rest : List Token}

theorem bind_eq {p : Parser α} {f : α → Parser β} {a : α} (h : p ts = .ok a rest) :
    (p >>= f) ts = f a rest := by
  simp only [bind, EStateM.bind, h]

theorem bind_error {p : Parser α} {f : α → Parser β} {halt : Halt} (h : p ts = .error halt rest) :
    (p >>= f) ts = .error halt rest := by
  simp only [bind, EStateM.bind, h]

theorem bind_eq_ok_iff {p : Parser α} {f : α → Parser β} {b : β} :
    (p >>= f) ts = .ok b rest ↔ ∃ a mid, p ts = .ok a mid ∧ f a mid = .ok b rest := by
  constructor
  · intro h
    simp only [bind, EStateM.bind] at h
    split at h
    · next a mid hp => exact ⟨a, mid, hp, h⟩
    · cases h
  · rintro ⟨a, mid, hp, hf⟩
    rw [bind_eq hp, hf]

theorem take_cons (hus : us ≠ []) : take (t :: us) = .ok t us := by
  obtain ⟨u, us, rfl⟩ := List.exists_cons_of_ne_nil hus
  rfl

theorem exists_take (t : Token) (us : List Token) : ∃ rest, take (t :: us) = .ok t rest := by
  cases us with
  | nil => exact ⟨[t], rfl⟩
  | cons u us => exact ⟨u :: us, rfl⟩

theorem expect_cons {kind : TokenKind} (ht : t.kind = kind) (hus : us ≠ []) :
    expect kind (t :: us) = .ok t us := by
  rw [← ht, expect, expectOr_of_kind, take_cons hus]

theorem bind_take {f : Token → Parser β} (hus : us ≠ []) : (take >>= f) (t :: us) = f t us :=
  bind_eq (take_cons hus)

theorem bind_expect {kind : TokenKind} {f : Token → Parser β} (ht : t.kind = kind) (hus : us ≠ []) :
    (expect kind >>= f) (t :: us) = f t us :=
  bind_eq (expect_cons ht hus)

theorem bind_currentKind {f : TokenKind → Parser β} :
    (currentKind >>= f) (t :: us) = f t.kind (t :: us) :=
  bind_eq (currentKind_cons t us)

theorem bind_position {f : Position → Parser β} :
    (position >>= f) (t :: us) = f t.span.start (t :: us) :=
  bind_eq (show position (t :: us) = .ok t.span.start (t :: us) from rfl)

/-! ### Rounds

The number of rounds is only a bound: a loop that ends within some number of
rounds ends the same way within any larger number. -/

/-- The reader has not given up. -/
def NoFault : EStateM.Result Halt (List Token) α → Prop
  | .error (.fault _) _ => False
  | _ => True

variable {more : TokenKind → Bool} {step : α → Parser α} {item : Parser α}

theorem foldWithin_mono {m n : Nat} {a : α} {r : EStateM.Result Halt (List Token) α} (hmn : m ≤ n)
    (hr : NoFault r) (h : foldWithin more step m a ts = r) : foldWithin more step n a ts = r := by
  induction m generalizing n a ts with
  | zero =>
      subst h
      exact hr.elim
  | succ m ih =>
      obtain ⟨n, rfl⟩ := Nat.exists_eq_add_of_le' (Nat.le_trans (Nat.le_add_left 1 m) hmn)
      rw [foldWithin] at h ⊢
      cases ts with
      | nil =>
          subst h
          exact hr.elim
      | cons t ts =>
          rw [bind_currentKind] at h ⊢
          split at h
          · next hmore =>
              rw [if_pos hmore]
              cases hstep : step a (t :: ts) with
              | ok b mid =>
                  rw [bind_eq hstep] at h ⊢
                  exact ih (Nat.le_of_succ_le_succ hmn) h
              | error halt rest => rwa [bind_error hstep] at h ⊢
          · next hmore => rwa [if_neg hmore]

theorem collectWithin_mono {m n : Nat} {xs : List α} (hmn : m ≤ n)
    (h : collectWithin more item m ts = .ok xs rest) :
    collectWithin more item n ts = .ok xs rest := by
  induction m generalizing n ts xs rest with
  | zero => cases h
  | succ m ih =>
      obtain ⟨n, rfl⟩ := Nat.exists_eq_add_of_le' (Nat.le_trans (Nat.le_add_left 1 m) hmn)
      rw [collectWithin] at h ⊢
      cases ts with
      | nil => cases h
      | cons t ts =>
          rw [bind_currentKind] at h ⊢
          split at h
          · next hmore =>
              rw [if_pos hmore]
              obtain ⟨x, mid, hitem, hrest⟩ := bind_eq_ok_iff.mp h
              obtain ⟨xs', rest', htail, hpure⟩ := bind_eq_ok_iff.mp hrest
              rw [bind_eq hitem, bind_eq (ih (Nat.le_of_succ_le_succ hmn) htail)]
              exact hpure
          · next hmore => rwa [if_neg hmore]

theorem collectWithin_mono_of_error {m n : Nat} {d : Diagnostic} (hmn : m ≤ n)
    (h : collectWithin more item m ts = .error (.diagnostic d) rest) :
    collectWithin more item n ts = .error (.diagnostic d) rest := by
  induction m generalizing n ts with
  | zero => cases h
  | succ m ih =>
      obtain ⟨n, rfl⟩ := Nat.exists_eq_add_of_le' (Nat.le_trans (Nat.le_add_left 1 m) hmn)
      rw [collectWithin] at h ⊢
      cases ts with
      | nil => cases h
      | cons t ts =>
          rw [bind_currentKind] at h ⊢
          split at h
          · next hmore =>
              rw [if_pos hmore]
              cases hitem : item (t :: ts) with
              | error halt mid => rwa [bind_error hitem] at h ⊢
              | ok x mid =>
                  rw [bind_eq hitem] at h ⊢
                  cases hrest : collectWithin more item m mid with
                  | ok xs rest' =>
                      rw [bind_eq hrest] at h
                      cases h
                  | error halt rest' =>
                      rw [bind_error hrest] at h
                      cases h
                      exact bind_error (ih (Nat.le_of_succ_le_succ hmn) hrest)
          · cases h

theorem foldWhile_stop {a : α} (h : more t.kind = false) :
    foldWhile more step a (t :: us) = .ok a (t :: us) := by
  rw [foldWhile, foldWithin, bind_currentKind, if_neg (Bool.eq_false_iff.mp h)]
  rfl

theorem foldWhile_step {a b : α} {r : EStateM.Result Halt (List Token) α} (h : more t.kind = true)
    (hstep : step a (t :: us) = .ok b ts) (hlt : ts.length ≤ us.length) (hr : NoFault r)
    (hrest : foldWhile more step b ts = r) : foldWhile more step a (t :: us) = r := by
  rw [foldWhile, foldWithin, bind_currentKind, if_pos h, bind_eq hstep]
  exact foldWithin_mono (Nat.succ_le_succ hlt) hr hrest

theorem foldWhile_error {a : α} {halt : Halt} (h : more t.kind = true)
    (hstep : step a (t :: us) = .error halt rest) :
    foldWhile more step a (t :: us) = .error halt rest := by
  rw [foldWhile, foldWithin, bind_currentKind, if_pos h, bind_error hstep]

theorem collectWhile_stop (h : more t.kind = false) :
    collectWhile more item (t :: us) = .ok [] (t :: us) := by
  rw [collectWhile, collectWithin, bind_currentKind, if_neg (Bool.eq_false_iff.mp h)]
  rfl

theorem collectWhile_step {x : α} {xs : List α} (h : more t.kind = true)
    (hitem : item (t :: us) = .ok x ts) (hlt : ts.length ≤ us.length)
    (hrest : collectWhile more item ts = .ok xs rest) :
    collectWhile more item (t :: us) = .ok (x :: xs) rest := by
  rw [collectWhile, collectWithin, bind_currentKind, if_pos h, bind_eq hitem]
  exact bind_eq (collectWithin_mono (Nat.succ_le_succ hlt) hrest)

theorem collectWhile_error {halt : Halt} (h : more t.kind = true)
    (hitem : item (t :: us) = .error halt rest) :
    collectWhile more item (t :: us) = .error halt rest := by
  rw [collectWhile, collectWithin, bind_currentKind, if_pos h, bind_error hitem]

theorem collectWhile_step_error {x : α} {d : Diagnostic} (h : more t.kind = true)
    (hitem : item (t :: us) = .ok x ts) (hlt : ts.length ≤ us.length)
    (hrest : collectWhile more item ts = .error (.diagnostic d) rest) :
    collectWhile more item (t :: us) = .error (.diagnostic d) rest := by
  rw [collectWhile, collectWithin, bind_currentKind, if_pos h, bind_eq hitem]
  exact bind_error (collectWithin_mono_of_error (Nat.succ_le_succ hlt) hrest)

/-- Items are collected by a loop that adds them to those before. -/
theorem collectWhile_eq_foldWhile :
    collectWhile more item = foldWhile more (fun xs => item >>= fun x => pure (xs ++ [x])) [] := by
  have hwithin : ∀ n xs ts, foldWithin more (fun xs => item >>= fun x => pure (xs ++ [x])) n xs ts =
      (collectWithin more item n >>= fun ys => pure (xs ++ ys)) ts := by
    intro n
    induction n with
    | zero => exact fun _ _ => rfl
    | succ n ih =>
        intro xs ts
        cases ts with
        | nil => rfl
        | cons t us =>
            rw [foldWithin, bind_currentKind, collectWithin, bind_assoc currentKind,
              bind_currentKind]
            split
            · rw [bind_assoc item, bind_assoc item]
              cases hitem : item (t :: us) with
              | error halt rest => rw [bind_error hitem, bind_error hitem]
              | ok x mid =>
                  rw [bind_eq hitem, bind_eq hitem, bind_assoc]
                  refine (ih (xs ++ [x]) mid).trans ?_
                  simp only [List.append_assoc, pure_bind]
                  rfl
            · simp
  funext ts
  have hstart := hwithin (ts.length + 1) [] ts
  simp only [List.nil_append, bind_pure] at hstart
  exact hstart.symm

end Parser

end Spl
