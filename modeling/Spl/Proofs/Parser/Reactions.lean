import Spl.Proofs.Parser.Runs
import Spl.Proofs.Parser.Steps

/-!
How readers react to tokens. A reader looks at no tokens but those that it takes
and the one behind them, so its reaction is the same whatever follows. Either
the tokens that it has taken are what it is meant to read, or it complains about
the first token with which they cannot be: then it could have read what it has
taken so far, and more.

Every way of putting readers together has a rule for this judgment. The rules
for loops have invariants. There each round has to take a token at least, which
makes the number of tokens a sufficient number of rounds.
-/

namespace Spl

namespace Parser

variable {α β : Type}

/-! ### The judgment -/

/-- The diagnostic is about the token, and the other tokens are left when a
reader complains with it. The size of an array and a literal have been taken
when they turn out to be none. -/
inductive Complains (t : Token) (us : List Token) : Diagnostic → List Token → Prop
  | unexpected : Complains t us (unexpectedToken t) (t :: us)
  | misplaced {message : String} (h : message ≠ "expected an integer literal") :
      Complains t us (misplacedToken t message) (t :: us)
  | unreadable {rest : List Token} (h : take (t :: us) = .ok t rest) :
      Complains t us ⟨.numberParseError t.value, t.span.start⟩ rest
  | noLiteral {rest : List Token} (h : take (t :: us) = .ok t rest) :
      Complains t us (misplacedToken t "expected an integer literal") rest

/-- Some tokens and an answer have the property, in front of some token. -/
def Viable (Q : List Token → Token → α → Prop) : Prop :=
  ∃ us u a, Inside us ∧ u.Lexical ∧ Q us u a

/-- What a reader does on tokens, among which it may nest as deep as the number
says. Of this number the first `k` are used up. -/
inductive Reacts (k : Nat) (p : Nat → Parser α) (Q : List Token → Token → α → Prop)
    (ts : List Token) : Prop
  | answer {pre post : List Token} {t : Token} {a : α} (split : ts = pre ++ t :: post)
      (inside : Inside pre) (holds : Q pre t a)
      (run : ∀ us n, k + pre.length < n → p n (pre ++ t :: us) = .ok a (t :: us))
  | complaint {pre post : List Token} {t : Token} {d : Diagnostic} (split : ts = pre ++ t :: post)
      (inside : Inside pre) (viable : Viable fun us => Q (pre ++ us))
      (run : ∀ us, ∃ rest, Complains t us d rest ∧
        ∀ n, k + pre.length < n → p n (pre ++ t :: us) = .error (.diagnostic d) rest)

/-- The reader can read something, and reacts to all tokens that start with `t`.
There are less than `m` of them, together with the `k` that were taken before. -/
def Reads (m k : Nat) (p : Nat → Parser α) (t : Token) (Q : List Token → Token → α → Prop) : Prop :=
  t.Lexical → Viable Q ∧ ∀ post, Closed (t :: post) → k + post.length < m → Reacts k p Q (t :: post)

theorem Viable.behind {Q : List Token → Token → α → Prop} {pre : List Token} (hpre : Inside pre)
    (h : Viable fun us => Q (pre ++ us)) : Viable Q := by
  obtain ⟨us, u, a, hus, hu, hQ⟩ := h
  exact ⟨pre ++ us, u, a, hpre.append hus, hu, hQ⟩

/-- What starts with a token goes on to do so when its end is changed. -/
theorem exists_head {t u : Token} {pre post ts : List Token} (h : u :: ts = pre ++ t :: post)
    (us : List Token) : ∃ vs, pre ++ t :: us = u :: vs := by
  cases pre with
  | nil =>
      obtain ⟨rfl, -⟩ := List.cons_eq_cons.mp h
      exact ⟨us, rfl⟩
  | cons v pre =>
      obtain ⟨rfl, -⟩ := List.cons_eq_cons.mp h
      exact ⟨_, rfl⟩

/-- A reader that goes on like another one behind some tokens reacts like it. -/
theorem Reacts.lift {k k' : Nat} {p p' : Nat → Parser α} {Q R : List Token → Token → α → Prop}
    {lead ts : List Token} {u : Token} (h : Reacts k p Q (u :: ts)) (hlead : Inside lead)
    (hQ : ∀ us v a, Inside us → Q us v a → R (lead ++ us) v a)
    (hp : ∀ vs n x, x ≤ vs.length → k' + (lead.length + x) < n →
      ∃ n', k + x < n' ∧ (NoFault (p n' (u :: vs)) → p' n (lead ++ u :: vs) = p n' (u :: vs))) :
    Reacts k' p' R (lead ++ u :: ts) := by
  have hrun : ∀ {pre post us : List Token} {t : Token} {n : Nat}, u :: ts = pre ++ t :: post →
      k' + (lead ++ pre).length < n → ∃ n', k + pre.length < n' ∧ (NoFault (p n' (pre ++ t :: us)) →
        p' n ((lead ++ pre) ++ t :: us) = p n' (pre ++ t :: us)) := by
    intro pre post us t n split hn
    obtain ⟨vs, hvs⟩ := exists_head split us
    have hlength : (pre ++ t :: us).length = (u :: vs).length := congrArg _ hvs
    simp only [List.length_append, List.length_cons] at hlength hn
    rw [List.append_assoc, hvs]
    exact hp vs n pre.length (by omega) hn
  cases h with
  | @answer pre post t a split inside holds run =>
      refine .answer (by rw [split, List.append_assoc]) (hlead.append inside)
        (hQ _ _ _ inside holds) fun us n hn => ?_
      obtain ⟨n', hn', heq⟩ := hrun split hn
      rw [run us n' hn'] at heq
      exact heq trivial
  | @complaint pre post t d split inside viable run =>
      have split' : lead ++ u :: ts = (lead ++ pre) ++ t :: post := by
        rw [split, List.append_assoc]
      refine .complaint (d := d) split' (hlead.append inside) ?_ fun us => ?_
      · obtain ⟨us, v, a, hus, hv, ha⟩ := viable
        refine ⟨us, v, a, hus, hv, ?_⟩
        simpa only [List.append_assoc] using hQ _ _ _ (inside.append hus) ha
      · obtain ⟨rest, hd, herror⟩ := run us
        refine ⟨rest, hd, fun n hn => ?_⟩
        obtain ⟨n', hn', heq⟩ := hrun split hn
        rw [herror n' hn'] at heq
        exact heq trivial

/-- A reader that reacts ends, for it needs no more levels than there are
tokens. -/
theorem Reacts.runs {p : Nat → Parser α} {Q : List Token → Token → α → Prop} {ts : List Token}
    {n : Nat} (h : Reacts 0 p Q ts) (hn : ts.length ≤ n) :
    Runs (p n) ts fun a rest => ∃ pre t post, ts = pre ++ t :: post ∧ rest = t :: post ∧
      Inside pre ∧ Q pre t a := by
  have hdepth : ∀ {pre post t}, ts = pre ++ t :: post → 0 + pre.length < n := by
    rintro pre post t rfl
    rw [List.length_append, List.length_cons] at hn
    omega
  cases h with
  | @answer pre post t a split inside holds run =>
      rw [Runs, split, run post n (hdepth split)]
      exact ⟨pre, t, post, rfl, rfl, inside, holds⟩
  | @complaint pre post t d split inside viable run =>
      obtain ⟨rest, -, hrun⟩ := run post
      rw [Runs, split, hrun n (hdepth split)]
      trivial

namespace Reads

variable {m k : Nat} {p : Nat → Parser α} {t : Token} {Q R : List Token → Token → α → Prop}

/-- A reader reacts to any number of tokens. -/
theorem reacts {ts : List Token} (h : ∀ m, Reads m 0 p t Q) (hts : Closed (t :: ts)) :
    Reacts 0 p Q (t :: ts) :=
  (h (ts.length + 1) (hts.lexical t List.mem_cons_self)).2 ts hts (by omega)

/-! ### Structural rules -/

/-- Only what the reader does on tokens that start with `t` counts. -/
theorem of_eq {p' : Nat → Parser α} (hp : ∀ us n, 0 < n → p n (t :: us) = p' n (t :: us))
    (h : Reads m k p' t Q) : Reads m k p t Q := by
  refine fun ht => ⟨(h ht).1, fun post hclosed hm => ?_⟩
  refine ((h ht).2 post hclosed hm).lift .nil (fun _ _ _ _ hQ => hQ) fun vs n x _ hn => ?_
  rw [List.length_nil, Nat.zero_add] at hn
  exact ⟨n, hn, fun _ => hp vs n (by omega)⟩

theorem mono (h : Reads m k p t Q) (hQ : ∀ us u a, Inside us → Q us u a → R us u a) :
    Reads m k p t R := by
  intro ht
  obtain ⟨us, u, a, hus, hu, ha⟩ := (h ht).1
  refine ⟨⟨us, u, a, hus, hu, hQ us u a hus ha⟩, fun post hclosed hm => ?_⟩
  refine ((h ht).2 post hclosed hm).lift .nil hQ fun vs n x _ hn => ?_
  rw [List.length_nil, Nat.zero_add] at hn
  exact ⟨n, hn, fun _ => rfl⟩

/-- Behind other tokens there are less to read. -/
theorem of_zero (h : Reads m 0 p t Q) : Reads m k p t Q := by
  refine fun ht => ⟨(h ht).1, fun post hclosed hm => ?_⟩
  refine ((h ht).2 post hclosed (by omega)).lift .nil (fun _ _ _ _ hQ => hQ) fun vs n x _ hn => ?_
  rw [List.length_nil] at hn
  exact ⟨n, by omega, fun _ => rfl⟩

/-- Behind a token, a reader one level down has one token less to read. -/
theorem nested (h : Reads m 0 p t Q) (hk : 0 < k) : Reads (m + 1) k (fun n => p (n - 1)) t Q := by
  refine fun ht => ⟨(h ht).1, fun post hclosed hm => ?_⟩
  refine ((h ht).2 post hclosed (by omega)).lift .nil (fun _ _ _ _ hQ => hQ) fun vs n x _ hn => ?_
  rw [List.length_nil] at hn
  exact ⟨n - 1, by omega, fun _ => rfl⟩

/-- A reader may nest deeper than there are tokens. -/
theorem of_within {q : Parser α} (hq : ∀ ts, q ts = p (ts.length + 2) ts)
    (h : ∀ m, Reads m 0 p t Q) : Reads m k (fun _ => q) t Q := by
  refine fun ht => ⟨(h m ht).1, fun post hclosed hm => ?_⟩
  refine ((h m ht).2 post hclosed (by omega)).lift .nil (fun _ _ _ _ hQ => hQ) fun vs n x hx _ => ?_
  exact ⟨(t :: vs).length + 2, by rw [List.length_cons]; omega, fun _ => hq (t :: vs)⟩

/-! ### Rules for single readers -/

theorem pure {a : α} (h : Q [] t a) : Reads m k (fun _ => Pure.pure a) t Q := by
  intro ht
  exact ⟨⟨[], t, a, .nil, ht, h⟩, fun post _ _ =>
    .answer (List.nil_append _).symm .nil h fun _ _ _ => rfl⟩

/-- A reader may complain about the current token only if there are tokens that
it reads. -/
theorem complain {d : Diagnostic} (hQ : Viable Q)
    (run : ∀ us, ∃ rest, Complains t us d rest ∧
      ∀ n, 0 < n → p n (t :: us) = .error (.diagnostic d) rest) : Reads m k p t Q := by
  refine fun _ => ⟨hQ, fun post _ _ =>
    .complaint (d := d) (List.nil_append _).symm .nil hQ fun us => ?_⟩
  obtain ⟨rest, hd, hrun⟩ := run us
  exact ⟨rest, hd, fun n hn => hrun n (by omega)⟩

theorem unexpected (hQ : Viable Q) : Reads m k (fun _ => Parser.unexpected) t Q :=
  complain hQ fun _ => ⟨_, .unexpected, fun _ _ => rfl⟩

theorem misplaced {message : String} (hQ : Viable Q) (h : message ≠ "expected an integer literal") :
    Reads m k (fun _ => Parser.misplaced message) t Q :=
  complain hQ fun _ => ⟨_, .misplaced h, fun _ _ => rfl⟩

/-- The reader goes on behind the current token, for which it may have looked at
the next one already. -/
theorem step {p' : Token → Nat → Parser α} (hkind : t.kind ≠ .eof)
    (hp : ∀ u us n, p n (t :: u :: us) = p' u n (u :: us))
    (h : ∀ u, Reads m (k + 1) (p' u) u fun us => Q (t :: us)) : Reads m k p t Q := by
  intro ht
  have hlead : Inside [t] := .cons hkind ht .nil
  refine ⟨.behind hlead (h t ht).1, fun post hclosed hm => ?_⟩
  obtain ⟨u, post, rfl, hnext⟩ := hclosed.exists_next hkind
  rw [List.length_cons] at hm
  refine ((h u (hnext.lexical u List.mem_cons_self)).2 post hnext (by omega)).lift hlead
    (fun _ _ _ _ hQ => hQ) fun vs n x _ hn => ⟨n, ?_, fun _ => hp u vs n⟩
  rw [List.length_singleton] at hn
  omega

/-! ### Rules for readers one after another -/

/-- What follows a reader reads on from where the reader has stopped. If the
reader complains, there are tokens that could be read by it and by what follows. -/
theorem bind {f : Nat → α → Parser β} {S : List Token → Token → β → Prop} (h : Reads m k p t Q)
    (hf : ∀ us u a, Inside us → Q us u a →
      Reads m (k + us.length) (fun n => f n a) u fun vs => S (us ++ vs)) :
    Reads m k (fun n => p n >>= f n) t S := by
  have hviable : ∀ us u a, Inside us → u.Lexical → Q us u a → Viable fun vs => S (us ++ vs) :=
    fun us u a hus hu ha => (hf us u a hus ha hu).1
  intro ht
  obtain ⟨us, u, a, hus, hu, ha⟩ := (h ht).1
  refine ⟨.behind hus (hviable us u a hus hu ha), fun post hclosed hm => ?_⟩
  cases (h ht).2 post hclosed hm with
  | @complaint pre _ _ d split inside viable run =>
      refine .complaint (d := d) split inside ?_ fun us => ?_
      · obtain ⟨us, u, a, hus, hu, ha⟩ := viable
        refine .behind hus ?_
        simpa only [List.append_assoc] using hviable _ u a (inside.append hus) hu ha
      · obtain ⟨rest, hd, hrun⟩ := run us
        exact ⟨rest, hd, fun n hn => bind_error (hrun n hn)⟩
  | @answer pre post' u a split inside holds run =>
      have hlength : (t :: post).length = (pre ++ u :: post').length := congrArg _ split
      rw [List.length_cons, List.length_append, List.length_cons] at hlength
      rw [split] at hclosed ⊢
      have hnext := hclosed.behind
      refine ((hf pre u a inside holds (hnext.lexical u List.mem_cons_self)).2 post' hnext
        (by omega)).lift inside (fun _ _ _ _ hS => hS) fun vs n x _ hn => ⟨n, by omega, fun _ => ?_⟩
      exact bind_eq (run vs n (by omega))

theorem map {f : α → β} {S : List Token → Token → β → Prop} (h : Reads m k p t Q)
    (hf : ∀ us u a, Inside us → Q us u a → S us u (f a)) :
    Reads m k (fun n => p n >>= fun a => Pure.pure (f a)) t S :=
  h.bind fun us u a hus ha => pure (by rw [List.append_nil]; exact hf us u a hus ha)

/-! ### Rules for tokens -/

section Tokens

variable {kind : TokenKind} {f : Nat → Token → Parser α}

theorem take (hkind : t.kind ≠ .eof)
    (h : ∀ u, Reads m (k + 1) (fun n => f n t) u fun us => Q (t :: us)) :
    Reads m k (fun n => Parser.take >>= f n) t Q :=
  step hkind (fun u us _ => bind_eq (take_cons_cons t u us)) h

theorem currentKind {f : Nat → TokenKind → Parser α} (h : Reads m k (fun n => f n t.kind) t Q) :
    Reads m k (fun n => Parser.currentKind >>= f n) t Q :=
  of_eq (fun _ _ _ => bind_currentKind) h

theorem position {f : Nat → Position → Parser α} (h : Reads m k (fun n => f n t.span.start) t Q) :
    Reads m k (fun n => Parser.position >>= f n) t Q :=
  of_eq (fun _ _ _ => bind_position) h

/-- Where a token of a kind is expected, one of the kind could stand. -/
theorem expect (hkind : kind ∉ [.eof, .number, .hexNumber, .character])
    (h : ∀ t u, t.kind = kind → Reads m (k + 1) (fun n => f n t) u fun us => Q (t :: us)) :
    Reads m k (fun n => Parser.expect kind >>= f n) t Q := by
  simp only [List.mem_cons, List.not_mem_nil, or_false, not_or] at hkind
  obtain ⟨heof, hnumber, hhex, hcharacter⟩ := hkind
  by_cases ht : t.kind = kind
  · exact step (by rwa [ht]) (fun u us _ => bind_expect ht (List.cons_ne_nil u us)) (h t · ht)
  · intro hlexical
    let s : Token := ⟨kind, "", t.span⟩
    have hs : Inside [s] := .cons heof (Token.lexical_of_kind hnumber hhex hcharacter) .nil
    have hmessage : "expected " ++ kind.name ≠ "expected an integer literal" := by
      cases kind <;> decide
    exact complain (.behind hs (h s t rfl hlexical).1)
      (fun us => ⟨t :: us, .misplaced hmessage, fun _ _ => bind_error (expectOr_of_ne ht _ us)⟩)
      hlexical

end Tokens

/-! ### Loops -/

section Loops

variable {more : TokenKind → Bool}

/-- A loop keeps its invariant, which is about what was taken since its start,
and ends at a token that it does not go on with. It could have ended after each
round. -/
theorem foldWhile {step : Nat → α → Parser α} {I : List Token → Token → α → Prop}
    (round : ∀ us u a, Inside us → I us u a → more u.kind = true →
      Reads m (k + us.length) (fun n => step n a) u fun vs v b =>
        vs ≠ [] ∧ (vs.head? = some u → I (us ++ vs) v b))
    (stop : ∀ us u a, I us u a → ∃ v b, v.Lexical ∧ more v.kind = false ∧ I us v b)
    {a : α} (h : I [] t a) :
    Reads m k (fun n => Parser.foldWhile more (step n) a) t fun us u b =>
      I us u b ∧ more u.kind = false := by
  have hviable : ∀ us u a, I us u a →
      Viable fun vs v b => I (us ++ vs) v b ∧ more v.kind = false := by
    intro us u a ha
    obtain ⟨v, b, hv, hmore, hb⟩ := stop us u a ha
    exact ⟨[], v, b, .nil, hv, by rwa [List.append_nil], hmore⟩
  -- By induction on the number of tokens left.
  have hloop : ∀ post us u a, Inside us → I us u a → Closed (u :: post) →
      k + us.length + post.length < m →
      Reacts (k + us.length) (fun n => Parser.foldWhile more (step n) a)
        (fun vs v b => I (us ++ vs) v b ∧ more v.kind = false) (u :: post) := by
    intro post
    induction hlength : post.length using Nat.strongRecOn generalizing post with
    | ind length ih =>
        subst hlength
        intro us u a hus ha hclosed hm
        cases hmore : more u.kind with
        | false =>
            exact .answer (List.nil_append _).symm .nil (by simpa using ⟨ha, hmore⟩)
              fun _ _ _ => foldWhile_stop hmore
        | true =>
            have hu := hclosed.lexical u List.mem_cons_self
            cases (round us u a hus ha hmore hu).2 post hclosed hm with
            | @complaint pre _ v d split inside viable run =>
                refine .complaint (d := d) split inside ?_ fun vs => ?_
                · cases pre with
                  | nil => simpa using hviable us u a ha
                  | cons w pre =>
                      obtain ⟨rfl, -⟩ := List.cons_eq_cons.mp split
                      obtain ⟨vs, x, b, hvs, hx, hb⟩ := viable
                      refine .behind hvs ?_
                      simpa only [List.append_assoc] using
                        hviable _ x b (hb.2 rfl)
                · obtain ⟨rest, hd, hrun⟩ := run vs
                  obtain ⟨ws, hws⟩ := exists_head split vs
                  refine ⟨rest, hd, fun n hn => ?_⟩
                  rw [hws]
                  exact foldWhile_error hmore (by rw [← hws, hrun n hn])
            | @answer pre post' v b split inside holds run =>
                obtain ⟨w, pre, rfl⟩ := List.exists_cons_of_ne_nil holds.1
                obtain rfl := (List.cons_eq_cons.mp split).1
                have hlength := congrArg List.length split
                simp only [List.length_append, List.length_cons] at hlength
                rw [split] at hclosed ⊢
                have hnext := ih post'.length (by omega) post' rfl (us ++ u :: pre) v b
                  (hus.append inside) (holds.2 rfl) hclosed.behind
                  (by rw [List.length_append, List.length_cons]; omega)
                refine hnext.lift inside (fun vs x c _ hc => by simpa using hc)
                  fun vs n x _ hn => ⟨n, ?_, fun hr => ?_⟩
                · rw [List.length_append]
                  omega
                · exact foldWhile_step hmore (run vs n (by omega)) (by simp) hr rfl
  exact fun ht => ⟨hviable [] t a h, fun post hclosed hm =>
    hloop post [] t a .nil h hclosed hm⟩

/-- Items are collected one in each round. -/
theorem collectWhile {item : Nat → Parser α} {I : List Token → Token → List α → Prop}
    (round : ∀ us u xs, Inside us → I us u xs → more u.kind = true →
      Reads m (k + us.length) item u fun vs v x =>
        vs ≠ [] ∧ (vs.head? = some u → I (us ++ vs) v (xs ++ [x])))
    (stop : ∀ us u xs, I us u xs → ∃ v ys, v.Lexical ∧ more v.kind = false ∧ I us v ys)
    (h : I [] t []) :
    Reads m k (fun n => Parser.collectWhile more (item n)) t fun us u xs =>
      I us u xs ∧ more u.kind = false := by
  refine of_eq (fun _ _ _ => by rw [collectWhile_eq_foldWhile]) (foldWhile ?_ stop h)
  intro us u xs hus hxs hmore
  exact (round us u xs hus hxs hmore).map fun vs v x _ hx => hx

end Loops

end Reads

end Parser

end Spl
