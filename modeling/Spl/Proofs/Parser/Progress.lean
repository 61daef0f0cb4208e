import Spl.Analysis
import Spl.Proofs.Parser.Soundness

/-!
Progress of the parser. On tokens of which the last one marks the end, every
reader complains or moves forward, and it never takes a mark of the end. The
same holds of every round of every loop. Hence the parser ends, a program ends
in front of the first mark of the end, and what is behind the mark does not
count.
-/

namespace Spl

open Spl.Parser

variable {α : Type} {ts : List Token}

/-- A reader of phrases, none of which is empty, moves forward. It needs no more
levels than there are tokens. -/
theorem Parser.Reacts.advances {p : Nat → Parser α} {Q : List Token → Token → α → Prop} {n : Nat}
    (h : Reacts 0 p Q ts) (hts : Closed ts) (hn : ts.length ≤ n)
    (hQ : ∀ us u a, Q us u a → us ≠ []) : Advances (p n) ts := by
  refine (h.runs hn).mono ?_
  rintro a _ ⟨pre, t, post, rfl, rfl, hpre, ha⟩
  exact ⟨pre, rfl, hQ _ _ _ ha, hpre, hts.behind⟩

theorem Parser.Reads.advances {p : Nat → Parser α} {Q : List Token → Token → α → Prop} {t : Token}
    {n : Nat} (h : ∀ m, Reads m 0 p t Q) (hts : Closed (t :: ts)) (hn : (t :: ts).length ≤ n)
    (hQ : ∀ us u a, Q us u a → us ≠ []) : Advances (p n) (t :: ts) :=
  (Reads.reacts h hts).advances hts hn hQ

namespace Grammar

/-! ### Readers -/

/-- The readers of phrases move forward, both those that may nest to the depth
`n` and those that find their depth by themselves. -/
structure ReadersAdvance (n : Nat) (ts : List Token) : Prop where
  typeWithin : Advances (standard.typeWithin n) ts
  exprWithin : ∀ power, Advances (standard.exprWithin n power) ts
  variableWith : Advances (variableWith (standard.exprWithin n)) ts
  stmtWithin : Advances (standard.stmtWithin n) ts
  typeExpr : Advances standard.typeExpr ts
  expr : ∀ power, Advances (standard.expr power) ts
  place : Advances standard.place ts
  stmt : Advances standard.stmt ts
  parameter : Advances standard.parameter ts
  localVariable : Advances standard.localVariable ts
  declaration : Advances standard.declaration ts

theorem ExprRead.ne_nil {power : Power} {us : List Token} {u : Token} {e : Expr}
    (h : ExprRead power us u e) : us ≠ [] := by
  obtain ⟨t, us, rfl, -⟩ := h.1.exists_operand
  exact List.cons_ne_nil _ _

theorem StmtRead.ne_nil {us : List Token} {u : Token} {s : Stmt} (h : StmtRead us u s) :
    us ≠ [] := by
  obtain ⟨d, hs, -⟩ := h
  exact hs.ne_nil

theorem readersAdvance {t : Token} {n : Nat} (hts : Closed (t :: ts))
    (hn : (t :: ts).length ≤ n) : ReadersAdvance n (t :: ts) where
  typeWithin := Reads.advances (reads_typeWithin · t) hts hn fun _ _ _ he => he.ne_nil
  exprWithin power := Reads.advances (reads_exprWithin · power t) hts hn fun _ _ _ he => he.ne_nil
  variableWith := Reads.advances (fun m => reads_variableWith fun _ power u _ =>
    (reads_exprWithin m power u).of_zero) hts hn fun _ _ _ hv => hv.ne_nil
  stmtWithin := Reads.advances (reads_stmtWithin · t) hts hn fun _ _ _ hs => hs.ne_nil
  typeExpr := Reads.advances (p := fun _ => standard.typeExpr) (fun _ => reads_typeExpr) hts hn
    fun _ _ _ he => he.ne_nil
  expr power := Reads.advances (fun _ => reads_expr power) hts hn fun _ _ _ he => he.ne_nil
  place := Reads.advances (fun _ => reads_place) hts hn fun _ _ _ hv => hv.ne_nil
  stmt := Reads.advances (p := fun _ => standard.stmt) (fun _ => reads_stmt) hts hn
    fun _ _ _ hs => hs.ne_nil
  parameter := Reads.advances (fun _ => reads_parameter) hts hn fun _ _ _ hp => hp.ne_nil
  localVariable := Reads.advances (fun _ => reads_localVariable) hts hn fun _ _ _ hv => hv.ne_nil
  declaration := Reads.advances (fun _ => reads_declaration) hts hn fun _ _ _ hd => hd.ne_nil

/-! ### Loops -/

/-- Each loop moves forward in the rounds that start with the token `t`. The
loops of expressions and blocks may nest to the depth `n`, or find their depth
by themselves. -/
structure RoundsAdvance (n : Nat) (t : Token) (ts : List Token) : Prop where
  /-- The declarations of a program. -/
  program : (t.kind != .eof) = true → Advances standard.declaration (t :: ts)
  /-- The statements of a compound statement. -/
  compound : (t.kind != .closeCurly) = true →
    Advances (beforeEnd (standard.stmtWithin n)) (t :: ts)
  /-- The statements of a procedure. -/
  body : (t.kind != .closeCurly) = true → Advances (beforeEnd standard.stmt) (t :: ts)
  /-- The variables of a procedure. -/
  locals : (t.kind == .varWord) = true → Advances standard.localVariable (t :: ts)
  arguments : (t.kind == .comma) = true →
    Advances (take >>= fun _ => standard.anyExpr) (t :: ts)
  parameters : (t.kind == .comma) = true →
    Advances (take >>= fun _ => standard.parameter) (t :: ts)
  /-- The indices of a variable in an expression. -/
  indices : (t.kind == .openBracket) = true → ∀ start array,
    Advances (indexWith (standard.exprWithin n) start array) (t :: ts)
  /-- The indices of a variable that is assigned to. -/
  placeIndices : (t.kind == .openBracket) = true → ∀ start array,
    Advances (indexWith standard.expr start array) (t :: ts)
  operators : ∀ power left, decide (power < standard.powerOf t.kind) = true →
    Advances (standard.operatorWith (standard.exprWithin n) left) (t :: ts)

theorem roundsAdvance {t : Token} {n : Nat} (hts : Closed (t :: ts))
    (hn : (t :: ts).length ≤ n) : RoundsAdvance n t ts where
  program _ := (readersAdvance hts hn).declaration
  compound _ := Reads.advances (fun m => reads_beforeEnd (reads_stmtWithin m t)) hts hn
    fun _ _ _ hs => hs.ne_nil
  body _ := Reads.advances (fun _ => reads_beforeEnd reads_stmt) hts hn fun _ _ _ hs => hs.ne_nil
  locals _ := (readersAdvance hts hn).localVariable
  arguments ht := Reads.advances (fun _ => reads_furtherItem (eq_of_beq ht) fun _ _ =>
    reads_anyExpr) hts hn fun _ _ _ he => he.ne_nil
  parameters ht := Reads.advances (fun _ => reads_furtherItem (eq_of_beq ht) fun _ _ =>
    reads_parameter) hts hn fun _ _ _ hp => hp.ne_nil
  indices ht _ _ := Reads.advances (fun m => reads_indexWith (fun _ power u _ =>
    (reads_exprWithin m power u).of_zero) (eq_of_beq ht)) hts hn
      fun _ _ _ ⟨_, _, _, hus, _⟩ => hus ▸ List.cons_ne_nil _ _
  placeIndices ht _ _ := Reads.advances (fun _ => reads_indexWith (fun _ power _ _ =>
    reads_expr power) (eq_of_beq ht)) hts hn
      fun _ _ _ ⟨_, _, _, hus, _⟩ => hus ▸ List.cons_ne_nil _ _
  operators _ _ ht := Reads.advances (fun m => reads_operatorWith (fun _ power u _ =>
    (reads_exprWithin m power u).of_zero) (of_decide_eq_true ht)) hts hn
      fun _ _ _ ⟨_, _, _, hus, _⟩ => hus ▸ List.cons_ne_nil _ _

end Grammar

/-! ### Programs -/

/-- The answer or the diagnostic of the parser depends on the tokens up to one
in front of which there is no mark of the end. -/
theorem exists_decisive (file : String) (hts : Closed ts) :
    ∃ pre t post, ts = pre ++ t :: post ∧ Inside pre ∧
      ∀ us, parseTokens (pre ++ t :: us) file = parseTokens ts file := by
  have hparse : ∀ us, Grammar.standard.program file us = parse file us := fun _ => rfl
  cases Grammar.reacts_program file hts with
  | @answer pre post t p split inside holds run =>
      refine ⟨pre, t, post, split, inside, fun us => ?_⟩
      rw [split, parseTokens, parseTokens, ← hparse, ← hparse, run us _ (Nat.lt_succ_self _),
        run post _ (Nat.lt_succ_self _)]
  | @complaint pre post t d split inside viable run =>
      refine ⟨pre, t, post, split, inside, fun us => ?_⟩
      obtain ⟨rest, -, hus⟩ := run us
      obtain ⟨rest', -, hpost⟩ := run post
      rw [split, parseTokens, parseTokens, ← hparse, ← hparse, hus _ (Nat.lt_succ_self _),
        hpost _ (Nat.lt_succ_self _)]

/-- Tokens that are cut behind a mark of the end keep all that is in front of
the first one, and what comes next. -/
theorem exists_cut {pre pre' post post' : List Token} {t eof : Token} (hpre : Inside pre)
    (heof : eof.kind = .eof) (h : pre ++ t :: post = pre' ++ eof :: post') :
    ∃ us, pre' ++ [eof] = pre ++ t :: us := by
  obtain ⟨vs, rfl, hvs⟩ | ⟨vs, rfl, hvs⟩ := List.append_eq_append_iff.mp h
  · cases vs with
    | nil =>
        obtain ⟨rfl, -⟩ := List.cons_eq_cons.mp hvs
        exact ⟨[], by simp⟩
    | cons v vs =>
        obtain ⟨rfl, -⟩ := List.cons_eq_cons.mp hvs
        exact ⟨vs ++ [eof], by simp⟩
  · cases vs with
    | nil =>
        obtain ⟨rfl, -⟩ := List.cons_eq_cons.mp hvs
        exact ⟨[], by simp⟩
    | cons v vs =>
        obtain ⟨rfl, -⟩ := List.cons_eq_cons.mp hvs
        exact absurd heof (hpre _ (by simp)).1

/-- On tokens of which the last one marks the end, the parser ends. At every
token, all readers and all rounds of loops complain or move forward. A program
that was read ends in front of the first mark of the end, where its span ends,
too. Behind a mark of the end there is nothing that the result depends on. -/
theorem parse_advances (file : String) (hts : Closed ts) :
    (∀ pre t post, ts = pre ++ t :: post → ∀ n, (t :: post).length ≤ n →
      Grammar.ReadersAdvance n (t :: post) ∧ Grammar.RoundsAdvance n t post) ∧
    Runs (parse file) ts (fun p rest => ∃ pre eof post, ts = pre ++ eof :: post ∧
      (∀ t ∈ pre, t.kind ≠ .eof) ∧ eof.kind = .eof ∧ rest = eof :: post ∧
        p.span = ⟨⟨0, file⟩, eof.span.start⟩) ∧
    ∀ pre eof post, ts = pre ++ eof :: post → eof.kind = .eof →
      parseTokens (pre ++ [eof]) file = parseTokens ts file := by
  refine ⟨?_, ?_, ?_⟩
  · rintro pre t post rfl n hn
    exact ⟨Grammar.readersAdvance hts.behind hn, Grammar.roundsAdvance hts.behind hn⟩
  · refine ((Grammar.reacts_program file hts).runs (Nat.le_refl _)).mono ?_
    rintro p _ ⟨pre, eof, post, rfl, rfl, hpre, -, hspan, heof⟩
    exact ⟨pre, eof, post, rfl, fun t ht => (hpre t ht).1, heof, rfl, hspan⟩
  · intro pre eof post hsplit heof
    obtain ⟨pre', t, post', hsplit', hpre', hdecisive⟩ := exists_decisive file hts
    obtain ⟨us, hus⟩ := exists_cut hpre' heof (hsplit'.symm.trans hsplit)
    rw [hus, hdecisive]

/-- The second mark of the end is behind the beginning of a procedure. -/
theorem advances_over_two_marks :
    let t (kind : TokenKind) (value : String) : Token := ⟨kind, value, ⟨.null, .null⟩⟩
    let ts := [t .typeWord "type", t .identifier "a", t .equals "=", t .identifier "int",
      t .semicolon ";", t .eof "EOF"]
    let us := [t .procWord "proc", t .eof "EOF"]
    Closed (ts ++ us) ∧ Advances Grammar.standard.declaration (ts ++ us) ∧
      ∃ p, parse "a.spl" (ts ++ us) = .ok p (t .eof "EOF" :: us) ∧
        parseTokens ts "a.spl" = parseTokens (ts ++ us) "a.spl" := by
  intro t ts us
  have hclosed : Closed (ts ++ us) :=
    .cons trivial (.cons trivial (.cons trivial (.cons trivial (.cons trivial (.cons trivial
      (.cons trivial (.last rfl)))))))
  obtain ⟨hreaders, -, hcut⟩ := parse_advances "a.spl" hclosed
  refine ⟨hclosed, (hreaders [] _ _ rfl _ (Nat.le_refl _)).1.declaration, ?_⟩
  have hok : parse "a.spl" (ts ++ us) = .ok ⟨[.type ⟨"a", .named "int" .null none, .null⟩],
      ⟨⟨0, "a.spl"⟩, .null⟩⟩ (t .eof "EOF" :: us) := by cbv
  exact ⟨_, hok, hcut (ts.take 5) _ us rfl rfl⟩

end Spl
