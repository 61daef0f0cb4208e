import Spl.Proofs.Syntax.Rules

/-!
The two versions of the grammar derive from the same tokens. An `else` that
belongs to an `if` further out can be moved to the nearest one, which leaves the
tokens as they are.
-/

namespace Spl

/-- A rule about the `else` can be forgotten. -/
theorem StmtPhrase.Derives.forget {rule : ElseRule} {next : Position} {ts : List Token}
    {phrase : StmtPhrase} (h : Derives rule next ts phrase) : Derives .any next ts phrase := by
  induction h with
  | empty ht => exact .empty ht
  | compound hopened _ hclosed ih => exact .compound hopened ih hclosed
  | assign hv hmark he hclosed => exact .assign hv hmark he hclosed
  | call hname hopened harguments hclosed hmark =>
      exact .call hname hopened harguments hclosed hmark
  | ifElse hstart hopened he hclosed _ _ hmark _ ih₁ ih₂ =>
      exact .ifElse hstart hopened he hclosed ih₁ nofun hmark ih₂
  | ifOnly hstart hopened he hclosed _ ih => exact .ifOnly hstart hopened he hclosed ih
  | loop hstart hopened he hclosed _ ih => exact .loop hstart hopened he hclosed ih
  | nil => exact .nil
  | cons _ _ ih₁ ih₂ => exact .cons ih₁ ih₂

/-- An `else` behind a dangling statement can be added to the last `if` in it. -/
theorem StmtPhrase.Derives.attach {next : Position} {mark : Token} {ts vs : List Token}
    {s s' : Stmt} {d : Bool} (hmark : mark.kind = .elseWord)
    (h : Derives .nearest mark.span.start ts (.stmt s true))
    (helse : Derives .nearest next vs (.stmt s' d)) :
    ∃ s d, Derives .nearest next (ts ++ mark :: vs) (.stmt s d) := by
  generalize hphrase : StmtPhrase.stmt s true = phrase at h
  generalize hposition : mark.span.start = position at h
  induction h generalizing s with
  | ifElse hstart hopened he hclosed hthen hnearest hinner _ _ ih =>
      cases hphrase
      obtain ⟨s, d, hs⟩ := ih rfl hposition
      simp only [List.cons_append, List.append_assoc]
      exact ⟨_, _, .ifElse hstart hopened he hclosed hthen hnearest hinner hs⟩
  | @ifOnly _ start opened closed ts us e s dangling hstart hopened he hclosed hthen ih =>
      simp only [List.cons_append, List.append_assoc]
      cases dangling with
      | true =>
          obtain ⟨s, d, hs⟩ := ih rfl hposition
          exact ⟨_, _, .ifOnly hstart hopened he hclosed hs⟩
      | false =>
          rw [← hposition] at hthen
          exact ⟨_, _, .ifElse hstart hopened he hclosed hthen (fun _ => rfl) hmark helse⟩
  | loop hstart hopened he hclosed _ ih =>
      cases hphrase
      obtain ⟨s, d, hs⟩ := ih rfl hposition
      simp only [List.cons_append, List.append_assoc]
      exact ⟨_, _, .loop hstart hopened he hclosed hs⟩
  | empty | compound | assign | call | nil | cons => cases hphrase

/-- Whatever its `else` belong to, the tokens of a phrase are derived with all of
them at the nearest `if`. -/
theorem StmtPhrase.Derives.exists_nearest {next : Position} {ts : List Token} {phrase : StmtPhrase}
    (h : Derives .any next ts phrase) :
    match phrase with
    | .stmt _ _ => ∃ s d, Derives .nearest next ts (.stmt s d)
    | .stmts _ => ∃ ss, Derives .nearest next ts (.stmts ss) := by
  induction h with
  | empty ht => exact ⟨_, _, .empty ht⟩
  | compound hopened _ hclosed ih =>
      obtain ⟨ss, hss⟩ := ih
      exact ⟨_, _, .compound hopened hss hclosed⟩
  | assign hv hmark he hclosed => exact ⟨_, _, .assign hv hmark he hclosed⟩
  | call hname hopened harguments hclosed hmark =>
      exact ⟨_, _, .call hname hopened harguments hclosed hmark⟩
  | ifElse hstart hopened he hclosed _ _ hmark _ ih₁ ih₂ =>
      obtain ⟨s₁, d₁, hs₁⟩ := ih₁
      obtain ⟨s₂, d₂, hs₂⟩ := ih₂
      -- The `else` stays where it is unless another `if` is nearer.
      cases d₁ with
      | false => exact ⟨_, _, .ifElse hstart hopened he hclosed hs₁ (fun _ => rfl) hmark hs₂⟩
      | true =>
          obtain ⟨s, d, hs⟩ := hs₁.attach hmark hs₂
          exact ⟨_, _, .ifOnly hstart hopened he hclosed hs⟩
  | ifOnly hstart hopened he hclosed _ ih =>
      obtain ⟨s, d, hs⟩ := ih
      exact ⟨_, _, .ifOnly hstart hopened he hclosed hs⟩
  | loop hstart hopened he hclosed _ ih =>
      obtain ⟨s, d, hs⟩ := ih
      exact ⟨_, _, .loop hstart hopened he hclosed hs⟩
  | nil => exact ⟨_, .nil⟩
  | cons _ _ ih₁ ih₂ =>
      obtain ⟨s, d, hs⟩ := ih₁
      obtain ⟨ss, hss⟩ := ih₂
      exact ⟨_, .cons hs hss⟩

theorem Declaration.Derives.forget {rule : ElseRule} {ts : List Token} {d : Declaration}
    (h : d.Derives rule ts) : d.Derives .any ts := by
  cases h with
  | type h => exact .type h
  | procedure h =>
      obtain ⟨hstart, hname, hopened, hparameters, hclosed, hopened', hlocals, hbody, hclosed'⟩ := h
      exact .procedure (.intro hstart hname hopened hparameters hclosed hopened' hlocals
        hbody.forget hclosed')

theorem Declaration.Derives.exists_nearest {ts : List Token} {d : Declaration}
    (h : d.Derives .any ts) : ∃ d : Declaration, d.Derives .nearest ts := by
  cases h with
  | type h => exact ⟨_, .type h⟩
  | procedure h =>
      obtain ⟨hstart, hname, hopened, hparameters, hclosed, hopened', hlocals, hbody, hclosed'⟩ := h
      obtain ⟨ss, hss⟩ := hbody.exists_nearest
      exact ⟨_, .procedure (.intro hstart hname hopened hparameters hclosed hopened' hlocals hss
        hclosed')⟩

/-- The tokens of programs are the same with either rule about the `else`. -/
theorem Program.exists_derives_iff {ts : List Token} :
    (∃ ds, Program.Derives .any ts ds) ↔ ∃ ds, Program.Derives .nearest ts ds := by
  constructor
  · rintro ⟨ds, h⟩
    induction h with
    | nil => exact ⟨[], .nil⟩
    | cons head _ ih =>
        obtain ⟨d, hd⟩ := head.exists_nearest
        obtain ⟨ds, hds⟩ := ih
        exact ⟨d :: ds, .cons hd hds⟩
  · rintro ⟨ds, h⟩
    refine ⟨ds, ?_⟩
    induction h with
    | nil => exact .nil
    | cons head _ ih => exact .cons head.forget ih

end Spl
