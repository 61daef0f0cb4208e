import Spl.Proofs.Program.Accepted
import Spl.Proofs.Program.Naturality
import Spl.Proofs.Program.Silence
import Spl.Proofs.Text.Sink

/-!
The listings of a program. Each procedure that is entered adds a block of text
that shows its scopes at that moment. Building a table with listings is building
it silently and writing the blocks one after the other: the first block that
cannot be written ends the work, and nothing else changes.
-/

namespace Spl

open Outcome Text

variable {α β ν μ : Type}

/-! ### Blocks -/

/-- What is written of a procedure. -/
structure Block where
  procedure : Procedure
  text : String

/-- The text shows the scope of the procedure, and then the global scope with
these bindings. -/
def Procedure.Shows (p : Procedure) (globals : List Binding) (text : String) : Prop :=
  ∃ own outer, Renders 1 p.bindings own ∧ Renders 0 globals outer ∧
    text = "Symbol table at end of procedure '" ++ p.name ++ "':\n" ++ (own ++ outer) ++ "\n"

/-- What entering a declaration does to the contents of a table, and what is
written of it. -/
inductive Lists (c : Contents) : Declaration → List Block → Contents → Prop
  | type {t : TypeDeclaration} {c' : Contents} (h : Enters c (.type t) c') :
      Lists c (.type t) [] c'
  | procedure {p : Procedure} {text : String} {c' : Contents} (h : Enters c (.procedure p) c')
      (htext : p.Shows c'.globals text) : Lists c (.procedure p) [⟨p, text⟩] c'

/-- What entering declarations one after the other does to the contents, and
what is written of them. -/
inductive Listed : Contents → List Declaration → List Block → Contents → Prop
  | nil {c : Contents} : Listed c [] [] c
  | cons {c c' c'' : Contents} {d : Declaration} {ds : List Declaration} {bs bs' : List Block}
      (h : Lists c d bs c') (hs : Listed c' ds bs' c'') : Listed c (d :: ds) (bs ++ bs') c''

theorem Lists.enters {c c' : Contents} {d : Declaration} {bs : List Block}
    (h : Lists c d bs c') : Enters c d c' := by
  cases h with
  | type h => exact h
  | procedure h _ => exact h

theorem Listed.entered {c c' : Contents} {ds : List Declaration} {bs : List Block}
    (h : Listed c ds bs c') : Entered c ds c' := by
  induction h with
  | nil => exact .nil
  | cons h _ ih => exact .cons h.enters ih

/-- The blocks are those of the procedures among the declarations. -/
theorem Listed.map_procedure {c c' : Contents} {ds : List Declaration} {bs : List Block}
    (h : Listed c ds bs c') : bs.map Block.procedure = ds.filterMap Declaration.procedure? := by
  induction h with
  | nil => rfl
  | cons h _ ih =>
      rw [List.map_append, ih]
      cases h with
      | type => rfl
      | procedure => rfl

/-- The text of all blocks together. -/
def bytesOfBlocks (bs : List Block) : List UInt8 :=
  bs.flatMap fun b => bytesOf b.text

@[simp] theorem bytesOfBlocks_nil : bytesOfBlocks [] = [] := rfl

@[simp] theorem bytesOfBlocks_cons (b : Block) (bs : List Block) :
    bytesOfBlocks (b :: bs) = bytesOf b.text ++ bytesOfBlocks bs :=
  List.flatMap_cons

/-! ### Writing blocks -/

namespace Text.Sink

/-- Writes a block. A failure is blamed on its procedure. -/
def writeBlock (s : Sink) (b : Block) : Outcome Sink Unit :=
  let (s, complete) := s.write b.text
  ⟨s, if complete && !s.flushFails then .ok ()
    else .error (Cause.halt (.tableDumpFailed s.reason) b.procedure.position)⟩

/-- Writes blocks up to the first that fails. -/
def writeBlocks (s : Sink) : List Block → Outcome Sink Unit
  | [] => ⟨s, .ok ()⟩
  | b :: bs => (s.writeBlock b).andThen id fun s _ => s.writeBlocks bs

theorem writeBlocks_append (s : Sink) (bs bs' : List Block) :
    s.writeBlocks (bs ++ bs') = (s.writeBlocks bs).andThen id fun s _ => s.writeBlocks bs' := by
  induction bs generalizing s with
  | nil => rfl
  | cons b bs ih =>
      rw [List.cons_append, writeBlocks, writeBlocks]
      generalize s.writeBlock b = first
      obtain ⟨s, result⟩ := first
      cases result with
      | ok _ => exact ih s
      | error halt => rfl

variable {s : Sink} {limit : Nat}

theorem Endless.writeBlocks_eq (h : s.Endless) (bs : List Block) :
    s.writeBlocks bs = ⟨s.append (bytesOfBlocks bs), .ok ()⟩ := by
  induction bs generalizing s with
  | nil => rw [bytesOfBlocks_nil, append_nil, writeBlocks]
  | cons b bs ih =>
      have hblock : s.writeBlock b = ⟨s.append (bytesOf b.text), .ok ()⟩ := by
        obtain ⟨written, room, reason, flushFails⟩ := s
        obtain ⟨hroom, hflush⟩ := h
        dsimp only at hroom hflush
        subst hroom hflush
        rfl
      have hrest : (s.append (bytesOf b.text)).Endless := ⟨h.room, h.flush⟩
      rw [writeBlocks, hblock, andThen_ok, ih hrest, append_append, bytesOfBlocks_cons]

section Limited

variable (hroom : s.room = some limit) (hflush : s.flushFails = false)
include hroom hflush

theorem writeBlock_of_fits {b : Block} (h : (bytesOf b.text).length ≤ limit) :
    s.writeBlock b = ⟨s.fill (bytesOf b.text) (limit - (bytesOf b.text).length), .ok ()⟩ := by
  have hwrite : s.write b.text =
      (s.fill (bytesOf b.text) (limit - (bytesOf b.text).length), true) :=
    writeBytes_of_fits hroom h
  rw [writeBlock, hwrite]
  simp [fill, hflush]

omit hflush in
theorem writeBlock_of_exceeds {b : Block} (h : limit < (bytesOf b.text).length) :
    s.writeBlock b = ⟨s.fill ((bytesOf b.text).take limit) 0,
      .error (Cause.halt (.tableDumpFailed s.reason) b.procedure.position)⟩ := by
  have hwrite : s.write b.text = (s.fill ((bytesOf b.text).take limit) 0, false) :=
    writeBytes_of_exceeds hroom h
  rw [writeBlock, hwrite]
  rfl

theorem writeBlocks_of_fits {bs : List Block} (h : (bytesOfBlocks bs).length ≤ limit) :
    s.writeBlocks bs =
      ⟨s.fill (bytesOfBlocks bs) (limit - (bytesOfBlocks bs).length), .ok ()⟩ := by
  induction bs generalizing s limit with
  | nil => simp [writeBlocks, fill_nil hroom]
  | cons b bs ih =>
      rw [bytesOfBlocks_cons, List.length_append] at h
      have hfirst : (bytesOf b.text).length ≤ limit := by omega
      have hrest : (bytesOfBlocks bs).length ≤ limit - (bytesOf b.text).length := by omega
      rw [writeBlocks, writeBlock_of_fits hroom hflush hfirst, andThen_ok,
        ih (s := s.fill _ _) rfl hflush hrest, fill_fill, bytesOfBlocks_cons, List.length_append,
        Nat.sub_sub]

/-- Blocks that do not all fit fail in the first one that ends behind the limit,
and everything up to the limit has been written. -/
theorem writeBlocks_of_exceeds {bs : List Block} (h : limit < (bytesOfBlocks bs).length) :
    ∃ j b, bs[j]? = some b ∧
      (∀ i, limit < (bytesOfBlocks (bs.take (i + 1))).length ↔ j ≤ i) ∧
      s.writeBlocks bs = ⟨s.fill ((bytesOfBlocks bs).take limit) 0,
        .error (Cause.halt (.tableDumpFailed s.reason) b.procedure.position)⟩ := by
  induction bs generalizing s limit with
  | nil => exact absurd h (Nat.not_lt_zero limit)
  | cons b bs ih =>
      rw [bytesOfBlocks_cons, List.length_append] at h
      by_cases hfirst : (bytesOf b.text).length ≤ limit
      · have hover : limit - (bytesOf b.text).length < (bytesOfBlocks bs).length := by omega
        obtain ⟨j, b', hj, hleast, hrest⟩ := ih (s := s.fill _ _) rfl hflush hover
        refine ⟨j + 1, b', hj, fun i => ?_, ?_⟩
        · cases i with
          | zero => simpa using hfirst
          | succ i =>
              have hi := hleast i
              rw [List.take_succ_cons, bytesOfBlocks_cons, List.length_append]
              omega
        · rw [writeBlocks, writeBlock_of_fits hroom hflush hfirst, andThen_ok, hrest, fill_fill,
            bytesOfBlocks_cons, List.take_append, List.take_of_length_le hfirst]
          rfl
      · have hover := Nat.lt_of_not_le hfirst
        refine ⟨0, b, rfl, fun i => ?_, ?_⟩
        · rw [List.take_succ_cons, bytesOfBlocks_cons, List.length_append]
          omega
        · rw [writeBlocks, writeBlock_of_exceeds hroom hover, andThen_error, bytesOfBlocks_cons,
            List.take_append_of_le_length (Nat.le_of_lt hover)]
          rfl

end Limited

end Text.Sink

/-! ### Runs that write -/

namespace Outcome

/-- A run that writes besides what the silent one does. If everything could be
written, it is the silent one with what was written; else it ends with the
failure. -/
inductive Writes (silent : Outcome (ν × Draft) α) : Outcome Sink Unit → Outcome (ν × Draft) α → Prop
  | done {output : Sink} : Writes silent ⟨output, .ok ()⟩ (silent.redirect output)
  | failed {x : ν} {d : Draft} {halt : Halt} :
      Writes silent ⟨d.output, .error halt⟩ ⟨(x, d), .error halt⟩

namespace Writes

variable {silent o : Outcome (ν × Draft) α} {writing : Outcome Sink Unit} {output : Sink}
  {bs bs' : List Block}

theorem eq_of_ok (h : silent.Writes ⟨output, .ok ()⟩ o) : o = silent.redirect output := by
  cases h
  rfl

theorem of_error {halt : Halt} (h : silent.Writes ⟨output, .error halt⟩ o) :
    o.after.2.output = output ∧ o.result = .error halt := by
  cases h
  exact ⟨rfl, rfl⟩

theorem map (h : silent.Writes writing o) {rebuild : ν × Draft → μ × Draft} {value : α → β}
    (hrebuild : ∀ x, ∃ y, ∀ d, rebuild (x, d) = (y, d)) :
    (silent.map rebuild value).Writes writing (o.map rebuild value) := by
  cases h with
  | @done output =>
      obtain ⟨y, hy⟩ := hrebuild silent.after.1
      have hmap : (silent.redirect output).map rebuild value =
          (silent.map rebuild value).redirect output := by
        simp only [Outcome.map, redirect, hy]
      rw [hmap]
      exact .done
  | @failed x d halt =>
      obtain ⟨y, hy⟩ := hrebuild x
      simp only [Outcome.map, hy]
      exact .failed

/-- A run goes on writing if the silent one goes on. -/
theorem andThen (h : silent.Writes (output.writeBlocks bs) o)
    {rebuild : ν × Draft → μ × Draft} {next next' : ν × Draft → α → Outcome (μ × Draft) β}
    (hrebuild : ∀ x, ∃ y, ∀ d, rebuild (x, d) = (y, d))
    (hnext : ∀ x d a, silent.Yields (x, d) a → ∀ output,
      (next (x, d) a).Writes (output.writeBlocks bs') (next' (x, { d with output }) a))
    (hstop : ∀ halt, silent.result = .error halt → bs' = []) :
    (silent.andThen rebuild next).Writes (output.writeBlocks (bs ++ bs'))
      (o.andThen rebuild next') := by
  rw [Sink.writeBlocks_append]
  generalize output.writeBlocks bs = writing at h
  cases h with
  | @failed x d halt =>
      obtain ⟨y, hy⟩ := hrebuild x
      simp only [andThen_error, hy, id]
      exact .failed
  | @done output =>
      obtain ⟨⟨x, d⟩, result⟩ := silent
      cases result with
      | ok a => exact hnext x d a rfl output
      | error halt =>
          obtain ⟨y, hy⟩ := hrebuild x
          obtain rfl := hstop halt rfl
          simp only [redirect, andThen_error, andThen_ok, hy]
          exact .done

end Writes

end Outcome

/-! ### The builder writes blocks -/

/-- To list the scopes of a procedure is to write a block. -/
theorem Draft.writes_list {d : Draft} {scope : ScopeId} {listing : String}
    (h : d.table.listing scope = .ok listing) (p : Procedure) (x : ν) (output : Sink) :
    Outcome.Writes ⟨(x, d), .ok ()⟩
      (output.writeBlocks
        [⟨p, "Symbol table at end of procedure '" ++ p.name ++ "':\n" ++ listing ++ "\n"⟩])
      ((Draft.list { d with output } p scope).map (fun d => (x, d)) id) := by
  generalize hb : Block.mk p
    ("Symbol table at end of procedure '" ++ p.name ++ "':\n" ++ listing ++ "\n") = b
  have hlist : Draft.list { d with output } p scope =
      ⟨{ d with output := (output.writeBlock b).after }, (output.writeBlock b).result⟩ := by
    rw [list, h, ← hb]
    rfl
  rw [hlist, Sink.writeBlocks]
  generalize output.writeBlock b = writing
  obtain ⟨output, result⟩ := writing
  cases result with
  | ok _ => exact .done
  | error halt => exact .failed (d := { d with output })

section Builder

variable {options quiet : Options} {library : Library} {c : Contents} {d d' : Draft}

/-- A declaration that cannot be entered is not listed. -/
theorem Declaration.writes_of_error (hquiet : quiet.listsTables = false) {halt : Halt}
    {declaration : Declaration} (h : (declaration.declare quiet d).result = .error halt)
    (output : Sink) :
    (declaration.declare quiet d).Writes (output.writeBlocks [])
      (declaration.declare options { d with output }) := by
  have hsame : declaration.declare options { d with output } =
      (declaration.declare quiet d).redirect output := by
    rw [← (declaration.silent_declare hquiet).redirect]
    cases declaration with
    | type t => rfl
    | procedure p =>
        rw [declare] at h ⊢
        rw [declare, p.silent_declare.redirect]
        generalize p.declare d = o at h
        obtain ⟨⟨p', d'⟩, result⟩ := o
        cases result with
        | error halt => rfl
        | ok scope => simp [hquiet] at h
  rw [hsame]
  exact .done

/-- A declaration that is entered is listed if it is a procedure. -/
theorem Declaration.writes_of_yields (hquiet : quiet.listsTables = false)
    (hlists : options.listsTables = true) (hd : d.table.Holds c.scopes) (hsorted : d.table.Sorted)
    {declaration declaration' : Declaration}
    (h : (declaration.declare quiet d).Yields (declaration', d') ()) :
    ∃ bs c', Lists c declaration' bs c' ∧ d'.table.Holds c'.scopes ∧ d'.table.Sorted ∧
      ∀ output, (declaration.declare quiet d).Writes (output.writeBlocks bs)
        (declaration.declare options { d with output }) := by
  have hsorted' : d'.table.Sorted := by
    have hafter := (declaration.silent_declare hquiet).sorted d hsorted
    rwa [h.after_eq] at hafter
  obtain ⟨c', henters, hholds, -⟩ := Declaration.of_yields_declare hd h
  cases declaration with
  | type t =>
      have htype : ∃ t', declaration' = .type t' := by
        rw [declare] at h
        obtain ⟨x, -, -, hnode, -⟩ := yields_map_iff.mp h
        cases hnode
        exact ⟨_, rfl⟩
      obtain ⟨t', rfl⟩ := htype
      refine ⟨[], c', .type henters, hholds, hsorted', fun output => ?_⟩
      have hsame : (type t).declare options { d with output } =
          ((type t).declare quiet d).redirect output :=
        ((type t).silent_declare hquiet).redirect d output
      rw [hsame]
      exact .done
  | procedure p =>
      rw [declare] at h
      obtain ⟨⟨p', d₁⟩, scope, hdeclare, hrest⟩ := yields_andThen_iff.mp h
      simp only [hquiet, Bool.false_eq_true, if_false] at hrest
      obtain ⟨hnode, -⟩ := yields_ok_iff.mp hrest
      cases hnode
      obtain ⟨-, -, hholds', rfl, -⟩ := Procedure.of_yields_declare hd hdeclare
      cases henters with
      | procedure hdeclared hfree =>
          have hlast : (c.addProcedure p'.name p'.formals p'.bindings).locals[c.locals.length]? =
              some p'.bindings := by simp
          obtain ⟨own, outer, hlisting, hown, houter⟩ := hholds'.listing_eq hsorted' hlast
          refine ⟨_, _, .procedure (.procedure hdeclared hfree) ⟨own, outer, hown, houter, rfl⟩,
            hholds, hsorted', fun output => ?_⟩
          rw [declare, declare, hdeclare, p.silent_declare.redirect, hdeclare]
          simp only [redirect, andThen_ok, hquiet, hlists, Bool.false_eq_true, if_false, if_true]
          exact Draft.writes_list hlisting p' (procedure p') output

/-- The run over declarations. Those at the start are entered, up to the first
that does not fit; and the run with listings is the silent one, with the blocks
of these written on the way. -/
theorem declareAll_writes (hquiet : quiet.listsTables = false) (hlists : options.listsTables = true)
    {done : List Declaration} (hdone : Entered library.contents done c)
    (hd : d.table.Holds c.scopes) (hsorted : d.table.Sorted) {ds : List Declaration}
    (hfresh : ∀ x ∈ ds, x.Fresh) :
    ∃ entered pending bs c', Listed c entered bs c' ∧
      (threadAll (Declaration.declare quiet) ds d).after.1 = entered ++ pending ∧
      (∀ x after, ds = entered.map Declaration.eraseTypes ++ x :: after →
        ¬x.FitsAfter library ((done ++ entered).map Declaration.eraseTypes)) ∧
      ∀ output, (threadAll (Declaration.declare quiet) ds d).Writes (output.writeBlocks bs)
        (threadAll (Declaration.declare options) ds { d with output }) := by
  -- Each step puts one more declaration behind those that were entered.
  induction ds generalizing done c d with
  | nil => exact ⟨[], [], [], c, .nil, rfl, by simp, fun _ => .done⟩
  | cons x ds ih =>
      rw [List.forall_mem_cons] at hfresh
      cases hresult : (x.declare quiet d).result with
      | error halt =>
          refine ⟨[], (threadAll (Declaration.declare quiet) (x :: ds) d).after.1, [], c, .nil, rfl,
            ?_, fun output => ?_⟩
          · rintro y after hsplit hfits
            obtain ⟨rfl, -⟩ := List.cons.inj hsplit
            rw [List.append_nil] at hfits
            cases Declaration.declare_yields_or_dumpFails quiet hdone hd hfresh.1 hfits with
            | inl hyields =>
                obtain ⟨x', d', hyields⟩ := hyields
                rw [hyields.result_eq] at hresult
                cases hresult
            | inr hfails => exact absurd hfails.1 (by simp [hquiet])
          · rw [threadAll, threadAll]
            refine (x.writes_of_error hquiet hresult output).andThen
              (fun _ => ⟨_, fun _ => rfl⟩) (fun _ _ _ hyields => ?_) fun _ _ => rfl
            rw [hyields.result_eq] at hresult
            cases hresult
      | ok _ =>
          have hfirst := yields_of_result hresult
          generalize (x.declare quiet d).after = first at hfirst
          obtain ⟨x', d'⟩ := first
          obtain ⟨bs, c₁, hlists₁, hd₁, hsorted₁, hwrites⟩ :=
            Declaration.writes_of_yields hquiet hlists hd hsorted hfirst
          have herase : x'.eraseTypes = x :=
            ((Declaration.leaves_declare quiet x d).of_yields hfirst).trans
              (Declaration.eraseTypes_of_fresh hfresh.1)
          obtain ⟨entered, pending, bs', c', hlisted, hafter, hstops, hrest⟩ :=
            ih (hdone.snoc hlists₁.enters) hd₁ hsorted₁ hfresh.2
          refine ⟨x' :: entered, pending, bs ++ bs', c', .cons hlists₁ hlisted, ?_, ?_,
            fun output => ?_⟩
          · rw [threadAll, hfirst.andThen_eq]
            exact congrArg (x' :: ·) hafter
          · intro y after hsplit
            rw [List.map_cons, herase] at hsplit
            simpa using hstops y after (List.cons.inj hsplit).2
          · rw [threadAll, threadAll]
            refine (hwrites output).andThen (fun _ => ⟨_, fun _ => rfl⟩) ?_ ?_
            · intro y d₂ _ hyields output
              obtain ⟨rfl, rfl⟩ := Prod.mk.inj (hfirst.after_eq.symm.trans hyields.after_eq)
              exact (hrest output).map fun _ => ⟨_, fun _ => rfl⟩
            · intro halt herror
              rw [hresult] at herror
              cases herror

end Builder

/-! ### Programs -/

/-- The declarations at the start fit one after the other, and the next one does
not fit any more. -/
structure FitsUpTo (library : Library) (ds start : List Declaration) : Prop where
  is_start : start <+: ds
  fits : ∀ earlier x later, start = earlier ++ x :: later → x.FitsAfter library earlier
  stops : ∀ x after, ds = start ++ x :: after → ¬x.FitsAfter library start

theorem Options.listsTables_eq_false {phase : Phase} (h : phase ≠ .tables) (library : Library) :
    Options.listsTables ⟨phase, library⟩ = false := by
  simpa [listsTables] using h

/-- Only the question whether there are listings makes a difference to the builder. -/
theorem Declaration.declare_congr {options options' : Options}
    (h : options.listsTables = options'.listsTables) :
    Declaration.declare options = Declaration.declare options' := by
  funext declaration d
  cases declaration with
  | type t => rfl
  | procedure p => rw [declare, declare, h]

theorem Program.buildTable_redirect {quiet : Options} (hquiet : quiet.listsTables = false)
    (p : Program) (fresh : Nat) (output output' : Sink) :
    p.buildTable quiet fresh output' = (p.buildTable quiet fresh output).redirect output' := by
  obtain ⟨t, ht, -⟩ := SymbolTable.exists_initial quiet.library
  rw [buildTable, buildTable, ht]
  have hdeclarations := Silent.threadAll (Declaration.silent_declare hquiet) p.declarations
  refine (hdeclarations.andThen (fun _ => ⟨_, fun _ => rfl⟩) fun _ _ => ?_).redirect
    ⟨t, fresh, output⟩ output'
  exact ⟨fun _ _ => rfl, fun _ hd => hd⟩

/-- The builder over a program: which declarations are entered, and that the run
with listings is the silent one, with the blocks of these written on the way. -/
theorem Program.exists_blocks {p : Program} (hfresh : p.Fresh) (library : Library) (fresh : Nat) :
    ∃ entered pending bs c, Listed library.contents entered bs c ∧
      FitsUpTo library p.declarations (entered.map Declaration.eraseTypes) ∧
      ∃ silent : Outcome (Program × Draft) SymbolTable,
        silent.after.1 = ⟨entered ++ pending, p.span⟩ ∧
        (∀ phase output, phase ≠ .tables →
          p.buildTable ⟨phase, library⟩ fresh output = silent.redirect output) ∧
        ∀ output, silent.Writes (output.writeBlocks bs)
          (p.buildTable ⟨.tables, library⟩ fresh output) := by
  obtain ⟨t, ht, hholds⟩ := SymbolTable.exists_initial library
  have hsorted := SymbolTable.sorted_initial ht
  have hquiet : Options.listsTables ⟨.all, library⟩ = false := rfl
  obtain ⟨entered, pending, bs, c, hlisted, hafter, hstops, hwrites⟩ :=
    declareAll_writes (d := ⟨t, fresh, .unlimited⟩) hquiet
      (show Options.listsTables ⟨.tables, library⟩ = true from rfl) .nil hholds hsorted hfresh
  have hstart : (entered ++ pending).map Declaration.eraseTypes = p.declarations := by
    have hleaves : (threadAll (Declaration.declare ⟨.all, library⟩) p.declarations
        ⟨t, fresh, .unlimited⟩).after.1.map Declaration.eraseTypes =
          p.declarations.map Declaration.eraseTypes :=
      leaves_threadAll (Declaration.leaves_declare ⟨.all, library⟩) _ _
    rw [hafter] at hleaves
    rw [hleaves]
    exact congrArg Program.declarations (Program.eraseTypes_of_fresh hfresh)
  refine ⟨entered, pending, bs, c, hlisted, ⟨?_, ?_, ?_⟩,
    p.buildTable ⟨.all, library⟩ fresh .unlimited, ?_, ?_, ?_⟩
  · rw [← hstart, List.map_append]
    exact List.prefix_append _ _
  · rw [forall_split_map_iff]
    exact fun before x after hsplit =>
      Declaration.fitsAfter_eraseTypes.mpr (hlisted.entered.fits before x after hsplit)
  · exact hstops
  · rw [buildTable, ht]
    dsimp only
    generalize threadAll (Declaration.declare ⟨.all, library⟩) p.declarations _ = o at hafter
    obtain ⟨⟨ds, d⟩, result⟩ := o
    obtain rfl := hafter
    cases result <;> rfl
  · intro phase output hphase
    have hsame := Options.listsTables_eq_false hphase library
    rw [← buildTable_redirect hquiet, buildTable, buildTable,
      Declaration.declare_congr (hsame.trans hquiet.symm)]
  · intro output
    rw [buildTable, buildTable, ht, ← List.append_nil bs]
    exact (hwrites output).andThen (fun _ => ⟨_, fun _ => rfl⟩) (fun _ _ _ _ _ => .done)
      fun _ _ => rfl

/-- For an output that takes everything, building a table comes to the same in
every phase. -/
theorem Program.buildTable_alike {p : Program} (hfresh : p.Fresh) (library : Library) (fresh : Nat)
    {output : Sink} (houtput : output.Endless) (phase : Phase) :
    (p.buildTable ⟨phase, library⟩ fresh output).result =
        (p.buildTable ⟨.all, library⟩ fresh output).result ∧
      (p.buildTable ⟨phase, library⟩ fresh output).after.1 =
        (p.buildTable ⟨.all, library⟩ fresh output).after.1 := by
  obtain ⟨_, _, bs, _, -, -, silent, -, hsilent, hwrites⟩ := exists_blocks hfresh library fresh
  have hredirect : ∃ output', p.buildTable ⟨phase, library⟩ fresh output =
      silent.redirect output' := by
    by_cases hphase : phase = .tables
    · subst hphase
      have hrun := hwrites output
      rw [houtput.writeBlocks_eq] at hrun
      exact ⟨_, hrun.eq_of_ok⟩
    · exact ⟨output, hsilent phase output hphase⟩
  obtain ⟨output', hrun⟩ := hredirect
  rw [hrun, hsilent .all output Phase.noConfusion]
  exact ⟨rfl, rfl⟩

end Spl
