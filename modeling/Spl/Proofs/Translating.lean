import Spl.Proofs.Phases
import Spl.Proofs.Program.Naturality

/-!
The passes behind the parser on a program in translation. With tables in
translation at the start, they end with the annotated program and the table in
translation, or with the same complaint in translation.
-/

namespace Spl

open Outcome Outcome.Follows

/-- What an analysis does with a program that was read. -/
def Program.analysis (p : Program) (options : Options) :
    Outcome Text.Sink (Program × SymbolTable) :=
  (p.buildTable options 0 .unlimited).andThen (fun (_, d) => d.output)
    fun (program, d) table =>
      let checked := program.check table
      ⟨d.output, checked.result.map fun _ => (checked.after, table)⟩

theorem analyze_of_parseSource {source file : String} {p : Program}
    (h : parseSource source file = .ok p) (options : Options) :
    analyze source file options = p.analysis options := by
  rw [analyze, h]
  rfl

theorem analyze_of_parseSource_error {source file : String} {halt : Halt}
    (h : parseSource source file = .error halt) (options : Options) :
    (analyze source file options).result = .error halt := by
  rw [analyze, h]

/-- A program and its table, and the two in translation. -/
def AnalysisTranslated (m : Translation) (extra : List Binding)
    (x x' : Program × SymbolTable) : Prop :=
  x'.1 = x.1.translate m ∧ x.2.Translated m extra x'.2

variable {m : Translation} {strict : Prop} {extra : List Binding}

/-- If the comparison is strict, no name may get one of the names that the second
table binds besides; else only no global declaration may. -/
theorem Program.follows_analysis (hm : m.Faithful) (hkeeps : m.KeepsTypes)
    (hmain : m.name "main" = "main") (hnull : m.place .null = .null)
    (hextra : strict → ∀ name, m.name name ∉ extra.map Prod.fst) {options options' : Options}
    (hphase : options'.phase = options.phase)
    (hinitial : ∀ t t', SymbolTable.initial options.library = .ok t →
      SymbolTable.initial options'.library = .ok t' → t.Translated m extra t')
    {p : Program} (hp : ∀ d ∈ p.declarations, m.name d.name ∉ extra.map Prod.fst) :
    ResultFollows (Halt.translate m) strict (AnalysisTranslated m extra)
      (p.analysis options).result ((p.translate m).analysis options').result := by
  have hbuild := Program.follows_buildTable
    (Draft.Translated.simulation hm hkeeps hmain hnull hextra) hphase hp 0 0 .unlimited .unlimited
    fun t t' ht ht' =>
      ⟨hinitial t t' ht ht', rfl, Text.Sink.endless_unlimited, Text.Sink.endless_unlimited⟩
  rw [analysis, analysis]
  generalize p.buildTable options 0 .unlimited = built,
    (p.translate m).buildTable options' 0 .unlimited = built' at hbuild ⊢
  cases hbuild with
  | error hbuilt =>
      refine .error fun hstrict => ?_
      obtain ⟨_, -, rfl⟩ := hbuilt hstrict
      rfl
  | @ok x x' _ _ hx htables =>
      obtain ⟨program, d⟩ := x
      obtain ⟨_, d'⟩ := x'
      obtain ⟨rfl, -⟩ := hx
      obtain ⟨d₁, d₁', hdrafts, rfl, rfl⟩ := htables
      have hcheck := program.follows_check (hdrafts.table.follows hm hextra) hm.identity
      dsimp only [andThen_ok]
      generalize program.check d₁.table = checked,
        (program.translate m).check d₁'.table = checked' at hcheck ⊢
      cases hcheck with
      | error hchecked =>
          refine .error fun hstrict => ?_
          obtain ⟨_, -, rfl⟩ := hchecked hstrict
          rfl
      | ok hafter => exact .ok ⟨hafter, hdrafts.table⟩

/-! ### The tables at the start -/

/-- What a library binds besides the procedures that another one has, too. -/
def Library.more (library : Library) (more : List LibraryProcedure) : List Binding :=
  more.mapIdx fun i p => (p.name, .procedure ⟨⟨library.procedures.length + i + 1⟩, p.formals⟩)

/-- Behind the scopes of a library are those of more procedures. -/
def Library.shift (library : Library) (more : List LibraryProcedure) (id : ScopeId) : ScopeId :=
  if id.index ≤ library.procedures.length then id else ⟨id.index + more.length⟩

section Initial

variable {library library' : Library} {more : List LibraryProcedure}

/-- If it keeps the scopes and the names of a library, a translation leaves the
library as it is. -/
theorem Library.binding_eq_self
    (hscope : ∀ id, id.index ≤ library.procedures.length → m.scope id = id)
    (hnames : ∀ n ∈ "int" :: library.names, m.name n = n) :
    ∀ b ∈ library.contents.globals, m.binding b = b := by
  intro b hb
  rw [contents, globals_foldl, List.mem_append, List.mem_singleton, List.mem_mapIdx] at hb
  obtain rfl | ⟨i, hi, rfl⟩ := hb
  · exact Prod.ext (hnames _ List.mem_cons_self) rfl
  · have hname : m.name library.procedures[i].name = library.procedures[i].name :=
      hnames _ (List.mem_cons_of_mem _ (List.mem_map_of_mem (List.getElem_mem hi)))
    have hkept : m.scope ⟨0 + i + 1⟩ = ⟨0 + i + 1⟩ :=
      hscope _ (by simpa using Nat.succ_le_of_lt hi)
    have hformals : library.procedures[i].formals.map (Formal.translate m) =
        library.procedures[i].formals := by
      rw [LibraryProcedure.formals, List.map_map]
      rfl
    refine Prod.ext hname (congrArg Entry.procedure ?_)
    exact Signature.mk.injEq .. |>.mpr ⟨hkept, hformals⟩

theorem SymbolTable.translated_initial (hmore : library'.procedures = library.procedures ++ more)
    (hscope : m.scope = library.shift more)
    (hnames : ∀ n ∈ "int" :: library.names, m.name n = n) {t t' : SymbolTable}
    (ht : initial library = .ok t) (ht' : initial library' = .ok t') :
    t.Translated m (library.more more) t' := by
  obtain ⟨_, hu, hholds⟩ := exists_initial library
  obtain ⟨_, hu', hholds'⟩ := exists_initial library'
  obtain rfl := Except.ok.inj (ht.symm.trans hu)
  obtain rfl := Except.ok.inj (ht'.symm.trans hu')
  have hcontents : library'.contents = more.foldl Contents.addLibrary library.contents := by
    rw [Library.contents, hmore, List.foldl_append, Library.contents]
  have hkept : ∀ id : ScopeId, id.index ≤ library.procedures.length → m.scope id = id :=
    fun id hid => by rw [hscope, Library.shift, if_pos hid]
  refine hholds.translated hholds' (hkept _ (Nat.zero_le _)) ?_ (fun i bindings hi => ?_)
    fun k => ?_
  · rw [hcontents, Library.globals_foldl, library.length_locals_contents,
      List.map_congr_left (library.binding_eq_self hkept hnames), List.map_id']
    rfl
  · -- The procedures of a library have scopes that bind nothing.
    have hlt := (List.getElem?_eq_some_iff.mp hi).1
    rw [library.locals_contents, List.getElem?_map] at hi
    obtain ⟨_, -, rfl⟩ := Option.map_eq_some_iff.mp hi
    rw [library.length_locals_contents] at hlt
    refine ⟨i, hkept _ (Nat.succ_le_of_lt hlt), ?_⟩
    rw [library'.locals_contents, hmore, List.getElem?_map, List.getElem?_append_left hlt,
      List.getElem?_eq_getElem hlt]
    rfl
  · rw [library.length_locals_contents, library'.length_locals_contents, hmore, hscope,
      Library.shift, if_neg (by simp; omega), List.length_append]
    exact congrArg ScopeId.mk (by simp; omega)

end Initial

end Spl
