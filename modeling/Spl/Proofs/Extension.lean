import Mathlib.Data.Finset.Lattice.Fold
import Spl.Proofs.Renaming

/-!
The library with the procedures for drawing extends the one without them, and a
source that has no use for them cannot tell the two apart. What is bound besides
is never found under another name; so it is enough that no declaration of a
program takes one of its names, and a source that does not have these names at
all fails with both libraries alike, too.
-/

namespace Spl

/-! ### Names that avoid others -/

/-- All names but given ones can be moved away from others, and stay different. -/
theorem exists_avoiding (fixed avoid : List String) (h : ∀ n ∈ fixed, n ∉ avoid) :
    ∃ name : String → String, Function.Injective name ∧ (∀ n ∈ fixed, name n = n) ∧
      ∀ n, name n ∉ avoid := by
  let bound := (fixed ++ avoid).toFinset.sup String.length
  have hbound : ∀ n ∈ fixed ++ avoid, n.length ≤ bound := fun n hn =>
    Finset.le_sup (f := String.length) (List.mem_toFinset.mpr hn)
  -- What is moved gets longer than all the names in the lists.
  let pad := String.ofList (List.replicate (bound + 1) ' ')
  have hlong : ∀ n, bound < (n ++ pad).length := fun n => by
    rw [String.length_append, String.length_ofList, List.length_replicate]
    omega
  have hother : ∀ n k, k ∈ fixed ++ avoid → n ++ pad ≠ k := fun n k hk heq =>
    absurd (hbound k hk) (Nat.not_le.mpr (heq ▸ hlong n))
  refine ⟨fun n => if n ∈ fixed then n else n ++ pad, fun n k hnk => ?_, fun n hn => if_pos hn,
    fun n => ?_⟩
  · dsimp only at hnk
    split at hnk
    · next hn =>
        split at hnk
        · exact hnk
        · exact absurd hnk.symm (hother k n (List.mem_append_left _ hn))
    · split at hnk
      · next hk => exact absurd hnk (hother n k (List.mem_append_left _ hk))
      · exact String.ext (by simpa using congrArg String.toList hnk)
  · dsimp only
    split
    · next hn => exact h n hn
    · exact fun hmem => hother n _ (List.mem_append_right _ hmem) rfl

/-! ### The procedures for drawing -/

namespace Library

/-- The names that only the larger library has. -/
def drawingNames : List String :=
  drawingProcedures.map LibraryProcedure.name

/-- What only the larger library binds. -/
def drawings : List Binding :=
  standard.more drawingProcedures

/-- Makes room for the scopes of the procedures for drawing. -/
def besideDrawings (name : String → String) : Translation :=
  ⟨.ofNames name, id, standard.shift drawingProcedures⟩

theorem names_drawings : drawings.map Prod.fst = drawingNames := by
  decide +kernel

theorem injective_shift (library : Library) (more : List LibraryProcedure) :
    Function.Injective (library.shift more) := by
  rintro ⟨i⟩ ⟨j⟩ h
  rw [shift, shift] at h
  split at h <;> split at h <;> simp only [ScopeId.mk.injEq] at * <;> omega

theorem faithful_besideDrawings {name : String → String} (h : Function.Injective name) :
    (besideDrawings name).Faithful :=
  ⟨h, Function.injective_id, injective_shift .., rfl⟩

theorem keepsTypes_besideDrawings (name : String → String) : (besideDrawings name).KeepsTypes :=
  fun _ => rfl

end Library

open Library

/-- With the larger library the passes follow those with the smaller one. -/
theorem Program.follows_drawing (strict : Prop) {name : String → String}
    (hname : Function.Injective name) (hmain : name "main" = "main")
    (hlibrary : ∀ n ∈ "int" :: standard.names, name n = n)
    (hstrict : strict → ∀ n, name n ∉ drawingNames) (phase : Phase) {p : Program}
    (hp : ∀ d ∈ p.declarations, name d.name ∉ drawingNames) :
    ResultFollows (Halt.translate (besideDrawings name)) strict
      (AnalysisTranslated (besideDrawings name) drawings) (p.analysis ⟨phase, .standard⟩).result
      ((p.relabel (.ofNames name)).analysis ⟨phase, .graphics⟩).result := by
  rw [← names_drawings] at hstrict hp
  have hprogram := p.translate_eq_relabel (keepsTypes_besideDrawings name)
  rw [show p.relabel (.ofNames name) = _ from hprogram.symm]
  refine Program.follows_analysis (faithful_besideDrawings hname) (keepsTypes_besideDrawings name)
    hmain ?_ hstrict ?_ (fun t t' ht ht' => ?_) hp
  · rfl
  · rfl
  · have hmore : graphics.procedures = standard.procedures ++ drawingProcedures := rfl
    exact SymbolTable.translated_initial hmore rfl hlibrary ht ht'

/-- A program that is accepted with the smaller library is accepted with the
larger one, if it declares none of the procedures for drawing itself. -/
theorem Program.analysis_drawing {phase : Phase} {p after : Program} {table : SymbolTable}
    (hp : ∀ d ∈ p.declarations, d.name ∉ drawingNames)
    (h : (p.analysis ⟨phase, .standard⟩).result = .ok (after, table)) :
    ∃ table', (p.analysis ⟨phase, .graphics⟩).result = .ok (after, table') ∧
      table.Translated (besideDrawings id) drawings table' := by
  have hfollows := Program.follows_drawing False Function.injective_id rfl
    (fun _ _ => rfl) False.elim phase hp
  rw [show p.relabel (.ofNames id) = p from p.relabel_identical, h] at hfollows
  generalize (p.analysis ⟨phase, .graphics⟩).result = result at hfollows ⊢
  cases hfollows with
  | @ok _ x' hx =>
      obtain ⟨after', table'⟩ := x'
      obtain ⟨rfl, htable⟩ := hx
      refine ⟨table', ?_, htable⟩
      rw [show after.translate (besideDrawings id) = after from
        (after.translate_eq_relabel (keepsTypes_besideDrawings id)).trans after.relabel_identical]

/-- If renaming away from the procedures for drawing changes nothing in a
program, it fails with both libraries alike. -/
theorem Program.analysis_drawing_error {name : String → String} (hname : Function.Injective name)
    (hmain : name "main" = "main") (hlibrary : ∀ n ∈ "int" :: standard.names, name n = n)
    (havoid : ∀ n, name n ∉ drawingNames) {phase : Phase} {p : Program} {halt : Halt}
    (hp : p.relabel (.ofNames name) = p)
    (h : (p.analysis ⟨phase, .standard⟩).result = .error halt) :
    (p.analysis ⟨phase, .graphics⟩).result = .error halt := by
  obtain ⟨hint, hnames⟩ := List.forall_mem_cons.mp hlibrary
  have hrename := p.analysis_rename ⟨phase, .standard⟩ hname hint hmain hnames
  have hfollows := Program.follows_drawing True hname hmain hlibrary
    (fun _ => havoid) phase (p := p) fun d _ => havoid d.name
  rw [hp, h] at hrename hfollows
  cases hrename with
  | error hsame =>
      cases hfollows with
      | error herror =>
          rw [herror trivial, halt.translate_eq_relabel (keepsTypes_besideDrawings name)]
          exact (hsame trivial).symm

/-- A program read from tokens without the names of the procedures for drawing
stays what it is when these names are avoided. -/
theorem exists_rename_eq_self {tokens : List Token} {file : String} {p : Program}
    (h : ∀ t ∈ tokens, t.kind = .identifier → t.value ∉ drawingNames)
    (hparse : parseTokens tokens file = .ok p) :
    ∃ name : String → String, Function.Injective name ∧ name "main" = "main" ∧
      (∀ n ∈ "int" :: standard.names, name n = n) ∧ (∀ n, name n ∉ drawingNames) ∧
      p.relabel (.ofNames name) = p := by
  have hreserved : ∀ n ∈ "main" :: "int" :: standard.names, n ∉ drawingNames := by decide +kernel
  obtain ⟨name, hname, hfixed, havoid⟩ := exists_avoiding
    (("main" :: "int" :: standard.names) ++
      (tokens.filter (·.kind = .identifier)).map Token.value) drawingNames fun n hn => by
    obtain hn | hn := List.mem_append.mp hn
    · exact hreserved n hn
    · obtain ⟨t, ht, rfl⟩ := List.mem_map.mp hn
      obtain ⟨ht, hkind⟩ := List.mem_filter.mp ht
      exact h t ht (of_decide_eq_true hkind)
  have hself : tokens.map (Relabelling.ofNames name).token = tokens := by
    refine (List.map_congr_left fun t ht => ?_).trans (List.map_id _)
    refine Relabelling.token_ofNames_eq_self fun hkind => hfixed _ (List.mem_append_right _ ?_)
    exact List.mem_map_of_mem (List.mem_filter.mpr ⟨ht, decide_eq_true hkind⟩)
  have hparse' := parseTokens_rename name hparse
  rw [hself, hparse] at hparse'
  obtain ⟨hmain, hlibrary⟩ := List.forall_mem_cons.mp fun n hn =>
    hfixed n (List.mem_append_left _ hn)
  exact ⟨name, hname, hmain, hlibrary, havoid, (Except.ok.inj hparse').symm⟩

/-- The larger library is a conservative extension of the smaller one. A source
in which no identifier is the name of a procedure for drawing fails with both
libraries and the same complaint, or with neither of them. And a source that is
accepted with the smaller one is accepted with the larger one with the same
annotations if it declares no such procedure itself, whatever its parameters and
local variables are called. The tables bind the same in all scopes that both of
them have; those of the source come four scopes later in the larger one. -/
theorem analyze_with_drawing (source file : String) (phase : Phase) :
    let standard := (analyze source file ⟨phase, .standard⟩).result
    let graphics := (analyze source file ⟨phase, .graphics⟩).result
    let Extends (accepted : Program × SymbolTable) : Prop :=
      ∃ table', graphics = .ok (accepted.1, table') ∧
        accepted.2.Translated (besideDrawings id) drawings table'
    ((∀ tokens, tokenize source (some file) = .ok tokens →
        ∀ t ∈ tokens, t.kind = .identifier → t.value ∉ drawingNames) →
      (∀ halt, standard = .error halt → graphics = .error halt) ∧
      ∀ accepted, standard = .ok accepted → Extends accepted) ∧
    ∀ p, parseSource source file = .ok p → (∀ d ∈ p.declarations, d.name ∉ drawingNames) →
      ∀ accepted, standard = .ok accepted → Extends accepted := by
  intro standard graphics Extends
  cases hparse : parseSource source file with
  | error halt =>
      -- The phases before the tables do not know of libraries.
      have hstandard : standard = .error halt := analyze_of_parseSource_error hparse _
      have hgraphics : graphics = .error halt := analyze_of_parseSource_error hparse _
      rw [hstandard, hgraphics]
      exact ⟨fun _ => ⟨fun _ h => h, nofun⟩, nofun⟩
  | ok p =>
      have hstandard : standard = (p.analysis ⟨phase, .standard⟩).result :=
        congrArg Outcome.result (analyze_of_parseSource hparse _)
      have hgraphics : graphics = (p.analysis ⟨phase, .graphics⟩).result :=
        congrArg Outcome.result (analyze_of_parseSource hparse _)
      have haccepted : (∀ d ∈ p.declarations, d.name ∉ drawingNames) →
          ∀ accepted, standard = .ok accepted → Extends accepted := by
        intro hp accepted h
        obtain ⟨table', htable⟩ := p.analysis_drawing hp (hstandard.symm.trans h)
        exact ⟨table', hgraphics.trans htable.1, htable.2⟩
      refine ⟨fun hidentifiers => ?_, fun q hq => ?_⟩
      · obtain ⟨tokens, rest, htokens, hrest⟩ := parseSource_eq_ok_iff.mp hparse
        obtain ⟨name, hname, hmain, hlibrary, havoid, hp⟩ :=
          exists_rename_eq_self (hidentifiers tokens htokens) (parseTokens_eq_ok_iff.mpr ⟨_, hrest⟩)
        refine ⟨fun halt h => ?_, haccepted fun d hd => ?_⟩
        · rw [hgraphics]
          exact Program.analysis_drawing_error hname hmain hlibrary havoid hp
            (hstandard.symm.trans h)
        · have hself : p.declarations.map (Declaration.relabel (.ofNames name)) = p.declarations :=
            congrArg Program.declarations hp
          rw [← hself] at hd
          obtain ⟨d, -, rfl⟩ := List.mem_map.mp hd
          rw [d.name_relabel]
          exact havoid d.name
      · obtain rfl := Except.ok.inj hq
        exact haccepted

/-- A local variable may be called what only the larger library calls a procedure. -/
theorem variable_named_setPixel_accepted :
    let source := "proc main() \x7b var setPixel: int; setPixel := 7; printi(setPixel); \x7d"
    ∃ after table table',
      (analyze source "a.spl" ⟨.all, .standard⟩).result = .ok (after, table) ∧
      (analyze source "a.spl" ⟨.all, .graphics⟩).result = .ok (after, table') ∧
      table.Translated (besideDrawings id) drawings table' := by
  intro source
  have haccepted : (analyze source "a.spl" ⟨.all, .standard⟩).result.toOption.isSome = true := by
    decide +kernel
  have hread : (parseSource source "a.spl").toOption.map
      (fun p => p.declarations.map Declaration.name) = some ["main"] := by
    decide +kernel
  obtain ⟨after, table, h⟩ := exists_analyze_eq_ok haccepted
  obtain ⟨tokens, rest, p, htokens, hp, hnames⟩ := exists_parse_of_map hread
  have hfree : ∀ d ∈ p.declarations, d.name ∉ drawingNames := by
    intro d hd
    have hd' : d.name ∈ p.declarations.map Declaration.name := List.mem_map_of_mem hd
    rw [hnames, List.mem_singleton] at hd'
    rw [hd']
    decide
  obtain ⟨table', h', htable⟩ := (analyze_with_drawing source "a.spl" .all).2 p
    (parseSource_eq_ok_iff.mpr ⟨tokens, rest, htokens, hp⟩) hfree _ h
  exact ⟨after, table, table', h, h', htable⟩

end Spl
