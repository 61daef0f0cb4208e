import Spl.Proofs.Program.Renumbering
import Spl.Proofs.Translating

/-!
Procedures in other places. No type expression can refer to a procedure, so a
procedure may be entered after declarations that came behind it: they are
entered without it, and it is entered with more types declared, which it does
not refer to. The scopes of the procedures that it is moved past come before its
own then.
-/

namespace Spl

/-! ### Lists with an element moved -/

section Lists

variable {α β : Type} {i n : Nat} {xs : List α} {x : α}

/-- The list with the element at `i` behind the `n` elements that follow it. -/
def moveLater (i n : Nat) (xs : List α) : List α :=
  xs.take i ++ ((xs.drop (i + 1)).take n ++ ((xs.drop i).take 1 ++ xs.drop (i + 1 + n)))

theorem map_moveLater (f : α → β) (i n : Nat) (xs : List α) :
    (moveLater i n xs).map f = moveLater i n (xs.map f) := by
  simp [moveLater, List.map_take, List.map_drop]

theorem moveLater_append (before mid after : List α) (x : α) :
    moveLater before.length mid.length (before ++ x :: (mid ++ after)) =
      before ++ (mid ++ x :: after) := by
  simp [moveLater, Nat.add_assoc, Nat.add_comm 1]

/-- Where an element stands, the list is one before it, itself and two behind it. -/
theorem exists_moveLater (h : xs[i]? = some x) (n : Nat) :
    ∃ before mid after, xs = before ++ x :: (mid ++ after) ∧
      moveLater i n xs = before ++ (mid ++ x :: after) := by
  obtain ⟨hi, rfl⟩ := List.getElem?_eq_some_iff.mp h
  have hdrop : xs.drop i = xs[i] :: xs.drop (i + 1) := List.drop_eq_getElem_cons hi
  have hrest := List.take_append_drop n (xs.drop (i + 1))
  rw [List.drop_drop] at hrest
  refine ⟨xs.take i, (xs.drop (i + 1)).take n, xs.drop (i + 1 + n), ?_, ?_⟩
  · rw [hrest, ← hdrop, List.take_append_drop]
  · rw [moveLater, hdrop]
    rfl

theorem perm_moveLater (h : xs[i]? = some x) (n : Nat) : (moveLater i n xs).Perm xs := by
  obtain ⟨before, mid, after, hsplit, hmoved⟩ := exists_moveLater h n
  rw [hmoved, hsplit]
  exact .append_left _ List.perm_middle

/-- Two neighbours that are swapped twice stand where they stood. -/
theorem moveLater_moveLater {y : α} (hx : xs[i]? = some x) (hy : xs[i + 1]? = some y) :
    moveLater i 1 (moveLater i 1 xs) = xs ∧ (moveLater i 1 xs)[i]? = some y ∧
      (moveLater i 1 xs)[i + 1]? = some x := by
  obtain ⟨hi, rfl⟩ := List.getElem?_eq_some_iff.mp hx
  obtain ⟨hi', rfl⟩ := List.getElem?_eq_some_iff.mp hy
  have hsplit : xs = xs.take i ++ xs[i] :: ([xs[i + 1]] ++ xs.drop (i + 2)) := by
    rw [List.singleton_append, ← List.drop_eq_getElem_cons hi', ← List.drop_eq_getElem_cons hi,
      List.take_append_drop]
  generalize xs[i] = x, xs[i + 1] = y, xs.drop (i + 2) = after at hsplit
  obtain ⟨before, hbefore⟩ : ∃ before, xs.take i = before := ⟨_, rfl⟩
  obtain rfl : before.length = i := by rw [← hbefore, List.length_take_of_le (Nat.le_of_lt hi)]
  rw [hbefore] at hsplit
  subst hsplit
  have hmove := moveLater_append before [y] after x
  have hmove' := moveLater_append before [x] after y
  rw [List.singleton_append, List.singleton_append, List.length_singleton] at hmove hmove'
  rw [List.singleton_append, hmove, hmove']
  simp

/-- Where the element at `k` stands once the one at `f` is taken out and put in
again at `t`. -/
def moveIndex (f t k : Nat) : Nat :=
  if k = f then t
  else if f < k ∧ k ≤ t then k - 1
  else if t ≤ k ∧ k < f then k + 1
  else k

theorem moveIndex_moveIndex (f t k : Nat) : moveIndex t f (moveIndex f t k) = k := by
  grind [moveIndex]

theorem moveIndex_succ (f t k : Nat) : moveIndex (f + 1) (t + 1) (k + 1) = moveIndex f t k + 1 := by
  grind [moveIndex]

theorem getElem?_moveIndex (before mid after : List α) (x : α) (k : Nat) :
    (before ++ (mid ++ x :: after))[moveIndex before.length (before.length + mid.length) k]? =
      (before ++ x :: (mid ++ after))[k]? := by
  grind [moveIndex]

end Lists

/-- The scopes of a table once the procedure with the scope at `f` has the one at `t`. -/
def ScopeId.move (f t : Nat) : Equiv.Perm ScopeId where
  toFun id := ⟨moveIndex f t id.index⟩
  invFun id := ⟨moveIndex t f id.index⟩
  left_inv id := congrArg ScopeId.mk (moveIndex_moveIndex f t id.index)
  right_inv id := congrArg ScopeId.mk (moveIndex_moveIndex t f id.index)

theorem ScopeId.move_global {f t : Nat} (hf : 0 < f) (ht : 0 < t) : move f t .global = .global :=
  congrArg ScopeId.mk (by grind [moveIndex, ScopeId.global])

/-! ### Entering in another order -/

/-- What can be entered into the first contents can be entered into the second:
it knows the same types and maybe more, and no other names are taken in it. -/
structure Contents.Allows (c c' : Contents) : Prop where
  types : ∀ name ty, c.NamesType name ty → c'.NamesType name ty
  names : ∀ name ∈ c'.names, name ∈ c.names

theorem Enters.of_allows {c c' c₁ : Contents} {d : Declaration} (h : Enters c d c₁)
    (hc : c.Allows c') : ∃ c₁', Enters c' d c₁' ∧ c₁.Allows c₁' := by
  have hnames : ∀ {name : String}, name ∉ c.names → name ∉ c'.names := fun hfree hmem =>
    hfree (hc.names _ hmem)
  obtain ⟨c₁', h'⟩ : ∃ c₁', Enters c' d c₁' := by
    cases h with
    | type htype hfree => exact ⟨_, .type (htype.mono hc.types) (hnames hfree)⟩
    | procedure hdeclared hfree => exact ⟨_, .procedure (hdeclared.mono hc.types) (hnames hfree)⟩
  refine ⟨c₁', h', fun name ty hty => ?_, fun name hname => ?_⟩
  · obtain hold | hnew := h.namesType_iff.mp hty
    · exact h'.namesType_iff.mpr (.inl (hc.types name ty hold))
    · exact h'.namesType_iff.mpr (.inr hnew)
  · rw [h'.names_eq, List.mem_append] at hname
    rw [h.names_eq, List.mem_append]
    exact hname.imp_left (hc.names name)

theorem Entered.of_allows {c c' c₁ : Contents} {ds : List Declaration} (h : Entered c ds c₁)
    (hc : c.Allows c') : ∃ c₁', Entered c' ds c₁' ∧ c₁.Allows c₁' := by
  induction h generalizing c' with
  | nil => exact ⟨c', .nil, hc⟩
  | cons h _ ih =>
      obtain ⟨c₂', hfirst, hc₂⟩ := h.of_allows hc
      obtain ⟨c₁', hrest, hc₁⟩ := ih hc₂
      exact ⟨c₁', .cons hfirst hrest, hc₁⟩

theorem Entered.append {c c' c'' : Contents} {ds ds' : List Declaration} (h : Entered c ds c')
    (h' : Entered c' ds' c'') : Entered c (ds ++ ds') c'' := by
  induction h with
  | nil => exact h'
  | cons h _ ih => exact .cons h (ih h')

/-- A procedure can be entered behind declarations before which it was entered. -/
theorem Entered.exists_move {c c₁ : Contents} {before mid after : List Declaration} {q : Procedure}
    (hc : c.names.Nodup) (h : Entered c (before ++ .procedure q :: (mid ++ after)) c₁) :
    ∃ c₁', Entered c (before ++ (mid ++ .procedure q :: after)) c₁' := by
  obtain ⟨c₀, hbefore, hrest⟩ := h.split
  cases hrest with
  | cons hq hrest =>
      obtain ⟨c₂, hmid, hafter⟩ := hrest.split
      have hnodup := hmid.nodup (hbefore.snoc hq |>.nodup hc)
      have hqname : (Declaration.procedure q).name ∈ c₂.names := by
        rw [hmid.names_eq, hq.names_eq]
        simp
      cases hq with
      | procedure hdeclared hfree =>
          -- Without the procedure, the same types are known and one name less is taken.
          have hwithout : (c₀.addProcedure q.name q.formals q.bindings).Allows c₀ :=
            ⟨fun _ _ hty => (c₀.namesType_addProcedure ..).mp hty, fun _ hname => by simp [hname]⟩
          obtain ⟨c₂', hmid', hallows⟩ := hmid.of_allows hwithout
          have hfree' : q.name ∉ c₂'.names := by
            rw [hmid.names_eq, Contents.names_addProcedure] at hnodup
            rw [hmid'.names_eq, List.mem_append, not_or]
            exact ⟨hfree, fun hmem => (List.nodup_append.mp hnodup).2.2 _ (by simp) _ hmem rfl⟩
          have hq' := Enters.procedure
            (hdeclared.mono fun _ _ hty => hmid'.mem_globals hty) hfree'
          have hwith : c₂.Allows (c₂'.addProcedure q.name q.formals q.bindings) := by
            refine ⟨fun _ _ hty => (c₂'.namesType_addProcedure ..).mpr (hallows.types _ _ hty), ?_⟩
            intro name hname
            rw [hq'.names_eq, List.mem_append, List.mem_singleton] at hname
            obtain hname | rfl := hname
            · exact hallows.names name hname
            · exact hqname
          obtain ⟨c₁', hafter', -⟩ := hafter.of_allows hwith
          exact ⟨c₁', hbefore.append (hmid'.append (.cons hq' hafter'))⟩

/-! ### What was entered, in translation -/

section Translated

variable (m : Translation)

theorem Parameter.formal_translate (p : Parameter) :
    (p.translate m).formal = p.formal.translate m :=
  congrArg (Formal.mk · p.byReference) (p.type.found_translate m)

theorem Parameter.binding_translate (p : Parameter) :
    (p.translate m).binding = m.binding p.binding :=
  Prod.ext rfl (congrArg (Entry.var · p.byReference) (p.type.found_translate m))

theorem LocalVariable.binding_translate (v : LocalVariable) :
    (v.translate m).binding = m.binding v.binding :=
  Prod.ext rfl (congrArg (Entry.var · false) (v.type.found_translate m))

theorem Procedure.formals_translate (p : Procedure) :
    (p.translate m).formals = p.formals.map (Formal.translate m) := by
  simp [formals, translate, Function.comp_def, Parameter.formal_translate]

theorem Procedure.bindings_translate (p : Procedure) :
    (p.translate m).bindings = p.bindings.map m.binding := by
  simp [bindings, translate, Function.comp_def, Parameter.binding_translate,
    LocalVariable.binding_translate]

theorem Declaration.filterMap_procedure?_translate (ds : List Declaration) :
    (ds.map (translate m)).filterMap procedure? = (ds.filterMap procedure?).map (.translate m) := by
  have hprocedure :
      ∀ d : Declaration, (d.translate m).procedure? = d.procedure?.map (.translate m) :=
    fun d => by cases d <;> rfl
  simp [List.filterMap_map, List.map_filterMap, hprocedure]

end Translated

/-- What declarations bind globally, behind `n` scopes that are in use. -/
def bindingsFrom : Nat → List Declaration → List Binding
  | _, [] => []
  | n, .type t :: ds => (t.name, .type t.type.found) :: bindingsFrom n ds
  | n, .procedure p :: ds =>
    (p.name, .procedure ⟨⟨n + 1⟩, p.formals⟩) :: bindingsFrom (n + 1) ds

theorem Entered.globals_eq {c c' : Contents} {ds : List Declaration} (h : Entered c ds c') :
    c'.globals = c.globals ++ bindingsFrom c.locals.length ds := by
  induction h with
  | nil => exact (List.append_nil _).symm
  | cons h _ ih =>
      rw [ih]
      cases h with
      | type => simp [bindingsFrom, Contents.addType]
      | procedure => simp [bindingsFrom, Contents.addProcedure]

/-- The number of procedures, and so of scopes, among declarations. -/
def procedureCount (ds : List Declaration) : Nat :=
  (ds.filterMap Declaration.procedure?).length

theorem bindingsFrom_append (n : Nat) (ds ds' : List Declaration) :
    bindingsFrom n (ds ++ ds') = bindingsFrom n ds ++ bindingsFrom (n + procedureCount ds) ds' := by
  induction ds generalizing n with
  | nil => rfl
  | cons d ds ih =>
      cases d with
      | type t => exact congrArg (List.cons _) (ih n)
      | procedure p =>
          have hcount : n + 1 + procedureCount ds = n + procedureCount (.procedure p :: ds) :=
            (Nat.add_right_comm n 1 _)
          rw [List.cons_append, bindingsFrom, bindingsFrom, ih, hcount, List.cons_append]

theorem procedureCount_translate (m : Translation) (ds : List Declaration) :
    procedureCount (ds.map (.translate m)) = procedureCount ds := by
  rw [procedureCount, Declaration.filterMap_procedure?_translate, List.length_map, procedureCount]

/-- Declarations in translation bind in translation, if the scopes of their
procedures are the ones in translation. -/
theorem bindingsFrom_translate {m : Translation} {n n' : Nat} {ds : List Declaration}
    (hscope : ∀ i < procedureCount ds, m.scope ⟨n + i + 1⟩ = ⟨n' + i + 1⟩) :
    bindingsFrom n' (ds.map (Declaration.translate m)) = (bindingsFrom n ds).map m.binding := by
  induction ds generalizing n n' with
  | nil => rfl
  | cons d ds ih =>
      cases d with
      | type t =>
          rw [List.map_cons, Declaration.translate, bindingsFrom, bindingsFrom, List.map_cons,
            ih hscope]
          exact congrArg (fun ty => (_, Entry.type ty) :: _) (t.type.found_translate m)
      | procedure p =>
          have hfirst : m.scope ⟨n + 1⟩ = ⟨n' + 1⟩ := hscope 0 (Nat.succ_pos _)
          have hrest : ∀ i < procedureCount ds, m.scope ⟨n + 1 + i + 1⟩ = ⟨n' + 1 + i + 1⟩ := by
            intro i hi
            rw [Nat.add_right_comm n, Nat.add_right_comm n']
            exact hscope (i + 1) (Nat.succ_lt_succ hi)
          rw [List.map_cons, Declaration.translate, bindingsFrom, bindingsFrom, List.map_cons,
            ih hrest, Procedure.formals_translate, ← hfirst]
          rfl

/-- What the scopes of declared procedures bind. -/
def scopesOf (ds : List Declaration) : List (List Binding) :=
  (ds.filterMap Declaration.procedure?).map Procedure.bindings

theorem length_scopesOf (ds : List Declaration) : (scopesOf ds).length = procedureCount ds :=
  List.length_map _

theorem scopesOf_append (ds ds' : List Declaration) :
    scopesOf (ds ++ ds') = scopesOf ds ++ scopesOf ds' := by
  rw [scopesOf, List.filterMap_append, List.map_append]
  rfl

theorem scopesOf_procedure (q : Procedure) (ds : List Declaration) :
    scopesOf (.procedure q :: ds) = q.bindings :: scopesOf ds := rfl

theorem scopesOf_translate (m : Translation) (ds : List Declaration) :
    scopesOf (ds.map (.translate m)) = (scopesOf ds).map (List.map m.binding) := by
  rw [scopesOf, Declaration.filterMap_procedure?_translate, List.map_map, scopesOf, List.map_map]
  exact List.map_congr_left fun p _ => p.bindings_translate m

/-! ### The tables -/

section Tables

variable {m : Translation} {before mid after : List Declaration} {q : Procedure}

/-- The scope of the procedure comes behind those of the procedures in `mid`, and
they come one scope earlier. The first `n` scopes are not of declarations. -/
def Translation.MovesScope (m : Translation) (n : Nat) (before mid : List Declaration) : Prop :=
  ∀ k, m.scope ⟨k⟩ = ⟨moveIndex (n + procedureCount before + 1)
    (n + procedureCount before + procedureCount mid + 1) k⟩

variable {n : Nat} (hm : m.MovesScope n before mid)
include hm

theorem Translation.MovesScope.scope_eq {k k' : Nat}
    (hk : moveIndex (n + procedureCount before + 1)
      (n + procedureCount before + procedureCount mid + 1) k = k') : m.scope ⟨k⟩ = ⟨k'⟩ := by
  rw [hm, hk]

/-- Moved declarations bind the same in translation. -/
theorem perm_bindingsFrom_move :
    (bindingsFrom n ((before ++ (mid ++ .procedure q :: after)).map (.translate m))).Perm
      ((bindingsFrom n (before ++ .procedure q :: (mid ++ after))).map m.binding) := by
  have hbefore : bindingsFrom n (before.map (.translate m)) =
      (bindingsFrom n before).map m.binding :=
    bindingsFrom_translate fun i hi => hm.scope_eq (by grind [moveIndex])
  have hmid : bindingsFrom (n + procedureCount before) (mid.map (.translate m)) =
      (bindingsFrom (n + procedureCount before + 1) mid).map m.binding :=
    bindingsFrom_translate fun i hi => hm.scope_eq (by grind [moveIndex])
  have hafter : bindingsFrom (n + procedureCount before + procedureCount mid + 1)
        (after.map (.translate m)) =
      (bindingsFrom (n + procedureCount before + 1 + procedureCount mid) after).map m.binding :=
    bindingsFrom_translate fun i hi => hm.scope_eq (by grind [moveIndex])
  have hq : m.scope ⟨n + procedureCount before + 1⟩ =
      ⟨n + procedureCount before + procedureCount mid + 1⟩ :=
    hm.scope_eq (by grind [moveIndex])
  simp only [List.map_append, List.map_cons, Declaration.translate, bindingsFrom_append,
    bindingsFrom, procedureCount_translate]
  rw [hbefore, hmid, hafter, Procedure.formals_translate, ← hq]
  exact .append_left _ List.perm_middle

end Tables

/-- A table made of moved declarations is in translation. -/
theorem SymbolTable.translated_of_move {m : Translation} {library : Library}
    {before mid after : List Declaration} {q : Procedure}
    (hm : m.MovesScope library.procedures.length before mid)
    (hnames : ∀ n ∈ "int" :: library.names, m.name n = n) {c c' : Contents} {t t' : SymbolTable}
    (h : Entered library.contents (before ++ .procedure q :: (mid ++ after)) c)
    (h' : Entered library.contents
      ((before ++ (mid ++ .procedure q :: after)).map (.translate m)) c')
    (ht : t.Holds c.scopes) (ht' : t'.Holds c'.scopes) : t.Translated m [] t' := by
  have hkept : ∀ id : ScopeId, id.index ≤ library.procedures.length → m.scope id = id :=
    fun id hid => hm.scope_eq (by grind [moveIndex])
  have hlocals : c.locals = (library.contents.locals ++ scopesOf before) ++
      q.bindings :: (scopesOf mid ++ scopesOf after) := by
    have hscopes : c.locals = library.contents.locals ++ scopesOf _ := h.locals_eq
    rw [hscopes, scopesOf_append, scopesOf_procedure, scopesOf_append, List.append_assoc]
  have hlocals' : c'.locals = ((library.contents.locals ++ scopesOf before) ++
      (scopesOf mid ++ q.bindings :: scopesOf after)).map (List.map m.binding) := by
    have hscopes : c'.locals = library.contents.locals ++ scopesOf _ := h'.locals_eq
    have hlibrary : library.contents.locals.map (List.map m.binding) = library.contents.locals := by
      simp [library.locals_contents]
    rw [hscopes, scopesOf_translate, scopesOf_append, scopesOf_append, scopesOf_procedure,
      List.append_assoc]
    conv_lhs => rw [← hlibrary]
    exact List.map_append.symm
  have hlength : (library.contents.locals ++ scopesOf before).length =
      library.procedures.length + procedureCount before := by
    rw [List.length_append, library.length_locals_contents, length_scopesOf]
  refine ht.translated ht' (hkept _ (Nat.zero_le _)) ?_ (fun i bindings hi => ?_) fun k => ?_
  · have hlibrary : library.contents.globals.map m.binding = library.contents.globals :=
      (List.map_congr_left (library.binding_eq_self hkept hnames)).trans (List.map_id' _)
    rw [h'.globals_eq, h.globals_eq, library.length_locals_contents, List.append_nil]
    conv_lhs => rw [← hlibrary]
    refine .trans ?_ (.of_eq List.map_append.symm)
    exact (perm_bindingsFrom_move hm).append_left _
  · refine ⟨moveIndex (library.procedures.length + procedureCount before)
      (library.procedures.length + procedureCount before + procedureCount mid) i, ?_, ?_⟩
    · rw [hm, moveIndex_succ]
    · rw [hlocals', List.getElem?_map, ← hlength, ← length_scopesOf mid, getElem?_moveIndex,
        ← hlocals, hi]
      rfl
  · have hcount : c.locals.length =
        library.procedures.length + procedureCount before + (procedureCount mid +
          procedureCount after + 1) := by
      rw [hlocals, List.length_append, hlength, List.length_cons, List.length_append,
        length_scopesOf, length_scopesOf]
    have hcount' : c'.locals.length = c.locals.length := by
      rw [hlocals', hlocals]
      simp [Nat.add_assoc]
    rw [hcount', hcount]
    exact hm.scope_eq (by grind [moveIndex])

end Spl
