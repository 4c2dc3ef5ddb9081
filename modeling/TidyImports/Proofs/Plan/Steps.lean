-- SUMMARY: What the step of a module does to the reading of a script.
import TidyImports.Proofs.Plan.Lines
import TidyImports.Proofs.Plan.Synthesis
import TidyImports.Proofs.Plan.Uses

/-!
# The step of a module

When its edits are clear, the step of a module exchanges the module's
declarations for the canonical one, and changes nothing else that the script
says.
-/

namespace TidyImports

open Text Lexer Edit

-- ---------------------------------------------------------------------------
-- Vocabularies
-- ---------------------------------------------------------------------------

/-- A vocabulary whose strings can be written between quotes, and whose names can be imported. -/
structure Vocabulary.Plain (v : Vocabulary) : Prop where
  directive : isPlain v.clientDirective.toList
  specifier : ∀ m ∈ v.modules, isPlain m.specifier.toList
  symbol : ∀ m ∈ v.modules, ∀ s ∈ m.symbols, s.name ≠ "from"
  shorthand : isPlain v.data.shorthand.toList
  file : ∀ r ∈ v.data.rules, isPlain r.file.toList
  binding : ∀ r ∈ v.data.rules, r.binding ≠ "from"

theorem Vocabulary.plain_builtin : ({} : Vocabulary).Plain := by
  constructor <;> decide

-- ---------------------------------------------------------------------------
-- Names
-- ---------------------------------------------------------------------------

/-- A word has no alias. -/
theorem Item.alias?_of_isWord {name : String} (h : isWord name.toList) : alias? name = none := by
  rw [alias?, Option.map_eq_none_iff, Option.eq_none_iff_forall_ne_some]
  intro rest hrest
  have hspace := mem_of_afterLast? (c := ' ') hrest (by decide)
  cases hn : name.toList with
  | nil =>
    rw [hn] at hspace
    cases hspace
  | cons c cs =>
    rw [hn] at h hspace
    have hchar : ∀ d ∈ c :: cs, isIdentChar d := by
      intro d hd
      rw [isWord, Bool.and_eq_true] at h
      rcases List.mem_cons.1 hd with rfl | hd
      · rw [isIdentChar, h.1, Bool.true_or]
      · exact List.all_eq_true.1 h.2 d hd
    exact absurd (hchar _ hspace) (by decide)

namespace Reading

variable {r r' : Reading} {v : Vocabulary} {u : Usage}

/-- What code uses of a plain vocabulary can be imported. -/
theorem Uses.isName {t : Text} (h : (Script.parse t).reading.Uses v u) (hv : v.Plain) :
    IsName u.name.toList := by
  obtain ⟨m, hm, s, hs, rfl, -, use, huse, hname, -⟩ := h
  refine ⟨hname ▸ Script.isWord_of_mem_uses huse, fun hfrom => hv.symbol m hm s hs ?_⟩
  rw [← String.ofList_toList (s := s.name), hfrom]
  rfl

/-- The declarations of one module. -/
def declarationsOf (r : Reading) (module : String) : List Declaration :=
  r.declarations.filter (·.specifier == module)

/-- What becomes of a script when the imports of a module are normalized, with the warnings. -/
inductive Normalizes (v : Vocabulary) (module : String) (r : Reading) (warnings : List Warning) :
    Reading → Prop
  /-- Nothing of the module is bound, and nothing is used. -/
  | idle (hbinds : ∀ d ∈ r.declarationsOf module, d.default? = none ∧ d.named = [])
      (huses : ∀ u, r.Uses v u → u.module ≠ module) : Normalizes v module r warnings r
  /-- The canonical import takes the place of the module's declarations. -/
  | merged {r' : Reading} {c : Canonical} {style : Style} {us : List Usage}
      (hus : ∀ u, u ∈ us ↔ r.Uses v u ∧ u.module = module)
      (hc : c.Merges module (r.declarationsOf module) us)
      (haccounts : ∀ d ∈ r.declarationsOf module, ∀ name, d.default? = some name →
        c.default? = some name ∨ ∃ kept, .defaultConflict module kept name ∈ warnings)
      (h : r.Updates r' (r.declarationsOf module) [c.declaration style]) :
      Normalizes v module r warnings r'

end Reading

theorem Canonical.Merges.map_bare {c : Canonical} {module : String} {ds : List Declaration}
    {us : List Usage} (h : c.Merges module ds us) : c.Merges module (ds.map Declaration.bare) us where
  specifier := h.specifier
  mem_named {item} := by
    have hmap : (∃ d ∈ ds.map Declaration.bare, item ∈ d.named) ↔ ∃ d ∈ ds, item ∈ d.named := by
      constructor
      · rintro ⟨_, hd, hi⟩
        obtain ⟨d, hd', rfl⟩ := List.mem_map.1 hd
        exact ⟨d, hd', hi⟩
      · rintro ⟨d, hd, hi⟩
        exact ⟨d.bare, List.mem_map_of_mem hd, hi⟩
    rw [h.mem_named, hmap]
  kept {name} hname := h.kept (by rwa [List.findSome?_map] at hname)
  claimed {name} hnone := h.claimed (by rwa [List.findSome?_map] at hnone)
  settles := h.settles
  binds := h.binds

namespace Script

variable {t : Text}

/-- Each declaration is over before the next one starts. -/
theorem pairwise_stop_declarations (t : Text) :
    (parse t).declarations.Pairwise fun a b => a.span.stop ≤ b.span.start := by
  have hparts : ∀ (offset : Nat) (ps : List Part),
      (Part.declarationsFrom offset ps).Pairwise fun a b => a.span.stop ≤ b.span.start := by
    intro offset ps
    induction ps generalizing offset with
    | nil => exact List.Pairwise.nil
    | cons p ps ih =>
      rw [Part.declarationsFrom, List.pairwise_append]
      refine ⟨?_, ih _, fun a ha b hb => ?_⟩
      · cases p.declaration? with
        | none => exact List.Pairwise.nil
        | some d => exact List.pairwise_singleton _ _
      · obtain ⟨d, -, rfl⟩ := Option.map_eq_some_iff.1 (Option.mem_toList.1 ha)
        exact Part.le_start_of_mem (n := 0) hb fun _ _ => Nat.zero_le _
  rw [declarations_parse]
  exact hparts _ _

/-- Declarations stand in the order of their places. -/
theorem pairwise_declarations (t : Text) :
    (parse t).declarations.Pairwise fun a b => Declaration.before a b := by
  refine (pairwise_stop_declarations t).imp_of_mem fun ha _ hab => ?_
  have hlt := (exists_keyword ha).1
  rw [Declaration.before, Bool.or_eq_true, decide_eq_true_eq]
  left
  omega

theorem pairwise_declarationsOf (t : Text) (module : String) :
    ((parse t).declarationsOf module).Pairwise fun a b => Declaration.before a b :=
  (pairwise_declarations t).sublist List.filter_sublist

theorem specifier_of_mem_declarationsOf {s : Script} {module : String} {d : Declaration}
    (h : d ∈ s.declarationsOf module) : d.specifier = module :=
  eq_of_beq (List.mem_filter.1 h).2

theorem declarationsOf_reading (s : Script) (module : String) :
    s.reading.declarationsOf module = (s.declarationsOf module).map Declaration.bare := by
  rw [Reading.declarationsOf, reading, List.filter_map]
  rfl

theorem mem_usages_ofModule {s : Script} {v : Vocabulary} {module : String} {u : Usage} :
    u ∈ (s.usages v).ofModule module ↔ s.reading.Uses v u ∧ u.module = module := by
  rw [SortedSet.ofModule, List.mem_filter, SortedSet.mem_toList, mem_usages, beq_iff_eq]

/-- What code uses of a plain vocabulary has no alias. -/
theorem alias?_of_mem_usages {v : Vocabulary} {module : String} {u : Usage} (hv : v.Plain)
    (h : u ∈ ((parse t).usages v).ofModule module) : Item.alias? u.name = none :=
  Item.alias?_of_isWord ((mem_usages_ofModule.1 h).1.isName hv).1

end Script

-- ---------------------------------------------------------------------------
-- The step
-- ---------------------------------------------------------------------------

theorem Canonical.exists_render {c : Canonical} (h : c.default?.isSome ∨ c.named.isEmpty = false)
    (style : Style) : ∃ rendered, c.render? style = some rendered ∧ rendered ≠ [] := by
  have hclause : ∃ clause, c.clause? = some clause := by
    rw [clause?]
    cases hd : c.default? <;> cases hn : c.named.isEmpty <;> simp_all
  obtain ⟨clause, hclause⟩ := hclause
  rw [render?, hclause]
  exact ⟨_, rfl, by simp⟩

section

variable {v : Vocabulary} {m : ModuleRule} {eol t : Text}

/-- What synthesis makes of a script can be written. -/
theorem Canonical.Merges.writable {c : Canonical} {us : List Usage}
    (h : c.Merges m.specifier ((Script.parse t).declarationsOf m.specifier) us) (hm : m ∈ v.modules)
    (hv : v.Plain) (hus : ∀ u ∈ us, (Script.parse t).reading.Uses v u) : c.Writable := by
  have hnames : ∀ d ∈ (Script.parse t).declarationsOf m.specifier,
      (∀ name ∈ d.default?, IsName name.toList) ∧ ∀ item ∈ d.named, Item.WellFormed item :=
    fun d hd => Script.names_of_mem_declarations (List.mem_filter.1 hd).1
  constructor
  · intro name hname
    cases hfirst : ((Script.parse t).declarationsOf m.specifier).findSome? (·.default?) with
    | none =>
      obtain ⟨⟨u, hu, -, rfl⟩, -⟩ := h.claimed hfirst hname
      exact (hus u hu).isName hv
    | some kept =>
      have hkept := h.kept hfirst
      rw [hname] at hkept
      cases hkept
      obtain ⟨d, hd, hdefault⟩ := List.exists_of_findSome?_eq_some hfirst
      exact (hnames d hd).1 name hdefault
  · intro item hitem
    rcases h.mem_named.1 hitem with ⟨d, hd, hi⟩ | ⟨u, hu, -, rfl⟩
    · exact (hnames d hd).2 item hi
    · exact .inl ((hus u hu).isName hv)
  · rw [h.specifier]
    exact hv.specifier m hm
  · exact h.binds

/-- The exchange that puts the canonical import in on a line of its own. -/
def lineExchange (eol t : Text) (c : Canonical) (style : Style) (rendered : Text) : Exchange :=
  ⟨insertLine t (Script.parse t).insertionOffset rendered eol, [], [c.declaration style]⟩

/-- The exchanges that go with such a line: the directive that a module without declarations owes,
and the removal of the declarations of any other. -/
def otherExchanges (v : Vocabulary) (m : ModuleRule) (eol t : Text) (ds : List Declaration) :
    List Exchange :=
  if ds.isEmpty then (directiveEdits v m eol (Script.parse t)).map (⟨·, [], []⟩)
  else ds.map fun d => ⟨removeDeclaration t d, [d], []⟩

/-- A step that rewrites no declaration in place is made of these exchanges. -/
theorem exists_exchanges (v : Vocabulary) (m : ModuleRule) (eol t : Text) (c : Canonical)
    (style : Style) (rendered : Text) {ds : List Declaration} (hcount : ds.length ≠ 1) :
    ∃ xs : List Exchange,
      xs.Perm (lineExchange eol t c style rendered :: otherExchanges v m eol t ds) ∧
      xs.map Exchange.edit = (canonicalStep v m eol (Script.parse t) ds c rendered).edits := by
  match ds with
  | [] =>
    refine ⟨otherExchanges v m eol t [] ++ [lineExchange eol t c style rendered],
      List.perm_append_singleton _ _, ?_⟩
    rw [otherExchanges, List.isEmpty_nil, if_pos rfl, List.map_append, List.map_map]
    exact congrArg (· ++ _) (List.map_id _)
  | [d] => exact absurd rfl hcount
  | d :: d' :: more =>
    refine ⟨_, List.Perm.refl _, ?_⟩
    rw [otherExchanges, List.map_cons, List.isEmpty_cons, if_neg Bool.false_ne_true, List.map_map]
    rfl

theorem holds_lineExchange {c : Canonical} {style : Style} {rendered : Text} (hc : c.Writable)
    (hr : c.render? style = some rendered) (he : IsLineBreak eol) :
    (lineExchange eol t c style rendered).Holds t :=
  Exchange.holds_insertLine hc hr he

theorem holds_otherExchanges {ds : List Declaration}
    (hds : ∀ d ∈ ds, d ∈ (Script.parse t).declarations) (hv : isPlain v.clientDirective.toList)
    (he : IsLineBreak eol) : ∀ x ∈ otherExchanges v m eol t ds, x.Holds t ∧ x.added = [] := by
  intro x hx
  rw [otherExchanges] at hx
  split at hx
  · obtain ⟨e, hedit, rfl⟩ := List.mem_map.1 hx
    exact ⟨Exchange.holds_directiveEdits hv he hedit, rfl⟩
  · obtain ⟨d, hd, rfl⟩ := List.mem_map.1 hx
    exact ⟨.removal (hds d hd), rfl⟩

/-- Such exchanges take out the declarations, and nothing else. -/
theorem removed_otherExchanges (ds : List Declaration) :
    (otherExchanges v m eol t ds).flatMap (·.removed) = ds := by
  rw [otherExchanges]
  split
  · next hnil =>
    rw [List.isEmpty_iff.1 hnil, List.flatMap_map]
    exact List.flatMap_eq_nil_iff.2 fun _ _ => rfl
  · rw [List.flatMap_map]
    exact List.flatMap_singleton' ds

/-- The canonical import takes the place of the declarations. -/
theorem canonicalStep_updates {c : Canonical} {style : Style} {rendered : Text}
    (hc : c.Writable) (hr : c.render? style = some rendered) (hne : rendered ≠ [])
    (hspecifier : c.specifier = m.specifier)
    (hstyle : ∀ d, (Script.parse t).declarationsOf m.specifier = [d] → style = d.style)
    (hv : isPlain v.clientDirective.toList) (he : IsLineBreak eol)
    (hclear : AllClear t (Sorting.sort Edit.before (canonicalStep v m eol (Script.parse t)
      ((Script.parse t).declarationsOf m.specifier) c rendered).edits)) :
    (Script.parse t).reading.Updates
      (Script.parse (Edit.applyAll (canonicalStep v m eol (Script.parse t)
        ((Script.parse t).declarationsOf m.specifier) c rendered).edits t)).reading
      (((Script.parse t).declarationsOf m.specifier).map Declaration.bare)
      [c.declaration style] := by
  have hmem : ∀ d ∈ (Script.parse t).declarationsOf m.specifier,
      d ∈ (Script.parse t).declarations ∧ d.specifier = m.specifier := fun d hd => by
    obtain ⟨h₁, h₂⟩ := List.mem_filter.1 hd
    exact ⟨h₁, eq_of_beq h₂⟩
  by_cases hcount : ((Script.parse t).declarationsOf m.specifier).length = 1
  · obtain ⟨d, hds⟩ := List.length_eq_one_iff.1 hcount
    obtain ⟨hd, hspec⟩ := hmem d (by rw [hds]; exact List.mem_singleton_self _)
    cases hstyle d hds
    rw [hds, canonicalStep] at hclear ⊢
    by_cases hmatch : c.matches? d
    · -- The declaration is the canonical one.
      simp only [hmatch, if_true] at hclear ⊢
      simp only [Canonical.matches?, Bool.and_eq_true, beq_iff_eq] at hmatch
      have hsame : d.bare = c.declaration d.style := by
        obtain ⟨specifier, span, default?, named, style⟩ := d
        simp only [Declaration.bare, Canonical.declaration, Declaration.mk.injEq, true_and, and_true]
        exact ⟨hspec.trans hspecifier.symm, hmatch.1.1, hmatch.2⟩
      rw [List.map_singleton, hsame]
      exact ⟨rfl, rfl, rfl, List.Perm.refl _⟩
    · simp only [hmatch, Bool.false_eq_true, if_false] at hclear ⊢
      obtain ⟨-, hclear, -⟩ := hclear
      have hlt := (Script.exists_keyword hd).1
      have hreplaceable : Replaceable t ⟨d.span, rendered⟩ := by
        rwa [Clear, if_neg (Nat.ne_of_lt hlt), if_neg hne] at hclear
      exact hreplaceable.declaration hd rfl hc hr rfl
  · obtain ⟨xs, hperm, hedits⟩ := exists_exchanges v m eol t c style rendered hcount
    have hothers := holds_otherExchanges (v := v) (m := m) (fun d hd => (hmem d hd).1) hv he
    rw [← hedits] at hclear ⊢
    refine (Exchange.applyAll (fun x hx => ?_) hclear).perm ?_ ?_
    · rcases List.mem_cons.1 (hperm.mem_iff.1 hx) with rfl | hx
      · exact holds_lineExchange hc hr he
      · exact (hothers x hx).1
    · refine (hperm.flatMap_right _).trans (List.Perm.of_eq ?_)
      rw [List.flatMap_cons, ← List.map_flatMap, removed_otherExchanges]
      rfl
    · refine (hperm.flatMap_right _).trans (List.Perm.of_eq ?_)
      rw [List.flatMap_cons, List.flatMap_eq_nil_iff.2 fun x hx => (hothers x hx).2]
      rfl

/-- The step of a module normalizes its imports. -/
theorem moduleStep_normalizes (hm : m ∈ v.modules) (hv : v.Plain) (he : IsLineBreak eol)
    (hclear : AllClear t (Sorting.sort Edit.before (moduleStep v m eol (Script.parse t)).edits)) :
    (Script.parse t).reading.Normalizes v m.specifier
      (moduleStep v m eol (Script.parse t)).warnings
      (Script.parse (Edit.applyAll (moduleStep v m eol (Script.parse t)).edits t)).reading := by
  have hsorted := Script.pairwise_declarationsOf t m.specifier
  have hown : ∀ d ∈ (Script.parse t).declarationsOf m.specifier, d.specifier = m.specifier :=
    fun d hd => Script.specifier_of_mem_declarationsOf hd
  have hus : ∀ u, u ∈ ((Script.parse t).usages v).ofModule m.specifier ↔
      (Script.parse t).reading.Uses v u ∧ u.module = m.specifier := fun u =>
    Script.mem_usages_ofModule
  have hbare : ∀ d ∈ (Script.parse t).reading.declarationsOf m.specifier,
      ∃ d' ∈ (Script.parse t).declarationsOf m.specifier, d = d'.bare := fun d hd => by
    rw [Script.declarationsOf_reading] at hd
    obtain ⟨d', hd', rfl⟩ := List.mem_map.1 hd
    exact ⟨d', hd', rfl⟩
  have hidle : (synthesize m.specifier ((Script.parse t).declarationsOf m.specifier)
      ((Script.parse t).usages v)).canonical? = none → ∀ warnings,
        (Script.parse t).reading.Normalizes v m.specifier warnings (Script.parse t).reading := by
    intro hnone warnings
    obtain ⟨hbinds, huses⟩ := synthesize_none hsorted hown hnone
    refine .idle (fun d hd => ?_) fun u hu hmodule => ?_
    · obtain ⟨d', hd', rfl⟩ := hbare d hd
      exact hbinds d' hd'
    · have := (hus u).2 ⟨hu, hmodule⟩
      rw [huses] at this
      cases this
  rw [moduleStep] at hclear ⊢
  split
  · next hempty =>
    simp only [Bool.and_eq_true, List.isEmpty_iff] at hempty
    refine hidle ?_ _
    rw [hempty.1, synthesize_eq List.Pairwise.nil (by simp), hempty.2]
    rfl
  · next hempty =>
    rw [if_neg hempty] at hclear
    simp only at hclear ⊢
    generalize hsynthesis : synthesize m.specifier ((Script.parse t).declarationsOf m.specifier)
      ((Script.parse t).usages v) = synthesis at *
    cases hc : synthesis.canonical? with
    | none => exact hidle hc _
    | some c =>
      have hmerges := synthesize_some hsorted hown
        (fun u hu => Script.alias?_of_mem_usages hv hu) (hsynthesis ▸ hc)
      obtain ⟨rendered, hr, hne⟩ := Canonical.exists_render hmerges.binds synthesis.style
      have hrender : synthesis.render? = some rendered := by
        rw [Synthesis.render?, hc]
        exact hr
      simp only [hc, hrender] at hclear ⊢
      have hupdates := canonicalStep_updates
        (hmerges.writable hm hv fun u hu => ((hus u).1 hu).1) hr hne hmerges.specifier
        (fun d hd => by rw [← hsynthesis, hd, synthesize_eq (List.pairwise_singleton _ _)
          (by rw [hd] at hown; exact hown)]; rfl) hv.directive he hclear
      rw [← Script.declarationsOf_reading] at hupdates
      refine .merged hus ?_ (fun d hd name hname => ?_) hupdates
      · rw [Script.declarationsOf_reading]
        exact hmerges.map_bare
      · obtain ⟨d', hd', rfl⟩ := hbare d hd
        have haccounts := @synthesize_accounts _ _ ((Script.parse t).usages v) _ _ hsorted hown hd'
          hname
        rw [hsynthesis] at haccounts
        rcases haccounts with ⟨c', hc', hdefault⟩ | ⟨kept, hkept⟩
        · rw [hc] at hc'
          cases hc'
          exact .inl hdefault
        · exact .inr ⟨kept, List.mem_append_left _ hkept⟩

end

end TidyImports
