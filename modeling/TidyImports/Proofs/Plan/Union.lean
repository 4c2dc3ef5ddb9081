-- SUMMARY: Synthesis as a union in file order: no order of the list matters, and nothing is lost silently.
import Mathlib.Data.List.Pairwise
import TidyImports.Proofs.Plan.Synthesis

/-!
# Synthesis is a union in file order

Declarations that stand at different places have one file order, so a list of
them in any order gives the same import. Its items are those of the
declarations and the named usages. Its default is the first one in file order,
or else the first default usage that no item known by then binds. Any other
default is the same, bound by an item, or in a conflict with the one kept.
-/

namespace TidyImports

-- ---------------------------------------------------------------------------
-- File order
-- ---------------------------------------------------------------------------

namespace Declaration

variable {a b c : Declaration}

theorem before_iff : a.before b ↔
    a.span.start < b.span.start ∨ a.span.start = b.span.start ∧ a.span.stop ≤ b.span.stop := by
  simp [before]

theorem before_trans (hab : a.before b) (hbc : b.before c) : a.before c := by
  rw [before_iff] at *
  omega

theorem before_total (a b : Declaration) : a.before b ∨ b.before a := by
  rw [before_iff, before_iff]
  omega

/-- Only declarations in one place stand before each other. -/
theorem span_eq_of_before (hab : a.before b) (hba : b.before a) : a.span = b.span := by
  rw [before_iff] at *
  rw [Span.eq_iff]
  omega

end Declaration

/-- Declarations at different places, in file order. -/
def Declaration.inFileOrder (ds : List Declaration) : List Declaration :=
  Sorting.sort Declaration.before ds

namespace Declaration

variable {ds ds' : List Declaration} {d : Declaration}

theorem pairwise_inFileOrder (ds : List Declaration) :
    (inFileOrder ds).Pairwise fun a b => a.before b :=
  Sorting.pairwise_sort (fun _ _ _ => before_trans) before_total

/-- At each place stands one of the declarations. -/
theorem eq_of_span_eq {a b : Declaration} (h : ds.Pairwise fun a b => a.span ≠ b.span)
    (ha : a ∈ ds) (hb : b ∈ ds) (hspan : a.span = b.span) : a = b := by
  have : Std.Symm fun a b : Declaration => a.span ≠ b.span := ⟨fun _ _ => Ne.symm⟩
  exact Decidable.not_not.1 fun hne => h.forall ha hb hne hspan

theorem inFileOrder_perm (h : ds.Pairwise fun a b => a.span ≠ b.span) (hperm : ds'.Perm ds) :
    inFileOrder ds' = inFileOrder ds := by
  have hsorted : (inFileOrder ds').Perm (inFileOrder ds) :=
    (Sorting.sort_perm _ _).trans (hperm.trans (Sorting.sort_perm _ _).symm)
  refine hsorted.eq_of_pairwise (fun a b ha hb hab hba => ?_) (pairwise_inFileOrder ds')
    (pairwise_inFileOrder ds)
  exact eq_of_span_eq h (hperm.mem_iff.1 (Sorting.mem_sort.1 ha)) (Sorting.mem_sort.1 hb)
    (span_eq_of_before hab hba)

/-- What is found first in file order is found in the earliest declaration that has any. -/
theorem findSome?_inFileOrder {β : Type} {f : Declaration → Option β} {x : β}
    (h : ds.Pairwise fun a b => a.span ≠ b.span) :
    (inFileOrder ds).findSome? f = some x ↔
      ∃ d ∈ ds, f d = some x ∧ ∀ d' ∈ ds, (f d').isSome → d.before d' := by
  have hsome : ∀ x, (inFileOrder ds).findSome? f = some x →
      ∃ d ∈ ds, f d = some x ∧ ∀ d' ∈ ds, (f d').isSome → d.before d' := by
    intro x hx
    obtain ⟨above, d, below, heq, hd, habove⟩ := List.findSome?_eq_some_iff.1 hx
    refine ⟨d, Sorting.mem_sort.1 (heq ▸ List.mem_append_right _ (List.mem_cons_self ..)), hd,
      fun d' hd' hsome => ?_⟩
    have hmem : d' ∈ above ++ d :: below := heq ▸ Sorting.mem_sort.2 hd'
    have hpairwise : (d :: below).Pairwise fun a b => a.before b :=
      (List.pairwise_append.1 (heq ▸ pairwise_inFileOrder ds)).2.1
    rcases List.mem_append.1 hmem with hmem | hmem
    · rw [habove d' hmem] at hsome
      cases hsome
    · rcases List.mem_cons.1 hmem with rfl | hmem
      · exact (before_total d' d').elim id id
      · exact List.rel_of_pairwise_cons hpairwise hmem
  refine ⟨hsome x, ?_⟩
  rintro ⟨d, hd, hx, hfirst⟩
  cases hfound : (inFileOrder ds).findSome? f with
  | none =>
    rw [List.findSome?_eq_none_iff.1 hfound d (Sorting.mem_sort.2 hd)] at hx
    cases hx
  | some y =>
    obtain ⟨e, he, hy, hefirst⟩ := hsome y hfound
    have hsame : d = e := eq_of_span_eq h hd he (span_eq_of_before
      (hfirst e he (by rw [hy]; rfl)) (hefirst d hd (by rw [hx]; rfl)))
    subst hsame
    exact hy.symm.trans hx

end Declaration

-- ---------------------------------------------------------------------------
-- Default usages
-- ---------------------------------------------------------------------------

namespace Synthesis.Draft

variable {module name : String} {draft : Draft} {ds : List Declaration} {us : List Usage}

/-- The first default usage that no item so far binds. -/
def firstUnbound? (named : SortedSet String) : List Usage → Option String
  | [] => none
  | u :: us =>
    match u.binding with
    | .named => firstUnbound? (named.insert u.name) us
    | .default => if Item.anyBinds named u.name then firstUnbound? named us else some u.name

theorem default?_addUsages_eq :
    (us.foldl (addUsage module) draft).default? =
      draft.default?.or (firstUnbound? draft.named us) := by
  induction us generalizing draft with
  | nil => simp [firstUnbound?]
  | cons u us ih =>
    rw [List.foldl_cons, ih, addUsage, firstUnbound?]
    cases u.binding with
    | named => rfl
    | default =>
      simp only
      split
      · rfl
      · rw [default?_claim, Option.or_assoc]
        rfl

/-- Each default usage is kept, reported or bound by an item. -/
theorem accounts_addUsages {u : Usage} (hu : u ∈ us) (hb : u.binding = .default) :
    (us.foldl (addUsage module) draft).Accounts module u.name ∨
      Item.anyBinds (us.foldl (addUsage module) draft).named u.name := by
  induction us generalizing draft with
  | nil => cases hu
  | cons w us ih =>
    rw [List.foldl_cons]
    rcases List.mem_cons.1 hu with rfl | hu
    · by_cases hany : Item.anyBinds draft.named u.name
      · right
        obtain ⟨item, hitem, hbinds⟩ := Item.anyBinds_iff.1 hany
        refine Item.anyBinds_iff.2 ⟨item, mem_named_addUsages.2 (.inl ?_), hbinds⟩
        rw [named_addUsage, if_neg (by rw [hb]; decide)]
        exact hitem
      · left
        refine Accounts.addUsages ?_
        rw [addUsage, hb]
        simp only [hany, Bool.false_eq_true, if_false]
        exact accounts_claim
    · exact ih hu

-- ---------------------------------------------------------------------------
-- Conflicts
-- ---------------------------------------------------------------------------

/-- Each conflict is one with the default that is kept. -/
def Coherent (module : String) (draft : Draft) : Prop :=
  ∀ w ∈ draft.conflicts, ∃ kept discarded, draft.default? = some kept ∧ kept ≠ discarded ∧
    w = .defaultConflict module kept discarded

theorem Coherent.claim (h : draft.Coherent module) : (draft.claim module name).Coherent module := by
  rw [Draft.claim]
  cases hdefault : draft.default? with
  | none =>
    intro w hw
    obtain ⟨kept, _, hkept, _⟩ := h w hw
    rw [hdefault] at hkept
    cases hkept
  | some kept =>
    simp only
    split
    · exact h
    · next hne =>
      intro w hw
      rcases List.mem_append.1 hw with hw | hw
      · exact hdefault ▸ h w hw
      · exact ⟨kept, name, rfl, hne, List.mem_singleton.1 hw⟩

theorem Coherent.addDeclaration {d : Declaration} (h : draft.Coherent module) :
    (draft.addDeclaration module d).Coherent module := by
  rw [Draft.addDeclaration]
  split
  · exact h
  · exact Coherent.claim h

theorem Coherent.addUsage {u : Usage} (h : draft.Coherent module) :
    (draft.addUsage module u).Coherent module := by
  rw [Draft.addUsage]
  split
  · exact h
  · split
    · exact h
    · exact h.claim

/-- What is gathered reports conflicts with the default it keeps. -/
theorem coherent_gather : (gather module ds us).Coherent module := by
  have hempty : Coherent module {} := fun w hw => nomatch hw
  exact us.foldlRecOn _ (ds.foldlRecOn _ hempty fun _ h _ _ => h.addDeclaration)
    fun _ h _ _ => h.addUsage

end Synthesis.Draft

-- ---------------------------------------------------------------------------
-- The union
-- ---------------------------------------------------------------------------

namespace Synthesis

/-- The default that is kept. -/
def default? (s : Synthesis) : Option String := s.canonical?.bind (·.default?)

/-- The items of the import; none when there is no import. -/
def named (s : Synthesis) : SortedSet String := (s.canonical?.map (·.named)).getD ∅

/-- An item of a declaration of the module, or a named usage. -/
def KnownItem (module : String) (ds : List Declaration) (us : List Usage) (item : String) : Prop :=
  (∃ d ∈ ds, d.specifier = module ∧ item ∈ d.named) ∨ ∃ u ∈ us, u.binding = .named ∧ u.name = item

/-- Does one of these items bind the name, as its text or as its alias? -/
def Bound (module : String) (ds : List Declaration) (us : List Usage) (name : String) : Prop :=
  ∃ item, KnownItem module ds us item ∧ (item = name ∨ Item.alias? item = some name)

/-- The default of the earliest declaration of the module that has one. -/
def EarliestDefault (module : String) (ds : List Declaration) (name : String) : Prop :=
  ∃ d ∈ ds, d.specifier = module ∧ d.default? = some name ∧
    ∀ d' ∈ ds, d'.specifier = module → d'.default?.isSome → d.before d'

/-- The first default usage that is not bound by an item of the declarations, of the usages `seen`
before, or of those ahead of it. -/
def FirstUnbound (module : String) (ds : List Declaration) (seen us : List Usage) (name : String) :
    Prop :=
  ∃ ahead u behind, us = ahead ++ u :: behind ∧ u.binding = .default ∧ u.name = name ∧
    ¬ Bound module ds (seen ++ ahead) name ∧
    ∀ ahead' w behind', ahead = ahead' ++ w :: behind' → w.binding = .default →
      Bound module ds (seen ++ ahead') w.name

/-- Is the name the default, or discarded in a conflict with it? -/
def Accounts (s : Synthesis) (module name : String) : Prop :=
  s.default? = some name ∨
    ∃ kept, s.default? = some kept ∧ .defaultConflict module kept name ∈ s.conflicts

/-- The result is the union of declarations and usages of a module, and accounts for each
default. -/
structure Unites (s : Synthesis) (module : String) (ds : List Declaration) (us : UsageSet) :
    Prop where
  mem_named (item : String) : item ∈ s.named ↔ KnownItem module ds (us.ofModule module) item
  default_iff (name : String) : s.default? = some name ↔
    EarliestDefault module ds name ∨
      (∀ d ∈ ds, d.specifier = module → d.default? = none) ∧
        FirstUnbound module ds [] (us.ofModule module) name
  declared {d : Declaration} {name : String} : d ∈ ds → d.specifier = module →
    d.default? = some name → s.Accounts module name
  used {u : Usage} : u ∈ us.ofModule module → u.binding = .default →
    s.Accounts module u.name ∨ Bound module ds (us.ofModule module) u.name

variable {module name : String} {ds : List Declaration} {seen us : List Usage} {u : Usage}

theorem firstUnbound_cons :
    FirstUnbound module ds seen (u :: us) name ↔
      (u.binding = .default ∧ ¬ Bound module ds seen u.name ∧ u.name = name) ∨
        (u.binding = .default → Bound module ds seen u.name) ∧
          FirstUnbound module ds (seen ++ [u]) us name := by
  constructor
  · rintro ⟨ahead, w, behind, heq, hb, rfl, hfree, hahead⟩
    cases ahead with
    | nil =>
      cases heq
      exact .inl ⟨hb, by simpa using hfree, rfl⟩
    | cons a ahead =>
      cases heq
      refine .inr ⟨fun hb => by simpa using hahead [] u ahead rfl hb, ahead, w, behind, rfl, hb, rfl,
        by simpa using hfree, fun ahead' x behind' h hx => ?_⟩
      simpa using hahead (u :: ahead') x behind' (congrArg (u :: ·) h) hx
  · rintro (⟨hb, hfree, rfl⟩ | ⟨hbound, ahead, w, behind, rfl, hb, rfl, hfree, hahead⟩)
    · refine ⟨[], u, us, rfl, hb, rfl, by simpa using hfree, fun ahead' w behind' h => ?_⟩
      cases ahead' <;> cases h
    · refine ⟨u :: ahead, w, behind, rfl, hb, rfl, by simpa using hfree,
        fun ahead' x behind' h hx => ?_⟩
      cases ahead' with
      | nil =>
        cases h
        simpa using hbound hx
      | cons a ahead' =>
        cases h
        simpa using hahead ahead' x behind' rfl hx

theorem knownItem_concat {item : String} :
    KnownItem module ds (us ++ [u]) item ↔
      KnownItem module ds us item ∨ u.binding = .named ∧ u.name = item := by
  simp only [KnownItem, List.mem_append, List.mem_singleton, or_and_right, exists_or,
    exists_eq_left, or_assoc]

theorem anyBinds_iff_bound {items : SortedSet String}
    (h : ∀ item, item ∈ items ↔ KnownItem module ds us item) :
    Item.anyBinds items name ↔ Bound module ds us name := by
  simp only [Item.anyBinds_iff, h, Bound]

/-- The search goes on with the items of the usages seen. -/
theorem Draft.firstUnbound?_eq_some {items : SortedSet String}
    (h : ∀ item, item ∈ items ↔ KnownItem module ds seen item) :
    Draft.firstUnbound? items us = some name ↔ FirstUnbound module ds seen us name := by
  induction us generalizing items seen with
  | nil => simp [Draft.firstUnbound?, FirstUnbound]
  | cons u us ih =>
    rw [Draft.firstUnbound?, firstUnbound_cons]
    cases hb : u.binding with
    | named =>
      have hnext : ∀ item, item ∈ items.insert u.name ↔ KnownItem module ds (seen ++ [u]) item :=
        fun item => by
          rw [SortedSet.mem_insert, h, knownItem_concat, hb, or_comm, eq_comm]
          simp
      simpa using ih hnext
    | default =>
      have hnext : ∀ item, item ∈ items ↔ KnownItem module ds (seen ++ [u]) item := fun item => by
        rw [h, knownItem_concat, hb]
        simp
      have hbinds : Item.anyBinds items u.name ↔ Bound module ds seen u.name :=
        anyBinds_iff_bound h
      by_cases hany : Item.anyBinds items u.name
      · simpa [hany, hbinds.1 hany] using ih hnext
      · have hfree : ¬ Bound module ds seen u.name := fun hbound => hany (hbinds.2 hbound)
        simp [hany, hfree]

end Synthesis

open Synthesis

section
variable {module : String} {ds ds' : List Declaration} {us : UsageSet}

/-- The declarations of a module, in file order. -/
def Declaration.ownInFileOrder (module : String) (ds : List Declaration) : List Declaration :=
  inFileOrder (ds.filter (·.specifier == module))

theorem Declaration.mem_ownInFileOrder {d : Declaration} :
    d ∈ ownInFileOrder module ds ↔ d ∈ ds ∧ d.specifier = module := by
  rw [ownInFileOrder, inFileOrder, Sorting.mem_sort, List.mem_filter, beq_iff_eq]

/-- Synthesis looks at the module's own declarations in file order. -/
theorem synthesize_ownInFileOrder :
    synthesize module ds us = synthesize module (Declaration.ownInFileOrder module ds) us := by
  have hown : (Declaration.ownInFileOrder module ds).filter (·.specifier == module) =
      Declaration.ownInFileOrder module ds :=
    List.filter_eq_self.2 fun d hd => beq_iff_eq.2 (Declaration.mem_ownInFileOrder.1 hd).2
  have hsorted : Sorting.sort Declaration.before (Declaration.ownInFileOrder module ds) =
      Sorting.sort Declaration.before (ds.filter (·.specifier == module)) :=
    Sorting.sort_eq_self (Declaration.pairwise_inFileOrder _)
  rw [synthesize, synthesize, hown, hsorted]

/-- The order in which declarations at different places are listed does not matter. -/
theorem synthesize_perm (h : ds.Pairwise fun a b => a.span ≠ b.span) (hperm : ds'.Perm ds) :
    synthesize module ds' us = synthesize module ds us := by
  have hown : Declaration.ownInFileOrder module ds' = Declaration.ownInFileOrder module ds :=
    Declaration.inFileOrder_perm (h.sublist List.filter_sublist) (hperm.filter _)
  rw [synthesize_ownInFileOrder, hown, ← synthesize_ownInFileOrder]

/-- What is gathered from the module's own declarations and usages. -/
def Synthesis.gatherOwn (module : String) (ds : List Declaration) (us : UsageSet) : Draft :=
  gather module (Declaration.ownInFileOrder module ds) (us.ofModule module)

theorem synthesize_eq_gatherOwn :
    (synthesize module ds us).default? = (gatherOwn module ds us).default? ∧
      (∀ item, item ∈ (synthesize module ds us).named ↔ item ∈ (gatherOwn module ds us).named) ∧
      (synthesize module ds us).conflicts = (gatherOwn module ds us).conflicts := by
  have hsorted : (Declaration.ownInFileOrder module ds).Pairwise fun a b => a.before b :=
    Declaration.pairwise_inFileOrder _
  have hown : ∀ d ∈ Declaration.ownInFileOrder module ds, d.specifier = module := fun d hd =>
    (Declaration.mem_ownInFileOrder.1 hd).2
  rw [synthesize_ownInFileOrder, synthesize_eq hsorted hown, ← gatherOwn]
  refine ⟨?_, fun item => ?_, rfl⟩
  · rw [Synthesis.default?]
    split
    · rfl
    · next h =>
      rw [Bool.or_eq_true, not_or, Bool.not_eq_true, Option.isSome_eq_false_iff,
        Option.isNone_iff_eq_none] at h
      exact h.1.symm
  · rw [Synthesis.named]
    split
    · rfl
    · next h =>
      rw [Bool.or_eq_true, not_or, Bool.not_eq_true, Bool.not_eq_true, Bool.not_eq_false',
        SortedSet.isEmpty, List.isEmpty_iff] at h
      rw [← SortedSet.mem_toList (s := (gatherOwn module ds us).named), h.2]
      exact iff_of_false (SortedSet.not_mem_empty item) List.not_mem_nil

theorem mem_named_gatherOwn {item : String} :
    item ∈ (gatherOwn module ds us).named ↔ KnownItem module ds (us.ofModule module) item := by
  refine Draft.mem_named_addUsages.trans (or_congr_left ?_)
  refine (Draft.mem_named_addDeclarations.trans
    (or_iff_right (SortedSet.not_mem_empty item))).trans ?_
  simp only [Declaration.mem_ownInFileOrder, and_assoc]

/-- The default is that of the earliest declaration, or else of the first unbound usage. -/
theorem default?_gatherOwn {name : String} (h : ds.Pairwise fun a b => a.span ≠ b.span) :
    (gatherOwn module ds us).default? = some name ↔
      EarliestDefault module ds name ∨
        (∀ d ∈ ds, d.specifier = module → d.default? = none) ∧
          FirstUnbound module ds [] (us.ofModule module) name := by
  let draft := (Declaration.ownInFileOrder module ds).foldl (Draft.addDeclaration module) {}
  have hdraft : draft.default? =
      (Declaration.ownInFileOrder module ds).findSome? (·.default?) := by
    rw [Draft.default?_addDeclarations]
    rfl
  have hitems : ∀ item, item ∈ draft.named ↔ KnownItem module ds [] item := fun item => by
    rw [Draft.mem_named_addDeclarations, or_iff_right (SortedSet.not_mem_empty item)]
    simp only [Declaration.mem_ownInFileOrder, and_assoc, KnownItem, List.not_mem_nil, false_and,
      exists_false, or_false]
  have hearliest : ∀ name, draft.default? = some name ↔ EarliestDefault module ds name :=
    fun name => by
      rw [hdraft, Declaration.ownInFileOrder,
        Declaration.findSome?_inFileOrder (h.sublist List.filter_sublist)]
      simp only [List.mem_filter, beq_iff_eq, and_assoc, and_imp, EarliestDefault]
  have hnone : draft.default? = none ↔ ∀ d ∈ ds, d.specifier = module → d.default? = none := by
    rw [hdraft, List.findSome?_eq_none_iff]
    simp only [Declaration.mem_ownInFileOrder, and_imp]
  rw [gatherOwn, gather, Draft.default?_addUsages_eq, Option.or_eq_some_iff, hearliest, hnone,
    Draft.firstUnbound?_eq_some hitems]

/-- The result of synthesis accounts for what its draft accounts for. -/
theorem accounts_of_gatherOwn {name : String} (h : (gatherOwn module ds us).Accounts module name) :
    (synthesize module ds us).Accounts module name := by
  obtain ⟨hdefault, -, hconflicts⟩ := @synthesize_eq_gatherOwn module ds us
  rw [Synthesis.Accounts, hdefault, hconflicts]
  refine h.imp_right fun ⟨kept, hkept⟩ => ?_
  obtain ⟨kept', discarded, hdefault', -, heq⟩ := Draft.coherent_gather _ hkept
  cases heq
  exact ⟨kept, hdefault', hkept⟩

end

/-- Synthesis merges declarations at different places by union, in file order. No permutation of
the list changes the result, and no default gets lost silently. -/
theorem synthesize_unites (module : String) (us : UsageSet) {ds : List Declaration}
    (h : ds.Pairwise fun a b => a.span ≠ b.span) :
    (∀ ds', ds'.Perm ds → synthesize module ds' us = synthesize module ds us) ∧
      (synthesize module ds us).Unites module ds us := by
  obtain ⟨hdefault, hnamed, -⟩ := @synthesize_eq_gatherOwn module ds us
  refine ⟨fun ds' hperm => synthesize_perm h hperm, fun item => ?_, fun name => ?_, ?_, ?_⟩
  · rw [hnamed, mem_named_gatherOwn]
  · rw [hdefault, default?_gatherOwn h]
  · intro d name hd hown hname
    refine accounts_of_gatherOwn (Draft.Accounts.addUsages ?_)
    exact Draft.accounts_addDeclarations (Declaration.mem_ownInFileOrder.2 ⟨hd, hown⟩) hname
  · intro u hu hb
    refine (Draft.accounts_addUsages hu hb).imp accounts_of_gatherOwn fun hany => ?_
    exact (anyBinds_iff_bound fun item => mem_named_gatherOwn).1 hany

/-- The later of two declarations listed first, and a default usage that an item binds. -/
theorem synthesize_unites_two :
    (synthesize "react"
        [⟨"react", ⟨40, 60⟩, some "Late", ["b"], {}⟩, ⟨"react", ⟨0, 30⟩, some "Early", ["a"], {}⟩]
        (SortedSet.ofList [⟨"react", "b", .default⟩, ⟨"react", "c", .named⟩])).default? =
      some "Early" := by
  have hunites := (@synthesize_unites "react"
    (SortedSet.ofList [⟨"react", "b", .default⟩, ⟨"react", "c", .named⟩])
    [⟨"react", ⟨40, 60⟩, some "Late", ["b"], {}⟩, ⟨"react", ⟨0, 30⟩, some "Early", ["a"], {}⟩]
    (by decide)).2
  refine (hunites.default_iff "Early").2 (.inl ⟨_, List.mem_cons_of_mem _ (List.mem_cons_self ..),
    rfl, rfl, ?_⟩)
  simp [Declaration.before]

end TidyImports
