-- SUMMARY: What synthesis keeps: a union of items, the first default, and a report of each other.
import TidyImports.Import.Synthesis

/-!
# Synthesis keeps names

The items of the canonical import are those of the declarations and the named
usages. Its default is the first of the declarations, or a default usage that no
item binds. Each other default of the declarations is reported.
-/

namespace TidyImports

namespace Item

variable {named : SortedSet String} {name : String}

theorem anyBinds_iff : anyBinds named name ↔ ∃ item ∈ named, item = name ∨ alias? item = some name := by
  simp [anyBinds]

/-- No item binds the name if it is neither the text nor the alias of one. -/
theorem localName_ne {item : String} (h : anyBinds named name = false) (hi : item ∈ named) :
    localName item ≠ name := by
  intro heq
  have hany : anyBinds named name := by
    refine anyBinds_iff.2 ⟨item, hi, ?_⟩
    cases ha : alias? item with
    | none =>
      left
      rw [← heq, localName, ha]
      rfl
    | some a =>
      right
      rw [← heq, localName, ha]
      rfl
  rw [h] at hany
  cases hany

end Item

namespace Synthesis.Draft

variable {module : String} {draft : Draft} {ds : List Declaration} {us : List Usage}
  {item name : String}

-- ---------------------------------------------------------------------------
-- Items
-- ---------------------------------------------------------------------------

@[simp] theorem named_claim : (draft.claim module name).named = draft.named := by
  rw [claim]
  split
  · rfl
  · split <;> rfl

theorem mem_named_addDeclarations :
    item ∈ (ds.foldl (addDeclaration module) draft).named ↔
      item ∈ draft.named ∨ ∃ d ∈ ds, item ∈ d.named := by
  induction ds generalizing draft with
  | nil => simp
  | cons d ds ih =>
    have hstep : (draft.addDeclaration module d).named = draft.named.insertMany d.named := by
      rw [addDeclaration]
      split
      · rfl
      · exact named_claim
    rw [List.foldl_cons, ih, hstep, SortedSet.mem_insertMany, or_assoc]
    simp

theorem named_addUsage {u : Usage} :
    (draft.addUsage module u).named =
      if u.binding = .named then draft.named.insert u.name else draft.named := by
  rw [addUsage]
  split
  · next h => rw [h]; rfl
  · next h =>
    rw [h]
    simp only [reduceCtorEq, if_false]
    split
    · rfl
    · exact named_claim

theorem mem_named_addUsages :
    item ∈ (us.foldl (addUsage module) draft).named ↔
      item ∈ draft.named ∨ ∃ u ∈ us, u.binding = .named ∧ u.name = item := by
  induction us generalizing draft with
  | nil => simp
  | cons u us ih =>
    rw [List.foldl_cons, ih, named_addUsage]
    by_cases h : u.binding = .named
    · rw [if_pos h, SortedSet.mem_insert]
      simp only [List.mem_cons, exists_eq_or_imp, h, true_and, eq_comm (a := item)]
      exact or_assoc.trans or_left_comm
    · rw [if_neg h]
      simp [h]

-- ---------------------------------------------------------------------------
-- Defaults
-- ---------------------------------------------------------------------------

/-- Is a default kept, or reported as discarded? -/
def Accounts (module : String) (draft : Draft) (name : String) : Prop :=
  draft.default? = some name ∨ ∃ kept, .defaultConflict module kept name ∈ draft.conflicts

theorem default?_claim : (draft.claim module name).default? = draft.default?.or (some name) := by
  rw [claim]
  cases h : draft.default? with
  | none => rfl
  | some kept => simp only; split <;> simp [h]

theorem accounts_claim : (draft.claim module name).Accounts module name := by
  rw [claim]
  cases h : draft.default? with
  | none => exact .inl rfl
  | some kept =>
    simp only
    split
    · next heq => exact .inl (heq ▸ h)
    · exact .inr ⟨kept, List.mem_append_right _ (List.mem_singleton_self _)⟩

theorem Accounts.claim {other : String} (h : draft.Accounts module name) :
    (draft.claim module other).Accounts module name := by
  rcases h with h | ⟨kept, h⟩
  · left
    rw [default?_claim, h]
    rfl
  · refine .inr ⟨kept, ?_⟩
    rw [Draft.claim]
    split
    · exact h
    · split
      · exact h
      · exact List.mem_append_left _ h

theorem default?_addDeclarations :
    (ds.foldl (addDeclaration module) draft).default? =
      draft.default?.or (ds.findSome? (·.default?)) := by
  induction ds generalizing draft with
  | nil => simp
  | cons d ds ih =>
    have hstep : (draft.addDeclaration module d).default? = draft.default?.or d.default? := by
      rw [addDeclaration]
      split
      · next h => rw [h, Option.or_none]
      · next h => rw [h, default?_claim]
    rw [List.foldl_cons, ih, hstep, Option.or_assoc, List.findSome?_cons]
    cases d.default? <;> rfl

theorem Accounts.addDeclarations (h : draft.Accounts module name) :
    (ds.foldl (addDeclaration module) draft).Accounts module name := by
  induction ds generalizing draft with
  | nil => exact h
  | cons d ds ih =>
    refine ih ?_
    rw [addDeclaration]
    split
    · exact h
    · exact Accounts.claim h

/-- Each default of the declarations is kept or reported. -/
theorem accounts_addDeclarations {d : Declaration} (hd : d ∈ ds) (h : d.default? = some name) :
    (ds.foldl (addDeclaration module) draft).Accounts module name := by
  induction ds generalizing draft with
  | nil => cases hd
  | cons d' ds ih =>
    rw [List.foldl_cons]
    rcases List.mem_cons.1 hd with rfl | hd
    · refine Accounts.addDeclarations ?_
      rw [addDeclaration, h]
      exact accounts_claim
    · exact ih hd

theorem Accounts.addUsages (h : draft.Accounts module name) :
    (us.foldl (addUsage module) draft).Accounts module name := by
  induction us generalizing draft with
  | nil => exact h
  | cons u us ih =>
    refine ih ?_
    rw [addUsage]
    split
    · exact h
    · split
      · exact h
      · exact h.claim

theorem default?_addUsages (h : draft.default? = some name) :
    (us.foldl (addUsage module) draft).default? = some name := by
  induction us generalizing draft with
  | nil => exact h
  | cons u us ih =>
    refine ih ?_
    rw [addUsage]
    split
    · exact h
    · split
      · exact h
      · rw [default?_claim, h]
        rfl

/-- Named usages of a name come before default usages of it. -/
def NamedFirst (us : List Usage) : Prop :=
  us.Pairwise fun a b => a.binding = .default → b.binding = .named → b.name ≠ a.name

/-- A default that a usage claims is the name of no item. -/
theorem default?_of_usages (hwords : ∀ u ∈ us, Item.alias? u.name = none) (hus : NamedFirst us)
    (hnone : draft.default? = none)
    (h : (us.foldl (addUsage module) draft).default? = some name) :
    (∃ u ∈ us, u.binding = .default ∧ u.name = name) ∧
      Item.anyBinds (us.foldl (addUsage module) draft).named name = false := by
  induction us generalizing draft with
  | nil =>
    rw [List.foldl_nil, hnone] at h
    cases h
  | cons u us ih =>
    rw [List.foldl_cons] at h ⊢
    have hrec := @ih (draft.addUsage module u)
      (fun w hw => hwords w (List.mem_cons_of_mem _ hw)) hus.of_cons
    cases hstep : (draft.addUsage module u).default? with
    | none =>
      obtain ⟨⟨w, hw, hw'⟩, hbinds⟩ := hrec hstep h
      exact ⟨⟨w, List.mem_cons_of_mem _ hw, hw'⟩, hbinds⟩
    | some kept =>
      have hkept : kept = name := by
        rw [default?_addUsages hstep] at h
        exact Option.some.inj h
      subst hkept
      obtain ⟨hu, hname, hfree⟩ : u.binding = .default ∧ u.name = kept ∧
          Item.anyBinds draft.named u.name = false := by
        rw [addUsage] at hstep
        split at hstep
        · rw [hnone] at hstep
          cases hstep
        · next hb =>
          split at hstep
          · rw [hnone] at hstep
            cases hstep
          · next hfree =>
            rw [default?_claim, hnone] at hstep
            exact ⟨hb, Option.some.inj hstep, by simpa using hfree⟩
      refine ⟨⟨u, List.mem_cons_self .., hu, hname⟩, ?_⟩
      rw [← Bool.not_eq_true]
      intro hany
      obtain ⟨item, hitem, hbinds⟩ := Item.anyBinds_iff.1 hany
      rw [mem_named_addUsages, named_addUsage, if_neg (by rw [hu]; decide)] at hitem
      rcases hitem with hitem | ⟨w, hw, hwb, rfl⟩
      · have : Item.anyBinds draft.named u.name := Item.anyBinds_iff.2 ⟨item, hitem, hname ▸ hbinds⟩
        rw [hfree] at this
        cases this
      · rcases hbinds with hbinds | hbinds
        · exact List.rel_of_pairwise_cons hus hw hu hwb (hbinds.trans hname.symm)
        · rw [hwords w (List.mem_cons_of_mem _ hw)] at hbinds
          cases hbinds

/-- A default usage leaves a default, unless an item binds its name. -/
theorem default?_isSome_addUsages {u : Usage} (hu : u ∈ us) (hb : u.binding = .default) :
    (us.foldl (addUsage module) draft).default?.isSome ∨
      Item.anyBinds (us.foldl (addUsage module) draft).named u.name := by
  induction us generalizing draft with
  | nil => cases hu
  | cons w us ih =>
    rw [List.foldl_cons]
    rcases List.mem_cons.1 hu with rfl | hu
    · by_cases hany : Item.anyBinds draft.named u.name
      · right
        obtain ⟨item, hitem, hbinds⟩ := Item.anyBinds_iff.1 hany
        refine Item.anyBinds_iff.2 ⟨item, mem_named_addUsages.2 (.inl ?_), hbinds⟩
        rw [named_addUsage, if_neg (by rw [hb]; decide)]
        exact hitem
      · left
        have hstep : ∃ kept, (draft.addUsage module u).default? = some kept := by
          rw [addUsage, hb]
          simp only [hany, Bool.false_eq_true, if_false, default?_claim]
          cases draft.default? with
          | none => exact ⟨u.name, rfl⟩
          | some kept => exact ⟨kept, rfl⟩
        obtain ⟨kept, hkept⟩ := hstep
        rw [default?_addUsages hkept]
        rfl
    · exact ih hu

end Synthesis.Draft

-- ---------------------------------------------------------------------------
-- Results
-- ---------------------------------------------------------------------------

/-- A canonical import binds what declarations of its module bind and what usages call for. -/
structure Canonical.Merges (c : Canonical) (module : String) (ds : List Declaration)
    (us : List Usage) : Prop where
  specifier : c.specifier = module
  mem_named {item : String} : item ∈ c.named ↔
    (∃ d ∈ ds, item ∈ d.named) ∨ ∃ u ∈ us, u.binding = .named ∧ u.name = item
  /-- The first default of the declarations is kept. -/
  kept {name : String} : ds.findSome? (·.default?) = some name → c.default? = some name
  /-- Another default is that of a usage, and no item binds it. -/
  claimed {name : String} : ds.findSome? (·.default?) = none → c.default? = some name →
    (∃ u ∈ us, u.binding = .default ∧ u.name = name) ∧ Item.anyBinds c.named name = false
  settles {u : Usage} : u ∈ us → u.binding = .default →
    c.default?.isSome ∨ Item.anyBinds c.named u.name
  binds : c.default?.isSome ∨ c.named.isEmpty = false

/-- The default of a merged import is that of a declaration, or a usage claims it and no item binds
it. -/
theorem Canonical.Merges.default?_origin {c : Canonical} {module name : String}
    {ds : List Declaration} {us : List Usage} (h : c.Merges module ds us)
    (hname : c.default? = some name) :
    (∃ d ∈ ds, d.default? = some name) ∨
      Item.anyBinds c.named name = false ∧ ∃ u ∈ us, u.name = name := by
  cases hfirst : ds.findSome? (·.default?) with
  | none =>
    obtain ⟨⟨u, hu, -, hu'⟩, hbinds⟩ := h.claimed hfirst hname
    exact .inr ⟨hbinds, u, hu, hu'⟩
  | some kept =>
    have hkept := h.kept hfirst
    rw [hname] at hkept
    cases hkept
    exact .inl (List.exists_of_findSome?_eq_some hfirst)

namespace Synthesis

/-- What is gathered from declarations and usages. -/
def gather (module : String) (ds : List Declaration) (us : List Usage) : Draft :=
  us.foldl (Draft.addUsage module) (ds.foldl (Draft.addDeclaration module) {})

end Synthesis

open Synthesis

variable {module : String} {ds : List Declaration} {us : UsageSet}

/-- Synthesis from the declarations of one module in file order. -/
theorem synthesize_eq (hsorted : ds.Pairwise fun a b => Declaration.before a b)
    (hown : ∀ d ∈ ds, d.specifier = module) :
    synthesize module ds us =
      { canonical? :=
          if (gather module ds (us.ofModule module)).default?.isSome ||
            !(gather module ds (us.ofModule module)).named.isEmpty then
            some ⟨module, (gather module ds (us.ofModule module)).default?,
              (gather module ds (us.ofModule module)).named⟩
          else none
        style := (ds.head?.map (·.style)).getD {}
        conflicts := (gather module ds (us.ofModule module)).conflicts } := by
  have hfilter : ds.filter (·.specifier == module) = ds :=
    List.filter_eq_self.2 fun d hd => beq_iff_eq.2 (hown d hd)
  rw [synthesize, hfilter, Sorting.sort_eq_self hsorted]
  rfl

/-- A set of strings is strictly ascending. -/
theorem SortedSet.toList_ascending (s : SortedSet String) : s.toList.Pairwise (· < ·) := by
  refine s.ascending.imp fun {a b} h => ?_
  rw [show compare a b = compareOfLessAndEq a b from rfl, compareOfLessAndEq] at h
  split at h
  · next hlt => exact hlt
  · split at h <;> cases h

theorem SortedSet.namedFirst_ofModule (us : UsageSet) (module : String) :
    Draft.NamedFirst (us.ofModule module) := by
  have hsorted := us.ascending.sublist (List.filter_sublist (p := (·.module == module)))
  refine hsorted.imp_of_mem fun {a b} ha hb hlt hda hnb hname => ?_
  have ha : a.module = module := eq_of_beq (List.mem_filter.1 ha).2
  have hb : b.module = module := eq_of_beq (List.mem_filter.1 hb).2
  obtain ⟨am, an, ab⟩ := a
  obtain ⟨bm, bn, bb⟩ := b
  cases ha
  cases hb
  cases hda
  cases hnb
  cases hname
  change compareLex (compareOn Usage.module) (compareLex (compareOn Usage.name)
    (compareOn Usage.binding)) _ _ = .lt at hlt
  simp only [compareLex, compareOn, Std.ReflCmp.compare_self] at hlt
  cases hlt

theorem synthesize_some {c : Canonical} (hsorted : ds.Pairwise fun a b => Declaration.before a b)
    (hown : ∀ d ∈ ds, d.specifier = module)
    (hwords : ∀ u ∈ us.ofModule module, Item.alias? u.name = none)
    (h : (synthesize module ds us).canonical? = some c) :
    c.Merges module ds (us.ofModule module) := by
  rw [synthesize_eq hsorted hown] at h
  simp only [Option.ite_none_right_eq_some, Option.some.injEq, Bool.or_eq_true,
    Bool.not_eq_true'] at h
  obtain ⟨hbinds, rfl⟩ := h
  constructor
  · rfl
  · intro item
    exact Draft.mem_named_addUsages.trans (or_congr_left (Draft.mem_named_addDeclarations.trans
      (or_iff_right (SortedSet.not_mem_empty _))))
  · intro name hname
    refine Draft.default?_addUsages ?_
    rw [Draft.default?_addDeclarations, hname]
    rfl
  · intro name hnone hname
    exact Draft.default?_of_usages hwords (us.namedFirst_ofModule module)
      (by rw [Draft.default?_addDeclarations, hnone]; rfl) hname
  · intro u hu hb
    exact Draft.default?_isSome_addUsages hu hb
  · exact hbinds

/-- Nothing is bound and nothing is used when there is no canonical import. -/
theorem synthesize_none (hsorted : ds.Pairwise fun a b => Declaration.before a b)
    (hown : ∀ d ∈ ds, d.specifier = module) (h : (synthesize module ds us).canonical? = none) :
    (∀ d ∈ ds, d.default? = none ∧ d.named = []) ∧ us.ofModule module = [] := by
  rw [synthesize_eq hsorted hown] at h
  simp only [ite_eq_right_iff, reduceCtorEq, imp_false, Bool.or_eq_true, not_or,
    Bool.not_eq_true', Bool.not_eq_true, Option.isSome_eq_false_iff, Option.isNone_iff_eq_none,
    Bool.not_eq_false] at h
  obtain ⟨hdefault, hnamed⟩ := h
  have hempty : ∀ item, item ∉ (gather module ds (us.ofModule module)).named := fun item hitem => by
    rw [SortedSet.isEmpty, List.isEmpty_iff] at hnamed
    have hitem : item ∈ (gather module ds (us.ofModule module)).named.toList := hitem
    rw [hnamed] at hitem
    cases hitem
  have hds : ∀ d ∈ ds, d.named = [] := fun d hd =>
    List.eq_nil_iff_forall_not_mem.2 fun item hitem => hempty item
      (Draft.mem_named_addUsages.2 (.inl (Draft.mem_named_addDeclarations.2 (.inr ⟨d, hd, hitem⟩))))
  refine ⟨fun d hd => ⟨?_, hds d hd⟩, List.eq_nil_iff_forall_not_mem.2 fun u hu => ?_⟩
  · cases hfirst : ds.findSome? (·.default?) with
    | none => exact List.findSome?_eq_none_iff.1 hfirst d hd
    | some name =>
      have : (gather module ds (us.ofModule module)).default? = some name := by
        refine Draft.default?_addUsages ?_
        rw [Draft.default?_addDeclarations, hfirst]
        rfl
      rw [this] at hdefault
      cases hdefault
  · cases hb : u.binding with
    | named => exact hempty u.name (Draft.mem_named_addUsages.2 (.inr ⟨u, hu, hb, rfl⟩))
    | default =>
      rcases @Draft.default?_isSome_addUsages module
        (ds.foldl (Draft.addDeclaration module) {}) _ _ hu hb with hsome | hany
      · have : (gather module ds (us.ofModule module)).default?.isSome := hsome
        rw [hdefault] at this
        cases this
      · obtain ⟨item, hitem, -⟩ := Item.anyBinds_iff.1 hany
        exact hempty item hitem

/-- Each default of the declarations is kept or reported. -/
theorem synthesize_accounts {d : Declaration} {name : String}
    (hsorted : ds.Pairwise fun a b => Declaration.before a b)
    (hown : ∀ d ∈ ds, d.specifier = module) (hd : d ∈ ds) (hname : d.default? = some name) :
    (∃ c, (synthesize module ds us).canonical? = some c ∧ c.default? = some name) ∨
      ∃ kept, .defaultConflict module kept name ∈ (synthesize module ds us).conflicts := by
  have haccounts : (gather module ds (us.ofModule module)).Accounts module name :=
    (Draft.accounts_addDeclarations hd hname).addUsages
  rw [synthesize_eq hsorted hown]
  rcases haccounts with h | h
  · have hsome : (gather module ds (us.ofModule module)).default? = some name := h
    refine .inl ⟨_, if_pos ?_, hsome⟩
    rw [hsome]
    rfl
  · exact .inr h

end TidyImports
