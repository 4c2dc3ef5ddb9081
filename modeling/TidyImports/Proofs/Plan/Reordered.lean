-- SUMMARY: The order of modules and of their symbols in a vocabulary does not matter to a plan.
import Mathlib.Data.List.Forall2
import TidyImports.Proofs.Plan.Idempotence

/-!
# Reordered vocabularies

A plan asks a vocabulary two things: which usages a script has, which is a set,
and the modules by their specifiers. Modules with distinct specifiers have one
order by them. So each step of a plan is the same for vocabularies in different
orders, whatever the steps before it have claimed.
-/

namespace TidyImports

-- ---------------------------------------------------------------------------
-- Sorting
-- ---------------------------------------------------------------------------

namespace Sorting

variable {α : Type} {before : α → α → Bool} {R : α → α → Prop} {x x' : α} {xs xs' : List α}

theorem forall₂_insert (hbefore : ∀ {a b a' b'}, R a a' → R b b' → before a' b' = before a b)
    (hx : R x x') (h : List.Forall₂ R xs xs') :
    List.Forall₂ R (insert before x xs) (insert before x' xs') := by
  induction h with
  | nil => exact .cons hx .nil
  | cons hy h ih =>
    rw [insert, insert, hbefore hx hy]
    split
    · exact .cons hx (.cons hy h)
    · exact .cons hy ih

/-- Lists whose elements are related and sorted alike stay related. -/
theorem forall₂_sort (hbefore : ∀ {a b a' b'}, R a a' → R b b' → before a' b' = before a b)
    (h : List.Forall₂ R xs xs') : List.Forall₂ R (sort before xs) (sort before xs') := by
  induction h with
  | nil => exact .nil
  | cons hx _ ih => exact forall₂_insert hbefore hx ih

end Sorting

-- ---------------------------------------------------------------------------
-- Vocabularies
-- ---------------------------------------------------------------------------

/-- The same rule, with its symbols in another order. -/
structure ModuleRule.Reordered (m m' : ModuleRule) : Prop where
  specifier : m'.specifier = m.specifier
  requiresDirective : m'.requiresDirective = m.requiresDirective
  symbols : m'.symbols.Perm m.symbols

/-- The same vocabulary, with its modules in another order and the symbols of each in another. -/
structure Vocabulary.Reordered (v v' : Vocabulary) : Prop where
  clientDirective : v'.clientDirective = v.clientDirective
  data : v'.data = v.data
  modules : ∃ ms, ms.Perm v.modules ∧ List.Forall₂ ModuleRule.Reordered ms v'.modules

namespace Vocabulary

variable {v v' : Vocabulary}

/-- Modules with distinct specifiers are sorted in one way. -/
theorem sortedModules_perm {ms : List ModuleRule} (hperm : ms.Perm v.modules)
    (hdistinct : (v.modules.map ModuleRule.specifier).Nodup) :
    ({ v with modules := ms } : Vocabulary).sortedModules = v.sortedModules := by
  have hms := ((hperm.map ModuleRule.specifier).nodup_iff).2 hdistinct
  have hsorted : ({ v with modules := ms } : Vocabulary).sortedModules.Perm v.sortedModules :=
    (Sorting.sort_perm _ ms).trans (hperm.trans (Sorting.sort_perm _ v.modules).symm)
  refine hsorted.eq_of_pairwise (fun a b _ _ hab hba => ?_)
    (pairwise_sortedModules (v := { v with modules := ms }) hms) (pairwise_sortedModules hdistinct)
  exact absurd (String.lt_trans hab hba) (String.lt_irrefl _)

namespace Reordered

/-- By their specifiers, the modules correspond one by one. -/
theorem sortedModules (h : v.Reordered v')
    (hdistinct : (v.modules.map ModuleRule.specifier).Nodup) :
    List.Forall₂ ModuleRule.Reordered v.sortedModules v'.sortedModules := by
  obtain ⟨ms, hperm, hms⟩ := h.modules
  rw [← sortedModules_perm hperm hdistinct]
  refine Sorting.forall₂_sort (fun ha hb => ?_) hms
  rw [ha.specifier, hb.specifier]

/-- Each symbol belongs to the same modules. -/
theorem symbol_iff (h : v.Reordered v') {specifier : String} {s : SymbolRule} :
    (∃ m ∈ v'.modules, m.specifier = specifier ∧ s ∈ m.symbols) ↔
      ∃ m ∈ v.modules, m.specifier = specifier ∧ s ∈ m.symbols := by
  have hrelated : ∀ {ms ms' : List ModuleRule}, List.Forall₂ ModuleRule.Reordered ms ms' →
      ((∃ m ∈ ms', m.specifier = specifier ∧ s ∈ m.symbols) ↔
        ∃ m ∈ ms, m.specifier = specifier ∧ s ∈ m.symbols) := by
    intro ms ms' hms
    induction hms with
    | nil => exact Iff.rfl
    | cons hm _ ih =>
      rw [List.exists_mem_cons_iff, List.exists_mem_cons_iff, hm.specifier, hm.symbols.mem_iff, ih]
  obtain ⟨ms, hperm, hms⟩ := h.modules
  rw [hrelated hms]
  simp only [hperm.mem_iff]

theorem usages (h : v.Reordered v') (s : Script) : s.usages v' = s.usages v := by
  have huses : ∀ (v : Vocabulary) u, s.reading.Uses v u ↔
      ∃ rule, (∃ m ∈ v.modules, m.specifier = u.module ∧ rule ∈ m.symbols) ∧
        rule.name = u.name ∧ rule.binding = u.binding ∧
        ¬ s.reading.bindsElsewhere rule.name u.module ∧
          ∃ use ∈ s.reading.uses, use.name = rule.name ∧ Reading.Accepts rule.pattern use := by
    intro v u
    constructor
    · rintro ⟨m, hm, rule, hrule, rfl, hfree, huse⟩
      exact ⟨rule, ⟨m, hm, rfl, hrule⟩, rfl, rfl, hfree, huse⟩
    · rintro ⟨rule, ⟨m, hm, hmodule, hrule⟩, hname, hbinding, hfree, huse⟩
      exact ⟨m, hm, rule, hrule, by rw [hmodule, hname, hbinding], hmodule ▸ hfree, huse⟩
  refine SortedSet.eq_of_mem_iff fun u => ?_
  rw [Script.mem_usages, Script.mem_usages, huses, huses]
  simp only [h.symbol_iff]

theorem moduleStep {m m' : ModuleRule} (h : v.Reordered v') (hm : m.Reordered m') (eol : Text)
    (s : Script) : moduleStep v' m' eol s = moduleStep v m eol s := by
  have hcanonical : canonicalStep v' m' eol s = canonicalStep v m eol s := by
    funext ds canonical rendered
    simp only [canonicalStep, directiveEdits, hm.specifier, hm.requiresDirective, h.clientDirective]
  simp only [TidyImports.moduleStep, hcanonical, hm.specifier, h.usages]

end Reordered

end Vocabulary

-- ---------------------------------------------------------------------------
-- Plans
-- ---------------------------------------------------------------------------

namespace Project

variable {p : Project} {v : Vocabulary}

theorem steps_reordered (h : p.vocabulary.Reordered v)
    (hdistinct : (p.vocabulary.modules.map ModuleRule.specifier).Nodup) (isFile : Path → Bool)
    (file : Path) (eol : Text) :
    ({ p with vocabulary := v } : Project).steps isFile file eol = p.steps isFile file eol := by
  have hmodules : (v.sortedModules.map fun m => moduleStep v m eol) =
      p.vocabulary.sortedModules.map fun m => moduleStep p.vocabulary m eol := by
    rw [eq_comm, ← List.forall₂_eq_eq_eq, List.forall₂_map_left_iff, List.forall₂_map_right_iff]
    exact (h.sortedModules hdistinct).imp fun m m' hm => (funext (h.moduleStep hm eol)).symm
  simp only [steps, data, hmodules, h.data]

/-- Vocabularies that differ in the order of their modules, and of the symbols in each, give the
same plan for every file: the same text, changes and warnings. -/
theorem plan_reordered (h : p.vocabulary.Reordered v)
    (hdistinct : (p.vocabulary.modules.map ModuleRule.specifier).Nodup) (isFile : Path → Bool)
    (file : Path) (t : Text) :
    ({ p with vocabulary := v } : Project).plan isFile file t = p.plan isFile file t := by
  rw [plan, steps_reordered h hdistinct]
  rfl

/-- Two modules with a symbol in common. -/
def sharingModules : Vocabulary where
  modules := [⟨"react", true, [{ name := "useRef" }, { name := "useState" }]⟩,
    ⟨"preact/hooks", false, [{ name := "useState" }]⟩]

/-- The same modules in the other order, and so the symbols of the one that has two. -/
def sharingModulesReordered : Vocabulary where
  modules := [⟨"preact/hooks", false, [{ name := "useState" }]⟩,
    ⟨"react", true, [{ name := "useState" }, { name := "useRef" }]⟩]

theorem sharingModules_reordered : sharingModules.Reordered sharingModulesReordered where
  clientDirective := rfl
  data := rfl
  modules := ⟨_, .swap _ _ [],
    .cons ⟨rfl, rfl, .refl _⟩ (.cons ⟨rfl, rfl, .swap _ _ []⟩ .nil)⟩

/-- Whichever module comes first, its claim on the symbol is the same. -/
theorem plan_reordered_sharing :
    ({ root := ⟨"/p"⟩, vocabulary := sharingModulesReordered } : Project).plan (fun _ => false)
        ⟨"/p/a.js"⟩ "useState(0);\n".toList =
      ({ root := ⟨"/p"⟩, vocabulary := sharingModules } : Project).plan (fun _ => false)
        ⟨"/p/a.js"⟩ "useState(0);\n".toList :=
  plan_reordered (p := { root := ⟨"/p"⟩, vocabulary := sharingModules }) sharingModules_reordered
    (by decide) _ _ _

end Project

end TidyImports
