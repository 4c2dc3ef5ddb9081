-- SUMMARY: After a clear plan, a module of the vocabulary has one import, or imports that bind nothing.
import TidyImports.Proofs.Plan.Runs

/-!
# One import for each module

Normalizing a module leaves its canonical import and no other, or only imports
that bind nothing. What the later steps do keeps it that way.
-/

namespace TidyImports

namespace Reading

variable {v : Vocabulary} {module other : String} {ws : List Warning} {r r' : Reading}

/-- Has the module one declaration with ascending items, or none that binds anything? -/
def IsSettled (r : Reading) (module : String) : Prop :=
  (∀ d ∈ r.declarationsOf module, d.localNames = []) ∨
    ∃ d, r.declarationsOf module = [d] ∧ d.named.Pairwise (· < ·)

theorem IsSettled.perm (h : r.IsSettled module)
    (hp : (r'.declarationsOf module).Perm (r.declarationsOf module)) : r'.IsSettled module := by
  rcases h with h | ⟨d, hd, hnamed⟩
  · exact .inl fun d hd => h d (hp.mem_iff.1 hd)
  · rw [hd] at hp
    exact .inr ⟨d, List.perm_singleton.1 hp, hnamed⟩

theorem Normalizes.isSettled (h : r.Normalizes v module ws r') : r'.IsSettled module := by
  rcases h.declarationsOf_self with ⟨rfl, hbinds, -⟩ | ⟨c, style, us, -, hc, hself, -⟩
  · left
    intro d hd
    obtain ⟨hdefault, hnamed⟩ := hbinds d hd
    rw [Declaration.localNames, hdefault, hnamed]
    rfl
  · exact .inr ⟨c.declaration style, hself, c.named.toList_ascending⟩

theorem Modules.isSettled_of_isSettled {ms : List ModuleRule} (h : Modules v ms r ws r')
    (hr : r.IsSettled module) : r'.IsSettled module := by
  induction h with
  | nil => exact hr
  | @cons m ms r r' r'' ws ws' h hs ih =>
    by_cases heq : m.specifier = module
    · subst heq
      exact ih h.isSettled
    · exact ih (hr.perm (h.declarationsOf_other heq))

/-- Each module that is normalized is settled. -/
theorem Modules.isSettled {ms : List ModuleRule} (h : Modules v ms r ws r') {m : ModuleRule}
    (hm : m ∈ ms) : r'.IsSettled m.specifier := by
  induction h with
  | nil => cases hm
  | @cons k ms r r' r'' ws ws' h hs ih =>
    rcases List.mem_cons.1 hm with rfl | hm
    · exact hs.isSettled_of_isSettled h.isSettled
    · exact ih hm

end Reading

/-- A declaration that binds a name of a module of the vocabulary, which the plan does not take for
a data file, is the module's only one in the result, and its items are strictly ascending. -/
theorem Project.plan_leaves_one_import {p : Project} {isFile : Path → Bool} {file : Path} {t : Text}
    {m : ModuleRule} {d : Declaration} (hv : p.vocabulary.Plain) (hc : p.Clear isFile file t)
    (hm : m ∈ p.vocabulary.modules) (hmodule : ¬ p.data.Addresses m.specifier)
    (hd : d ∈ (Script.parse (p.plan isFile file t).text).declarationsOf m.specifier)
    (hbinds : d.localNames ≠ []) :
    (Script.parse (p.plan isFile file t).text).declarationsOf m.specifier = [d] ∧
      d.named.Pairwise (· < ·) := by
  obtain ⟨r₁, r₂, ws, hrun⟩ := hc.runs hv
  have hperm := hrun.declarationsOf hmodule
  rw [Script.declarationsOf_reading] at hperm
  have hmem : d.bare ∈ ((Script.parse (p.plan isFile file t).text).declarationsOf
      m.specifier).map Declaration.bare := List.mem_map_of_mem hd
  obtain ⟨k, hk, hkd⟩ := List.mem_map.1 (hperm.mem_iff.1 hmem)
  have hnames := congrArg Declaration.localNames hkd
  have hnamed := congrArg Declaration.named hkd
  rcases hrun.modules.isSettled (Sorting.mem_sort.2 hm) with hnone | ⟨k', hsingle, hascending⟩
  · exact absurd (hnames.symm.trans (hnone k hk)) hbinds
  · rw [hsingle] at hk hperm
    cases List.mem_singleton.1 hk
    have hlength := hperm.length_eq
    rw [List.length_map, List.length_map] at hlength
    obtain ⟨e, he⟩ := List.length_eq_one_iff.1 hlength
    rw [he] at hd ⊢
    cases List.mem_singleton.1 hd
    exact ⟨rfl, hnamed ▸ hascending⟩

/-- The import that two are merged into. -/
theorem Project.plan_leaves_one_import_sample :
    let d : Declaration := ⟨"next/link", ⟨31, 70⟩, some "Link", ["a", "b"], ⟨.single, true⟩⟩
    let merged := (Script.parse (sample.plan sampleData ⟨"a.js"⟩ samplePage).text).declarationsOf
      "next/link"
    sample.vocabulary.Plain ∧ sample.Clear sampleData ⟨"a.js"⟩ samplePage ∧
      linkModule ∈ sample.vocabulary.modules ∧ ¬ sample.data.Addresses linkModule.specifier ∧
      d ∈ merged ∧ d.localNames ≠ [] ∧ merged = [d] ∧ d.named.Pairwise (· < ·) := by
  intro d merged
  have hm : linkModule ∈ sample.vocabulary.modules := by decide
  have hmodule : ¬ sample.data.Addresses linkModule.specifier := by decide +kernel
  have hd : d ∈ merged := by
    simp only [merged, plan_sample]
    decide +kernel
  have hbinds : d.localNames ≠ [] := by decide
  exact ⟨Vocabulary.plain_builtin, clear_sample, hm, hmodule, hd, hbinds,
    plan_leaves_one_import Vocabulary.plain_builtin clear_sample hm hmodule hd hbinds⟩

end TidyImports
