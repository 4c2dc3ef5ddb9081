-- SUMMARY: A clear plan keeps the names that a file imports, or reports the defaults it discards.
import TidyImports.Proofs.Plan.Runs

/-!
# Names are kept

Normalizing a module keeps its items and its first default, and reports every
other default. The other steps leave the declarations of the module alone, but
for the text of specifiers that address data files.
-/

namespace TidyImports

namespace Reading

variable {v : Vocabulary} {module other item name : String} {ws : List Warning} {r r' : Reading}

/-- Does a declaration of the module have the item? -/
def HasItem (r : Reading) (module item : String) : Prop :=
  ∃ d ∈ r.declarationsOf module, item ∈ d.named

/-- Does a declaration of the module have the default? -/
def HasDefault (r : Reading) (module name : String) : Prop :=
  ∃ d ∈ r.declarationsOf module, d.default? = some name

theorem HasItem.perm (h : r.HasItem module item)
    (hp : (r'.declarationsOf module).Perm (r.declarationsOf module)) : r'.HasItem module item := by
  obtain ⟨d, hd, hitem⟩ := h
  exact ⟨d, hp.mem_iff.2 hd, hitem⟩

theorem HasDefault.perm (h : r.HasDefault module name)
    (hp : (r'.declarationsOf module).Perm (r.declarationsOf module)) : r'.HasDefault module name := by
  obtain ⟨d, hd, hname⟩ := h
  exact ⟨d, hp.mem_iff.2 hd, hname⟩

theorem Normalizes.hasItem (h : r.Normalizes v other ws r') (hitem : r.HasItem module item) :
    r'.HasItem module item := by
  by_cases heq : other = module
  · subst heq
    rcases h.declarationsOf_self with ⟨rfl, -, -⟩ | ⟨c, style, us, -, hc, hself, -⟩
    · exact hitem
    · refine ⟨c.declaration style, ?_, hc.mem_named.2 (.inl hitem)⟩
      rw [hself]
      exact List.mem_singleton_self _
  · exact hitem.perm (h.declarationsOf_other heq)

theorem Normalizes.hasDefault (h : r.Normalizes v other ws r') (hname : r.HasDefault module name) :
    r'.HasDefault module name ∨ ∃ kept, .defaultConflict module kept name ∈ ws := by
  by_cases heq : other = module
  · subst heq
    rcases h.declarationsOf_self with ⟨rfl, -, -⟩ | ⟨c, style, us, -, hc, hself, haccounts⟩
    · exact .inl hname
    · obtain ⟨d, hd, hdefault⟩ := hname
      refine (haccounts d hd name hdefault).imp_left fun hkept => ⟨c.declaration style, ?_, hkept⟩
      rw [hself]
      exact List.mem_singleton_self _
  · exact .inl (hname.perm (h.declarationsOf_other heq))

theorem Modules.hasItem {ms : List ModuleRule} (h : Modules v ms r ws r')
    (hitem : r.HasItem module item) : r'.HasItem module item := by
  induction h with
  | nil => exact hitem
  | cons h hs ih => exact ih (h.hasItem hitem)

theorem Modules.hasDefault {ms : List ModuleRule} (h : Modules v ms r ws r')
    (hname : r.HasDefault module name) :
    r'.HasDefault module name ∨ ∃ kept, .defaultConflict module kept name ∈ ws := by
  induction h with
  | nil => exact .inl hname
  | cons h hs ih =>
    rcases h.hasDefault hname with hname | ⟨kept, hkept⟩
    · exact (ih hname).imp_right fun ⟨kept, hkept⟩ => ⟨kept, List.mem_append_right _ hkept⟩
    · exact .inr ⟨kept, List.mem_append_left _ hkept⟩

end Reading

/-- A default or an item of a module that the plan does not take for a data file is still imported
in the result, or a default is reported as discarded. -/
theorem Project.plan_keeps_names {p : Project} {isFile : Path → Bool} {file : Path} {t : Text}
    {module : String} {d : Declaration} (hv : p.vocabulary.Plain) (hc : p.Clear isFile file t)
    (hmodule : ¬ p.data.Addresses module) (hd : d ∈ (Script.parse t).declarationsOf module) :
    (∀ item ∈ d.named, ∃ d' ∈ (Script.parse (p.plan isFile file t).text).declarationsOf module,
        item ∈ d'.named) ∧
      ∀ name, d.default? = some name →
        (∃ d' ∈ (Script.parse (p.plan isFile file t).text).declarationsOf module,
            d'.default? = some name) ∨
          ∃ kept, .defaultConflict module kept name ∈ (p.plan isFile file t).warnings := by
  obtain ⟨r₁, r₂, ws, hrun⟩ := hc.runs hv
  have hd' : d.bare ∈ (Script.parse t).reading.declarationsOf module := by
    rw [Script.declarationsOf_reading]
    exact List.mem_map_of_mem hd
  -- A declaration among those of the normalized modules is one of the result, but for its place.
  have hresult : ∀ k ∈ r₁.declarationsOf module,
      ∃ d' ∈ (Script.parse (p.plan isFile file t).text).declarationsOf module,
        d'.default? = k.default? ∧ d'.named = k.named := by
    intro k hk
    have hmem := (hrun.declarationsOf hmodule).mem_iff.2 (List.mem_map_of_mem hk)
    rw [Script.declarationsOf_reading] at hmem
    obtain ⟨d', hmem', heq⟩ := List.mem_map.1 hmem
    have hdefault := congrArg Declaration.default? heq
    have hnamed := congrArg Declaration.named heq
    exact ⟨d', hmem', hdefault, hnamed⟩
  constructor
  · intro item hitem
    obtain ⟨k, hk, hkitem⟩ := hrun.modules.hasItem ⟨d.bare, hd', hitem⟩
    obtain ⟨d', hmem, -, hnamed⟩ := hresult k hk
    exact ⟨d', hmem, hnamed ▸ hkitem⟩
  · intro name hname
    rcases hrun.modules.hasDefault ⟨d.bare, hd', hname⟩ with ⟨k, hk, hkname⟩ | ⟨kept, hkept⟩
    · obtain ⟨d', hmem, hdefault, -⟩ := hresult k hk
      exact .inl ⟨d', hmem, hdefault.trans hkname⟩
    · exact .inr ⟨kept, hrun.warnings _ hkept⟩

/-- The first of two imports that are merged. -/
theorem Project.plan_keeps_names_sample :
    let d : Declaration := ⟨"next/link", ⟨0, 36⟩, some "Link", ["a"], ⟨.single, true⟩⟩
    let planned := sample.plan sampleData ⟨"a.js"⟩ samplePage
    let kept := (Script.parse planned.text).declarationsOf "next/link"
    sample.vocabulary.Plain ∧ sample.Clear sampleData ⟨"a.js"⟩ samplePage ∧
      ¬ sample.data.Addresses "next/link" ∧
      d ∈ (Script.parse samplePage).declarationsOf "next/link" ∧
      (∃ d' ∈ kept, "a" ∈ d'.named) ∧
      ((∃ d' ∈ kept, d'.default? = some "Link") ∨
        ∃ other, .defaultConflict "next/link" other "Link" ∈ planned.warnings) := by
  intro d planned kept
  have hmodule : ¬ sample.data.Addresses "next/link" := by decide +kernel
  have hd : d ∈ (Script.parse samplePage).declarationsOf "next/link" := by decide +kernel
  obtain ⟨hnamed, hdefault⟩ := plan_keeps_names Vocabulary.plain_builtin clear_sample hmodule hd
  exact ⟨Vocabulary.plain_builtin, clear_sample, hmodule, hd,
    hnamed "a" (List.mem_singleton_self _), hdefault "Link" rfl⟩

end TidyImports
