-- SUMMARY: A clear plan keeps the names distinct that the imports of a file bind.
import Mathlib.Data.List.Nodup
import Mathlib.Data.List.Perm.Basic
import TidyImports.Proofs.Plan.Runs

/-!
# Names stay distinct

When the imports of a script bind distinct names, so do those of its plan. What
is needed beside clear edits is that no named symbol in use is already a default
or an alias in an import of its own module: synthesis asks the other modules for
such a name, and not its own.
-/

namespace TidyImports

theorem Declaration.mem_localNames {d : Declaration} {name : String} :
    name ∈ d.localNames ↔ d.default? = some name ∨ ∃ item ∈ d.named, Item.localName item = name := by
  rw [localNames, List.mem_append, Option.mem_toList, List.mem_map]

/-- A word binds itself. -/
theorem Item.localName_of_alias? {name : String} (h : alias? name = none) : localName name = name := by
  rw [localName, h]
  rfl

namespace Canonical.Merges

variable {c : Canonical} {module name : String} {ds : List Declaration} {us : List Usage}
  {style : Style}

/-- A name of a merged import is one of its declarations, or the name of a usage. -/
theorem mem_localNames (h : c.Merges module ds us) (hwords : ∀ u ∈ us, Item.alias? u.name = none)
    (hname : name ∈ (c.declaration style).localNames) :
    (∃ d ∈ ds, name ∈ d.localNames) ∨ ∃ u ∈ us, u.name = name := by
  rcases Declaration.mem_localNames.1 hname with hdefault | ⟨item, hitem, hlocal⟩
  · rcases h.default?_origin hdefault with ⟨d, hd, hd'⟩ | ⟨-, husage⟩
    · exact .inl ⟨d, hd, Declaration.mem_localNames.2 (.inl hd')⟩
    · exact .inr husage
  · rcases h.mem_named.1 hitem with ⟨d, hd, hd'⟩ | ⟨u, hu, -, rfl⟩
    · exact .inl ⟨d, hd, Declaration.mem_localNames.2 (.inr ⟨item, hd', hlocal⟩)⟩
    · exact .inr ⟨u, hu, (Item.localName_of_alias? (hwords u hu)).symm.trans hlocal⟩

/-- The names of a merged import are distinct, if those of its declarations are and no named usage
is a default or an alias among them. -/
theorem nodup_localNames (h : c.Merges module ds us) (hwords : ∀ u ∈ us, Item.alias? u.name = none)
    (hds : (ds.flatMap Declaration.localNames).Nodup)
    (hrebinds : ∀ u ∈ us, u.binding = .named → ∀ d ∈ ds,
      d.default? ≠ some u.name ∧ ∀ item ∈ d.named, Item.alias? item ≠ some u.name) :
    (c.declaration style).localNames.Nodup := by
  have hsplit : (ds.flatMap (·.default?.toList) ++
      (ds.flatMap Declaration.named).map Item.localName).Nodup := by
    rw [List.map_flatMap]
    exact (List.flatMap_append_perm _ _ _).nodup_iff.2 hds
  obtain ⟨-, hitems, hdisjoint⟩ := List.nodup_append.1 hsplit
  -- Two items of the import bind different names.
  have hmixed : ∀ u ∈ us, u.binding = .named → ∀ d ∈ ds, ∀ item ∈ d.named,
      Item.localName item = Item.localName u.name → item = u.name := by
    intro u hu hb d hd item hitem heq
    rw [Item.localName_of_alias? (hwords u hu)] at heq
    cases halias : Item.alias? item with
    | none => rwa [Item.localName_of_alias? halias] at heq
    | some a =>
      rw [Item.localName, halias] at heq
      exact absurd (halias.trans (congrArg some heq)) ((hrebinds u hu hb d hd).2 item hitem)
  have hinj : ∀ item ∈ c.named.toList, ∀ item' ∈ c.named.toList,
      Item.localName item = Item.localName item' → item = item' := by
    intro item hitem item' hitem' heq
    rcases h.mem_named.1 hitem with ⟨d, hd, hi⟩ | ⟨u, hu, hb, rfl⟩
    · rcases h.mem_named.1 hitem' with ⟨d', hd', hi'⟩ | ⟨u, hu, hb, rfl⟩
      · exact List.inj_on_of_nodup_map hitems (List.mem_flatMap.2 ⟨d, hd, hi⟩)
          (List.mem_flatMap.2 ⟨d', hd', hi'⟩) heq
      · exact hmixed u hu hb d hd item hi heq
    · rcases h.mem_named.1 hitem' with ⟨d', hd', hi'⟩ | ⟨u', hu', -, rfl⟩
      · exact (hmixed u hu hb d' hd' item' hi' heq.symm).symm
      · rwa [Item.localName_of_alias? (hwords u hu), Item.localName_of_alias? (hwords u' hu')] at heq
  refine List.nodup_append.2 ⟨?_, ?_, ?_⟩
  · cases (c.declaration style).default? with
    | none => exact List.nodup_nil
    | some name => exact List.nodup_singleton name
  · exact List.Nodup.map_on hinj (c.named.ascending.imp fun {a b} hlt heq => by
      subst heq
      exact absurd hlt (by simp))
  · -- The default is no name that an item binds.
    intro name hname name' hname' heq
    subst heq
    obtain ⟨item, hitem, rfl⟩ := List.mem_map.1 hname'
    rcases h.default?_origin (Option.mem_toList.1 hname) with ⟨d, hd, hdefault⟩ | ⟨hbinds, -⟩
    · rcases h.mem_named.1 hitem with ⟨d', hd', hi'⟩ | ⟨u, hu, hb, rfl⟩
      · exact hdisjoint _ (List.mem_flatMap.2 ⟨d, hd, Option.mem_toList.2 hdefault⟩) _
          (List.mem_map_of_mem (List.mem_flatMap.2 ⟨d', hd', hi'⟩)) rfl
      · rw [Item.localName_of_alias? (hwords u hu)] at hdefault
        exact (hrebinds u hu hb d hd).1 hdefault
    · exact Item.localName_ne hbinds hitem rfl

end Canonical.Merges

/-- Does the script use a named symbol that an import of the symbol's own module binds, as its
default or as the alias of another item? -/
def Script.Rebinds (s : Script) (v : Vocabulary) : Prop :=
  ∃ u ∈ (s.usages v).toList, u.binding = .named ∧ ∃ d ∈ s.declarationsOf u.module,
    d.default? = some u.name ∨ ∃ item ∈ d.named, Item.alias? item = some u.name

instance (s : Script) (v : Vocabulary) : Decidable (s.Rebinds v) :=
  inferInstanceAs (Decidable (∃ u ∈ _, _ ∧ ∃ d ∈ _, _ ∨ ∃ item ∈ _, _))

namespace Reading

variable {v : Vocabulary} {module name : String} {ws : List Warning} {r r' : Reading}

/-- The names that the declarations bind. -/
def localNames (r : Reading) : List String := r.declarations.flatMap Declaration.localNames

def Rebinds (r : Reading) (v : Vocabulary) : Prop :=
  ∃ u, r.Uses v u ∧ u.binding = .named ∧ ∃ d ∈ r.declarationsOf u.module,
    d.default? = some u.name ∨ ∃ item ∈ d.named, Item.alias? item = some u.name

/-- The names that the declarations of a module bind, and those of the others. -/
theorem perm_localNames (r : Reading) (module : String) :
    ((r.declarationsOf module).flatMap Declaration.localNames ++
      (r.declarations.filter (·.specifier != module)).flatMap Declaration.localNames).Perm
        r.localNames := by
  rw [← List.flatMap_append]
  exact (List.filter_append_perm (·.specifier == module) r.declarations).flatMap_right _

theorem Updates.perm_localNames {removed added : List Declaration}
    (h : r.Updates r' removed added) :
    (r'.localNames ++ removed.flatMap Declaration.localNames).Perm
      (r.localNames ++ added.flatMap Declaration.localNames) := by
  have := h.declarations.flatMap_right Declaration.localNames
  rwa [List.flatMap_append, List.flatMap_append] at this

theorem Updates.bindsItself_iff {removed added : List Declaration}
    (h : r.Updates r' removed added) : r'.bindsItself name ↔ r.bindsItself name := by
  rw [bindsItself, bindsItself, h.declared, h.unrecognized]

/-- Of distinct names, none is bound for two modules. -/
theorem not_mem_localNames {d k : Declaration} (h : r.localNames.Nodup)
    (hd : d ∈ r.declarations) (hk : k ∈ r.declarations) (hne : k.specifier ≠ d.specifier)
    (hn : name ∈ d.localNames) : name ∉ k.localNames := by
  intro hn'
  have hsplit := (r.perm_localNames d.specifier).nodup_iff.2 h
  refine (List.nodup_append.1 hsplit).2.2 name ?_ name ?_ rfl
  · exact List.mem_flatMap.2 ⟨d, mem_declarationsOf.2 ⟨hd, rfl⟩, hn⟩
  · exact List.mem_flatMap.2 ⟨k, List.mem_filter.2 ⟨hk, bne_iff_ne.2 hne⟩, hn'⟩

-- ---------------------------------------------------------------------------
-- Steps
-- ---------------------------------------------------------------------------

/-- What is kept while modules are normalized: names are distinct, what is used are words, and no
named symbol in use is bound again. -/
structure IsDistinct (r : Reading) (v : Vocabulary) : Prop where
  names : r.localNames.Nodup
  words : ∀ use ∈ r.uses, Item.alias? use.name = none
  rebinds : ¬ r.Rebinds v

theorem IsDistinct.word {u : Usage} (h : r.IsDistinct v) (hu : r.Uses v u) :
    Item.alias? u.name = none := by
  obtain ⟨m, -, s, -, rfl, -, use, huse, hname, -⟩ := hu
  have := h.words use huse
  rwa [hname] at this

/-- The other declarations stay, and the canonical one joins them. -/
theorem Updates.perm_merged {d : Declaration} (h : r.Updates r' (r.declarationsOf module) [d]) :
    r'.declarations.Perm (r.declarations.filter (·.specifier != module) ++ [d]) := by
  have hfilter : (r.declarationsOf module ++ r.declarations.filter (·.specifier != module)).Perm
      r.declarations := List.filter_append_perm _ _
  refine (List.perm_append_right_iff (r.declarationsOf module)).1 (h.declarations.trans ?_)
  refine (hfilter.symm.append_right _).trans ?_
  rw [List.append_assoc]
  exact List.perm_append_comm

section

variable {c : Canonical} {style : Style} {us : List Usage}

/-- The canonical import binds distinct names. -/
theorem IsDistinct.nodup_merged (hr : r.IsDistinct v)
    (hus : ∀ u, u ∈ us ↔ r.Uses v u ∧ u.module = module)
    (hc : c.Merges module (r.declarationsOf module) us) :
    (c.declaration style).localNames.Nodup := by
  obtain ⟨hown, -, -⟩ := List.nodup_append.1 ((r.perm_localNames module).nodup_iff.2 hr.names)
  refine hc.nodup_localNames (fun u hu => hr.word ((hus u).1 hu).1) hown fun u hu hb d hd => ?_
  obtain ⟨huses, rfl⟩ := (hus u).1 hu
  exact ⟨fun hdefault => hr.rebinds ⟨u, huses, hb, d, hd, .inl hdefault⟩,
    fun item hitem halias => hr.rebinds ⟨u, huses, hb, d, hd, .inr ⟨item, hitem, halias⟩⟩⟩

/-- A name of the canonical import is bound by no other declaration. -/
theorem IsDistinct.not_mem_merged (hr : r.IsDistinct v)
    (hus : ∀ u, u ∈ us ↔ r.Uses v u ∧ u.module = module)
    (hc : c.Merges module (r.declarationsOf module) us) {k : Declaration}
    (hk : k ∈ r.declarations) (hne : k.specifier ≠ module)
    (hname : name ∈ (c.declaration style).localNames) : name ∉ k.localNames := by
  intro hk'
  rcases hc.mem_localNames (fun u hu => hr.word ((hus u).1 hu).1) hname with
    ⟨d, hd, hd'⟩ | ⟨u, hu, rfl⟩
  · obtain ⟨hdr, rfl⟩ := mem_declarationsOf.1 hd
    exact not_mem_localNames hr.names hdr hk hne hd' hk'
  · obtain ⟨⟨m, hm, s, hs, rfl, hbound, -⟩, rfl⟩ := (hus u).1 hu
    exact hbound (.inr ⟨k, hk, hne, hk'⟩)

end

theorem Normalizes.nodup_localNames (h : r.Normalizes v module ws r') (hr : r.IsDistinct v) :
    r'.localNames.Nodup := by
  cases h with
  | idle => exact hr.names
  | @merged _ c style us hus hc haccounts h =>
    obtain ⟨-, hothers, -⟩ :=
      List.nodup_append.1 ((r.perm_localNames module).nodup_iff.2 hr.names)
    have hperm := h.perm_merged.flatMap_right Declaration.localNames
    rw [List.flatMap_append, List.flatMap_singleton] at hperm
    refine hperm.nodup_iff.2 (List.nodup_append.2 ⟨hothers, hr.nodup_merged hus hc, ?_⟩)
    intro name hname name' hname' heq
    subst heq
    obtain ⟨k, hk, hk'⟩ := List.mem_flatMap.1 hname
    obtain ⟨hkr, hne⟩ := List.mem_filter.1 hk
    exact hr.not_mem_merged hus hc hkr (bne_iff_ne.1 hne) hname' hk'

/-- No named symbol in use comes to be bound again. -/
theorem Normalizes.not_rebinds (h : r.Normalizes v module ws r') (hr : r.IsDistinct v) :
    ¬ r'.Rebinds v := by
  have hstep := h
  cases h with
  | idle => exact hr.rebinds
  | @merged _ c style us hus hc haccounts h =>
    rintro ⟨u, huses', hb, d, hd, hbinds⟩
    have hname : u.name ∈ d.localNames := by
      refine Declaration.mem_localNames.2 (hbinds.imp_right fun ⟨item, hitem, halias⟩ => ?_)
      refine ⟨item, hitem, ?_⟩
      rw [Item.localName, halias]
      rfl
    have hother : u.module ≠ module → d ∈ r.declarationsOf u.module := fun hne =>
      (hstep.declarationsOf_other (Ne.symm hne)).mem_iff.1 hd
    -- What binds the name elsewhere is there after the step too, or the step's own module binds it
    -- beside the module of the symbol.
    have huses : r.Uses v u := by
      obtain ⟨m, hm, s, hs, rfl, hbound, use, huse, hused⟩ := huses'
      refine ⟨m, hm, s, hs, rfl, ?_, use, h.uses ▸ huse, hused⟩
      rintro (hitself | ⟨k, hk, hne, hk'⟩)
      · exact hbound (.inl (h.bindsItself_iff.2 hitself))
      · by_cases hmodule : k.specifier = module
        · subst hmodule
          obtain ⟨hd, hspec⟩ := mem_declarationsOf.1 (hother (Ne.symm hne))
          exact not_mem_localNames hr.names hd hk (hspec ▸ hne) hname hk'
        · have hkept : k ∈ r'.declarations := h.perm_merged.mem_iff.2
            (List.mem_append_left _ (List.mem_filter.2 ⟨hk, bne_iff_ne.2 hmodule⟩))
          exact hbound (.inr ⟨k, hkept, hne, hk'⟩)
    by_cases hmodule : u.module = module
    · -- The canonical import has the symbol itself as an item.
      subst hmodule
      have hu : u ∈ us := (hus u).2 ⟨huses, rfl⟩
      have hitem : u.name ∈ c.named.toList := hc.mem_named.2 (.inr ⟨u, hu, hb, rfl⟩)
      have hword := hr.word huses
      have hlocal := Item.localName_of_alias? hword
      obtain rfl : d = c.declaration style := by
        rcases List.mem_append.1 (h.perm_merged.mem_iff.1 (mem_declarationsOf.1 hd).1) with hd' | hd'
        · exact absurd (mem_declarationsOf.1 hd).2 (bne_iff_ne.1 (List.mem_filter.1 hd').2)
        · exact List.mem_singleton.1 hd'
      obtain ⟨-, hitems, hdisjoint⟩ := List.nodup_append.1 (hr.nodup_merged hus hc)
      rcases hbinds with hdefault | ⟨item, hitem', halias⟩
      · exact hdisjoint _ (Option.mem_toList.2 hdefault) _ (List.mem_map_of_mem hitem) hlocal.symm
      · have heq : item = u.name := by
          refine List.inj_on_of_nodup_map hitems hitem' hitem ?_
          rw [hlocal, Item.localName, halias]
          rfl
        rw [heq, hword] at halias
        cases halias
    · exact hr.rebinds ⟨u, huses, hb, d, hother hmodule, hbinds⟩

theorem Normalizes.isDistinct (h : r.Normalizes v module ws r') (hr : r.IsDistinct v) :
    r'.IsDistinct v where
  names := h.nodup_localNames hr
  words use huse := hr.words use (h.uses ▸ huse)
  rebinds := h.not_rebinds hr

theorem Modules.isDistinct {ms : List ModuleRule} (h : Modules v ms r ws r')
    (hr : r.IsDistinct v) : r'.IsDistinct v := by
  induction h with
  | nil => exact hr
  | cons h hs ih => exact ih (h.isDistinct hr)

/-- A data file is imported under a name that nothing binds. -/
theorem Supplies.nodup_localNames {due : Prop} {specifier binding : String}
    (h : r.Supplies due specifier binding r') (hr : r.localNames.Nodup) : r'.localNames.Nodup := by
  cases h with
  | idle => exact hr
  | added hdue hunbound h =>
    have hperm := h.perm_localNames
    rw [List.flatMap_nil, List.append_nil, List.flatMap_singleton] at hperm
    refine hperm.nodup_iff.2 (List.nodup_append.2 ⟨hr, List.nodup_singleton binding, ?_⟩)
    intro name hname name' hname' heq
    obtain ⟨d, hd, hd'⟩ := List.mem_flatMap.1 hname
    rw [heq, List.mem_singleton.1 hname'] at hd'
    exact hunbound.2 (.inr ⟨d, hd, hd'⟩)

theorem Data.nodup_localNames {data : DataDirectory} {isFile : Path → Bool} {path : Path}
    {rules : List DataRule} (h : Data data isFile path rules r r') (hr : r.localNames.Nodup) :
    r'.localNames.Nodup := by
  induction h with
  | nil => exact hr
  | cons h hs ih => exact ih (h.nodup_localNames hr)

theorem localNames_retarget (g : Text → Option Text) : (r.retarget g).localNames = r.localNames := by
  rw [localNames, Reading.retarget, List.flatMap_map]
  rfl

end Reading

namespace Script

theorem localNames_reading (s : Script) :
    s.reading.localNames = s.declarations.flatMap Declaration.localNames := by
  rw [Reading.localNames, reading, List.flatMap_map]
  rfl

theorem rebinds_reading (s : Script) (v : Vocabulary) : s.reading.Rebinds v ↔ s.Rebinds v := by
  constructor
  · rintro ⟨u, hu, hb, d, hd, hbinds⟩
    rw [declarationsOf_reading] at hd
    obtain ⟨k, hk, rfl⟩ := List.mem_map.1 hd
    exact ⟨u, mem_usages.2 hu, hb, k, hk, hbinds⟩
  · rintro ⟨u, hu, hb, d, hd, hbinds⟩
    refine ⟨u, mem_usages.1 hu, hb, d.bare, ?_, hbinds⟩
    rw [declarationsOf_reading]
    exact List.mem_map_of_mem hd

end Script

/-- When the imports of a text bind distinct names, and none binds again a named symbol in use of
its module, the imports of the result bind distinct names. -/
theorem Project.plan_keeps_names_distinct {p : Project} {isFile : Path → Bool} {file : Path}
    {t : Text} (hv : p.vocabulary.Plain) (hc : p.Clear isFile file t)
    (hnames : ((Script.parse t).declarations.flatMap Declaration.localNames).Nodup)
    (hrebinds : ¬ (Script.parse t).Rebinds p.vocabulary) :
    ((Script.parse (p.plan isFile file t).text).declarations.flatMap
      Declaration.localNames).Nodup := by
  obtain ⟨r₁, r₂, ws, hrun⟩ := hc.runs hv
  have hdistinct : (Script.parse t).reading.IsDistinct p.vocabulary := {
    names := by rwa [Script.localNames_reading]
    words := fun use huse => Item.alias?_of_isWord (Script.isWord_of_mem_uses huse)
    rebinds := by rwa [Script.rebinds_reading] }
  have hmodules := hrun.modules.isDistinct hdistinct
  have hdata := hrun.data.nodup_localNames hmodules.names
  rwa [← Script.localNames_reading, hrun.specifiers, Reading.localNames_retarget]

/-- A page that binds four names and uses one of them. -/
theorem Project.plan_keeps_names_distinct_sample :
    let names (t : Text) := (Script.parse t).declarations.flatMap Declaration.localNames
    sample.vocabulary.Plain ∧ sample.Clear sampleData ⟨"a.js"⟩ samplePage ∧
      (names samplePage).Nodup ∧ ¬ (Script.parse samplePage).Rebinds sample.vocabulary ∧
      (names (sample.plan sampleData ⟨"a.js"⟩ samplePage).text).Nodup := by
  intro names
  have hnames : (names samplePage).Nodup := by decide +kernel
  have hrebinds : ¬ (Script.parse samplePage).Rebinds sample.vocabulary := by decide +kernel
  exact ⟨Vocabulary.plain_builtin, clear_sample, hnames, hrebinds,
    plan_keeps_names_distinct Vocabulary.plain_builtin clear_sample hnames hrebinds⟩

end TidyImports
