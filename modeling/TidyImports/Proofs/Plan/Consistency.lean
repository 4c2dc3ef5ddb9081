-- SUMMARY: Synthesis answers for every usage, so the check of its result reports nothing.
import TidyImports.Proofs.Plan.Union

/-!
# Synthesis is consistent

The check of a synthesis reports the usages that its import does not bind and no
conflict discards. Whether an item binds a default usage is decided while the
items are still being gathered, and the check asks the import as it came out.
The two agree because nothing that has been gathered is given up: items only
become more, and a default and a conflict stay.
-/

namespace TidyImports

namespace Synthesis

variable {s : Synthesis} {module name item : String} {us : UsageSet}

-- ---------------------------------------------------------------------------
-- The check
-- ---------------------------------------------------------------------------

theorem mem_named_iff : item ∈ s.named ↔ ∃ c, s.canonical? = some c ∧ item ∈ c.named := by
  rw [named]
  cases s.canonical? with
  | none => simp
  | some c => simp

theorem default?_eq_some_iff :
    s.default? = some name ↔ ∃ c, s.canonical? = some c ∧ c.default? = some name :=
  Option.bind_eq_some_iff

/-- Is the name the default of the import, an item of it, or the alias of an item? -/
def Binds (s : Synthesis) (name : String) : Prop :=
  s.default? = some name ∨ ∃ item ∈ s.named, item = name ∨ Item.alias? item = some name

/-- Is the name the one that a conflict discards? -/
def Discards (s : Synthesis) (name : String) : Prop :=
  ∃ module kept, .defaultConflict module kept name ∈ s.conflicts

theorem binds_iff : s.binds name ↔ s.Binds name := by
  simp only [binds, Option.any_eq_true, Canonical.binds, Bool.or_eq_true, beq_iff_eq,
    decide_eq_true_eq, Item.anyBinds_iff, Binds, default?_eq_some_iff, mem_named_iff]
  constructor
  · rintro ⟨c, hc, (hdefault | hitem) | ⟨item, hitem, hname⟩⟩
    · exact .inl ⟨c, hc, hdefault⟩
    · exact .inr ⟨name, ⟨c, hc, hitem⟩, .inl rfl⟩
    · exact .inr ⟨item, ⟨c, hc, hitem⟩, hname⟩
  · rintro (⟨c, hc, hdefault⟩ | ⟨item, ⟨c, hc, hitem⟩, hname⟩)
    · exact ⟨c, hc, .inl (.inl hdefault)⟩
    · exact ⟨c, hc, .inr ⟨item, hitem, hname⟩⟩

theorem discards_iff : s.discards name ↔ s.Discards name := by
  rw [discards, List.any_eq_true]
  constructor
  · rintro ⟨w, hw, hname⟩
    split at hname
    · next m kept discarded => exact ⟨m, kept, eq_of_beq hname ▸ hw⟩
    · cases hname
  · rintro ⟨m, kept, hw⟩
    exact ⟨_, hw, beq_self_eq_true name⟩

/-- The check reports nothing exactly if each usage of the module is bound or discarded. -/
theorem inconsistencies_eq_nil_iff :
    s.inconsistencies module us = [] ↔
      ∀ u ∈ us, u.module = module → s.Binds u.name ∨ s.Discards u.name := by
  rw [inconsistencies, List.map_eq_nil_iff, List.filter_eq_nil_iff]
  refine forall_congr' fun u => ?_
  rw [SortedSet.ofModule, List.mem_filter, beq_iff_eq, SortedSet.mem_toList, and_imp,
    ← binds_iff, ← discards_iff]
  cases s.binds u.name <;> cases s.discards u.name <;> simp

end Synthesis

-- ---------------------------------------------------------------------------
-- Usages
-- ---------------------------------------------------------------------------

open Synthesis

variable {module name : String} {ds : List Declaration} {us : UsageSet} {u : Usage}

theorem binds_of_anyBinds_gatherOwn (h : Item.anyBinds (gatherOwn module ds us).named name) :
    (synthesize module ds us).Binds name := by
  obtain ⟨-, hnamed, -⟩ := @synthesize_eq_gatherOwn module ds us
  obtain ⟨item, hitem, hname⟩ := Item.anyBinds_iff.1 h
  exact .inr ⟨item, (hnamed item).2 hitem, hname⟩

/-- A named usage becomes an item. -/
theorem binds_of_named (hu : u ∈ us.ofModule module) (hb : u.binding = .named) :
    (synthesize module ds us).Binds u.name := by
  refine binds_of_anyBinds_gatherOwn (Item.anyBinds_iff.2 ⟨u.name, ?_, .inl rfl⟩)
  exact mem_named_gatherOwn.2 (.inr ⟨u, hu, hb, rfl⟩)

/-- A default usage is bound, or in a conflict with the default that is kept. -/
theorem binds_or_conflict_of_default (hu : u ∈ us.ofModule module) (hb : u.binding = .default) :
    (synthesize module ds us).Binds u.name ∨
      ∃ kept, (synthesize module ds us).default? = some kept ∧
        .defaultConflict module kept u.name ∈ (synthesize module ds us).conflicts := by
  rcases Draft.accounts_addUsages hu hb with haccounts | hany
  · exact (accounts_of_gatherOwn haccounts).imp_left .inl
  · exact .inl (binds_of_anyBinds_gatherOwn hany)

/-- The check finds nothing in what synthesis makes of any declarations and usages: the import
binds each usage of the module, or the usage lost the default to the one that is kept. -/
theorem synthesize_consistent (module : String) (ds : List Declaration) (us : UsageSet) :
    (synthesize module ds us).inconsistencies module us = [] ∧
      ∀ u ∈ us, u.module = module → (synthesize module ds us).Binds u.name ∨
        ∃ kept, (synthesize module ds us).default? = some kept ∧
          .defaultConflict module kept u.name ∈ (synthesize module ds us).conflicts := by
  have hall : ∀ u ∈ us, u.module = module → (synthesize module ds us).Binds u.name ∨
      ∃ kept, (synthesize module ds us).default? = some kept ∧
        .defaultConflict module kept u.name ∈ (synthesize module ds us).conflicts := by
    intro u hu hmodule
    have hown : u ∈ us.ofModule module := List.mem_filter.2 ⟨hu, beq_iff_eq.2 hmodule⟩
    cases hb : u.binding with
    | named => exact .inl (binds_of_named hown hb)
    | default => exact binds_or_conflict_of_default hown hb
  refine ⟨inconsistencies_eq_nil_iff.2 fun u hu hmodule => ?_, hall⟩
  exact (hall u hu hmodule).imp_right fun ⟨kept, _, hconflict⟩ => ⟨module, kept, hconflict⟩

end TidyImports
