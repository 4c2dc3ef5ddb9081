-- SUMMARY: Modules whose import synthesis leaves as it is, and how they come to be.
import Mathlib.Data.List.Nodup
import Mathlib.Data.List.Perm.Basic
import TidyImports.Proofs.Plan.NamesKept
import TidyImports.Proofs.Plan.NamesDistinct

/-!
# Normal modules

A module is normal in a script when one declaration with ascending items binds
what is used of it, or when nothing of it is bound and nothing is used. Its step
leaves such a script alone. Normalizing a module makes it normal, and it stays
so unless a later step frees a name of it.
-/

namespace TidyImports

/-- Does nothing come of a step, but for warnings? -/
structure Step.IsIdle (s : Step) : Prop where
  edits : s.edits = []
  changes : s.changes = []

theorem Plan.advance_idle {p : Plan} {steps : List (Script → Step)}
    (h : ∀ step ∈ steps, (step (Script.parse p.text)).IsIdle) :
    (steps.foldl advance p).text = p.text ∧ (steps.foldl advance p).changes = p.changes := by
  induction steps generalizing p with
  | nil => exact ⟨rfl, rfl⟩
  | cons step steps ih =>
    obtain ⟨hedits, hchanges⟩ := h step (List.mem_cons_self ..)
    have htext : (p.advance step).text = p.text := by
      rw [advance, hedits]
      rfl
    obtain ⟨htexts, hall⟩ := ih (p := p.advance step) fun s hs => by
      rw [htext]
      exact h s (List.mem_cons_of_mem _ hs)
    refine ⟨htexts.trans htext, hall.trans ?_⟩
    rw [advance, hchanges]
    exact List.append_nil _

/-- Does the declaration bind what the usage calls for? -/
def Declaration.Covers (d : Declaration) (u : Usage) : Prop :=
  match u.binding with
  | .named => u.name ∈ d.named
  | .default => d.default?.isSome ∨
      ∃ item ∈ d.named, item = u.name ∨ Item.alias? item = some u.name

namespace Reading

variable {v : Vocabulary} {module other : String} {ws : List Warning} {r r' : Reading}

/-- Would synthesis leave the declarations of the module as they are? -/
def IsNormal (r : Reading) (v : Vocabulary) (module : String) : Prop :=
  ((∀ d ∈ r.declarationsOf module, d.default? = none ∧ d.named = []) ∧
      ∀ u, r.Uses v u → u.module ≠ module) ∨
    ∃ d, r.declarationsOf module = [d] ∧ d.named.Pairwise (· < ·) ∧
      ∀ u, r.Uses v u → u.module = module → d.Covers u

end Reading

-- ---------------------------------------------------------------------------
-- The step of a normal module
-- ---------------------------------------------------------------------------

theorem Declaration.namedAscending_of_pairwise {d : Declaration} (h : d.named.Pairwise (· < ·)) :
    d.namedAscending := by
  rw [namedAscending]
  generalize d.named = items at h
  induction items with
  | nil => rfl
  | cons a items ih =>
    cases items with
    | nil => rfl
    | cons b items =>
      rw [List.tail_cons, List.zip_cons_cons, List.all_cons, Bool.and_eq_true, decide_eq_true_eq]
      exact ⟨List.rel_of_pairwise_cons h (List.mem_cons_self ..), ih h.of_cons⟩

/-- A canonical import that merges one declaration, which covers the usages, matches it. -/
theorem Canonical.Merges.matches? {c : Canonical} {module : String} {d : Declaration}
    {us : List Usage} (h : c.Merges module [d] us) (hascending : d.named.Pairwise (· < ·))
    (hcovers : ∀ u ∈ us, d.Covers u) : c.matches? d := by
  have hitems : ∀ item, item ∈ d.named ↔ item ∈ c.named.toList := by
    intro item
    refine Iff.trans ?_ h.mem_named.symm
    constructor
    · intro hitem
      exact .inl ⟨d, List.mem_singleton_self _, hitem⟩
    · rintro (⟨d', hd', hitem⟩ | ⟨u, hu, hb, rfl⟩)
      · rwa [List.mem_singleton.1 hd'] at hitem
      · have := hcovers u hu
        rwa [Declaration.Covers, hb] at this
  have hnamed : d.named = c.named.toList := by
    have hnodup : ∀ {items : List String}, items.Pairwise (· < ·) → items.Nodup := fun hlt =>
      hlt.imp fun hab heq => absurd (heq ▸ hab) (String.lt_irrefl _)
    refine List.Perm.eq_of_pairwise (fun a b _ _ hab hba => absurd hba (String.lt_asymm hab))
      hascending c.named.toList_ascending ?_
    exact (List.perm_ext_iff_of_nodup (hnodup hascending)
      (hnodup c.named.toList_ascending)).2 hitems
  have hdefault : d.default? = c.default? := by
    cases hd : d.default? with
    | some name => exact (h.kept (by simp [hd])).symm
    | none =>
      cases hc : c.default? with
      | none => rfl
      | some name =>
        obtain ⟨⟨u, hu, hb, rfl⟩, hfree⟩ := h.claimed (by simp [hd]) hc
        have hcover := hcovers u hu
        rw [Declaration.Covers, hb] at hcover
        rcases hcover with hsome | ⟨item, hitem, hbinds⟩
        · rw [hd] at hsome
          cases hsome
        · have hany : Item.anyBinds c.named u.name :=
            Item.anyBinds_iff.2 ⟨item, (hitems item).1 hitem, hbinds⟩
          rw [hfree] at hany
          cases hany
  rw [Canonical.matches?, Bool.and_eq_true, Bool.and_eq_true, beq_iff_eq, beq_iff_eq]
  exact ⟨⟨hdefault, Declaration.namedAscending_of_pairwise hascending⟩, hnamed⟩

section

variable {v : Vocabulary} {m : ModuleRule} {eol t : Text}

/-- The step of a normal module does nothing. -/
theorem moduleStep_idle (hv : v.Plain) (h : (Script.parse t).reading.IsNormal v m.specifier) :
    (moduleStep v m eol (Script.parse t)).IsIdle := by
  rw [moduleStep]
  split
  · exact ⟨rfl, rfl⟩
  simp only
  cases hc : (synthesize m.specifier ((Script.parse t).declarationsOf m.specifier)
      ((Script.parse t).usages v)).canonical? with
  | none => exact ⟨rfl, rfl⟩
  | some c =>
    have hmerges := synthesize_some (Script.pairwise_declarationsOf t m.specifier)
      (fun d hd => Script.specifier_of_mem_declarationsOf hd)
      (fun u hu => Script.alias?_of_mem_usages hv hu) hc
    rw [Reading.IsNormal, Script.declarationsOf_reading] at h
    rcases h with ⟨hbinds, huses⟩ | ⟨d, hd, hascending, hcovers⟩
    · -- There is nothing to merge.
      have hus : ∀ u, u ∉ ((Script.parse t).usages v).ofModule m.specifier := fun u hu =>
        huses u (Script.mem_usages_ofModule.1 hu).1 (Script.mem_usages_ofModule.1 hu).2
      have hds : ∀ d ∈ (Script.parse t).declarationsOf m.specifier,
          d.default? = none ∧ d.named = [] := fun d hd => hbinds d.bare (List.mem_map_of_mem hd)
      exfalso
      rcases hmerges.binds with hdefault | hnamed
      · obtain ⟨name, hname⟩ := Option.isSome_iff_exists.1 hdefault
        rcases hmerges.default?_origin hname with ⟨d, hd, hd'⟩ | ⟨-, u, hu, -⟩
        · rw [(hds d hd).1] at hd'
          cases hd'
        · exact hus u hu
      · have hempty : c.named.isEmpty := List.isEmpty_iff.2 <|
          List.eq_nil_iff_forall_not_mem.2 fun item hitem => by
            rcases hmerges.mem_named.1 hitem with ⟨d, hd, hd'⟩ | ⟨u, hu, -⟩
            · rw [(hds d hd).2] at hd'
              cases hd'
            · exact hus u hu
        rw [hempty] at hnamed
        cases hnamed
    · obtain ⟨d', hd', rfl⟩ := List.map_eq_singleton_iff.1 hd
      rw [hd'] at hmerges ⊢
      have hmatches : c.matches? d' := hmerges.matches? hascending fun u hu =>
        hcovers u (Script.mem_usages_ofModule.1 hu).1 (Script.mem_usages_ofModule.1 hu).2
      split
      · rw [canonicalStep, if_pos]
        · exact ⟨rfl, rfl⟩
        · simp_all
      · exact ⟨rfl, rfl⟩

end

-- ---------------------------------------------------------------------------
-- How modules become normal
-- ---------------------------------------------------------------------------

/-- Is the name that of a symbol of the module? -/
def Vocabulary.HasSymbol (v : Vocabulary) (module name : String) : Prop :=
  ∃ m ∈ v.modules, m.specifier = module ∧ ∃ s ∈ m.symbols, s.name = name

namespace Reading

variable {v : Vocabulary} {module other : String} {ws : List Warning} {r r' : Reading}

/-- A module stays normal when its declarations stay and nothing more of it is used. -/
theorem IsNormal.perm (h : r.IsNormal v module)
    (hp : (r'.declarationsOf module).Perm (r.declarationsOf module))
    (huses : ∀ u, r'.Uses v u → u.module = module → r.Uses v u) : r'.IsNormal v module := by
  rcases h with ⟨hbinds, hnone⟩ | ⟨d, hd, hascending, hcovers⟩
  · exact .inl ⟨fun d hd => hbinds d (hp.mem_iff.1 hd),
      fun u hu hmodule => hnone u (huses u hu hmodule) hmodule⟩
  · rw [hd] at hp
    exact .inr ⟨d, List.perm_singleton.1 hp, hascending,
      fun u hu hmodule => hcovers u (huses u hu hmodule) hmodule⟩

/-- Nothing more of a module is used when what was bound elsewhere still is. -/
theorem Uses.of_bindsElsewhere {u : Usage} (h : r'.Uses v u) (huses : r'.uses = r.uses)
    (hbinds : r.bindsElsewhere u.name u.module → r'.bindsElsewhere u.name u.module) :
    r.Uses v u := by
  obtain ⟨m, hm, s, hs, rfl, hbound, use, huse, hused⟩ := h
  exact ⟨m, hm, s, hs, rfl, fun h => hbound (hbinds h), use, huses ▸ huse, hused⟩

theorem Uses.hasSymbol {u : Usage} (h : r.Uses v u) : v.HasSymbol u.module u.name := by
  obtain ⟨m, hm, s, hs, rfl, -⟩ := h
  exact ⟨m, hm, rfl, s, hs, rfl⟩

theorem Normalizes.bindsItself_iff {name : String} (h : r.Normalizes v module ws r') :
    r'.bindsItself name ↔ r.bindsItself name := by
  cases h with
  | idle => exact Iff.rfl
  | merged _ _ _ h => exact h.bindsItself_iff

/-- A module is normal once it is normalized. -/
theorem Normalizes.isNormal (h : r.Normalizes v module ws r') : r'.IsNormal v module := by
  have hmem : ∀ d ∈ r.declarations, d.specifier ≠ module → d ∈ r'.declarations := fun d hd hne =>
    (mem_declarationsOf.1 ((h.declarationsOf_other (Ne.symm hne)).mem_iff.2
      (mem_declarationsOf.2 ⟨hd, rfl⟩))).1
  rcases h.declarationsOf_self with ⟨rfl, hbinds, huses⟩ | ⟨c, style, us, hus, hc, hself, -⟩
  · exact .inl ⟨hbinds, huses⟩
  · refine .inr ⟨c.declaration style, hself, c.named.toList_ascending, fun u hu hmodule => ?_⟩
    have husage : u ∈ us := by
      refine (hus u).2 ⟨hu.of_bindsElsewhere h.uses ?_, hmodule⟩
      rintro (hitself | ⟨d, hd, hne, hname⟩)
      · exact .inl (h.bindsItself_iff.2 hitself)
      · exact .inr ⟨d, hmem d hd (hmodule ▸ hne), hne, hname⟩
    rw [Declaration.Covers]
    cases hb : u.binding with
    | named => exact hc.mem_named.2 (.inr ⟨u, husage, hb, rfl⟩)
    | default => exact (hc.settles husage hb).imp_right Item.anyBinds_iff.1

/-- A name that is bound by a module's declarations is bound by them once they are normalized, or
it is a default that is discarded. -/
theorem Normalizes.localNames_or {name : String} {d : Declaration}
    (h : r.Normalizes v module ws r') (hd : d ∈ r.declarationsOf module)
    (hname : name ∈ d.localNames) :
    (∃ d' ∈ r'.declarationsOf module, name ∈ d'.localNames) ∨
      ∃ kept, .defaultConflict module kept name ∈ ws := by
  rcases Declaration.mem_localNames.1 hname with hdefault | ⟨item, hitem, hlocal⟩
  · rcases h.hasDefault ⟨d, hd, hdefault⟩ with ⟨d', hd', hdefault'⟩ | hconflict
    · exact .inl ⟨d', hd', Declaration.mem_localNames.2 (.inl hdefault')⟩
    · exact .inr hconflict
  · obtain ⟨d', hd', hitem'⟩ := h.hasItem ⟨d, hd, hitem⟩
    exact .inl ⟨d', hd', Declaration.mem_localNames.2 (.inr ⟨item, hitem', hlocal⟩)⟩

/-- A module stays normal when another is normalized without freeing a name of it. -/
theorem Normalizes.isNormal_other (h : r.Normalizes v other ws r') (hne : other ≠ module)
    (hfreed : ∀ kept name, .defaultConflict other kept name ∈ ws → ¬ v.HasSymbol module name)
    (hr : r.IsNormal v module) : r'.IsNormal v module := by
  refine hr.perm (h.declarationsOf_other hne) fun u hu hmodule => ?_
  refine hu.of_bindsElsewhere h.uses ?_
  rintro (hitself | ⟨d, hd, hspec, hname⟩)
  · exact .inl (h.bindsItself_iff.2 hitself)
  · right
    by_cases hother : d.specifier = other
    · rcases h.localNames_or (mem_declarationsOf.2 ⟨hd, hother⟩) hname with
        ⟨d', hd', hname'⟩ | ⟨kept, hkept⟩
      · obtain ⟨hd', hspec'⟩ := mem_declarationsOf.1 hd'
        exact ⟨d', hd', fun heq => hne (hspec'.symm.trans (heq.trans hmodule)), hname'⟩
      · exact absurd (hmodule ▸ hu.hasSymbol) (hfreed kept _ hkept)
    · have hkept := (h.declarationsOf_other (Ne.symm hother)).mem_iff.2
        (mem_declarationsOf.2 ⟨hd, rfl⟩)
      exact ⟨d, (mem_declarationsOf.1 hkept).1, hspec, hname⟩

theorem Modules.isNormal_of_isNormal {ms : List ModuleRule} (h : Modules v ms r ws r')
    (hne : ∀ m ∈ ms, m.specifier ≠ module)
    (hfreed : ∀ m ∈ ms, ∀ kept name, .defaultConflict m.specifier kept name ∈ ws →
      ¬ v.HasSymbol module name)
    (hr : r.IsNormal v module) : r'.IsNormal v module := by
  induction h with
  | nil => exact hr
  | @cons m ms r r' r'' ws ws' h hs ih =>
    refine ih (fun k hk => hne k (List.mem_cons_of_mem _ hk)) (fun k hk kept name hw => ?_) ?_
    · exact hfreed k (List.mem_cons_of_mem _ hk) kept name (List.mem_append_right _ hw)
    · refine h.isNormal_other (hne m (List.mem_cons_self ..)) (fun kept name hw => ?_) hr
      exact hfreed m (List.mem_cons_self ..) kept name (List.mem_append_left _ hw)

/-- Modules are normal once they are normalized, unless a later one discards a default that is a
symbol of an earlier one. -/
theorem Modules.isNormal {ms : List ModuleRule} (h : Modules v ms r ws r')
    (hsorted : ms.Pairwise fun a b => a.specifier < b.specifier)
    (hfreed : ∀ other kept name, .defaultConflict other kept name ∈ ws →
      ∀ module, module < other → ¬ v.HasSymbol module name) :
    ∀ m ∈ ms, r'.IsNormal v m.specifier := by
  induction h with
  | nil => exact fun m hm => by cases hm
  | @cons k ms r r' r'' ws ws' h hs ih =>
    intro m hm
    have hlt : ∀ j ∈ ms, k.specifier < j.specifier := fun j hj => List.rel_of_pairwise_cons hsorted hj
    have hfreed' : ∀ other kept name, .defaultConflict other kept name ∈ ws' →
        ∀ module, module < other → ¬ v.HasSymbol module name := fun other kept name hw =>
      hfreed other kept name (List.mem_append_right _ hw)
    rcases List.mem_cons.1 hm with rfl | hm
    · refine hs.isNormal_of_isNormal (fun j hj heq => ?_) (fun j hj kept name hw => ?_) h.isNormal
      · exact String.lt_irrefl _ (heq ▸ hlt j hj)
      · exact hfreed' _ kept name hw _ (hlt j hj)
    · exact ih hsorted.of_cons hfreed' m hm

end Reading

end TidyImports
