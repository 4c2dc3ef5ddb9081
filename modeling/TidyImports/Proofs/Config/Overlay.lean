-- SUMMARY: Rules laid over others: distinct keys, the last rule counts, and again changes nothing.
import TidyImports.Config

/-!
# Overlays

Items put into a list by their key leave one item for each key. Which one is
found under a key, and in which order the keys stand, says all about a list with
distinct keys, so both are traced through one put and then through many.
-/

namespace TidyImports

namespace KeyedList

variable {α κ : Type} [DecidableEq κ] {key : α → κ} {x : α} {xs ys zs : List α} {k : κ}

-- ---------------------------------------------------------------------------
-- One item
-- ---------------------------------------------------------------------------

/-- The item that was put is found under its key, and the others where they were. -/
theorem find?_put :
    (put key x ys).find? (key · == k) =
      if key x = k then some x else ys.find? (key · == k) := by
  induction ys with
  | nil => by_cases hx : key x = k <;> simp [put, hx]
  | cons y ys ih =>
    rw [put]
    split
    · next hy => by_cases hx : key x = k <;> simp [hx, hy]
    · next hy =>
      by_cases hk : key y = k
      · have hx : key x ≠ k := fun hx => hy (hk.trans hx.symm)
        simp [hk, hx]
      · simpa [hk] using ih

theorem nodup_put (h : (ys.map key).Nodup) : ((put key x ys).map key).Nodup := by
  rw [map_key_put]
  split
  · exact h
  · next hx => exact (List.perm_append_singleton _ _).nodup_iff.2 (List.nodup_cons.2 ⟨hx, h⟩)

-- ---------------------------------------------------------------------------
-- Many items
-- ---------------------------------------------------------------------------

theorem nodup_putAll (h : (ys.map key).Nodup) : ((putAll key xs ys).map key).Nodup := by
  induction xs generalizing ys with
  | nil => exact h
  | cons x xs ih => exact ih (nodup_put h)

/-- Under a key the last item that was put is found, and otherwise what was there. -/
theorem find?_putAll :
    (putAll key xs ys).find? (key · == k) =
      (xs.reverse.find? (key · == k)).or (ys.find? (key · == k)) := by
  induction xs generalizing ys with
  | nil => rfl
  | cons x xs ih =>
    rw [putAll_cons, ih, find?_put, List.reverse_cons, List.find?_append, Option.or_assoc]
    by_cases hx : key x = k <;> simp [hx]

/-- The keys that were there come first, and then the new ones, each where it appears first. -/
theorem map_key_putAll :
    (putAll key xs ys).map key =
      ys.map key ++ ((xs.map key).filter (· ∉ ys.map key)).eraseDups := by
  induction xs generalizing ys with
  | nil => simp
  | cons x xs ih =>
    rw [putAll_cons, ih, map_key_put, List.map_cons]
    split
    · next hx => rw [List.filter_cons_of_neg (by simpa using hx)]
    · next hx =>
      rw [List.filter_cons_of_pos (by simpa using hx), List.eraseDups_cons, List.filter_filter,
        List.append_assoc, List.singleton_append]
      have hnew : ∀ k, decide (k ∉ ys.map key ++ [key x]) =
          (!k == key x && decide (k ∉ ys.map key)) := fun k => by
        rw [Bool.eq_iff_iff, Bool.and_eq_true, Bool.not_eq_true', beq_eq_false_iff_ne,
          decide_eq_true_iff, decide_eq_true_iff, List.mem_append, List.mem_singleton, not_or,
          and_comm]
      simp only [hnew]

/-- With distinct keys, their order and what is found under each make the list. -/
theorem eq_of_find? (hys : (ys.map key).Nodup) (hkeys : ys.map key = zs.map key)
    (hfind : ∀ k, ys.find? (key · == k) = zs.find? (key · == k)) : ys = zs := by
  induction ys generalizing zs with
  | nil => exact (List.map_eq_nil_iff.1 hkeys.symm).symm
  | cons y ys ih =>
    cases zs with
    | nil => cases hkeys
    | cons z zs =>
      obtain ⟨hhead, htail⟩ := List.cons.inj hkeys
      rw [List.map_cons, List.nodup_cons] at hys
      have hyz : y = z := by simpa [hhead] using hfind (key y)
      rw [hyz, ih hys.2 htail fun k => ?_]
      by_cases hk : key y = k
      · -- The key of the head does not come again.
        have hnone : ∀ us : List α, us.map key = ys.map key → us.find? (key · == k) = none := by
          intro us hus
          refine List.find?_eq_none.2 fun u hu huk => hys.1 ?_
          rw [← hus, hk, ← beq_iff_eq.1 huk]
          exact List.mem_map_of_mem hu
        rw [hnone ys rfl, hnone zs htail.symm]
      · have hz : key z ≠ k := hyz ▸ hk
        simpa [hk, hz] using hfind k

/-- Items that are put a second time are there already. -/
theorem putAll_putAll (h : (ys.map key).Nodup) :
    putAll key xs (putAll key xs ys) = putAll key xs ys := by
  refine eq_of_find? (nodup_putAll (nodup_putAll h)) ?_ fun k => ?_
  · have hnone : (xs.map key).filter (· ∉ (putAll key xs ys).map key) = [] := by
      refine List.filter_eq_nil_iff.2 fun k hk => ?_
      rw [map_key_putAll, decide_eq_true_iff, Decidable.not_not, List.mem_append,
        List.mem_eraseDups, List.mem_filter, decide_eq_true_iff]
      exact (Decidable.em (k ∈ ys.map key)).imp_right fun hne => ⟨hk, hne⟩
    rw [map_key_putAll, hnone]
    simp
  · rw [find?_putAll, find?_putAll, ← Option.or_assoc, Option.or_self]

/-- A list with distinct keys in which rules have been laid over others. -/
structure Overlaid (key : α → κ) (rules others result : List α) : Prop where
  distinct : (result.map key).Nodup
  /-- The last of the rules counts, and otherwise the one that was there. -/
  find?_eq (k : κ) : result.find? (key · == k) =
    (rules.reverse.find? (key · == k)).or (others.find? (key · == k))
  /-- Keys stay where they were; new ones follow, each where it appears first. -/
  keys_eq : result.map key =
    others.map key ++ ((rules.map key).filter (· ∉ others.map key)).eraseDups

theorem overlaid_putAll (h : (ys.map key).Nodup) : Overlaid key xs ys (putAll key xs ys) :=
  ⟨nodup_putAll h, fun _ => find?_putAll, map_key_putAll⟩

example : putAll Prod.fst [(1, 'a'), (2, 'b'), (1, 'c')] [(2, 'x'), (3, 'y')] =
    [(2, 'b'), (3, 'y'), (1, 'c')] := by decide

end KeyedList

open KeyedList

namespace Config

variable {c : Config} {v : Vocabulary}

/-- A configuration that is laid over a vocabulary again changes nothing. -/
theorem overlay_overlay (hmodules : (v.modules.map ModuleRule.specifier).Nodup)
    (hrules : (v.data.rules.map DataRule.binding).Nodup) :
    c.overlay (c.overlay v) = c.overlay v := by
  have hname : ∀ (x? : Option String) (y : String), x?.getD (x?.getD y) = x?.getD y := by
    intro x? y
    cases x? <;> rfl
  simp only [overlay, putAll_putAll hmodules, putAll_putAll hrules, hname]

/-- The modules and data rules of every configuration's vocabulary are its own laid over the
built-in ones. Looking a module up finds the last rule for it, and laying the configuration over its
vocabulary again changes nothing. -/
theorem vocabulary_overlaid (c : Config) :
    Overlaid ModuleRule.specifier c.modules ({} : Vocabulary).modules c.vocabulary.modules ∧
      Overlaid DataRule.binding c.dataRules ({} : Vocabulary).data.rules c.vocabulary.data.rules ∧
      (∀ specifier, c.vocabulary.module? specifier =
        (c.modules.reverse.find? (·.specifier == specifier)).or
          (({} : Vocabulary).module? specifier)) ∧
      c.overlay c.vocabulary = c.vocabulary := by
  have hmodules : (({} : Vocabulary).modules.map ModuleRule.specifier).Nodup := by decide
  have hrules : (({} : Vocabulary).data.rules.map DataRule.binding).Nodup := by decide
  refine ⟨overlaid_putAll hmodules, overlaid_putAll hrules, fun _ => find?_putAll, ?_⟩
  exact overlay_overlay hmodules hrules

end Config

end TidyImports
