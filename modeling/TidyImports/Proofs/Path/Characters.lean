-- SUMMARY: The characters of paths: none come in but slashes, dots, and those of the parts.
import Mathlib.Data.List.Flatten
import TidyImports.Proofs.Path.Way

/-!
# Characters of paths

Paths are joined, normalized and written out as specifiers by their pieces. So a
character that is neither a slash nor a dot stands in a specifier no more often
than in the paths it is made of.
-/

namespace TidyImports

variable {c : Char}

-- ---------------------------------------------------------------------------
-- Pieces and components
-- ---------------------------------------------------------------------------

theorem count_ofSlashPieces (hslash : c ≠ '/') (pieces : List String) :
    (ofSlashPieces pieces).toList.count c = (pieces.flatMap String.toList).count c := by
  have hjoin : ∀ xs : List (List Char), (['/'].intercalate xs).count c = xs.flatten.count c := by
    intro xs
    induction xs with
    | nil => rfl
    | cons x xs ih =>
      cases xs with
      | nil => simp
      | cons y ys =>
        rw [List.intercalate_cons_cons, List.count_append, List.count_append, ih,
          List.count_singleton, List.flatten_cons, List.count_append]
        simp [Ne.symm hslash]
  rw [ofSlashPieces, String.toList_intercalate, List.flatMap_def]
  exact hjoin _

theorem count_slashPieces (hslash : c ≠ '/') (s : String) :
    ((slashPieces s).flatMap String.toList).count c = s.toList.count c := by
  rw [← count_ofSlashPieces hslash, ofSlashPieces_slashPieces]

namespace Component

/-- How often a character stands in components as they are written. -/
def count (c : Char) (ks : List Component) : Nat := (ks.flatMap fun k => k.text.toList).count c

theorem count_append (ks ls : List Component) : count c (ks ++ ls) = count c ks + count c ls := by
  rw [count, List.flatMap_append, List.count_append]
  rfl

theorem count_cons (k : Component) (ks : List Component) :
    count c (k :: ks) = k.text.toList.count c + count c ks := by
  rw [count, List.flatMap_cons, List.count_append]
  rfl

theorem count_le_of_sublist {ks ls : List Component} (h : ks.Sublist ls) :
    count c ks ≤ count c ls :=
  (h.flatMap _).count_le c

/-- A normal path has components of the path and no others. -/
theorem normalize_sublist (ks : List Component) : (normalize ks).Sublist ks := by
  have hpush : ∀ (stack : List Component) (k : Component),
      (push stack k).reverse.Sublist (stack.reverse ++ [k]) := by
    intro stack k
    have hkept : (k :: stack).reverse = stack.reverse ++ [k] := List.reverse_cons
    rw [push.eq_def]
    split
    · exact List.sublist_append_left ..
    · split
      · rw [List.reverse_cons, List.append_assoc]
        exact List.sublist_append_left ..
      · exact hkept ▸ List.Sublist.refl _
    · exact hkept ▸ List.Sublist.refl _
  have hfold : ∀ stack : List Component,
      (ks.foldl push stack).reverse.Sublist (stack.reverse ++ ks) := by
    induction ks with
    | nil => simp
    | cons k ks ih =>
      intro stack
      refine (ih (push stack k)).trans ?_
      simpa using (hpush stack k).append (List.Sublist.refl ks)
  exact hfold []

/-- On the way to a target one climbs, and goes down by components of the target. -/
theorem count_difference?_le (hdot : c ≠ '.') {started : Bool} {target base way : List Component}
    (h : difference? started target base = some way) : count c way ≤ count c target := by
  have hparent : count c [.parent] = 0 := by simp [count, text, Ne.symm hdot]
  have hclimb : ∀ bs : List Component, count c (bs.map fun _ => .parent) = 0 := by
    intro bs
    induction bs with
    | nil => rfl
    | cons b bs ih => rw [List.map_cons, ← List.singleton_append, count_append, hparent, ih]
  fun_induction difference? started target base generalizing way with
  | case1 =>
    cases h
    exact Nat.le_refl _
  | case2 =>
    cases h
    exact Nat.le_refl _
  | case3 started b bs ih =>
    obtain ⟨way, hway, rfl⟩ := Option.map_eq_some_iff.1 h
    have := ih hway
    rw [← List.singleton_append, count_append, hparent]
    omega
  | case4 started t ts b bs hb ih =>
    have := ih h
    rw [count_cons]
    omega
  | case5 started t ts bs hb ih =>
    obtain ⟨way, hway, rfl⟩ := Option.map_eq_some_iff.1 h
    have := ih hway
    rw [count_cons, count_cons]
    omega
  | case6 => cases h
  | case7 started t ts b bs hb hcurrent hne =>
    cases h
    rw [List.cons_append, ← List.singleton_append, count_append, count_append, hparent, hclimb]
    omega

end Component

-- ---------------------------------------------------------------------------
-- Paths
-- ---------------------------------------------------------------------------

namespace Path

variable {target dir : Path} {new : String}

theorem count_components_le (hslash : c ≠ '/') (hdot : c ≠ '.') (p : Path) :
    Component.count c p.components ≤ p.text.toList.count c := by
  have hlead : Component.count c p.lead?.toList = 0 := by
    cases hp : p.isAbsolute with
    | true => simp [lead?_of_isAbsolute hp, Component.count, Component.text, Ne.symm hslash]
    | false =>
      rcases lead?_of_not_isAbsolute hp with h | h <;>
        simp [h, Component.count, Component.text, Ne.symm hdot]
  have htext : ∀ piece : String, (component piece).text = piece := fun piece => by
    by_cases h : piece = ".."
    · rw [h]
      rfl
    · rw [component_of_ne h]
      rfl
  have hinner : Component.count c (inner (slashPieces p.text)) ≤ p.text.toList.count c := by
    rw [← count_slashPieces hslash, Component.count, inner, List.flatMap_map]
    simp only [htext]
    exact (List.filter_sublist.flatMap _).count_le c
  rw [components_eq, Component.count_append, hlead]
  omega

theorem count_join_le (hslash : c ≠ '/') (p q : Path) :
    (p.join q).text.toList.count c ≤ p.text.toList.count c + q.text.toList.count c := by
  have hslash' : "/".toList.count c = 0 := by simp [Ne.symm hslash]
  rw [join]
  split
  · exact Nat.le_add_left ..
  · split
    · exact Nat.le_of_eq (by rw [String.toList_append, List.count_append])
    · exact Nat.le_of_eq (by
        rw [String.toList_append, String.toList_append, List.count_append, List.count_append, hslash',
          Nat.add_zero])

theorem count_ofComponents_le (hslash : c ≠ '/') (ks : List Component) :
    (ofComponents ks).text.toList.count c ≤ Component.count c ks := by
  have hfold : ∀ p : Path, (ks.foldl (fun p k => p.join ⟨k.text⟩) p).text.toList.count c ≤
      p.text.toList.count c + Component.count c ks := by
    induction ks with
    | nil => exact fun p => Nat.le_refl _
    | cons k ks ih =>
      intro p
      have hjoin := count_join_le hslash p ⟨k.text⟩
      have hrest := ih (p.join ⟨k.text⟩)
      rw [Component.count_cons, List.foldl_cons]
      simp only at hjoin
      omega
  rw [ofComponents]
  simpa using hfold ⟨""⟩

theorem count_components_normalize_le (hslash : c ≠ '/') (hdot : c ≠ '.') (p : Path) :
    Component.count c p.normalize.components ≤ p.text.toList.count c := by
  rw [components_normalize]
  exact Nat.le_trans (Component.count_le_of_sublist (Component.normalize_sublist _))
    (count_components_le hslash hdot p)

/-- A specifier is written with the characters of the place it leads to. -/
theorem count_relativeSpecifier?_le (hslash : c ≠ '/') (hdot : c ≠ '.')
    (h : relativeSpecifier? target dir = some new) :
    new.toList.count c ≤ Component.count c target.components := by
  obtain ⟨way, hway, rfl⟩ := Option.map_eq_some_iff.1 h
  have hcount : (ofSlashPieces (way.components.map Component.text)).toList.count c =
      Component.count c way.components := by
    rw [count_ofSlashPieces hslash, List.flatMap_map]
    rfl
  have hspecifier : (specifierOf way.components).toList.count c =
      Component.count c way.components := by
    rw [specifierOf]
    split
    · exact hcount
    · rw [String.toList_append, List.count_append, hcount]
      simp [Ne.symm hslash, Ne.symm hdot]
  have hle : Component.count c way.components ≤ Component.count c target.components := by
    rw [difference?] at hway
    split at hway
    · split at hway
      · cases hway
        exact Nat.le_refl _
      · cases hway
    · obtain ⟨ks, hks, rfl⟩ := Option.map_eq_some_iff.1 hway
      calc Component.count c (ofComponents ks).components
          ≤ (ofComponents ks).text.toList.count c := count_components_le hslash hdot _
        _ ≤ Component.count c ks := count_ofComponents_le hslash ks
        _ ≤ Component.count c target.components := Component.count_difference?_le hdot hks
  exact hspecifier ▸ hle

end Path

end TidyImports
