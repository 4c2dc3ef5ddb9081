-- SUMMARY: Normalizing, joining and relative specifiers agree with each other.
import TidyImports.Proofs.Path.Way

/-!
# The algebra of paths

The normal paths are those that normalizing keeps. It does not matter whether the
first of two joined paths is normalized before. And from a directory that does
not climb, each target has a specifier, which joined to the directory leads back
to the target.
-/

namespace TidyImports

namespace Path

open Component (IsNormal)

variable {p q target dir : Path}

/-- Paths are the same when they have the same components, however they are written. -/
def SameAs (p q : Path) : Prop := p.components = q.components

instance : Decidable (p.SameAs q) := inferInstanceAs (Decidable (_ = _))

/-- Normalizing keeps the paths that climb first and then only go down. -/
theorem normalize_sameAs_iff : p.normalize.SameAs p ↔ IsNormal p.components := by
  rw [SameAs, components_normalize]
  exact ⟨fun h => h ▸ isNormal_normalize p, fun h => h.normalize_eq⟩

theorem isNormal_components_normalize (p : Path) : IsNormal p.normalize.components := by
  rw [components_normalize]
  exact isNormal_normalize p

-- ---------------------------------------------------------------------------
-- Joining
-- ---------------------------------------------------------------------------

/-- The components of a path are followed to the same place when it is normalized before. -/
theorem foldl_push_normalize (p : Path) :
    p.normalize.components.foldl Component.push [] = p.components.foldl Component.push [] := by
  rw [(isNormal_components_normalize p).foldl_push, components_normalize, Component.normalize,
    List.reverse_reverse]

theorem normalize_join (p q : Path) : (p.join q).normalize = (p.normalize.join q).normalize := by
  cases hq : q.isAbsolute with
  | true => rw [join, join, if_pos hq, if_pos hq]
  | false =>
    rw [normalize_eq_iff, Component.normalize, Component.normalize, foldl_push_join hq,
      foldl_push_join hq, foldl_push_normalize]

-- ---------------------------------------------------------------------------
-- Specifiers
-- ---------------------------------------------------------------------------

/-- The specifier for a normal target leads from its directory to the target. -/
theorem exists_specifier_to (ht : target.normalize.SameAs target) (hd : dir.normalize.SameAs dir)
    (hsame : target.isAbsolute = dir.isAbsolute) (hclimb : .parent ∉ dir.components) :
    ∃ new, relativeSpecifier? target dir = some new ∧ isRelativeSpecifier new ∧
      (dir.join ⟨new⟩).normalize.SameAs target := by
  have hdir := normalize_sameAs_iff.1 hd
  obtain ⟨new, hnew⟩ := exists_relativeSpecifier? hsame hdir.current_not_mem hclimb
  refine ⟨new, hnew, isRelativeSpecifier_relativeSpecifier? hnew, ?_⟩
  rw [normalize_join_relativeSpecifier? (normalize_sameAs_iff.1 ht) hdir hsame
    (fun hparent => absurd hparent hclimb) hnew]
  exact ht

/-- The algebra of paths is consistent: a normalized path is normal and stays as it is, and a normal
path is kept; joining to a path or to its normal form leads to the same place; and the relative
specifier of a normal target leads to it from every normal directory that does not climb. -/
theorem normalize_consistent (a b : Path) :
    a.normalize.normalize = a.normalize ∧
      (IsNormal a.normalize.components ∧ .current ∉ a.normalize.components) ∧
      (IsNormal a.components → a.normalize.SameAs a) ∧
      (a.join b).normalize = (a.normalize.join b).normalize ∧
      ∀ target dir : Path, target.normalize.SameAs target → dir.normalize.SameAs dir →
        target.isAbsolute = dir.isAbsolute → .parent ∉ dir.components →
        ∃ new, relativeSpecifier? target dir = some new ∧ isRelativeSpecifier new ∧
          (dir.join ⟨new⟩).normalize.SameAs target := by
  have hnormal := isNormal_components_normalize a
  refine ⟨normalize_normalize a, ⟨hnormal, hnormal.current_not_mem⟩, normalize_sameAs_iff.2,
    normalize_join a b, fun target dir ht hd hsame hclimb => ?_⟩
  exact exists_specifier_to ht hd hsame hclimb

/-- A relative target that climbs above where its directory starts. -/
theorem normalize_consistent_climbing :
    ∃ new, relativeSpecifier? ⟨"../.data/x.json"⟩ ⟨"app//a"⟩ = some new ∧ isRelativeSpecifier new ∧
      ((Path.mk "app//a").join ⟨new⟩).normalize.SameAs ⟨"../.data/x.json"⟩ :=
  (normalize_consistent ⟨"app/./a/.."⟩ ⟨"../b"⟩).2.2.2.2 ⟨"../.data/x.json"⟩ ⟨"app//a"⟩
    (by decide +kernel) (by decide +kernel) (by decide +kernel) (by decide +kernel)

end Path

end TidyImports
