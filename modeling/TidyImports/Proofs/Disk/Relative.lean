-- SUMMARY: What is left of a path below a base leads where the path leads.
import TidyImports.Proofs.Disk.Resolution
import TidyImports.Proofs.Path.Components

/-!
# Relative paths

A path is reported without its base, and a run joins it to the base again to
find the file. Stripping and joining change the text and leave the place.
-/

namespace TidyImports

open Disk (descend)

-- ---------------------------------------------------------------------------
-- Places
-- ---------------------------------------------------------------------------

theorem foldl_descend_filter (here : Location) (pieces : List String) :
    (pieces.filter (!Path.isVoid ·)).foldl descend here = pieces.foldl descend here := by
  rw [List.foldl_filter]
  congr 1
  funext here piece
  rw [descend]
  cases Path.isVoid piece <;> rfl

/-- Where a component leads from a location. -/
def Component.enter (here : Location) : Component → Location
  | .root => []
  | .current => here
  | .parent => here.dropLast
  | .normal name => here ++ [name]

namespace Path

theorem enter_component {here : Location} {piece : String} (h : ¬ isVoid piece) :
    (component piece).enter here = descend here piece := by
  rw [descend, if_neg h, component]
  by_cases hp : piece = ".."
  · simp [hp, Component.enter]
  · simp [hp, Component.enter]

theorem foldl_inner (here : Location) (pieces : List String) :
    (inner pieces).foldl Component.enter here = pieces.foldl descend here := by
  induction pieces generalizing here with
  | nil => rfl
  | cons piece pieces ih =>
    rw [inner] at ih ⊢
    rw [List.filter_cons, List.foldl_cons]
    by_cases hvoid : isVoid piece
    · have hhere : descend here piece = here := if_pos hvoid
      rw [hhere, if_neg (by simpa using hvoid)]
      exact ih here
    · rw [if_pos (by simpa using hvoid), List.map_cons, List.foldl_cons, enter_component hvoid]
      exact ih _

theorem foldl_dropComponents {cs : List Component} {pieces rest : List String} {here : Location}
    (h : dropComponents cs pieces = some rest) :
    rest.foldl descend (cs.foldl Component.enter here) = pieces.foldl descend here := by
  induction pieces generalizing cs here with
  | nil =>
    cases cs with
    | nil => cases h; rfl
    | cons c cs => cases h
  | cons piece pieces ih =>
    cases cs with
    | nil => cases h; rfl
    | cons c cs =>
      rw [dropComponents] at h
      split at h
      · next hvoid =>
        rw [ih h, List.foldl_cons, descend, if_pos hvoid]
      · next hvoid =>
        split at h
        · next hc =>
          rw [List.foldl_cons, ← hc, enter_component hvoid, List.foldl_cons]
          exact ih h
        · cases h

theorem sublist_dropComponents {cs : List Component} {pieces rest : List String}
    (h : dropComponents cs pieces = some rest) : rest.Sublist pieces := by
  induction pieces generalizing cs with
  | nil =>
    cases cs with
    | nil => cases h; exact List.Sublist.refl _
    | cons c cs => cases h
  | cons piece pieces ih =>
    cases cs with
    | nil => cases h; exact List.Sublist.refl _
    | cons c cs =>
      rw [dropComponents] at h
      split at h
      · exact (ih h).cons _
      · split at h
        · exact (ih h).cons _
        · cases h

theorem dropComponents_root (cs : List Component) (pieces : List String) :
    dropComponents (.root :: cs) pieces = none := by
  induction pieces with
  | nil => rfl
  | cons piece pieces ih =>
    have hne : component piece ≠ .root := by
      rw [component]
      split <;> exact Component.noConfusion
    rw [dropComponents, ih, if_neg hne, ite_self]

/-- An empty piece at the end of a path leads nowhere. -/
theorem foldl_front {pieces front : List String} {here : Location}
    (h : pieces = front ∨ pieces = front ++ [""]) :
    front.foldl descend here = pieces.foldl descend here := by
  rcases h with rfl | rfl
  · rfl
  · rw [List.foldl_append]
    rfl

/-- Joining two paths makes one follow the other. -/
theorem foldl_join {p q : Path} {here : Location} (hq : q.isAbsolute = false) :
    (slashPieces (p.join q).text).foldl descend here =
      (slashPieces q.text).foldl descend ((slashPieces p.text).foldl descend here) := by
  obtain ⟨front, hpieces, hfront⟩ := slashPieces_join (p := p) hq
  rw [hpieces, List.foldl_append, foldl_front hfront]

theorem filter_dropWhile (pieces : List String) :
    (pieces.dropWhile isVoid).filter (!isVoid ·) = pieces.filter (!isVoid ·) := by
  induction pieces with
  | nil => rfl
  | cons piece pieces ih =>
    by_cases hvoid : isVoid piece
    · rw [List.dropWhile_cons_of_pos hvoid, ih, List.filter_cons_of_neg (by simpa using hvoid)]
    · rw [List.dropWhile_cons_of_neg hvoid]

theorem trimEnd_isPrefixOf (pieces : List String) : trimEnd pieces <+: pieces := by
  have h := List.reverse_prefix.2 (List.dropWhile_suffix isVoid (l := pieces.reverse))
  rwa [List.reverse_reverse] at h

theorem foldl_strip {pieces : List String} {here : Location}
    (h : ∀ piece ∈ pieces, '/' ∉ piece.toList) :
    (slashPieces (ofSlashPieces (trimEnd (pieces.dropWhile isVoid)))).foldl descend here =
      pieces.foldl descend here := by
  have hkeep : (trimEnd (pieces.dropWhile isVoid)).filter (!isVoid ·) =
      pieces.filter (!isVoid ·) := by
    rw [trimEnd, List.filter_reverse, filter_dropWhile, List.filter_reverse, List.reverse_reverse,
      filter_dropWhile]
  have hfold : (trimEnd (pieces.dropWhile isVoid)).foldl descend here =
      pieces.foldl descend here := by
    rw [← foldl_descend_filter, hkeep, foldl_descend_filter]
  have hsub := (trimEnd_isPrefixOf (pieces.dropWhile isVoid)).sublist.trans
    (List.dropWhile_sublist isVoid)
  by_cases hne : trimEnd (pieces.dropWhile isVoid) = []
  · rw [← hfold, hne]
    rfl
  · rw [slashPieces_ofSlashPieces (fun piece hpiece => h piece (hsub.subset hpiece)) hne, hfold]

theorem isAbsolute_strip {pieces : List String} (h : ∀ piece ∈ pieces, '/' ∉ piece.toList) :
    (Path.mk (ofSlashPieces (trimEnd (pieces.dropWhile isVoid)))).isAbsolute = false := by
  cases hkept : trimEnd (pieces.dropWhile isVoid) with
  | nil => rfl
  | cons piece rest =>
    -- The first piece that is kept is a name.
    obtain ⟨more, hmore⟩ := trimEnd_isPrefixOf (pieces.dropWhile isVoid)
    rw [hkept, List.cons_append] at hmore
    have hname : ¬ isVoid piece := by
      have := List.head?_dropWhile_not isVoid pieces
      rw [← hmore] at this
      simpa using this
    have hslash := h piece ((List.dropWhile_sublist isVoid).subset
      (hmore ▸ List.mem_cons_self .. : piece ∈ pieces.dropWhile isVoid))
    cases hpiece : piece.toList with
    | nil =>
      rw [String.toList_eq_nil_iff] at hpiece
      exact absurd (by rw [hpiece]; rfl) hname
    | cons c cs =>
      rw [hpiece, List.mem_cons, not_or] at hslash
      have hhead : (ofSlashPieces (piece :: rest)).toList.head? = some c := by
        rw [ofSlashPieces, String.toList_intercalate, List.map_cons, hpiece]
        cases rest <;> rfl
      rw [isAbsolute, hhead]
      simpa using Ne.symm hslash.1

/-- What is left of a path below a base, joined to the base, leads where the path leads. -/
theorem target_relativeTo {d : Disk} {file base : Path} (hbase : base.isAbsolute) :
    d.target ((file.relativeTo base).under base) = d.target (file.under base) := by
  rw [relativeTo]
  cases hstrip : file.stripPrefix? base with
  | none => rfl
  | some rest =>
    have hlead : base.lead? = some .root := if_pos hbase
    have hcomponents : base.components = .root :: inner base.body := by
      rw [components, hlead]
      rfl
    simp only [stripPrefix?, hcomponents] at hstrip
    obtain ⟨pieces, hpieces, rfl⟩ := Option.map_eq_some_iff.1 hstrip
    cases hfile : file.lead? with
    | none =>
      rw [hfile] at hpieces
      cases (dropComponents_root _ _).symm.trans hpieces
    | some lead =>
      rw [hfile] at hpieces
      simp only [Option.ite_none_right_eq_some] at hpieces
      obtain ⟨rfl, hdrop⟩ := hpieces
      have hroot : file.isAbsolute := by
        rw [lead?] at hfile
        split at hfile
        · next h => exact h
        · split at hfile
          · cases hfile
          · cases hfile
      have hslash : ∀ piece ∈ pieces, '/' ∉ piece.toList := fun piece hpiece =>
        not_mem_of_mem_slashPieces (s := file.text) (by
          rw [slashPieces_of_isAbsolute hroot]
          exact List.mem_cons_of_mem _ ((sublist_dropComponents hdrop).subset hpiece))
      have hrelative := isAbsolute_strip hslash
      have hjoin := isAbsolute_join (q := ⟨ofSlashPieces (trimEnd (pieces.dropWhile isVoid))⟩) hbase
      rw [Option.getD_some, under, under, hrelative, hroot]
      simp only [Bool.false_eq_true, if_false, if_true]
      rw [Disk.target, Disk.target, hjoin, hroot, foldl_join hrelative, foldl_strip hslash,
        slashPieces_of_isAbsolute hbase, slashPieces_of_isAbsolute hroot]
      have hvoid : ∀ here, descend here "" = here := fun _ => rfl
      simp only [if_true, List.foldl_cons, hvoid]
      rw [← foldl_inner [] base.body]
      exact foldl_dropComponents hdrop

end Path

end TidyImports
