-- SUMMARY: Where a backup stands: beside its file, when its suffix is neither empty nor a path.
import TidyImports.Disk.Access
import TidyImports.Patch
import TidyImports.Proofs.Disk.Changes
import TidyImports.Proofs.Disk.Relative

/-!
# Places of backups

The path of a backup is the path of the file with a suffix. Without a slash in
the suffix it leads through the same directories, and its last name is longer.
-/

namespace TidyImports

theorem slashPieces_append {s suffix : String} (h : '/' ∉ suffix.toList) :
    ∃ front last, slashPieces s = front ++ [last] ∧
      slashPieces (s ++ suffix) = front ++ [last ++ suffix] := by
  have key : ∀ cs : List Char, ∃ front last, cs.splitOn '/' = front ++ [last] ∧
      (cs ++ suffix.toList).splitOn '/' = front ++ [last ++ suffix.toList] := by
    intro cs
    induction cs with
    | nil => exact ⟨[], [], rfl, List.splitOn_eq_singleton h⟩
    | cons c cs ih =>
      obtain ⟨front, last, hcs, happend⟩ := ih
      rw [List.cons_append, List.splitOn_cons_eq_if_modifyHead,
        List.splitOn_cons_eq_if_modifyHead, hcs, happend]
      by_cases hc : c == '/'
      · exact ⟨[] :: front, last, by simp [hc], by simp [hc]⟩
      · cases front with
        | nil => exact ⟨[], c :: last, by simp [hc], by simp [hc]⟩
        | cons piece front => exact ⟨(c :: piece) :: front, last, by simp [hc], by simp [hc]⟩
  obtain ⟨front, last, hs, happend⟩ := key s.toList
  refine ⟨front.map String.ofList, String.ofList last, ?_, ?_⟩
  · rw [slashPieces, hs]
    simp
  · rw [slashPieces, String.toList_append, happend]
    simp [String.ofList_append]

theorem Path.isAbsolute_backup {p : Path} (hp : p.text ≠ "") (suffix : String) :
    (p.backup suffix).isAbsolute = p.isAbsolute := by
  obtain ⟨c, cs, hcs⟩ := List.exists_cons_of_ne_nil (mt String.toList_eq_nil_iff.1 hp)
  simp [isAbsolute, backup, String.toList_append, hcs]

/-- A piece that is longer than one which leads somewhere is a name. -/
theorem Path.not_isVoid_append {last suffix : String} (hlast : ¬ isVoid last)
    (hsuffix : suffix ≠ "") : ¬ isVoid (last ++ suffix) ∧ last ++ suffix ≠ ".." := by
  simp only [isVoid, Bool.or_eq_true, beq_iff_eq, not_or] at hlast ⊢
  obtain ⟨c, cs, hcs⟩ := List.exists_cons_of_ne_nil (mt String.toList_eq_nil_iff.1 hlast.1)
  obtain ⟨x, xs, hxs⟩ := List.exists_cons_of_ne_nil (mt String.toList_eq_nil_iff.1 hsuffix)
  have hdot : c :: cs ≠ ['.'] := fun h => hlast.2 (String.toList_inj.1 (hcs.trans h))
  have hname : ∀ word : String, last ++ suffix = word → word.toList ≠ [] ∧ word.toList ≠ ['.'] ∧
      word.toList ≠ ['.', '.'] := by
    rintro word rfl
    rw [String.toList_append, hcs, hxs]
    cases cs <;> simp_all
  exact ⟨⟨fun h => (hname _ h).1 rfl, fun h => (hname _ h).2.1 rfl⟩,
    fun h => (hname _ h).2.2 rfl⟩

namespace Disk

variable {d : Disk} {target : Path} {here : Location} {last suffix : String} {bytes : ByteArray}

theorem descend_append (hlast : ¬ Path.isVoid last) (hsuffix : suffix ≠ "") :
    descend here (last ++ suffix) = here ++ [last ++ suffix] := by
  obtain ⟨hvoid, hparent⟩ := Path.not_isVoid_append hlast hsuffix
  rw [descend, if_neg hvoid, if_neg hparent]

/-- What stands beside a file is not the file. -/
theorem descend_append_ne (hhere : d.node? here = some .directory)
    (hfile : d.node? (descend here last) = some (.file bytes)) (hsuffix : suffix ≠ "") :
    descend here (last ++ suffix) ≠ descend here last := by
  by_cases hvoid : Path.isVoid last
  · rw [descend, if_pos hvoid, hhere] at hfile
    cases hfile
  rw [descend_append hvoid hsuffix, descend, if_neg hvoid]
  intro heq
  by_cases hparent : last = ".."
  · rw [if_pos hparent] at heq
    have hlength := congrArg List.length heq
    simp at hlength
    omega
  · rw [if_neg hparent] at heq
    have hname := (List.append_inj_right' heq rfl)
    simp at hname
    exact hsuffix hname

/-- The last pieces of a path and of its backup are looked up in one directory. -/
theorem exists_target_backup (hd : d.Linkless) (hread : d.read target = .ok bytes)
    (hslash : '/' ∉ suffix.toList) :
    ∃ here front last, d.node? here = some .directory ∧
      slashPieces target.text = front ++ [last] ∧ d.target target = descend here last ∧
      d.target (target.backup suffix) = descend here (last ++ suffix) := by
  obtain ⟨place, hplace, -⟩ := read_eq_ok.1 hread
  obtain ⟨hempty, hpasses, -⟩ := passes_of_resolve hd hplace
  obtain ⟨front, last, htarget, hbackup⟩ := slashPieces_append (s := target.text) hslash
  have hpieces : slashPieces (target.backup suffix).text = front ++ [last ++ suffix] := hbackup
  rw [htarget] at hpasses
  refine ⟨_, front, last, directory_of_passes hpasses (List.cons_ne_nil _ _), htarget, ?_, ?_⟩
  · rw [Disk.target, htarget, List.foldl_append]
    rfl
  · rw [Disk.target, hpieces, Path.isAbsolute_backup hempty, List.foldl_append]
    rfl

/-- The backup of a file is not the file, when its suffix is neither empty nor a path. -/
theorem target_backup_ne (hd : d.Linkless) (hread : d.read target = .ok bytes)
    (hsuffix : suffix ≠ "") (hslash : '/' ∉ suffix.toList) :
    d.target (target.backup suffix) ≠ d.target target := by
  obtain ⟨place, hplace, hfile⟩ := read_eq_ok.1 hread
  obtain rfl := target_of_resolve hd hplace
  obtain ⟨here, front, last, hhere, -, htarget, hbackup⟩ := exists_target_backup hd hread hslash
  rw [hbackup, htarget]
  rw [htarget] at hfile
  exact descend_append_ne hhere hfile hsuffix

end Disk

end TidyImports
