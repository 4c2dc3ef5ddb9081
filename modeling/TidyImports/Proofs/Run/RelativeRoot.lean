-- SUMMARY: A run with a relative project root looks for its files below the root of the root.
import TidyImports.Proofs.Disk.Changes
import TidyImports.Proofs.Disk.Discovery
import TidyImports.Run

/-!
# Relative project roots

Discovery yields paths that start with the project root, and what reads them
starts relative paths at the project root. So a relative root is gone down
twice, and a run can only go on from it when the root is there below itself, as
the working directory is.
-/

namespace TidyImports

open Disk (descend)

-- ---------------------------------------------------------------------------
-- Directories on the way
-- ---------------------------------------------------------------------------

namespace Disk

variable {d : Disk} {here place : Location} {p q : Path}

theorem directory_of_passes_join (hq : q.isAbsolute = false)
    (h : d.Passes here (slashPieces (p.join q).text)) :
    d.node? ((slashPieces p.text).foldl descend here) = some .directory := by
  obtain ⟨front, hpieces, hfront⟩ := Path.slashPieces_join (p := p) hq
  rw [hpieces] at h
  exact Path.foldl_front hfront ▸ directory_of_passes h (slashPieces_ne_nil _)

/-- A relative path that can be read is joined to a directory. -/
theorem directory_of_read {bytes : ByteArray} (hd : d.Linkless) (hq : q.isAbsolute = false)
    (hp : p.isAbsolute = false) (h : d.read (p.join q) = .ok bytes) :
    d.node? (d.target p) = some .directory := by
  obtain ⟨place, hplace, -⟩ := read_eq_ok.1 h
  have hpasses := (passes_of_resolve hd hplace).2.1
  rw [Path.isAbsolute_join_eq_false hp hq] at hpasses
  rw [target, hp]
  exact directory_of_passes_join hq hpasses

end Disk

-- ---------------------------------------------------------------------------
-- Runs
-- ---------------------------------------------------------------------------

/-- With a relative root that is no directory below itself, a run fails at the first file it finds:
it has reported nothing but its start, and left the disk as it was. -/
theorem Settings.run_relativeRoot {s : Settings} {d : Disk} {startedAt endedAt : Timestamp}
    {file : Path} {more : List Path} (hd : d.Linkless) (hnames : d.NamesHaveNoSlash)
    (hroot : s.projectRoot.isAbsolute = false) (hscan : s.scanDir.isAbsolute = false)
    (hbelow : d.node? (d.target (s.projectRoot.join s.projectRoot)) ≠ some .directory)
    (hfiles : d.discover s.scanRoot s.extensions = .ok (file :: more)) :
    s.run s.sources startedAt endedAt d = ⟨(Run.start s startedAt d).countFile,
      some (.unreadable (.unreadable (s.projectRoot.join file)))⟩ := by
  have hscanRoot : s.scanRoot = s.projectRoot.join s.scanDir := by
    rw [scanRoot, Path.under, hscan, if_neg Bool.false_ne_true]
  obtain ⟨q, hq, hfile⟩ := Disk.mem_discover hnames hscan (hscanRoot ▸ hfiles) (List.mem_cons_self ..)
  have hrelative : file.isAbsolute = false := hfile ▸ Path.isAbsolute_join_eq_false hroot hq
  have hunder : file.under s.projectRoot = s.projectRoot.join file := by
    rw [Path.under, hrelative, if_neg Bool.false_ne_true]
  have hread : (d.view s.projectRoot).read file =
      .error (.unreadable (s.projectRoot.join file)) := by
    rw [Disk.view]
    simp only [hunder]
    split
    · next bytes hok =>
      rw [hfile, ← Path.join_join hroot hq] at hok
      exact absurd (Disk.directory_of_read hd hq
        (Path.isAbsolute_join_eq_false hroot hroot) hok) hbelow
    · rfl
  have hsources : s.sources.files d = .ok (file :: more) := hfiles
  have hprocess : Run.processFile s s.sources.view file (Run.start s startedAt d) =
      .error ⟨(Run.start s startedAt d).countFile,
        some (.unreadable (.unreadable (s.projectRoot.join file)))⟩ := by
    rw [Run.processFile]
    have hview : (s.sources.view (Run.start s startedAt d).disk).read file =
        .error (.unreadable (s.projectRoot.join file)) := hread
    simp only [hview]
  rw [run]
  simp only [hsources, Run.processFiles, List.foldlM_cons, hprocess]
  rfl

/-- A page below a relative root. -/
theorem Settings.run_relativeRoot_page :
    let s : Settings := { projectRoot := ⟨"web"⟩ }
    let d : Disk := { nodes := [(["web"], .directory), (["web", "app"], .directory),
      (["web", "app", "page.js"], .file "useState(0);\n".toUTF8)] }
    d.Linkless ∧ d.NamesHaveNoSlash ∧ s.projectRoot.isAbsolute = false ∧
      s.scanDir.isAbsolute = false ∧
      d.node? (d.target (s.projectRoot.join s.projectRoot)) ≠ some .directory ∧
      d.discover s.scanRoot s.extensions = .ok [⟨"web/app/page.js"⟩] ∧
      s.run s.sources default default d = ⟨(Run.start s default d).countFile,
        some (.unreadable (.unreadable ⟨"web/web/app/page.js"⟩))⟩ := by
  intro s d
  have hd : d.Linkless := by decide +kernel
  have hnames : d.NamesHaveNoSlash := by decide +kernel
  have hroot : s.projectRoot.isAbsolute = false := by decide +kernel
  have hscan : s.scanDir.isAbsolute = false := by decide +kernel
  have hbelow : d.node? (d.target (s.projectRoot.join s.projectRoot)) ≠ some .directory := by
    decide +kernel
  have hfiles : d.discover s.scanRoot s.extensions = .ok [⟨"web/app/page.js"⟩] := by
    decide +kernel
  have hpath : s.projectRoot.join ⟨"web/app/page.js"⟩ = ⟨"web/web/app/page.js"⟩ := by
    decide +kernel
  exact ⟨hd, hnames, hroot, hscan, hbelow, hfiles,
    hpath ▸ run_relativeRoot hd hnames hroot hscan hbelow hfiles⟩

end TidyImports
