-- SUMMARY: However often a project is run, what a changed file held at first is in its backup.
import TidyImports.Proofs.Disk.Discovery
import TidyImports.Proofs.Disk.Backup
import TidyImports.Proofs.Run.Files

/-!
# Originals

A backup keeps the original of a file as long as it is no source itself. It is
none when the suffix takes the extension of the name away from those of source
files. A suffix such as `.orig.js` does not: the next run finds the backup and
patches it.
-/

namespace TidyImports

namespace Settings

variable (s : Settings) (d : Disk)

/-- Is a name one of a source file? -/
def lists (name : String) : Bool := (Path.mk name).extension?.any s.extensions.contains

/-- A file below the scan directory that has the name of a source. -/
structure IsSource (here : Location) (name : String) : Prop where
  isName : Path.IsName name
  below : d.target s.scanRoot <+: here
  listed : s.lists name
  file : ∃ bytes, d.node? (here ++ [name]) = some (.file bytes)

/-- With these settings a backup stands beside its file and is no source. -/
structure KeepsBackups : Prop where
  absolute : s.projectRoot.isAbsolute
  notEmpty : s.backupSuffix ≠ ""
  noSlash : '/' ∉ s.backupSuffix.toList
  notListed : ∀ name, Path.IsName name → ¬ s.lists (name ++ s.backupSuffix)

end Settings

/-- The disks that runs lead to, one after the other. -/
inductive Settings.Runs (s : Settings) (d₀ : Disk) : Disk → Prop
  | start : s.Runs d₀ d₀
  | next {d : Disk} {startedAt endedAt : Timestamp} : s.Runs d₀ d →
      s.Runs d₀ (s.run s.sources startedAt endedAt d).state.disk

-- ---------------------------------------------------------------------------
-- Suffixes
-- ---------------------------------------------------------------------------

theorem Path.IsName.append {name suffix : String} (h : Path.IsName name) (hsuffix : suffix ≠ "")
    (hslash : '/' ∉ suffix.toList) : Path.IsName (name ++ suffix) := by
  obtain ⟨hvoid, hparent⟩ := Path.not_isVoid_append h.notVoid hsuffix
  refine ⟨?_, hvoid, hparent⟩
  rw [String.toList_append, List.mem_append, not_or]
  exact ⟨h.noSlash, hslash⟩

/-- What follows the last dot of a name is its extension, if it has one. -/
theorem Path.extension?_dot {name ext : String} (h : IsName (name ++ ("." ++ ext)))
    (hdot : '.' ∉ ext.toList) :
    ∀ e ∈ (Path.mk (name ++ ("." ++ ext))).extension?, e = ext := by
  have hpieces : (name ++ ("." ++ ext)).toList.splitOn '.' =
      name.toList.splitOn '.' ++ [ext.toList] := by
    rw [String.toList_append, String.toList_append, ← List.splitOn_eq_singleton hdot]
    exact List.splitOn_append_cons_self ..
  intro e he
  simp only [extension?, fileName?_name h, Option.bind_eq_bind, Option.bind_some, hpieces,
    List.getLast?_concat] at he
  split at he
  · cases he
  · cases he
    exact String.ofList_toList

/-- A dot and an extension that is not listed keep backups. -/
theorem Settings.keepsBackups_dot {s : Settings} {ext : String}
    (habsolute : s.projectRoot.isAbsolute) (hsuffix : s.backupSuffix = "." ++ ext)
    (hdot : '.' ∉ ext.toList) (hslash : '/' ∉ ext.toList) (hext : ext ∉ s.extensions) :
    s.KeepsBackups := by
  have hne : s.backupSuffix ≠ "" := by
    intro hempty
    have hlist := congrArg String.toList (hsuffix.symm.trans hempty)
    rw [String.toList_append] at hlist
    cases hlist
  have hnoSlash : '/' ∉ s.backupSuffix.toList := by
    rw [hsuffix, String.toList_append, List.mem_append, not_or]
    exact ⟨by decide, hslash⟩
  refine ⟨habsolute, hne, hnoSlash, ?_⟩
  intro name hname hlists
  have hbackup := hname.append hne hnoSlash
  rw [hsuffix] at hlists hbackup
  obtain ⟨e, he, hcontains⟩ := (Option.any_eq_true ..).1 hlists
  rw [Path.extension?_dot hbackup hdot e he, List.contains_iff_mem] at hcontains
  exact hext hcontains

/-- Where no name ends with the suffix there is no backup. -/
theorem Settings.node?_backup_eq_none {s : Settings} {d : Disk}
    (h : ∀ x ∈ d.nodes, ∀ name ∈ x.1, ¬ s.backupSuffix.toList <:+ name.toList) (here : Location)
    (name : String) : d.node? (here ++ [name ++ s.backupSuffix]) = none := by
  cases hn : d.node? (here ++ [name ++ s.backupSuffix]) with
  | none => rfl
  | some n =>
    have hmem := Disk.mem_nodes_of_node? (by simp) hn
    refine absurd ⟨name.toList, ?_⟩ (h _ hmem _ (List.mem_append_right _ (List.mem_singleton_self _)))
    rw [String.toList_append]

example : Settings.lists { projectRoot := ⟨"/p"⟩ } ("page.js" ++ ".orig.js") := by decide +kernel

-- ---------------------------------------------------------------------------
-- One patch
-- ---------------------------------------------------------------------------

namespace Run

/-- What holds of a disk after some patches: the sources that were not touched have no backup yet,
and the backups of all others hold what the files held at first. -/
structure Originals (s : Settings) (d₀ d : Disk) : Prop where
  evolves : d₀.Evolves
    (fun place => ∃ here name, s.IsSource d₀ here name ∧ place = here ++ [name ++ s.backupSuffix])
    (fun place => ∃ here name, s.IsSource d₀ here name ∧ place = here ++ [name]) d
  kept : ∀ here name, s.IsSource d₀ here name →
    (d.node? (here ++ [name]) = d₀.node? (here ++ [name]) ∧
      d.node? (here ++ [name ++ s.backupSuffix]) = none) ∨
    d.node? (here ++ [name ++ s.backupSuffix]) = d₀.node? (here ++ [name])

variable {s : Settings} {d₀ d d' mid : Disk} {here here' : Location} {name name' : String}
  {old new : ByteArray} {created : Bool} {file p : Path} {state state' : State}

/-- No source has the place of a backup. -/
theorem backup_ne (hs : s.KeepsBackups) (hlisted : s.lists name) (hname' : Path.IsName name') :
    here ++ [name] ≠ here' ++ [name' ++ s.backupSuffix] := by
  intro heq
  have hname : name = name' ++ s.backupSuffix :=
    List.singleton_inj.1 (List.append_inj_right' heq rfl)
  exact hs.notListed name' hname' (hname ▸ hlisted)

theorem backup_inj (heq : here ++ [name ++ s.backupSuffix] = here' ++ [name' ++ s.backupSuffix]) :
    here = here' ∧ name = name' := by
  refine ⟨List.append_inj_left' heq rfl, ?_⟩
  have hname := List.singleton_inj.1 (List.append_inj_right' heq rfl)
  have hlist := congrArg String.toList hname
  rw [String.toList_append, String.toList_append] at hlist
  exact String.toList_inj.1 (List.append_cancel_right hlist)

/-- A source that can be read is patched at its place, and its backup goes beside it. -/
theorem target_backupOf (hs : s.KeepsBackups) (hmid : mid.Linkless) (hname : Path.IsName name)
    (hp : p.isAbsolute) (hread : mid.read (s.patched (p.join ⟨name⟩)) = .ok old) :
    mid.target (s.patched (p.join ⟨name⟩)) = mid.target p ++ [name] ∧
      mid.target (s.backupOf (p.join ⟨name⟩)) = mid.target p ++ [name ++ s.backupSuffix] := by
  have hpatched : mid.target (s.patched (p.join ⟨name⟩)) = mid.target p ++ [name] := by
    have hrelative : mid.target (s.patched (p.join ⟨name⟩)) =
        mid.target ((p.join ⟨name⟩).under s.projectRoot) :=
      Path.target_relativeTo hs.absolute
    have hunder : (p.join ⟨name⟩).under s.projectRoot = p.join ⟨name⟩ :=
      if_pos (Path.isAbsolute_join hp)
    rw [hunder, Path.target_join_name hp hname] at hrelative
    exact hrelative
  refine ⟨hpatched, ?_⟩
  obtain ⟨place, hplace, hfile⟩ := Disk.read_eq_ok.1 hread
  rw [Disk.target_of_resolve hmid hplace] at hfile
  obtain ⟨here, front, last, hhere, hpieces, htarget, hbackup⟩ :=
    Disk.exists_target_backup hmid hread hs.noSlash
  obtain ⟨front', last', hpieces', hlast⟩ := Path.slashPieces_relativeTo hs.absolute hp hname
  obtain rfl : last' = last := by
    have hsame := hpieces'.symm.trans hpieces
    exact List.singleton_inj.1 (List.append_inj_right' hsame rfl)
  rw [htarget] at hpatched hfile
  rw [Settings.backupOf, hbackup]
  rcases hlast with rfl | hvoid
  · rw [hname.descend] at hpatched
    rw [Disk.descend_append hname.notVoid hs.notEmpty, List.append_inj_left' hpatched rfl]
  · rw [Disk.descend, if_pos hvoid, hhere] at hfile
    cases hfile

/-- A rewritten file and its backup are all that changes. -/
theorem node_of_rewrites (hmid : mid.Linkless) {target backup : Path} {place : Location}
    (hrewrites : Patch.Rewrites target backup old new created mid d')
    (htarget : place ≠ mid.target target) (hbackup : place ≠ mid.target backup) :
    d'.node? place = mid.node? place := by
  rcases hrewrites.evolves.1.node place with hsame | ⟨-, ⟨⟨-, hat⟩, -⟩ | ⟨hat, -⟩⟩
  · exact hsame
  · exact absurd (Disk.target_of_resolve hmid hat) hbackup
  · exact absurd (Disk.target_of_resolve hmid hat) htarget

/-- A source that is patched has its original in its backup: it is made now, or was made before. -/
theorem Originals.backup_eq (hs : s.KeepsBackups) (hd : d₀.Linkless) (h : Originals s d₀ mid)
    (hsource : s.IsSource d₀ here name) {target backup : Path}
    (htarget : mid.target target = here ++ [name])
    (hbackup : mid.target backup = here ++ [name ++ s.backupSuffix])
    (hrewrites : Patch.Rewrites target backup old new created mid d') :
    d'.node? (here ++ [name ++ s.backupSuffix]) = d₀.node? (here ++ [name]) := by
  have hmid := h.evolves.linkless hd
  cases created with
  | true =>
    obtain ⟨place, hplace, hnone, hkept⟩ := hrewrites.backup_node
    rw [Disk.target_of_resolve hmid hplace, hbackup] at hnone hkept
    rcases h.kept here name hsource with ⟨hfirst, -⟩ | hthere
    · obtain ⟨place', hplace', hold⟩ := Disk.read_eq_ok.1 hrewrites.1
      rw [Disk.target_of_resolve hmid hplace', htarget] at hold
      rw [hkept, ← hfirst, hold]
    · obtain ⟨bytes, hbytes⟩ := hsource.file
      rw [hnone, hbytes] at hthere
      cases hthere
  | false =>
    obtain ⟨place, hplace, htaken⟩ := hrewrites.backup_taken
    rw [Disk.target_of_resolve hmid hplace, hbackup] at htaken
    rcases h.kept here name hsource with ⟨-, hnone⟩ | hthere
    · rw [hnone] at htaken
      cases htaken
    · rw [hrewrites.evolves.1.node_of_not_written htaken, hthere]
      intro hwritten
      apply backup_ne hs hsource.listed hsource.isName
      rw [← htarget, ← Disk.target_of_resolve hmid hwritten]

theorem Originals.rewritten (hs : s.KeepsBackups) (hd : d₀.Linkless) (h : Originals s d₀ mid)
    (hsource : s.IsSource d₀ here name) {target backup : Path}
    (htarget : mid.target target = here ++ [name])
    (hbackup : mid.target backup = here ++ [name ++ s.backupSuffix])
    (hrewrites : Patch.Rewrites target backup old new created mid d') : Originals s d₀ d' := by
  have hmid := h.evolves.linkless hd
  constructor
  · apply h.evolves.trans
    apply hrewrites.evolves.1.mono
    · rintro place ⟨-, hplace⟩
      exact ⟨here, name, hsource, (Disk.target_of_resolve hmid hplace).trans hbackup⟩
    · intro place hplace
      exact ⟨here, name, hsource, (Disk.target_of_resolve hmid hplace).trans htarget⟩
  · intro here' name' hsource'
    by_cases hsame : here' ++ [name' ++ s.backupSuffix] = here ++ [name ++ s.backupSuffix]
    · obtain ⟨rfl, rfl⟩ := backup_inj hsame
      exact .inr (h.backup_eq hs hd hsource htarget hbackup hrewrites)
    · -- Another file, and its backup, are as they were.
      have hplace : here' ++ [name'] ≠ here ++ [name] := by
        intro heq
        have hhere := List.append_inj_left' heq rfl
        have hname := List.singleton_inj.1 (List.append_inj_right' heq rfl)
        exact hsame (by rw [hhere, hname])
      have hbeside : d'.node? (here' ++ [name' ++ s.backupSuffix]) =
          mid.node? (here' ++ [name' ++ s.backupSuffix]) :=
        node_of_rewrites hmid hrewrites
          (htarget ▸ (backup_ne hs hsource.listed hsource'.isName).symm) (hbackup ▸ hsame)
      have hself : d'.node? (here' ++ [name']) = mid.node? (here' ++ [name']) :=
        node_of_rewrites hmid hrewrites (htarget ▸ hplace)
          (hbackup ▸ backup_ne hs hsource'.listed hsource.isName)
      rw [hbeside, hself]
      exact h.kept here' name' hsource'

-- ---------------------------------------------------------------------------
-- One run
-- ---------------------------------------------------------------------------

/-- A path that a run works on leads to a source. -/
def LeadsToSource (s : Settings) (d₀ : Disk) (file : Path) : Prop :=
  ∃ here name, s.IsSource d₀ here name ∧
    ∃ p : Path, p.isAbsolute ∧ d₀.target p = here ∧ file = p.join ⟨name⟩

theorem Originals.processFile (hs : s.KeepsBackups) (hd : d₀.Linkless)
    (h : Originals s d₀ state.disk) (hfile : LeadsToSource s d₀ file) {view : Disk → View}
    (hstep : processFile s view file state = .ok state') : Originals s d₀ state'.disk := by
  obtain ⟨bytes, report, d', -, htreats, rfl⟩ := processFile_ok hstep
  obtain ⟨here, name, hsource, p, hp, rfl, rfl⟩ := hfile
  cases htreats with
  | leaves => exact h
  | previews => exact h
  | patches _ _ _ hrewrites =>
    obtain ⟨htarget, hbackup⟩ :=
      target_backupOf hs (h.evolves.linkless hd) hsource.isName hp hrewrites.1
    rw [h.evolves.sameDirectories.target p] at htarget hbackup
    exact h.rewritten hs hd hsource htarget hbackup hrewrites

theorem Originals.processFiles (hs : s.KeepsBackups) (hd : d₀.Linkless)
    (h : Originals s d₀ state.disk) {files : List Path} {view : Disk → View}
    (hfiles : ∀ file ∈ files, LeadsToSource s d₀ file)
    (hok : processFiles s view files state = .ok state') : Originals s d₀ state'.disk := by
  induction files generalizing state with
  | nil =>
    cases hok
    exact h
  | cons file files ih =>
    rw [Run.processFiles, List.foldlM_cons] at hok
    cases hstep : Run.processFile s view file state with
    | error result =>
      rw [hstep] at hok
      cases hok
    | ok next =>
      rw [hstep] at hok
      exact ih (h.processFile hs hd (hfiles file (List.mem_cons_self ..)) hstep)
        (fun file hfile => hfiles file (List.mem_cons_of_mem _ hfile)) hok

theorem Originals.namesAreProper (hs : s.KeepsBackups) (hnames : d₀.NamesAreProper)
    (h : Originals s d₀ d) : d.NamesAreProper := by
  intro place hsome name hname
  rcases h.evolves.node place with hsame | ⟨-, ⟨⟨here, source, hsource, rfl⟩, -⟩ | ⟨-, old, hold⟩⟩
  · exact hnames place (hsame ▸ hsome) name hname
  · obtain ⟨bytes, hbytes⟩ := hsource.file
    rcases List.mem_append.1 hname with hmem | hmem
    · exact hnames (here ++ [source]) (by rw [hbytes]; rfl) name (List.mem_append_left _ hmem)
    · cases List.mem_singleton.1 hmem
      exact hsource.isName.append hs.notEmpty hs.noSlash
  · exact hnames place (by rw [hold]; rfl) name hname

theorem isAbsolute_scanRoot (hs : s.KeepsBackups) : s.scanRoot.isAbsolute := by
  rw [Settings.scanRoot, Path.under]
  split
  · next h => exact h
  · exact Path.isAbsolute_join hs.absolute

/-- What discovery finds later was there at first: no backup is among it. -/
theorem Originals.leadsToSource (hs : s.KeepsBackups) (hd : d₀.Linkless)
    (hnames : d₀.NamesAreProper) (h : Originals s d₀ d) {files : List Path}
    (hfiles : s.sources.files d = .ok files) (hfile : file ∈ files) : LeadsToSource s d₀ file := by
  have htarget := h.evolves.sameDirectories.target
  obtain ⟨here, name, ⟨hname, hbelow, ⟨bytes, hbytes⟩, p, hp, hplace, hpath⟩, hlisted⟩ :=
    Disk.holdsFile_of_mem_discover (h.evolves.linkless hd) (h.namesAreProper hs hnames)
      (isAbsolute_scanRoot hs) hfiles hfile
  rw [htarget] at hbelow hplace
  refine ⟨here, name, ⟨hname, hbelow, hlisted, ?_⟩, p, hp, hplace, hpath⟩
  rcases h.evolves.node (here ++ [name]) with hsame | ⟨-, ⟨⟨_, _, hsource, heq⟩, -⟩ | ⟨-, old, hold⟩⟩
  · exact ⟨bytes, hsame ▸ hbytes⟩
  · exact absurd heq (backup_ne hs hlisted hsource.isName)
  · exact ⟨old, hold⟩

theorem Originals.run (hs : s.KeepsBackups) (hd : d₀.Linkless) (hnames : d₀.NamesAreProper)
    (h : Originals s d₀ d) (startedAt endedAt : Timestamp) :
    Originals s d₀ (s.run s.sources startedAt endedAt d).state.disk := by
  rw [Settings.run]
  split
  · exact h
  · next files hfiles =>
    have hstart : Originals s d₀ (start s startedAt d).disk := h
    have hleads : ∀ file ∈ files, LeadsToSource s d₀ file := fun file hfile =>
      h.leadsToSource hs hd hnames hfiles hfile
    split
    · next result hfail =>
      obtain ⟨done, failing, todo, mid, rfl, hdone, herror⟩ := processFiles_error hfail
      rw [(processFile_error herror).2.1]
      exact hstart.processFiles hs hd
        (fun file hfile => hleads file (List.mem_append_left _ hfile)) hdone
    · next last hok =>
      have hlast := hstart.processFiles hs hd hleads hok
      exact hlast

end Run

theorem Settings.Runs.originals {s : Settings} {d₀ d : Disk} (h : s.Runs d₀ d)
    (hs : s.KeepsBackups) (hd : d₀.Linkless) (hnames : d₀.NamesAreProper)
    (hfree : ∀ here name, s.IsSource d₀ here name →
      d₀.node? (here ++ [name ++ s.backupSuffix]) = none) : Run.Originals s d₀ d := by
  induction h with
  | start => exact ⟨.refl _, fun here name hsource => .inl ⟨rfl, hfree here name hsource⟩⟩
  | next _ ih => exact ih.run hs hd hnames _ _

/-- However often a project is run, whether its runs succeed or fail: what a file held at first is
there beside the file, under its name with the suffix, from the moment the file is changed. -/
theorem Settings.originals_kept {s : Settings} {d₀ d : Disk} (hs : s.KeepsBackups)
    (hd : d₀.Linkless) (hnames : d₀.NamesAreProper)
    (hfree : ∀ here name, s.IsSource d₀ here name →
      d₀.node? (here ++ [name ++ s.backupSuffix]) = none)
    (h : s.Runs d₀ d) {place : Location} {bytes : ByteArray}
    (hfile : d₀.node? place = some (.file bytes)) (hchanged : d.node? place ≠ some (.file bytes)) :
    ∃ here name, place = here ++ [name] ∧
      d.node? (here ++ [name ++ s.backupSuffix]) = some (.file bytes) := by
  have hkept := h.originals hs hd hnames hfree
  rcases hkept.evolves.node place with hsame | ⟨-, ⟨-, hnone⟩ | ⟨⟨here, name, hsource, rfl⟩, -⟩⟩
  · exact absurd (hsame.trans hfile) hchanged
  · rw [hfile] at hnone
    cases hnone
  · refine ⟨here, name, rfl, ?_⟩
    rcases hkept.kept here name hsource with ⟨hsame, -⟩ | hbackup
    · exact absurd (hsame.trans hfile) hchanged
    · exact hbackup.trans hfile

/-- A page that a run changes. -/
theorem Settings.originals_kept_page :
    let s : Settings := { projectRoot := ⟨"/p"⟩ }
    let bytes : ByteArray := "useState(0);\n".toUTF8
    let d₀ : Disk := { nodes := [(["p"], .directory), (["p", "app"], .directory),
      (["p", "app", "page.js"], .file bytes)] }
    let d := (s.run s.sources default default d₀).state.disk
    s.KeepsBackups ∧ d₀.Linkless ∧ d₀.NamesAreProper ∧
      (∀ here name, s.IsSource d₀ here name →
        d₀.node? (here ++ [name ++ s.backupSuffix]) = none) ∧
      s.Runs d₀ d ∧ d₀.node? ["p", "app", "page.js"] = some (.file bytes) ∧
      d.node? ["p", "app", "page.js"] ≠ some (.file bytes) ∧
      d.node? ["p", "app", "page.js.bak"] = some (.file bytes) := by
  intro s bytes d₀ d
  have hs : s.KeepsBackups :=
    @keepsBackups_dot s "bak" (by decide +kernel) rfl (by decide) (by decide) (by decide)
  have hd : d₀.Linkless := by decide +kernel
  have hnames : d₀.NamesAreProper := by decide +kernel
  have hfree : ∀ here name, s.IsSource d₀ here name →
      d₀.node? (here ++ [name ++ s.backupSuffix]) = none :=
    fun here name _ => node?_backup_eq_none (by decide +kernel) here name
  have hruns : s.Runs d₀ d := .next .start
  have hfile : d₀.node? ["p", "app", "page.js"] = some (.file bytes) := by decide +kernel
  have hchanged : d.node? ["p", "app", "page.js"] ≠ some (.file bytes) := by decide +kernel
  obtain ⟨here, name, hplace, hbackup⟩ := originals_kept hs hd hnames hfree hruns hfile hchanged
  have hcut : ["p", "app"] ++ ["page.js"] = here ++ [name] := hplace
  obtain ⟨rfl, hname⟩ := List.append_inj' hcut rfl
  obtain rfl := List.singleton_inj.1 hname
  exact ⟨hs, hd, hnames, hfree, hruns, hfile, hchanged, hbackup⟩

end TidyImports
