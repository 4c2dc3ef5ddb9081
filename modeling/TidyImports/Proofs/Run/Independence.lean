-- SUMMARY: The files of a run do not affect each other, and a dry run predicts a real one.
import TidyImports.Proofs.Disk.Relative
import TidyImports.Proofs.Plan.Questions
import TidyImports.Proofs.Run.Files

/-!
# Independence of files

A run changes the disk while it goes on to plan. It rewrites files it has read,
and creates backups where nothing was; when no plan asks about the place of a
backup, each plan gets the answers it would have got at the start. So what a run
reports of a file is foretold by the bytes of the file and the initial disk, in
whatever order the files come, and whether or not anything is written.
-/

namespace TidyImports

/-- A file that a run is to work on, with its bytes before the run. -/
structure SourceFile where
  path : Path
  bytes : ByteArray

/-- The file a warning is about, with the warning. -/
def Event.warned? : Event → Option (Path × Warning)
  | .warning path w => some (path, w)
  | _ => none

namespace Settings

variable (s : Settings) (d : Disk)

/-- The place of a file. -/
def place? (f : SourceFile) : Option Location := d.place? true (f.path.under s.projectRoot)

/-- The place of the backup of a file. -/
def backupPlace? (f : SourceFile) : Option Location := d.place? false (s.backupOf f.path)

/-- What the initial disk foretells of a file. -/
def foretold (f : SourceFile) : Forecast :=
  s.forecast (d.view s.projectRoot).isFile f.path f.bytes

/-- The paths that the plan for a file asks about. -/
def questions (f : SourceFile) : List Path :=
  match String.fromUTF8? f.bytes with
  | none => []
  | some text => s.project.questions (d.view s.projectRoot).isFile (s.reported f.path) text.toList

/-- A run on a disk without links, of different files below an absolute root, none of whose plans
asks about the place of a backup. -/
structure Independent (files : List SourceFile) : Prop where
  root : s.projectRoot.isAbsolute
  linkless : d.Linkless
  found : ∀ f ∈ files, f.bytes ∈ d.bytes? (f.path.under s.projectRoot)
  distinct : files.Pairwise fun f g => ∀ place ∈ s.place? d f, place ∉ s.place? d g
  backups : ∀ f ∈ files, ∀ q ∈ s.questions d f, ∀ g ∈ files,
    ∀ place ∈ d.place? true (q.under s.projectRoot), place ∉ s.backupPlace? d g

instance (files : List SourceFile) : Decidable (s.Independent d files) :=
  letI : DecidableEq ByteArray := ByteArray.decEq
  decidable_of_iff
    (s.projectRoot.isAbsolute ∧ d.Linkless ∧
      (∀ f ∈ files, f.bytes ∈ d.bytes? (f.path.under s.projectRoot)) ∧
      (files.Pairwise fun f g => ∀ place ∈ s.place? d f, place ∉ s.place? d g) ∧
      ∀ f ∈ files, ∀ q ∈ s.questions d f, ∀ g ∈ files,
        ∀ place ∈ d.place? true (q.under s.projectRoot), place ∉ s.backupPlace? d g)
    ⟨fun ⟨root, linkless, found, distinct, backups⟩ => ⟨root, linkless, found, distinct, backups⟩,
      fun ⟨root, linkless, found, distinct, backups⟩ => ⟨root, linkless, found, distinct, backups⟩⟩

end Settings

/-- A run has reported, counted and written what the initial disk foretells of some files. -/
structure Run.State.Fulfils (state : Run.State) (s : Settings) (d : Disk)
    (files : List SourceFile) : Prop where
  warned : state.events.filterMap Event.warned? =
    files.flatMap fun f => (s.foretold d f).warnings.map (s.reported f.path, ·)
  changed : state.events.filterMap Event.changed? =
    files.filterMap fun f => (s.foretold d f).changes?.map (s.reported f.path, ·)
  filesScanned : state.summary.filesScanned = files.length
  filesChanged : state.summary.filesChanged =
    files.countP fun f => (s.foretold d f).changes?.isSome
  warnings : state.summary.warnings = (files.flatMap fun f => (s.foretold d f).warnings).length
  real : s.dryRun = false → ∀ f ∈ files,
    state.disk.read (f.path.under s.projectRoot) = .ok (s.foretold d f).bytes
  dry : s.dryRun = true → state.disk = d

-- ---------------------------------------------------------------------------
-- One file
-- ---------------------------------------------------------------------------

namespace Run

open Disk

variable {s : Settings} {d : Disk} {files done : List SourceFile} {f : SourceFile}
  {state state' : State}

/-- The state of a run after some of its files. -/
structure Progress (s : Settings) (d : Disk) (files done : List SourceFile) (state : State) :
    Prop where
  evolves : d.Evolves (fun place => ∃ g ∈ files, place ∈ s.backupPlace? d g)
    (fun place => ∃ g ∈ done, place ∈ s.place? d g) state.disk
  fulfils : state.Fulfils s d done

/-- The plan for a file that was not worked on yet is the one foretold. -/
theorem Progress.forecast (h : s.Independent d files) (hp : Progress s d files done state)
    (hf : f ∈ files) :
    s.forecast (state.disk.view s.projectRoot).isFile f.path f.bytes = s.foretold d f := by
  have hanswers : ∀ q ∈ s.questions d f,
      (state.disk.view s.projectRoot).isFile q = (d.view s.projectRoot).isFile q := by
    intro q hq
    refine hp.evolves.isFile h.linkless fun place hplace => ?_
    rintro ⟨g, hg, hbackup⟩
    exact h.backups f hf q hq g hg place (mem_place?.2 hplace) hbackup
  rw [Settings.foretold, Settings.forecast, Settings.forecast]
  rw [Settings.questions] at hanswers
  split
  · rfl
  · next text htext =>
    rw [htext] at hanswers
    simp only [Project.plan_congr hanswers]

/-- The path a file is patched under leads to the file. -/
theorem place_patched (h : s.Independent d files) (hf : f ∈ files) {place : Location}
    (hplace : d.resolve true (s.patched f.path) = .ok place) : place ∈ s.place? d f := by
  obtain ⟨place', hplace', -⟩ := read_eq_ok.1 (mem_bytes?.1 (h.found f hf))
  have heq : place = place' := by
    rw [target_of_resolve h.linkless hplace, target_of_resolve h.linkless hplace']
    exact Path.target_relativeTo h.root
  rw [heq]
  exact mem_place?.2 hplace'

/-- A file at a place of its own is still as it was. -/
theorem Progress.read (h : s.Independent d files) (hp : Progress s d files done state)
    (hf : f ∈ files) (hapart : ∀ g ∈ done, ∀ place ∈ s.place? d g, place ∉ s.place? d f) :
    state.disk.read (f.path.under s.projectRoot) = .ok f.bytes := by
  refine hp.evolves.read h.linkless (mem_bytes?.1 (h.found f hf)) fun place hplace => ?_
  rintro ⟨g, hg, hstands⟩
  exact hapart g hg place hstands (mem_place?.2 hplace)

section

variable {report : List Event} {d' : Disk}

/-- The change of the disk in one step. -/
theorem Treats.step (h : s.Independent d files) (hp : Progress s d files done state) (hf : f ∈ files)
    (ht : Treats s f.path f.bytes (s.foretold d f) state.disk report d') :
    state.disk.Evolves (fun place => ∃ g ∈ files, place ∈ s.backupPlace? d g) (· ∈ s.place? d f) d' := by
  cases ht with
  | leaves => exact .refl _
  | previews => exact .refl _
  | patches _ _ _ hrewrites =>
    refine hrewrites.evolves.1.mono (fun place hplace => ?_) fun place hplace => ?_
    · exact ⟨f, hf, mem_place?.2 ((hp.evolves.resolve h.linkless).1 hplace.2)⟩
    · exact place_patched h hf ((hp.evolves.resolve h.linkless).1 hplace)

theorem Treats.evolves (h : s.Independent d files) (hp : Progress s d files done state)
    (hf : f ∈ files) (ht : Treats s f.path f.bytes (s.foretold d f) state.disk report d') :
    d.Evolves (fun place => ∃ g ∈ files, place ∈ s.backupPlace? d g)
      (fun place => ∃ g ∈ done ++ [f], place ∈ s.place? d g) d' :=
  (hp.evolves.mono (fun _ h => h) fun _ ⟨g, hg, hstands⟩ =>
    ⟨g, List.mem_append_left _ hg, hstands⟩).trans <|
      (ht.step h hp hf).mono (fun _ h => h) fun _ hstands =>
        ⟨f, List.mem_append_right _ (List.mem_singleton_self _), hstands⟩

/-- What a step leaves in the files so far. -/
theorem Treats.contents (h : s.Independent d files) (hp : Progress s d files done state)
    (hf : f ∈ files)
    (hapart : ∀ g ∈ done, ∀ place ∈ s.place? d g, place ∉ s.place? d f)
    (ht : Treats s f.path f.bytes (s.foretold d f) state.disk report d') (hreal : s.dryRun = false) :
    ∀ g ∈ done ++ [f], d'.read (g.path.under s.projectRoot) = .ok (s.foretold d g).bytes := by
  have hlinkless := hp.evolves.linkless h.linkless
  intro g hg
  rcases List.mem_append.1 hg with hg | hg
  · -- The file of the step stands at another place.
    refine (ht.step h hp hf).read hlinkless (hp.fulfils.real hreal g hg) fun place hplace => ?_
    exact hapart g hg place (mem_place?.2 ((hp.evolves.resolve h.linkless).1 hplace))
  · cases List.mem_singleton.1 hg
    have hread := hp.read h hf hapart
    cases ht with
    | leaves hnone => rw [hread, Settings.foretold, Settings.forecast_bytes hnone]
    | previews _ hdry => rw [hreal] at hdry; cases hdry
    | patches _ _ _ hrewrites =>
      obtain ⟨hevolves, hnew⟩ := hrewrites.evolves
      obtain ⟨place, hplace, hn⟩ := read_eq_ok.1 hnew
      refine read_eq_ok.2 ⟨place, ?_, hn⟩
      have hstands := place_patched h hf
        ((hp.evolves.resolve h.linkless).1 ((hevolves.resolve hlinkless).1 hplace))
      exact (hevolves.resolve hlinkless).2 ((hp.evolves.resolve h.linkless).2 (mem_place?.1 hstands))

theorem Treats.reports {fc : Forecast} {disk : Disk} (ht : Treats s f.path f.bytes fc disk report d') :
    report.filterMap Event.warned? = [] ∧
      report.filterMap Event.changed? = (fc.changes?.map (s.reported f.path, ·)).toList ∧
        report.length = if fc.changes?.isSome then 1 else 0 := by
  cases ht with
  | leaves hnone => simp [hnone]
  | previews diff _ hsome => simp [hsome, Event.warned?, Event.changed?]
  | patches _ hsome => simp [hsome, Event.warned?, Event.changed?]

theorem Treats.fulfils (h : s.Independent d files) (hp : Progress s d files done state)
    (hf : f ∈ files)
    (hapart : ∀ g ∈ done, ∀ place ∈ s.place? d g, place ∉ s.place? d f)
    (ht : Treats s f.path f.bytes (s.foretold d f) state.disk report d') :
    (state.after (s.reported f.path) (s.foretold d f).warnings report d').Fulfils s d
      (done ++ [f]) := by
  obtain ⟨hwarned, hchanged, hlength⟩ := ht.reports
  have hown : ∀ ws : List Warning,
      (ws.map (Event.warning (s.reported f.path))).filterMap Event.warned? =
        ws.map (s.reported f.path, ·) ∧
      (ws.map (Event.warning (s.reported f.path))).filterMap Event.changed? = [] := fun ws => by
    induction ws with
    | nil => exact ⟨rfl, rfl⟩
    | cons w ws ih => exact ⟨congrArg (_ :: ·) ih.1, ih.2⟩
  have hbefore := hp.fulfils
  constructor
  · simp [State.after, hbefore.warned, hwarned, hown]
  · have hsingle : List.filterMap (fun f => (s.foretold d f).changes?.map (s.reported f.path, ·)) [f] =
        ((s.foretold d f).changes?.map (s.reported f.path, ·)).toList := by
      rw [List.filterMap_cons, List.filterMap_nil]
      cases (s.foretold d f).changes? <;> rfl
    simp only [State.after, List.filterMap_append, hbefore.changed, hchanged, hown, hsingle,
      List.append_nil]
  · simp [State.after, hbefore.filesScanned]
  · simp [State.after, hbefore.filesChanged, hlength]
  · simp [State.after, hbefore.warnings]
  · exact ht.contents h hp hf hapart
  · intro hdry
    cases ht with
    | leaves => exact hbefore.dry hdry
    | previews => exact hbefore.dry hdry
    | patches hreal =>
      rw [hdry] at hreal
      cases hreal

end

-- ---------------------------------------------------------------------------
-- All files
-- ---------------------------------------------------------------------------

/-- One more file. -/
theorem Progress.processFile (h : s.Independent d files) (hp : Progress s d files done state)
    (hf : f ∈ files) (hapart : ∀ g ∈ done, ∀ place ∈ s.place? d g, place ∉ s.place? d f)
    (hok : Run.processFile s (·.view s.projectRoot) f.path state = .ok state') :
    Progress s d files (done ++ [f]) state' := by
  obtain ⟨bytes, report, d', hread, ht, rfl⟩ := processFile_ok hok
  have hbytes : f.bytes = bytes :=
    Except.ok.inj ((hp.read h hf hapart).symm.trans (read_of_view hread))
  subst hbytes
  rw [hp.forecast h hf] at ht ⊢
  exact ⟨ht.evolves h hp hf, ht.fulfils h hp hf hapart⟩

/-- All files that are left. -/
theorem Progress.processFiles (h : s.Independent d files) {todo : List SourceFile}
    (hfiles : files = done ++ todo) (hp : Progress s d files done state)
    (hok : Run.processFiles s (·.view s.projectRoot) (todo.map (·.path)) state = .ok state') :
    Progress s d files files state' := by
  induction todo generalizing done state with
  | nil =>
    cases hok
    rw [List.append_nil] at hfiles
    exact hfiles ▸ hp
  | cons f todo ih =>
    have hf : f ∈ files := hfiles ▸ List.mem_append_right _ (List.mem_cons_self ..)
    have hapart : ∀ g ∈ done, ∀ place ∈ s.place? d g, place ∉ s.place? d f := by
      have hdistinct := h.distinct
      rw [hfiles, List.pairwise_append] at hdistinct
      exact fun g hg => hdistinct.2.2 g hg f (List.mem_cons_self ..)
    rw [Run.processFiles, List.map_cons, List.foldlM_cons] at hok
    cases hmid : Run.processFile s (·.view s.projectRoot) f.path state with
    | error result =>
      rw [hmid] at hok
      cases hok
    | ok mid =>
      rw [hmid] at hok
      exact ih (by rw [hfiles, List.append_assoc]; rfl) (hp.processFile h hf hapart hmid) hok

end Run

/-- A run that succeeds has done what the initial disk foretells. -/
theorem Settings.run_fulfils {s : Settings} {d : Disk} {files : List SourceFile}
    {sources : Sources} {startedAt endedAt : Timestamp} {state : Run.State}
    (h : s.Independent d files) (hfiles : sources.files d = .ok (files.map (·.path)))
    (hview : sources.view = (·.view s.projectRoot))
    (hrun : s.run sources startedAt endedAt d = ⟨state, none⟩) : state.Fulfils s d files := by
  have hstart : Run.Progress s d files [] (Run.start s startedAt d) :=
    ⟨.refl _, rfl, rfl, rfl, rfl, rfl, fun _ _ hf => (List.not_mem_nil hf).elim, fun _ => rfl⟩
  rw [run, hfiles, hview] at hrun
  simp only at hrun
  split at hrun
  · next result hfail =>
    subst hrun
    exact absurd rfl (Run.failure_of_processFiles hfail)
  · next last hok =>
    cases hrun
    have hall := (hstart.processFiles h (List.nil_append _).symm hok).fulfils
    have hevents : (Run.finish endedAt last).events =
        last.events ++ [.completed (Run.finish endedAt last).summary] := rfl
    refine ⟨?_, ?_, hall.filesScanned, hall.filesChanged, hall.warnings, hall.real, hall.dry⟩
    · rw [hevents, List.filterMap_append, hall.warned]
      exact List.append_nil _
    · rw [hevents, List.filterMap_append, hall.changed]
      exact List.append_nil _

/-- The settings for a dry run or for a real one. -/
def Settings.mode (s : Settings) (dryRun : Bool) : Settings := { s with dryRun }

/-- Whatever the order of the files, a run reports, counts and writes what the initial disk foretells
of each, and a dry run counts what a real one does. -/
theorem Settings.run_files_independent {s : Settings} {d : Disk} {files : List SourceFile}
    {sources : Sources} (h : s.Independent d files)
    (hfiles : sources.files d = .ok (files.map (·.path)))
    (hview : sources.view = (·.view s.projectRoot)) :
    (∀ dryRun startedAt endedAt state,
      (s.mode dryRun).run sources startedAt endedAt d = ⟨state, none⟩ →
        state.Fulfils (s.mode dryRun) d files) ∧
    ∀ startedAt endedAt startedAt' endedAt' predicted actual,
      (s.mode true).run sources startedAt endedAt d = ⟨predicted, none⟩ →
      (s.mode false).run sources startedAt' endedAt' d = ⟨actual, none⟩ →
        predicted.summary.filesScanned = actual.summary.filesScanned ∧
          predicted.summary.filesChanged = actual.summary.filesChanged ∧
            predicted.summary.warnings = actual.summary.warnings := by
  have hmode : ∀ dryRun, (s.mode dryRun).Independent d files := fun _ =>
    ⟨h.root, h.linkless, h.found, h.distinct, h.backups⟩
  have hfulfils : ∀ dryRun startedAt endedAt state,
      (s.mode dryRun).run sources startedAt endedAt d = ⟨state, none⟩ →
        state.Fulfils (s.mode dryRun) d files :=
    fun dryRun _ _ _ => run_fulfils (hmode dryRun) hfiles hview
  refine ⟨hfulfils, fun startedAt endedAt startedAt' endedAt' predicted actual hdry hreal => ?_⟩
  have hd := hfulfils true startedAt endedAt predicted hdry
  have hr := hfulfils false startedAt' endedAt' actual hreal
  exact ⟨hd.filesScanned.trans hr.filesScanned.symm, hd.filesChanged.trans hr.filesChanged.symm,
    hd.warnings.trans hr.warnings.symm⟩

/-- A file that is no text, and one that changes. -/
def twoFiles : List SourceFile :=
  [⟨⟨"/p/app/b.js"⟩, ⟨#[0xff]⟩⟩, ⟨⟨"/p/app/a.js"⟩, "useRef(0);\n".toUTF8⟩]

/-- A disk with the two files. -/
def twoFilesDisk : Disk where
  nodes := [(["p"], .directory), (["p", "app"], .directory),
    (["p", "app", "a.js"], .file "useRef(0);\n".toUTF8), (["p", "app", "b.js"], .file ⟨#[0xff]⟩)]

/-- A run on the two files. -/
def twoFilesRun (dryRun : Bool) : Run.Result :=
  (Settings.mode { projectRoot := ⟨"/p"⟩ } dryRun).run
    ⟨fun _ => .ok (twoFiles.map (·.path)), (·.view ⟨"/p"⟩)⟩ default default twoFilesDisk

theorem Settings.run_files_independent_two :
    Settings.Independent { projectRoot := ⟨"/p"⟩ } twoFilesDisk twoFiles ∧
      (∀ dryRun, (twoFilesRun dryRun).failure? = none ∧
        (twoFilesRun dryRun).state.Fulfils (mode { projectRoot := ⟨"/p"⟩ } dryRun) twoFilesDisk
          twoFiles) ∧
      (twoFilesRun true).state.summary.filesChanged =
        (twoFilesRun false).state.summary.filesChanged := by
  have h : Settings.Independent { projectRoot := ⟨"/p"⟩ } twoFilesDisk twoFiles := by
    decide +kernel
  have hnone : ∀ dryRun, (twoFilesRun dryRun).failure? = none := by decide +kernel
  have hrun : ∀ dryRun, twoFilesRun dryRun = ⟨(twoFilesRun dryRun).state, none⟩ := fun dryRun => by
    rw [← hnone dryRun]
  obtain ⟨hfulfils, hcounts⟩ := @run_files_independent _ _ _
    ⟨fun _ => .ok (twoFiles.map (·.path)), (·.view ⟨"/p"⟩)⟩ h rfl rfl
  exact ⟨h, fun dryRun => ⟨hnone dryRun, hfulfils dryRun default default _ (hrun dryRun)⟩,
    (hcounts default default default default _ _ (hrun true) (hrun false)).2.1⟩

end TidyImports
