-- SUMMARY: What a run makes of one file: what it reports and counts, and what it leaves on the disk.
import TidyImports.Run
import TidyImports.Proofs.Patch.Applying
import TidyImports.Proofs.Plan.Quiet

/-!
# Files of a run

A file is read, planned and patched. What comes of it is foretold by its bytes
and by the view it is planned against; a real run and a dry run differ only in
what they do with a text that differs.
-/

namespace TidyImports

-- ---------------------------------------------------------------------------
-- Forecasts
-- ---------------------------------------------------------------------------

/-- What is to come of a file. -/
structure Forecast where
  warnings : List Warning
  /-- The changes, when the text differs. -/
  changes? : Option (List Change)
  bytes : ByteArray

namespace Settings

variable (s : Settings)

/-- The path that a file is reported under. -/
def reported (file : Path) : Path := file.relativeTo s.projectRoot

/-- The path that a file is patched under. -/
def patched (file : Path) : Path := (s.reported file).under s.projectRoot

def backupOf (file : Path) : Path := (s.patched file).backup s.backupSuffix

/-- What a view and the bytes of a file foretell of it. -/
def forecast (isFile : Path → Bool) (file : Path) (bytes : ByteArray) : Forecast :=
  match String.fromUTF8? bytes with
  | none => { warnings := [.notUtf8], changes? := none, bytes }
  | some text =>
    let plan := s.project.plan isFile (s.reported file) text.toList
    { warnings := plan.warnings
      changes? := if plan.text = text.toList then none else some plan.changes
      bytes := plan.text.bytes }

end Settings

theorem toUTF8_of_fromUTF8? {bytes : ByteArray} {text : String}
    (h : String.fromUTF8? bytes = some text) : text.toUTF8 = bytes := by
  rw [String.fromUTF8?] at h
  split at h
  · cases h
    rfl
  · cases h

section

variable {s : Settings} {isFile : Path → Bool} {file : Path} {bytes : ByteArray}

/-- A file whose text stays is left with its bytes. -/
theorem Settings.forecast_bytes (h : (s.forecast isFile file bytes).changes? = none) :
    (s.forecast isFile file bytes).bytes = bytes := by
  cases htext : String.fromUTF8? bytes with
  | none => rw [forecast, htext]
  | some text =>
    simp only [forecast, htext, ite_eq_left_iff, reduceCtorEq, imp_false, Decidable.not_not] at h ⊢
    rw [h, Text.bytes, String.ofList_toList, toUTF8_of_fromUTF8? htext]

/-- A file whose text changes gets other bytes. -/
theorem Settings.forecast_bytes_ne {changes : List Change}
    (h : (s.forecast isFile file bytes).changes? = some changes) :
    (s.forecast isFile file bytes).bytes ≠ bytes := by
  cases htext : String.fromUTF8? bytes with
  | none =>
    rw [forecast, htext] at h
    cases h
  | some text =>
    simp only [forecast, htext] at h ⊢
    split at h
    · cases h
    · next hne =>
      intro heq
      rw [Text.bytes, ← toUTF8_of_fromUTF8? htext] at heq
      have htext' := congrArg String.toList (String.toByteArray_inj.1 heq)
      rw [String.toList_ofList] at htext'
      exact hne htext'

end

-- ---------------------------------------------------------------------------
-- Reports
-- ---------------------------------------------------------------------------

/-- Is a new backup reported? -/
def Event.backsUp : Event → Bool
  | .filePatched _ _ created => created
  | _ => false

namespace Run

/-- What is reported of a file after its warnings, and the disk it leaves, when it was planned from
some bytes. -/
inductive Treats (s : Settings) (file : Path) (bytes : ByteArray) (f : Forecast) (d : Disk) :
    List Event → Disk → Prop
  | leaves : f.changes? = none → Treats s file bytes f d [] d
  | previews {changes : List Change} (diff : Text) : s.dryRun = true → f.changes? = some changes →
      Treats s file bytes f d [.filePreview (s.reported file) changes diff] d
  | patches {changes : List Change} {old : ByteArray} {created : Bool} {d' : Disk} :
      s.dryRun = false → f.changes? = some changes → Sha256.digest old = Sha256.digest bytes →
        Patch.Rewrites (s.patched file) (s.backupOf file) old f.bytes created d d' →
          Treats s file bytes f d [.filePatched (s.reported file) changes created] d'

namespace State

/-- A state after one more file, with its warnings and what else is reported of it. -/
def after (state : State) (path : Path) (warnings : List Warning) (report : List Event)
    (d : Disk) : State where
  disk := d
  events := state.events ++ warnings.map (.warning path) ++ report
  summary :=
    { state.summary with
      filesScanned := state.summary.filesScanned + 1
      filesChanged := state.summary.filesChanged + report.length
      backupsCreated := state.summary.backupsCreated + report.countP Event.backsUp
      warnings := state.summary.warnings + warnings.length }

theorem foldl_warn (state : State) (path : Path) (ws : List Warning) :
    ws.foldl (fun state w => state.warn path w) state =
      { state with
        events := state.events ++ ws.map (.warning path)
        summary := { state.summary with warnings := state.summary.warnings + ws.length } } := by
  induction ws generalizing state with
  | nil => simp
  | cons w ws ih =>
    rw [List.foldl_cons, ih]
    simp [warn, report, Nat.add_assoc, Nat.add_comm 1]

end State

variable {s : Settings} {view : Disk → View} {file : Path} {state state' : State}

/-- What a step of a run does with a text. -/
theorem processText_ok {bytes : ByteArray} {text : String}
    (htext : String.fromUTF8? bytes = some text)
    (h : processText s view (s.reported file) text.toList state.countFile = .ok state') :
    ∃ report d', Treats s file bytes (s.forecast (view state.disk).isFile file bytes)
        state.disk report d' ∧
      state' = state.after (s.reported file)
        (s.forecast (view state.disk).isFile file bytes).warnings report d' := by
  have hforecast : ∀ isFile, s.forecast isFile file bytes =
      let plan := s.project.plan isFile (s.reported file) text.toList
      ⟨plan.warnings, if plan.text = text.toList then none else some plan.changes,
        plan.text.bytes⟩ := fun isFile => by rw [Settings.forecast, htext]
  have hnoop := @Project.text_plan_of_isNoop s.project (view state.disk).isFile
    (s.reported file) text.toList
  have hdisk : state.countFile.disk = state.disk := rfl
  have hbytes : Text.bytes text.toList = bytes := by
    rw [Text.bytes, String.ofList_toList, toUTF8_of_fromUTF8? htext]
  rw [processText, State.foldl_warn, hdisk] at h
  rw [hforecast]
  generalize s.project.plan (view state.disk).isFile (s.reported file) text.toList =
    plan at h hnoop
  simp only at h ⊢
  split at h
  · next hc =>
    cases h
    exact ⟨[], state.disk, .leaves (if_pos (hnoop hc)), by simp [State.after, State.countFile]⟩
  · split at h
    · next d' outcome happly =>
      cases h
      cases Patch.ends_of_apply happly with
      | unchanged hsame =>
        exact ⟨[], state.disk, .leaves (if_pos hsame.symm), by
          simp [State.after, State.conclude, State.countFile]⟩
      | previewed hne _ _ hdry =>
        refine ⟨_, state.disk, .previews (Patch.diff ⟨s.reported file, text.toList, plan.text,
          plan.changes⟩) hdry (if_neg (Ne.symm hne)), ?_⟩
        simp [State.after, State.conclude, State.countFile, State.report, Event.backsUp]
      | written hne hdigest hdry hrewrites =>
        rw [Patch.oldDigest, hbytes] at hdigest
        refine ⟨_, d', .patches hdry (if_neg (Ne.symm hne)) hdigest hrewrites, ?_⟩
        next created =>
        cases created <;>
          simp [State.after, State.conclude, State.countFile, State.report, Event.backsUp]
    · cases h

/-- What a step of a run does with a file. -/
theorem processFile_ok (h : processFile s view file state = .ok state') :
    ∃ bytes report d', (view state.disk).read file = .ok bytes ∧
      Treats s file bytes (s.forecast (view state.disk).isFile file bytes)
        state.disk report d' ∧
      state' = state.after (s.reported file)
        (s.forecast (view state.disk).isFile file bytes).warnings report d' := by
  rw [processFile] at h
  split at h
  · cases h
  · next bytes hread =>
    split at h
    · next hnone =>
      cases h
      refine ⟨bytes, [], state.disk, hread, .leaves ?_, ?_⟩
      · rw [Settings.forecast, hnone]
      · simp [Settings.forecast, hnone, State.after, State.warn, State.report, State.countFile,
          Settings.reported]
    · next text htext =>
      obtain ⟨report, d', htreats, rfl⟩ := processText_ok htext h
      exact ⟨bytes, report, d', hread, htreats, rfl⟩

/-- A step that fails says why. It has reported warnings at most, and left the disk as it was. -/
theorem processFile_error {result : Result}
    (h : processFile s view file state = .error result) :
    result.failure? ≠ none ∧ result.state.disk = state.disk ∧
      ∃ ws : List Warning,
        result.state.events = state.events ++ ws.map (.warning (s.reported file)) := by
  rw [processFile] at h
  split at h
  · cases h
    exact ⟨Option.some_ne_none _, rfl, [], (List.append_nil _).symm⟩
  · split at h
    · cases h
    · rw [processText, State.foldl_warn] at h
      simp only at h
      split at h
      · cases h
      · split at h
        · cases h
        · next happly =>
          cases h
          refine ⟨Option.some_ne_none _, ?_, _, rfl⟩
          apply (Patch.ends_of_apply happly).disk_eq
          intro created hwritten
          cases hwritten

/-- Work on files that fails does so at one of them. -/
theorem processFiles_error {files : List Path} {result : Result}
    (h : processFiles s view files state = .error result) :
    ∃ done file todo mid, files = done ++ file :: todo ∧
      processFiles s view done state = .ok mid ∧ processFile s view file mid = .error result := by
  induction files generalizing state with
  | nil => cases h
  | cons file files ih =>
    rw [processFiles, List.foldlM_cons] at h
    cases hstep : processFile s view file state with
    | error failed =>
      rw [hstep] at h
      cases h
      exact ⟨[], file, files, state, rfl, rfl, hstep⟩
    | ok next =>
      rw [hstep] at h
      obtain ⟨done, failing, todo, mid, rfl, hdone, hfail⟩ := ih h
      refine ⟨file :: done, failing, todo, mid, rfl, ?_, hfail⟩
      rw [processFiles, List.foldlM_cons, hstep]
      exact hdone

theorem failure_of_processFiles {files : List Path} {result : Result}
    (h : processFiles s view files state = .error result) : result.failure? ≠ none := by
  obtain ⟨_, _, _, _, -, -, hfail⟩ := processFiles_error h
  exact (processFile_error hfail).1

/-- Work on the first files and then on one more. -/
theorem processFiles_concat {files : List Path}
    (h : processFiles s view (files ++ [file]) state = .ok state') :
    ∃ mid, processFiles s view files state = .ok mid ∧ processFile s view file mid = .ok state' := by
  rw [processFiles, List.foldlM_append] at h
  cases hfiles : processFiles s view files state with
  | error result =>
    rw [processFiles] at hfiles
    rw [hfiles] at h
    cases h
  | ok mid =>
    refine ⟨mid, rfl, ?_⟩
    rw [processFiles] at hfiles
    rw [hfiles] at h
    have hlast : processFiles s view [file] mid = .ok state' := h
    rw [processFiles, List.foldlM_cons] at hlast
    cases hstep : processFile s view file mid with
    | error result =>
      rw [hstep] at hlast
      cases hlast
    | ok last =>
      rw [hstep] at hlast
      cases hlast
      rfl

end Run

end TidyImports
