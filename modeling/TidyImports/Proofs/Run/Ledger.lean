-- SUMMARY: What a run reports, what it counts, and what it changes on the disk agree.
import Mathlib.Data.List.Induction
import TidyImports.Proofs.Disk.Relative
import TidyImports.Proofs.Run.Files

/-!
# The books of a run

A run keeps three books: events, counters, and the disk. Each step enters the
same into all three, and no later step touches what was entered for a file. So
they agree after every file, whether the run succeeds or fails at the next one.
-/

namespace TidyImports

namespace Settings

variable (s : Settings) (d : Disk)

/-- Where a file is patched. -/
def placeOf (file : Path) : Location := d.target (s.patched file)

/-- Where the backup of a file goes. -/
def backupPlaceOf (file : Path) : Location := d.target (s.backupOf file)

/-- These files are there, each at a place of its own. -/
structure Finds (files : List Path) : Prop where
  found : ∀ file ∈ files, ∃ bytes, d.node? (s.placeOf d file) = some (.file bytes)
  distinct : files.Pairwise fun f g => s.placeOf d f ≠ s.placeOf d g

variable {s d}

theorem Finds.isSome {files : List Path} {file : Path} (h : s.Finds d files)
    (hfile : file ∈ files) : (d.node? (s.placeOf d file)).isSome := by
  obtain ⟨bytes, hbytes⟩ := h.found file hfile
  rw [hbytes]
  rfl

theorem Finds.placeOf_ne {done todo : List Path} {f g : Path} (h : s.Finds d (done ++ todo))
    (hf : f ∈ done) (hg : g ∈ todo) : s.placeOf d f ≠ s.placeOf d g :=
  (List.pairwise_append.1 h.distinct).2.2 f hf g hg

end Settings

namespace Run

section

variable (s : Settings) (sources : Sources) (startedAt : Timestamp) (d : Disk) (files : List Path)

/-- On this disk a run comes to one of its files. -/
def Reaches (file : Path) (mid : Disk) : Prop :=
  ∃ done todo state, files = done ++ file :: todo ∧
    processFiles s sources.view done (start s startedAt d) = .ok state ∧ state.disk = mid

/-- A file that is patched does not hold other bytes than were read, with the same digest. -/
def DigestsTell : Prop :=
  ∀ file mid, Reaches s sources startedAt d files file mid →
    ∀ bytes old, (sources.view mid).read file = .ok bytes → mid.read (s.patched file) = .ok old →
      Sha256.digest old = Sha256.digest bytes → old = bytes

/-- A file is reported as patched that stands at a place. -/
def PatchedAt (events : List Event) (place : Location) : Prop :=
  ∃ path changes created, .filePatched path changes created ∈ events ∧
    place = d.target (path.under s.projectRoot)

/-- A new backup is reported that stands at a place. -/
def BackedUpAt (events : List Event) (place : Location) : Prop :=
  ∃ path changes, .filePatched path changes true ∈ events ∧
    place = d.target ((path.under s.projectRoot).backup s.backupSuffix)

/-- What is reported of a file after its warnings is what has become of it. -/
inductive Agrees (d' : Disk) (file : Path) (f : Forecast) : List Event → Prop
  | left : f.changes? = none → d'.node? (s.placeOf d file) = d.node? (s.placeOf d file) →
      Agrees d' file f []
  | previewed {changes : List Change} (diff : Text) : s.dryRun = true → f.changes? = some changes →
      d'.node? (s.placeOf d file) = d.node? (s.placeOf d file) →
        Agrees d' file f [.filePreview (s.reported file) changes diff]
  | patched {changes : List Change} {old : ByteArray} {created : Bool} : s.dryRun = false →
      f.changes? = some changes → f.bytes ≠ old →
        d.node? (s.placeOf d file) = some (.file old) →
        d'.node? (s.placeOf d file) = some (.file f.bytes) →
        (created = true → d.node? (s.backupPlaceOf d file) = none ∧
          d'.node? (s.backupPlaceOf d file) = some (.file old)) →
        (created = false → (d'.node? (s.backupPlaceOf d file)).isSome) →
          Agrees d' file f [.filePatched (s.reported file) changes created]

/-- All that is reported of a file, which is foretold by what the run read when it came to it. -/
def Accounts (d' : Disk) (file : Path) (told : List Event) : Prop :=
  ∃ mid bytes report, Reaches s sources startedAt d files file mid ∧
    (sources.view mid).read file = .ok bytes ∧
      told = (s.forecast (sources.view mid).isFile file bytes).warnings.map
        (.warning (s.reported file)) ++ report ∧
      Agrees s d d' file (s.forecast (sources.view mid).isFile file bytes) report

/-- The files that change are those reported as patched, and what is new are the backups
reported. -/
structure Balances (d' : Disk) (events : List Event) : Prop where
  changed : ∀ place, (d.node? place).isSome →
    (d'.node? place ≠ d.node? place ↔ PatchedAt s d events place)
  new : ∀ place, d.node? place = none →
    ((d'.node? place).isSome ↔ BackedUpAt s d events place)

/-- The books after some of the files, with what was reported of each. -/
structure Ledger (told : List (Path × List Event)) (state : State) : Prop where
  events : state.events =
    .started tool (s.scanRoot.relativeTo s.projectRoot) :: told.flatMap Prod.snd
  accounts : ∀ x ∈ told, Accounts s sources startedAt d files state.disk x.1 x.2
  filesScanned : state.summary.filesScanned = told.length
  warnings : state.summary.warnings = (told.flatMap Prod.snd).countP (·.warning?.isSome)
  filesChanged : state.summary.filesChanged = (told.flatMap Prod.snd).countP (·.changed?.isSome)
  backupsCreated : state.summary.backupsCreated = (told.flatMap Prod.snd).countP Event.backsUp
  evolves : d.Evolves (BackedUpAt s d (told.flatMap Prod.snd))
    (PatchedAt s d (told.flatMap Prod.snd)) state.disk

/-- The books of a run that has worked on all files, with what was reported of each. -/
structure Completes (told : List (Path × List Event)) (state : State) : Prop where
  complete : told.map Prod.fst = files
  events : state.events = .started tool (s.scanRoot.relativeTo s.projectRoot) ::
    told.flatMap Prod.snd ++ [.completed state.summary]
  accounts : ∀ x ∈ told, Accounts s sources startedAt d files state.disk x.1 x.2
  filesScanned : state.summary.filesScanned = files.length
  warnings : state.summary.warnings = state.events.countP (·.warning?.isSome)
  filesChanged : state.summary.filesChanged = state.events.countP (·.changed?.isSome)
  backupsCreated : state.summary.backupsCreated = state.events.countP Event.backsUp
  balances : Balances s d state.disk state.events

/-- The books of a run that has failed at a file, with what was reported of those before it and
with the warnings of its own. -/
structure Stops (told : List (Path × List Event)) (file : Path) (todo : List Path)
    (own : List Warning) (state : State) : Prop where
  split : files = told.map Prod.fst ++ file :: todo
  events : state.events = .started tool (s.scanRoot.relativeTo s.projectRoot) ::
    told.flatMap Prod.snd ++ own.map (.warning (s.reported file))
  accounts : ∀ x ∈ told, Accounts s sources startedAt d files state.disk x.1 x.2
  notCompleted : ∀ summary, .completed summary ∉ state.events
  balances : Balances s d state.disk state.events
  untouched : ∀ f ∈ file :: todo, state.disk.node? (s.placeOf d f) = d.node? (s.placeOf d f)

end

variable {s : Settings} {sources : Sources} {startedAt : Timestamp} {d d' mid : Disk}
  {files todo : List Path} {file : Path} {told : List (Path × List Event)}
  {own report events : List Event}
  {state state' : State} {f : Forecast} {place : Location} {bytes : ByteArray}
  {created written : Location → Prop} {isFile : Path → Bool}

-- ---------------------------------------------------------------------------
-- One file
-- ---------------------------------------------------------------------------

theorem Treats.patchedAt (h : Treats s file bytes f mid report d')
    (hat : PatchedAt s d report place) : place = s.placeOf d file := by
  obtain ⟨path, changes, created, hmem, rfl⟩ := hat
  cases h with
  | leaves => cases hmem
  | previews => cases List.mem_singleton.1 hmem
  | patches =>
    cases List.mem_singleton.1 hmem
    rfl

/-- A step changes what it reports. -/
theorem Treats.evolves_reported (h : Treats s file bytes f mid report d') (hd : d.Linkless)
    (hmid : d.Evolves created written mid) :
    mid.Evolves (BackedUpAt s d report) (PatchedAt s d report) d' := by
  cases h with
  | leaves => exact .refl _
  | previews => exact .refl _
  | patches _ _ _ hrewrites =>
    apply hrewrites.evolves.1.mono
    · rintro place ⟨rfl, hplace⟩
      exact ⟨_, _, List.mem_singleton_self _, hmid.place_of_resolve hd hplace⟩
    · intro place hplace
      exact ⟨_, _, _, List.mem_singleton_self _, hmid.place_of_resolve hd hplace⟩

/-- What a step reports of its file is what becomes of it. -/
theorem Treats.agrees (h : Treats s file bytes (s.forecast isFile file bytes) mid report d')
    (hd : d.Linkless) (hmid : d.Evolves created written mid)
    (huntouched : mid.node? (s.placeOf d file) = d.node? (s.placeOf d file))
    (htells : ∀ old, mid.read (s.patched file) = .ok old →
      Sha256.digest old = Sha256.digest bytes → old = bytes) :
    Agrees s d d' file (s.forecast isFile file bytes) report := by
  cases h with
  | leaves hnone => exact .left hnone huntouched
  | previews diff hdry hsome => exact .previewed diff hdry hsome huntouched
  | @patches changes old created _ hreal hsome hdigest hrewrites =>
    have hold := htells _ hrewrites.1 hdigest
    obtain ⟨hevolves, hnew⟩ := hrewrites.evolves
    obtain ⟨at', hat, hbefore⟩ := Disk.read_eq_ok.1 hrewrites.1
    obtain ⟨at'', hat', hafter⟩ := Disk.read_eq_ok.1 hnew
    have hplace : at' = s.placeOf d file := hmid.place_of_resolve hd hat
    have hplace' : at'' = s.placeOf d file :=
      hmid.place_of_resolve hd ((hevolves.resolve (hmid.linkless hd)).1 hat')
    rw [hplace] at hbefore
    rw [hplace'] at hafter
    refine .patched hreal hsome (fun heq => Settings.forecast_bytes_ne hsome (heq.trans hold))
      (huntouched ▸ hbefore) hafter ?_ ?_
    · rintro rfl
      obtain ⟨backup, hbackup, hnone, hkept⟩ := hrewrites.backup_node
      have hplace : backup = s.backupPlaceOf d file := hmid.place_of_resolve hd hbackup
      rw [hplace] at hnone hkept
      exact ⟨hmid.none_of_none hnone, hkept⟩
    · rintro rfl
      obtain ⟨backup, hbackup, htaken⟩ := hrewrites.backup_taken
      have hplace : backup = s.backupPlaceOf d file := hmid.place_of_resolve hd hbackup
      rw [hplace] at htaken
      exact hevolves.isSome htaken

/-- What is reported of a file stays true while others are patched. -/
theorem Agrees.step (h : Agrees s d mid file f report) (hmid : mid.Evolves created written d')
    (hfile : (mid.node? (s.placeOf d file)).isSome) (hplace : ¬ written (s.placeOf d file))
    (hbackup : d.node? (s.backupPlaceOf d file) = none → ¬ written (s.backupPlaceOf d file)) :
    Agrees s d d' file f report := by
  have hkeeps := hmid.node_of_not_written hfile hplace
  cases h with
  | left hnone hsame => exact .left hnone (hkeeps.trans hsame)
  | previewed diff hdry hsome hsame => exact .previewed diff hdry hsome (hkeeps.trans hsame)
  | patched hreal hsome hne hbefore hafter hcreated htaken =>
    refine .patched hreal hsome hne hbefore (hkeeps.trans hafter) ?_ fun h => hmid.isSome (htaken h)
    intro htrue
    obtain ⟨hnone, hkept⟩ := hcreated htrue
    refine ⟨hnone, ?_⟩
    rw [hmid.node_of_not_written (by rw [hkept]; rfl) (hbackup hnone), hkept]

/-- What is reported of a file is about that file, and is not the end of the run. -/
theorem Accounts.of_mem (h : Accounts s sources startedAt d files d' file own) {e : Event}
    (he : e ∈ own) : (∃ w, e = .warning (s.reported file) w) ∨
      (∃ changes diff, e = .filePreview (s.reported file) changes diff ∧
        d'.node? (s.placeOf d file) = d.node? (s.placeOf d file)) ∨
      ∃ changes created, e = .filePatched (s.reported file) changes created ∧
        d'.node? (s.placeOf d file) ≠ d.node? (s.placeOf d file) ∧
        (created = true → (d'.node? (s.backupPlaceOf d file)).isSome) := by
  obtain ⟨mid, bytes, report, -, -, rfl, hagrees⟩ := h
  rcases List.mem_append.1 he with he | he
  · obtain ⟨w, -, rfl⟩ := List.mem_map.1 he
    exact .inl ⟨w, rfl⟩
  · refine .inr ?_
    cases hagrees with
    | left => cases he
    | previewed diff _ _ hsame =>
      cases List.mem_singleton.1 he
      exact .inl ⟨_, diff, rfl, hsame⟩
    | patched _ _ hne hbefore hafter hcreated =>
      cases List.mem_singleton.1 he
      refine .inr ⟨_, _, rfl, ?_, fun htrue => ?_⟩
      · rw [hbefore, hafter]
        intro heq
        exact hne (Node.file.inj (Option.some.inj heq))
      · rw [(hcreated htrue).2]
        rfl

-- ---------------------------------------------------------------------------
-- All files
-- ---------------------------------------------------------------------------

theorem PatchedAt.mono (h : PatchedAt s d own place) (hsub : own ⊆ events) :
    PatchedAt s d events place := by
  obtain ⟨path, changes, created, hmem, hplace⟩ := h
  exact ⟨path, changes, created, hsub hmem, hplace⟩

theorem BackedUpAt.mono (h : BackedUpAt s d own place) (hsub : own ⊆ events) :
    BackedUpAt s d events place := by
  obtain ⟨path, changes, hmem, hplace⟩ := h
  exact ⟨path, changes, hsub hmem, hplace⟩

/-- Where a file is reported as patched, it is one of those worked on, and has changed. -/
theorem Ledger.patchedAt (h : Ledger s sources startedAt d files told state)
    (hat : PatchedAt s d (told.flatMap Prod.snd) place) :
    (∃ x ∈ told, place = s.placeOf d x.1) ∧ state.disk.node? place ≠ d.node? place := by
  obtain ⟨path, changes, created, hmem, rfl⟩ := hat
  obtain ⟨x, hx, hown⟩ := List.mem_flatMap.1 hmem
  rcases (h.accounts x hx).of_mem hown with ⟨_, heq⟩ | ⟨_, _, heq, -⟩ | ⟨_, _, heq, hne, -⟩
  · cases heq
  · cases heq
  · cases heq
    exact ⟨⟨x, hx, rfl⟩, hne⟩

/-- The disk agrees with all events, of which no others report patches. -/
theorem Ledger.balances (h : Ledger s sources startedAt d files told state)
    (hevents : ∀ path changes created, .filePatched path changes created ∈ events ↔
      .filePatched path changes created ∈ told.flatMap Prod.snd) :
    Balances s d state.disk events where
  changed place hsome := by
    simp only [PatchedAt, hevents]
    constructor
    · intro hne
      rcases h.evolves.node place with hsame | ⟨-, ⟨-, hnone⟩ | ⟨hat, -⟩⟩
      · exact absurd hsame hne
      · rw [hnone] at hsome
        cases hsome
      · exact hat
    · exact fun hat => (h.patchedAt hat).2
  new place hnone := by
    simp only [BackedUpAt, hevents]
    constructor
    · intro hsome
      rcases h.evolves.node place with hsame | ⟨-, ⟨hat, -⟩ | ⟨-, old, hold⟩⟩
      · rw [hsame, hnone] at hsome
        cases hsome
      · exact hat
      · rw [hnone] at hold
        cases hold
    · rintro ⟨path, changes, hmem, rfl⟩
      obtain ⟨x, hx, hown⟩ := List.mem_flatMap.1 hmem
      rcases (h.accounts x hx).of_mem hown with ⟨_, heq⟩ | ⟨_, _, heq, -⟩ | ⟨_, _, heq, -, hbackup⟩
      · cases heq
      · cases heq
      · cases heq
        exact hbackup rfl

/-- The files that are left are as they were. -/
theorem Ledger.untouched (h : Ledger s sources startedAt d files told state)
    (hfinds : s.Finds d files) (hfiles : files = told.map Prod.fst ++ todo) (hfile : file ∈ todo) :
    state.disk.node? (s.placeOf d file) = d.node? (s.placeOf d file) := by
  subst hfiles
  apply h.evolves.node_of_not_written (hfinds.isSome (List.mem_append_right _ hfile))
  intro hat
  obtain ⟨x, hx, heq⟩ := (h.patchedAt hat).1
  exact hfinds.placeOf_ne (List.mem_map_of_mem hx) hfile heq.symm

/-- What was reported of the files so far stays true when the next one is patched: the step writes
at the place of its own file only, where a file was from the start. -/
theorem Ledger.accounts_step (h : Ledger s sources startedAt d files told state)
    (hfinds : s.Finds d files) (hfiles : files = told.map Prod.fst ++ file :: todo)
    (hevolves : state.disk.Evolves created written d')
    (hwritten : ∀ place, written place → place = s.placeOf d file) :
    ∀ x ∈ told, Accounts s sources startedAt d files d' x.1 x.2 := by
  intro x hx
  have hdone : x.1 ∈ told.map Prod.fst := List.mem_map_of_mem hx
  obtain ⟨mid, bytes, report, hreaches, hread, htold, hagrees⟩ := h.accounts x hx
  subst hfiles
  refine ⟨mid, bytes, report, hreaches, hread, htold, hagrees.step hevolves ?_ ?_ ?_⟩
  · exact h.evolves.isSome (hfinds.isSome (List.mem_append_left _ hdone))
  · intro hat
    exact hfinds.placeOf_ne hdone (List.mem_cons_self ..) (hwritten _ hat)
  · intro hnone hat
    have hsome := hfinds.isSome (List.mem_append_right _ (List.mem_cons_self ..))
    rw [← hwritten _ hat, hnone] at hsome
    cases hsome

theorem Treats.countP (h : Treats s file bytes f mid report d') :
    report.countP (·.warning?.isSome) = 0 ∧ report.countP (·.changed?.isSome) = report.length := by
  cases h <;> exact ⟨rfl, rfl⟩

theorem countP_warnings (path : Path) (ws : List Warning) :
    (ws.map (Event.warning path)).countP (·.warning?.isSome) = ws.length ∧
      (ws.map (Event.warning path)).countP (·.changed?.isSome) = 0 ∧
        (ws.map (Event.warning path)).countP Event.backsUp = 0 := by
  induction ws with
  | nil => exact ⟨rfl, rfl, rfl⟩
  | cons w ws ih =>
    obtain ⟨hwarnings, hchanged, hbackups⟩ := ih
    refine ⟨?_, hchanged, hbackups⟩
    rw [List.map_cons, List.countP_cons, hwarnings]
    rfl

/-- One more file. -/
theorem Ledger.step (h : Ledger s sources startedAt d files told state) (hd : d.Linkless)
    (hfinds : s.Finds d files) (htells : DigestsTell s sources startedAt d files)
    (hfiles : files = told.map Prod.fst ++ file :: todo)
    (hok : processFiles s sources.view (told.map Prod.fst) (start s startedAt d) = .ok state)
    (hstep : processFile s sources.view file state = .ok state') :
    ∃ own, Ledger s sources startedAt d files (told ++ [(file, own)]) state' := by
  obtain ⟨bytes, report, d', hread, htreats, rfl⟩ := processFile_ok hstep
  have hreaches : Reaches s sources startedAt d files file state.disk :=
    ⟨_, _, state, hfiles, hok, rfl⟩
  have hevolves := htreats.evolves_reported hd h.evolves
  have hothers := h.accounts_step hfinds hfiles hevolves fun _ => htreats.patchedAt
  have hagrees := htreats.agrees hd h.evolves
    (h.untouched hfinds hfiles (List.mem_cons_self ..))
    fun old => htells file _ hreaches bytes old hread
  generalize hws : (s.forecast (sources.view state.disk).isFile file bytes).warnings = ws
  obtain ⟨hwarnings, hchanged, hbackups⟩ := countP_warnings (s.reported file) ws
  refine ⟨ws.map (.warning (s.reported file)) ++ report, ?_, ?_, ?_, ?_, ?_, ?_, ?_⟩
  · simp [State.after, h.events]
  · intro x hx
    rcases List.mem_append.1 hx with hx | hx
    · exact hothers x hx
    · cases List.mem_singleton.1 hx
      exact ⟨state.disk, bytes, report, hreaches, hread, by rw [hws], hagrees⟩
  · simp [State.after, h.filesScanned]
  · simp [State.after, h.warnings, hwarnings, htreats.countP.1]
  · simp [State.after, h.filesChanged, hchanged, htreats.countP.2]
  · simp [State.after, h.backupsCreated, hbackups]
  · rw [List.flatMap_append, List.flatMap_singleton]
    have hbefore := List.subset_append_left (told.flatMap Prod.snd)
      (ws.map (.warning (s.reported file)) ++ report)
    have hown : report ⊆ told.flatMap Prod.snd ++ (ws.map (.warning (s.reported file)) ++ report) :=
      fun _ he => List.mem_append_right _ (List.mem_append_right _ he)
    exact (h.evolves.mono (fun _ hat => hat.mono hbefore) fun _ hat => hat.mono hbefore).trans
      (hevolves.mono (fun _ hat => hat.mono hown) fun _ hat => hat.mono hown)

/-- The books agree after each file. -/
theorem exists_ledger (hd : d.Linkless) (hfinds : s.Finds d files)
    (htells : DigestsTell s sources startedAt d files) {done : List Path}
    (hfiles : files = done ++ todo)
    (hok : processFiles s sources.view done (start s startedAt d) = .ok state) :
    ∃ told, told.map Prod.fst = done ∧ Ledger s sources startedAt d files told state := by
  induction done using List.reverseRecOn generalizing todo state with
  | nil =>
    cases hok
    exact ⟨[], rfl, rfl, fun _ hx => (List.not_mem_nil hx).elim, rfl, rfl, rfl, rfl, .refl _⟩
  | append_singleton done file ih =>
    obtain ⟨mid, hmid, hstep⟩ := processFiles_concat hok
    rw [List.append_assoc, List.singleton_append] at hfiles
    obtain ⟨told, rfl, hledger⟩ := ih hfiles hmid
    obtain ⟨own, hnext⟩ := hledger.step hd hfinds htells hfiles hmid hstep
    exact ⟨told ++ [(file, own)], by rw [List.map_append]; rfl, hnext⟩

/-- What a step does to the disk. -/
theorem evolves_of_processFile {view : Disk → View}
    (h : processFile s view file state = .ok state') :
    state.disk.Evolves (fun _ => True) (fun _ => True) state'.disk := by
  obtain ⟨bytes, report, d', -, htreats, rfl⟩ := processFile_ok h
  cases htreats with
  | leaves => exact .refl _
  | previews => exact .refl _
  | patches _ _ _ hrewrites =>
    exact hrewrites.evolves.1.mono (fun _ _ => trivial) fun _ _ => trivial

theorem evolves_of_processFiles {view : Disk → View}
    (h : processFiles s view files state = .ok state') :
    state.disk.Evolves (fun _ => True) (fun _ => True) state'.disk := by
  induction files using List.reverseRecOn generalizing state' with
  | nil =>
    cases h
    exact .refl _
  | append_singleton files file ih =>
    obtain ⟨mid, hmid, hstep⟩ := processFiles_concat h
    exact (ih hmid).trans (evolves_of_processFile hstep)

/-- What is read from the disk below an absolute root is the file that is patched. -/
theorem digestsTell_of_isAbsolute (hd : d.Linkless) (hroot : s.projectRoot.isAbsolute)
    (hview : sources.view = (·.view s.projectRoot)) : DigestsTell s sources startedAt d files := by
  rintro file mid ⟨done, todo, state, -, hok, rfl⟩ bytes old hread hold -
  rw [hview] at hread
  have hlinkless := (evolves_of_processFiles hok).linkless hd
  obtain ⟨place, hplace, hn⟩ := Disk.read_eq_ok.1 (Disk.read_of_view hread)
  obtain ⟨place', hplace', hn'⟩ := Disk.read_eq_ok.1 hold
  have hsame : place' = place := by
    rw [Disk.target_of_resolve hlinkless hplace, Disk.target_of_resolve hlinkless hplace']
    exact Path.target_relativeTo hroot
  rw [hsame, hn] at hn'
  exact (Node.file.inj (Option.some.inj hn')).symm

theorem Ledger.not_completed (h : Ledger s sources startedAt d files told state)
    (summary : Summary) : .completed summary ∉ state.events := by
  intro hmem
  rw [h.events] at hmem
  rcases List.mem_cons.1 hmem with heq | hmem
  · cases heq
  · obtain ⟨x, hx, hown⟩ := List.mem_flatMap.1 hmem
    rcases (h.accounts x hx).of_mem hown with ⟨_, heq⟩ | ⟨_, _, heq, -⟩ | ⟨_, _, heq, -⟩ <;>
      cases heq

end Run

/-- A run that succeeds starts its report, accounts for every file, and closes with counters that
are the numbers of its events; what changed on the disk are the files reported as patched, and what
is new are the backups reported. A run that fails at a file does not close its report: the files
before it are as was reported of them, and it and those after it are as they were. -/
theorem Settings.run_ledger {s : Settings} {sources : Sources} {startedAt endedAt : Timestamp}
    {d : Disk} {files : List Path} (hd : d.Linkless) (hfiles : sources.files d = .ok files)
    (hfinds : s.Finds d files) (htells : Run.DigestsTell s sources startedAt d files) :
    (∀ state, s.run sources startedAt endedAt d = ⟨state, none⟩ →
      ∃ told, Run.Completes s sources startedAt d files told state) ∧
    ∀ state failure, s.run sources startedAt endedAt d = ⟨state, some failure⟩ →
      ∃ told file todo own, Run.Stops s sources startedAt d files told file todo own state := by
  rw [run, hfiles]
  simp only
  cases hrun : Run.processFiles s sources.view files (Run.start s startedAt d) with
  | ok last =>
    obtain ⟨told, htold, hledger⟩ :=
      Run.exists_ledger hd hfinds htells (List.append_nil _).symm hrun
    refine ⟨?_, fun state failure heq => by cases heq⟩
    rintro state heq
    cases heq
    have hevents : (Run.finish endedAt last).events =
        last.events ++ [.completed (Run.finish endedAt last).summary] := rfl
    refine ⟨told, htold, ?_, hledger.accounts, ?_, ?_, ?_, ?_, ?_⟩
    · rw [hevents, hledger.events]
    · rw [← htold, List.length_map]
      exact hledger.filesScanned
    · rw [hevents, hledger.events, List.countP_append]
      exact hledger.warnings
    · rw [hevents, hledger.events, List.countP_append]
      exact hledger.filesChanged
    · rw [hevents, hledger.events, List.countP_append]
      exact hledger.backupsCreated
    · apply hledger.balances
      intro path changes created
      rw [hevents, hledger.events]
      simp
  | error result =>
    obtain ⟨done, file, todo, mid, hsplit, hdone, hfail⟩ := Run.processFiles_error hrun
    obtain ⟨told, rfl, hledger⟩ := Run.exists_ledger hd hfinds htells hsplit hdone
    obtain ⟨hfailure, hdisk, own, hown⟩ := Run.processFile_error hfail
    constructor
    · rintro state rfl
      exact absurd rfl hfailure
    · rintro state failure rfl
      refine ⟨told, file, todo, own, hsplit, ?_, ?_, ?_, ?_, ?_⟩
      · rw [hown, hledger.events]
      · rw [hdisk]
        exact hledger.accounts
      · intro summary hmem
        rw [hown] at hmem
        rcases List.mem_append.1 hmem with hmem | hmem
        · exact hledger.not_completed summary hmem
        · obtain ⟨w, -, heq⟩ := List.mem_map.1 hmem
          cases heq
      · rw [hdisk]
        apply hledger.balances
        intro path changes created
        rw [hown, hledger.events]
        simp
      · rw [hdisk]
        exact fun f hf => hledger.untouched hfinds hsplit hf

/-- A page that lacks an import, and a page that is no text. -/
def twoPages : List Path := [⟨"/p/app/a.js"⟩, ⟨"/p/app/b.js"⟩]

/-- A disk with the two pages. -/
def twoPagesDisk : Disk where
  nodes := [(["p"], .directory), (["p", "app"], .directory),
    (["p", "app", "a.js"], .file "useRef(0);\n".toUTF8), (["p", "app", "b.js"], .file ⟨#[0xff]⟩)]

theorem Settings.run_ledger_two :
    let s : Settings := { projectRoot := ⟨"/p"⟩ }
    let sources : Sources := ⟨fun _ => .ok twoPages, (·.view ⟨"/p"⟩)⟩
    ∃ told state, s.run sources default default twoPagesDisk = ⟨state, none⟩ ∧
      Run.Completes s sources default twoPagesDisk twoPages told state ∧
      state.summary.backupsCreated = 1 ∧ state.summary.warnings = 1 := by
  intro s sources
  have hd : twoPagesDisk.Linkless := by decide +kernel
  have hfinds : s.Finds twoPagesDisk twoPages := by
    refine ⟨?_, by decide +kernel⟩
    intro file hfile
    simp only [twoPages, List.mem_cons, List.not_mem_nil, or_false] at hfile
    rcases hfile with rfl | rfl
    · exact ⟨"useRef(0);\n".toUTF8, by decide +kernel⟩
    · exact ⟨⟨#[0xff]⟩, by decide +kernel⟩
  have hcounts : (s.run sources default default twoPagesDisk).failure? = none ∧
      (s.run sources default default twoPagesDisk).state.summary.backupsCreated = 1 ∧
        (s.run sources default default twoPagesDisk).state.summary.warnings = 1 := by
    decide +kernel
  obtain ⟨hcompletes, -⟩ :=
    @run_ledger s sources default default twoPagesDisk twoPages hd rfl hfinds
      (Run.digestsTell_of_isAbsolute hd (by decide +kernel) rfl)
  generalize s.run sources default default twoPagesDisk = r at hcounts hcompletes
  obtain ⟨state, failure⟩ := r
  obtain ⟨rfl, hcounts⟩ := hcounts
  obtain ⟨told, htold⟩ := hcompletes state rfl
  exact ⟨told, state, rfl, htold, hcounts⟩

end TidyImports
