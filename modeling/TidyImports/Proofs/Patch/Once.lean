-- SUMMARY: Applying a patch writes all or nothing, and backs up what the first write found.
import TidyImports.Proofs.Disk.Backup
import TidyImports.Proofs.Patch.Applying

/-!
# One backup

A call either writes the file, after its backup, or leaves the whole disk as it
was. A file may be patched many times, with edits of others in between. Its
backup is made by the first call that writes, and nothing touches it later, as
long as the backup has a place of its own.
-/

namespace TidyImports

-- ---------------------------------------------------------------------------
-- Edits of others
-- ---------------------------------------------------------------------------

namespace Disk

variable {d d' : Disk} {place : Location} {bytes : ByteArray}

/-- Someone else has changed the file at a place: there was a file or nothing, and there is one or
nothing now. -/
structure Edited (place : Location) (d d' : Disk) : Prop where
  workingDir : d'.workingDir = d.workingDir
  elsewhere : ∀ other, other ≠ place → d'.node? other = d.node? other
  before : ∀ n, d.node? place = some n → ∃ bytes, n = .file bytes
  after : ∀ n, d'.node? place = some n → ∃ bytes, n = .file bytes

theorem Edited.put (hn : d.node? place = some (.file bytes)) (new : ByteArray) :
    Edited place d (d.put place (.file new)) := by
  have hne : place ≠ [] := by
    rintro rfl
    cases hn
  refine ⟨rfl, fun other hother => node?_put_other d _ hother, ?_, ?_⟩
  · intro n hn'
    rw [hn] at hn'
    exact ⟨bytes, (Option.some.inj hn').symm⟩
  · intro n hn'
    rw [node?_put_same d _ hne] at hn'
    exact ⟨new, (Option.some.inj hn').symm⟩

theorem Edited.linkless (h : Edited place d d') (hd : d.Linkless) : d'.Linkless := by
  intro other target hn
  by_cases heq : other = place
  · subst heq
    obtain ⟨bytes, hfile⟩ := h.after _ hn
    cases hfile
  · exact hd other target (h.elsewhere other heq ▸ hn)

theorem Edited.sameDirectories (h : Edited place d d') : d.SameDirectories d' where
  workingDir := h.workingDir
  directory other := by
    by_cases heq : other = place
    · subst heq
      constructor
      · intro hn
        obtain ⟨bytes, hfile⟩ := h.after _ hn
        cases hfile
      · intro hn
        obtain ⟨bytes, hfile⟩ := h.before _ hn
        cases hfile
    · rw [h.elsewhere other heq]

/-- A file at another place reads as before. -/
theorem Edited.read {p : Path} (h : Edited place d d') (hd : d.Linkless)
    (hread : d.read p = .ok bytes) (hp : d.target p ≠ place) : d'.read p = .ok bytes := by
  obtain ⟨at', hat, hn⟩ := read_eq_ok.1 hread
  refine read_eq_ok.2 ⟨at', (h.sameDirectories.resolve hd (h.linkless hd)).2 hat, ?_⟩
  rw [target_of_resolve hd hat] at hn ⊢
  rw [h.elsewhere _ hp, hn]

end Disk

namespace Patch

variable {p : Patch} {root target backup : Path} {options : Options} {suffix : String}
  {d₀ d d' : Disk} {result : Except Failure Outcome} {found : List ByteArray}

-- ---------------------------------------------------------------------------
-- One call
-- ---------------------------------------------------------------------------

/-- What a call that wrote has done. -/
structure Wrote (p : Patch) (target backup : Path) (created : Bool) (d d' : Disk) : Prop where
  held : d.read target = .ok p.oldText.bytes
  holds : d'.read target = .ok p.newText.bytes
  /-- A backup is made exactly when nothing has its name. -/
  created_iff : created = true ↔
    ∃ place, d.resolve false backup = .ok place ∧ d.node? place = none
  backedUp : created = true → ∀ place, d.resolve false backup = .ok place →
    d'.node? place = some (.file p.oldText.bytes)
  workingDir : d'.workingDir = d.workingDir
  elsewhere : ∀ place, d.resolve true target ≠ .ok place →
    (created = true → d.resolve false backup ≠ .ok place) → d'.node? place = d.node? place

theorem Rewrites.created_iff {old new : ByteArray} {created : Bool}
    (h : Rewrites target backup old new created d d') :
    created = true ↔ ∃ place, d.resolve false backup = .ok place ∧ d.node? place = none := by
  cases created with
  | true =>
    obtain ⟨place, hplace, hnone, -⟩ := h.backup_node
    exact iff_of_true rfl ⟨place, hplace, hnone⟩
  | false =>
    obtain ⟨place, hplace, htaken⟩ := h.backup_taken
    refine iff_of_false Bool.false_ne_true ?_
    rintro ⟨other, hother, hnone⟩
    cases Except.ok.inj (hplace.symm.trans hother)
    rw [hnone] at htaken
    cases htaken

theorem Rewrites.wrote {created : Bool}
    (h : Rewrites target backup p.oldText.bytes p.newText.bytes created d d') :
    p.Wrote target backup created d d' where
  held := h.1
  holds := h.evolves.2
  created_iff := h.created_iff
  backedUp := by
    rintro rfl place hplace
    obtain ⟨other, hother, -, hnode⟩ := h.backup_node
    cases Except.ok.inj (hplace.symm.trans hother)
    exact hnode
  workingDir := h.evolves.1.workingDir
  elsewhere := by
    intro place htarget hbackup
    rcases h.evolves.1.node place with hsame | ⟨-, ⟨⟨hcreated, hat⟩, -⟩ | ⟨hat, -⟩⟩
    · exact hsame
    · exact absurd hat (hbackup hcreated)
    · exact absurd hat htarget

/-- No other bytes that the file may hold have the digest of the old text. -/
def DigestTells (p : Patch) (target : Path) (d : Disk) : Prop :=
  ∀ bytes, d.read target = .ok bytes → Sha256.digest bytes = p.oldDigest → bytes = p.oldText.bytes

/-- When a call writes: on a real run, a patch that proposes something new to a file that holds the
old text, whose backup is there or can be made. -/
theorem Ends.written_iff {dryRun : Bool} (h : p.Ends target backup dryRun d d' result)
    (hdigest : p.DigestTells target d) :
    (∃ created, result = .ok (.written created)) ↔
      p.oldText ≠ p.newText ∧ dryRun = false ∧ d.read target = .ok p.oldText.bytes ∧
        ∀ fault, d.create backup (.file p.oldText.bytes) = .error fault → fault = .exists := by
  cases h with
  | unchanged hsame => simp [hsame]
  | missing _ hread => simp [hread]
  | unreadable _ hread => simp [hread]
  | stale _ hread hstale =>
    simp only [reduceCtorEq, exists_false, false_iff, not_and]
    intro _ _ hread'
    rw [hread] at hread'
    cases hread'
    exact absurd rfl hstale
  | previewed _ _ _ hdry => simp [hdry]
  | notBackedUp _ hread hsame _ hfault hother =>
    simp only [reduceCtorEq, exists_false, false_iff, not_and]
    intro _ _ _ hall
    rw [hdigest _ hread hsame] at hfault
    exact hother (hall _ hfault)
  | written hne hsame hdry hrewrites =>
    have hold := hdigest _ hrewrites.1 hsame
    subst hold
    refine iff_of_true ⟨_, rfl⟩ ⟨hne, hdry, hrewrites.1, fun fault hfault => ?_⟩
    obtain ⟨-, d₁, ⟨-, hcreate⟩ | ⟨-, hcreate, -⟩, -⟩ := hrewrites
    · rw [hcreate] at hfault
      cases hfault
    · rw [hcreate] at hfault
      cases hfault
      rfl

-- ---------------------------------------------------------------------------
-- Many calls
-- ---------------------------------------------------------------------------

/-- The disks that calls which patch one file lead to, with edits of others to the file in between,
and what those of the calls that wrote had found. -/
inductive History (target : Path) (suffix : String) (d₀ : Disk) : List ByteArray → Disk → Prop
  | start : History target suffix d₀ [] d₀
  | wrote {found : List ByteArray} {d d' : Disk} {p : Patch} {root : Path} {dryRun created : Bool} :
      History target suffix d₀ found d → p.path.under root = target →
        p.apply root ⟨dryRun, suffix⟩ d = (d', .ok (.written created)) →
          History target suffix d₀ (found ++ (d.bytes? target).toList) d'
  | refrained {found : List ByteArray} {d d' : Disk} {p : Patch} {root : Path} {dryRun : Bool}
      {result : Except Failure Outcome} :
      History target suffix d₀ found d → p.path.under root = target →
        p.apply root ⟨dryRun, suffix⟩ d = (d', result) →
          (∀ created, result ≠ .ok (.written created)) → History target suffix d₀ found d'
  | edited {found : List ByteArray} {d d' : Disk} : History target suffix d₀ found d →
      d.Edited (d.target target) d' → History target suffix d₀ found d'

/-- A backup has a place of its own: its suffix is not empty, and does not lead back to the file. -/
def BacksUpApart (target : Path) (suffix : String) (d : Disk) : Prop :=
  suffix ≠ "" ∧ ('/' ∈ suffix.toList → d.target (target.backup suffix) ≠ d.target target)

/-- What holds of a disk at any time of a history. -/
structure Kept (target : Path) (suffix : String) (d₀ : Disk) (found : List ByteArray) (d : Disk) :
    Prop where
  linkless : d.Linkless
  directories : d₀.SameDirectories d
  /-- Before the first write nothing has the backup's name. -/
  none : found = [] → d.target (target.backup suffix) ≠ d.target target →
    d.node? (d.target (target.backup suffix)) = none
  /-- The first write leaves what it found in the backup. -/
  first : ∀ bytes ∈ found.head?, d.target (target.backup suffix) ≠ d.target target ∧
    d.read (target.backup suffix) = .ok bytes

theorem Kept.rewritten {old new : ByteArray} {created : Bool} (h : Kept target suffix d₀ found d)
    (hapart : BacksUpApart target suffix d₀)
    (hrewrites : Rewrites target (target.backup suffix) old new created d d') :
    Kept target suffix d₀ (found ++ [old]) d' := by
  have hevolves := hrewrites.evolves.1
  have hsame := hevolves.sameDirectories
  have hne : d.target (target.backup suffix) ≠ d.target target := by
    by_cases hslash : '/' ∈ suffix.toList
    · rw [h.directories.target, h.directories.target]
      exact hapart.2 hslash
    · exact Disk.target_backup_ne h.linkless hrewrites.1 hapart.1 hslash
  refine ⟨hevolves.linkless h.linkless, h.directories.trans hsame, by simp, ?_⟩
  intro bytes hbytes
  refine ⟨by rwa [hsame.target, hsame.target], ?_⟩
  cases found with
  | nil =>
    cases hbytes
    -- Nothing has the backup's name, so this call makes it.
    have hnone := h.none rfl hne
    cases created with
    | false =>
      obtain ⟨place, hplace, htaken⟩ := hrewrites.backup_taken
      rw [Disk.target_of_resolve h.linkless hplace, hnone] at htaken
      cases htaken
    | true =>
      obtain ⟨place, hplace, -, hnode⟩ := hrewrites.backup_node
      have hfollowed := (Disk.resolve_followLast h.linkless true).1 hplace
      exact Disk.read_eq_ok.2 ⟨place, (hevolves.resolve h.linkless).2 hfollowed, hnode⟩
  | cons oldest more =>
    cases hbytes
    obtain ⟨-, hread⟩ := h.first _ rfl
    refine hevolves.read h.linkless hread fun place hplace hwritten => hne ?_
    rw [← Disk.target_of_resolve h.linkless hplace, ← Disk.target_of_resolve h.linkless hwritten]

theorem Kept.edited (h : Kept target suffix d₀ found d)
    (hedited : d.Edited (d.target target) d') : Kept target suffix d₀ found d' := by
  have hsame := hedited.sameDirectories
  refine ⟨hedited.linkless h.linkless, h.directories.trans hsame, ?_, ?_⟩
  · intro hfound hne
    rw [hsame.target, hsame.target] at hne
    rw [hsame.target, hedited.elsewhere _ hne]
    exact h.none hfound hne
  · intro bytes hbytes
    obtain ⟨hne, hread⟩ := h.first bytes hbytes
    exact ⟨by rwa [hsame.target, hsame.target], hedited.read h.linkless hread hne⟩

theorem History.kept (h : History target suffix d₀ found d) (hd : d₀.Linkless)
    (hapart : BacksUpApart target suffix d₀)
    (hnone : d₀.node? (d₀.target (target.backup suffix)) = none) :
    Kept target suffix d₀ found d := by
  induction h with
  | start => exact ⟨hd, .refl _, fun _ _ => hnone, fun _ hbytes => nomatch hbytes⟩
  | wrote _ hpath happly ih =>
    have hends := ends_of_apply happly
    rw [hpath] at hends
    cases hends with
    | written _ _ _ hrewrites =>
      have hfound := Option.mem_def.1 (Disk.mem_bytes?.2 hrewrites.1)
      rw [hfound]
      exact ih.rewritten hapart hrewrites
  | refrained _ hpath happly hresult ih =>
    rw [(ends_of_apply happly).disk_eq hresult]
    exact ih
  | edited _ hedited ih => exact ih.edited hedited

/-- A call that does not write leaves the disk as it was. One that writes has found the old text,
leaves the new one, and has made the backup if there was none. So a backup that was not there holds
what the first call that wrote had found, whatever calls and edits of the file follow. -/
theorem apply_atomic_backup_once :
    (∀ (p : Patch) (root : Path) (options : Options) (d d' : Disk)
        (result : Except Failure Outcome), p.DigestTells (p.path.under root) d →
        p.apply root options d = (d', result) →
      ((∀ created, result ≠ .ok (.written created)) → d' = d) ∧
      (∀ created, result = .ok (.written created) →
        p.Wrote (p.path.under root) ((p.path.under root).backup options.backupSuffix) created d
          d') ∧
      ((∃ created, result = .ok (.written created)) ↔
        p.oldText ≠ p.newText ∧ options.dryRun = false ∧
          d.read (p.path.under root) = .ok p.oldText.bytes ∧
          ∀ fault, d.create ((p.path.under root).backup options.backupSuffix)
            (.file p.oldText.bytes) = .error fault → fault = .exists)) ∧
    ∀ (target : Path) (suffix : String) (d₀ d : Disk) (found : List ByteArray),
      History target suffix d₀ found d → d₀.Linkless → BacksUpApart target suffix d₀ →
        d₀.node? (d₀.target (target.backup suffix)) = none →
          ∀ bytes ∈ found.head?, d.read (target.backup suffix) = .ok bytes := by
  constructor
  · intro p root options d d' result hdigest happly
    have hends := ends_of_apply happly
    refine ⟨hends.disk_eq, ?_, hends.written_iff hdigest⟩
    rintro created rfl
    cases hends with
    | written _ hsame _ hrewrites =>
      rw [hdigest _ hrewrites.1 hsame] at hrewrites
      exact hrewrites.wrote
  · intro target suffix d₀ d found hhistory hd hapart hnone bytes hbytes
    exact ((hhistory.kept hd hapart hnone).first bytes hbytes).2

/-- A disk with one file, and perhaps with its backup. -/
def oneFileDisk (source : String) (backup : List String) : Disk where
  nodes := [(["p"], .directory), (["p", "a.js"], .file source.toUTF8)] ++
    backup.map fun text => (["p", "a.js.bak"], .file text.toUTF8)

/-- A patch of that file. -/
def oneFilePatch (old new : String) : Patch := ⟨⟨"a.js"⟩, old.toList, new.toList, []⟩

theorem apply_atomic_backup_once_edited :
    (oneFilePatch "x" "y").Wrote ⟨"/p/a.js"⟩ ⟨"/p/a.js.bak"⟩ true (oneFileDisk "x" [])
        (oneFileDisk "y" ["x"]) ∧
      (oneFilePatch "z" "w").apply ⟨"/p"⟩ {} (oneFileDisk "z" ["x"]) =
        (oneFileDisk "w" ["x"], .ok (.written false)) ∧
      (oneFileDisk "w" ["x"]).read ⟨"/p/a.js.bak"⟩ = .ok "x".toUTF8 := by
  have hpath : (⟨"a.js"⟩ : Path).under ⟨"/p"⟩ = ⟨"/p/a.js"⟩ := by decide +kernel
  have hpath' : (oneFilePatch "x" "y").path.under ⟨"/p"⟩ = ⟨"/p/a.js"⟩ := hpath
  have hbackup : (⟨"/p/a.js"⟩ : Path).backup ".bak" = ⟨"/p/a.js.bak"⟩ := by decide +kernel
  have hfirst : (oneFilePatch "x" "y").apply ⟨"/p"⟩ {} (oneFileDisk "x" []) =
      (oneFileDisk "y" ["x"], .ok (.written true)) := by decide +kernel
  have hsecond : (oneFilePatch "z" "w").apply ⟨"/p"⟩ {} (oneFileDisk "z" ["x"]) =
      (oneFileDisk "w" ["x"], .ok (.written false)) := by decide +kernel
  have htarget : (oneFileDisk "y" ["x"]).target ⟨"/p/a.js"⟩ = ["p", "a.js"] := by decide +kernel
  have hedited : (oneFileDisk "y" ["x"]).Edited ["p", "a.js"] (oneFileDisk "z" ["x"]) :=
    @Disk.Edited.put (oneFileDisk "y" ["x"]) ["p", "a.js"] "y".toUTF8 rfl "z".toUTF8
  have hhistory : History ⟨"/p/a.js"⟩ ".bak" (oneFileDisk "x" []) ["x".toUTF8, "z".toUTF8]
      (oneFileDisk "w" ["x"]) :=
    .wrote (.edited (.wrote .start hpath hfirst) (htarget ▸ hedited)) hpath hsecond
  have hwrote := (apply_atomic_backup_once.1 (oneFilePatch "x" "y") ⟨"/p"⟩ {} _ _ _
    (fun bytes hread _ => ?_) hfirst).2.1 true rfl
  · rw [hpath', hbackup] at hwrote
    exact ⟨hwrote, hsecond, hbackup ▸ apply_atomic_backup_once.2 _ _ _ _ _ hhistory
      (by decide +kernel) ⟨by decide, by decide⟩ (by decide +kernel) _ rfl⟩
  · have hheld : (oneFileDisk "x" []).read ⟨"/p/a.js"⟩ =
        .ok (oneFilePatch "x" "y").oldText.bytes := rfl
    rw [hpath', hheld] at hread
    exact (Except.ok.inj hread).symm

end Patch

end TidyImports
