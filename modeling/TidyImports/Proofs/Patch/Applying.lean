-- SUMMARY: How applying a patch can end, and what it does to the disk.
import TidyImports.Patch.Apply
import TidyImports.Proofs.Disk.Changes

/-!
# Ways to end

Applying a patch ends in one of seven ways, and only one of them touches the
disk. A file that can be read can be written after its backup, whatever links
lead to it, so once the backup stands nothing fails.
-/

namespace TidyImports

namespace Patch

variable {p : Patch} {root target backup : Path} {options : Options} {d d' : Disk}
  {old new : ByteArray} {created : Bool}

-- ---------------------------------------------------------------------------
-- Rewriting a file
-- ---------------------------------------------------------------------------

/-- A file is rewritten: its bytes are kept under its backup's name, unless something has that name,
and the new ones are written. -/
def Rewrites (target backup : Path) (old new : ByteArray) (created : Bool) (d d' : Disk) : Prop :=
  d.read target = .ok old ∧ ∃ d₁,
    (created = true ∧ d.create backup (.file old) = .ok d₁ ∨
      created = false ∧ d.create backup (.file old) = .error .exists ∧ d₁ = d) ∧
    d₁.write target new = .ok d'

/-- A rewritten file has its new bytes, and nothing else is touched but its backup. -/
theorem Rewrites.evolves (h : Rewrites target backup old new created d d') :
    d.Evolves (fun place => created = true ∧ d.resolve false backup = .ok place)
        (fun place => d.resolve true target = .ok place) d' ∧
      d'.read target = .ok new := by
  obtain ⟨hread, d₁, hbackup, hwrite⟩ := h
  obtain ⟨place, hplace, hold⟩ := Disk.read_eq_ok.1 hread
  -- The backup goes where nothing is, so the file is still there when it is written.
  have hbacked : d.Evolves (fun place => created = true ∧ d.resolve false backup = .ok place)
      (fun _ => False) d₁ := by
    rcases hbackup with ⟨hcreated, hcreate⟩ | ⟨-, -, rfl⟩
    · obtain ⟨at', hat, hnone, rfl⟩ := Disk.create_eq_ok hcreate
      exact .create ⟨hcreated, hat⟩ hnone
    · exact .refl _
  have hold₁ : d₁.node? place = some (.file old) := by
    rcases hbacked.node place with hsame | ⟨-, ⟨-, hnone⟩ | ⟨hfalse, -⟩⟩
    · rw [hsame, hold]
    · rw [hold] at hnone
      cases hnone
    · exact hfalse.elim
  have hstill := hbacked.resolve_of_node (by rw [hold]; rfl) hplace
  obtain ⟨place', hplace', -, rfl⟩ := Disk.write_eq_ok hwrite
  cases Except.ok.inj (hstill.symm.trans hplace')
  have hwritten : d₁.Evolves
      (fun place => created = true ∧ d.resolve false backup = .ok place)
      (fun place => d.resolve true target = .ok place) (d₁.put place (.file new)) :=
    .write hplace hold₁
  have hevolves := (hbacked.mono (fun _ h => h) (fun _ h => h.elim)).trans hwritten
  refine ⟨hevolves, Disk.read_eq_ok.2
    ⟨place, hevolves.resolve_of_node (by rw [hold]; rfl) hplace, ?_⟩⟩
  refine Disk.node?_put_same _ _ ?_
  rintro rfl
  cases hold

/-- A backup that is made holds what the file held. -/
theorem Rewrites.backup_node (h : Rewrites target backup old new true d d') :
    ∃ place, d.resolve false backup = .ok place ∧ d.node? place = none ∧
      d'.node? place = some (.file old) := by
  obtain ⟨hread, d₁, ⟨-, hcreate⟩ | ⟨hfalse, -⟩, hwrite⟩ := h
  · obtain ⟨place, hplace, hnone, rfl⟩ := Disk.create_eq_ok hcreate
    refine ⟨place, hplace, hnone, ?_⟩
    obtain ⟨at', hat, hn⟩ := Disk.read_eq_ok.1 hread
    have hevolves : d.Evolves (fun _ => True) (fun _ => True) (d.put place (.file old)) :=
      .create trivial hnone
    have hstill := hevolves.resolve_of_node (by rw [hn]; rfl) hat
    obtain ⟨at'', hat'', -, rfl⟩ := Disk.write_eq_ok hwrite
    cases Except.ok.inj (hstill.symm.trans hat'')
    have hne : place ≠ at' := by
      rintro rfl
      rw [hnone] at hn
      cases hn
    rw [Disk.node?_put_other _ _ hne, Disk.node?_put_same]
    rintro rfl
    cases hnone
  · cases hfalse

/-- Where no backup is made, something has its name. -/
theorem Rewrites.backup_taken (h : Rewrites target backup old new false d d') :
    ∃ place, d.resolve false backup = .ok place ∧ (d.node? place).isSome := by
  obtain ⟨-, d₁, ⟨hfalse, -⟩ | ⟨-, hcreate, -⟩, -⟩ := h
  · cases hfalse
  · exact Disk.create_eq_exists hcreate

/-- After its backup, a file that was read is written. -/
theorem exists_rewrites (new : ByteArray) (hread : d.read target = .ok old)
    (hcreate : ∀ fault, d.create backup (.file old) = .error fault → fault = .exists) :
    ∃ created d', Rewrites target backup old new created d d' := by
  obtain ⟨place, hplace, hold⟩ := Disk.read_eq_ok.1 hread
  have hwrite : ∀ d₁ : Disk, d₁.resolve true target = .ok place →
      d₁.node? place = some (.file old) → ∃ d', d₁.write target new = .ok d' := by
    intro d₁ hplace₁ hold₁
    exact ⟨d₁.put place (.file new), by simp only [Disk.write, hplace₁, hold₁]⟩
  cases hbackup : d.create backup (.file old) with
  | error fault =>
    cases hcreate fault hbackup
    obtain ⟨d', hd'⟩ := hwrite d hplace hold
    exact ⟨false, d', hread, d, .inr ⟨rfl, hbackup, rfl⟩, hd'⟩
  | ok d₁ =>
    obtain ⟨at', hat, hnone, heq⟩ := Disk.create_eq_ok hbackup
    have hevolves : d.Evolves (fun _ => True) (fun _ => True) d₁ := by
      rw [heq]
      exact .create trivial hnone
    have hne : place ≠ at' := by
      rintro rfl
      rw [hold] at hnone
      cases hnone
    obtain ⟨d', hd'⟩ := hwrite d₁ (hevolves.resolve_of_node (by rw [hold]; rfl) hplace)
      (by rw [heq, Disk.node?_put_other _ _ hne, hold])
    exact ⟨true, d', hread, d₁, .inl ⟨rfl, hbackup⟩, hd'⟩

-- ---------------------------------------------------------------------------
-- All ends
-- ---------------------------------------------------------------------------

/-- How applying a patch to a file ends, with the disk it leaves. -/
inductive Ends (p : Patch) (target backup : Path) (dryRun : Bool) (d : Disk) :
    Disk → Except Failure Outcome → Prop
  | unchanged : p.oldText = p.newText → Ends p target backup dryRun d d (.ok .unchanged)
  | missing : p.oldText ≠ p.newText → d.read target = .error .notFound →
      Ends p target backup dryRun d d (.error (.precondition (.missing p.path)))
  | unreadable {fault : Disk.Fault} : p.oldText ≠ p.newText → d.read target = .error fault →
      fault ≠ .notFound → Ends p target backup dryRun d d (.error (.refused (.read target)))
  | stale {old : ByteArray} : p.oldText ≠ p.newText → d.read target = .ok old →
      Sha256.digest old ≠ p.oldDigest →
        Ends p target backup dryRun d d
          (.error (.precondition (.digest p.path p.oldDigest (Sha256.digest old))))
  | previewed {old : ByteArray} : p.oldText ≠ p.newText → d.read target = .ok old →
      Sha256.digest old = p.oldDigest → dryRun = true →
        Ends p target backup dryRun d d (.ok (.preview p.diff))
  | notBackedUp {old : ByteArray} {fault : Disk.Fault} : p.oldText ≠ p.newText →
      d.read target = .ok old → Sha256.digest old = p.oldDigest → dryRun = false →
        d.create backup (.file old) = .error fault → fault ≠ .exists →
          Ends p target backup dryRun d d (.error (.refused (.create backup)))
  | written {old : ByteArray} {created : Bool} {d' : Disk} : p.oldText ≠ p.newText →
      Sha256.digest old = p.oldDigest → dryRun = false →
        Rewrites target backup old p.newText.bytes created d d' →
          Ends p target backup dryRun d d' (.ok (.written created))

theorem write_ends (hne : p.oldText ≠ p.newText) (hread : d.read target = .ok old)
    (hdigest : Sha256.digest old = p.oldDigest) {suffix : String} :
    p.Ends target (target.backup suffix) false d (p.write target suffix old d).1
      (p.write target suffix old d).2 := by
  by_cases hcreate : ∀ fault,
      d.create (target.backup suffix) (.file old) = .error fault → fault = .exists
  · obtain ⟨created, d', hrewrites⟩ := exists_rewrites p.newText.bytes hread hcreate
    have hwrite : p.write target suffix old d = (d', .ok (.written created)) := by
      obtain ⟨-, d₁, ⟨rfl, hbackup⟩ | ⟨rfl, hbackup, rfl⟩, hd'⟩ := hrewrites
      · simp only [write, backUp, hbackup, hd']
      · simp only [write, backUp, hbackup, hd']
    rw [hwrite]
    exact .written hne hdigest rfl hrewrites
  · simp only [Classical.not_forall] at hcreate
    obtain ⟨fault, hfault, hother⟩ := hcreate
    have hwrite : p.write target suffix old d =
        (d, .error (.refused (.create (target.backup suffix)))) := by
      rw [write, backUp, hfault]
      cases fault with
      | «exists» => exact absurd rfl hother
      | _ => rfl
    rw [hwrite]
    exact .notBackedUp hne hread hdigest rfl hfault hother

/-- Applying a patch ends in one of these ways. -/
theorem ends_of_apply {result : Except Failure Outcome}
    (h : p.apply root options d = (d', result)) :
    p.Ends (p.path.under root) ((p.path.under root).backup options.backupSuffix) options.dryRun d
      d' result := by
  have hparts : d' = (p.apply root options d).1 ∧ result = (p.apply root options d).2 := by
    rw [h]
    exact ⟨rfl, rfl⟩
  rw [hparts.1, hparts.2, apply]
  by_cases hsame : p.oldText = p.newText
  · have hchanged : (!p.changed) = true := by simpa [changed] using hsame
    rw [if_pos hchanged]
    exact .unchanged hsame
  · have hchanged : ¬ (!p.changed) = true := by simpa [changed] using hsame
    rw [if_neg hchanged]
    cases hread : d.read (p.path.under root) with
    | error fault =>
      cases fault with
      | notFound =>
        simp only [check, hread]
        exact .missing hsame hread
      | _ =>
        simp only [check, hread]
        exact .unreadable hsame hread Disk.Fault.noConfusion
    | ok old =>
      by_cases hdigest : Sha256.digest old = p.oldDigest
      · simp only [check, hread, if_pos hdigest]
        by_cases hdry : options.dryRun = true
        · rw [if_pos hdry]
          exact .previewed hsame hread hdigest hdry
        · rw [if_neg hdry, Bool.eq_false_iff.2 hdry]
          exact write_ends hsame hread hdigest
      · simp only [check, hread, if_neg hdigest]
        exact .stale hsame hread hdigest

/-- Only a call that writes changes the disk. -/
theorem Ends.disk_eq {dryRun : Bool} {result : Except Failure Outcome}
    (h : p.Ends target backup dryRun d d' result)
    (hresult : ∀ created, result ≠ .ok (.written created)) : d' = d := by
  cases h with
  | written => exact absurd rfl (hresult _)
  | _ => rfl

end Patch

end TidyImports
