-- SUMMARY: A disk without links on which files are created and rewritten.
import TidyImports.Disk.Access
import TidyImports.Proofs.Disk.Resolution

/-!
# Changes of files

Writing puts a file where one was, and creating puts one where nothing was.
Neither takes anything away, nor makes a directory or a link, so paths lead
where they led, and what was not written reads as before.
-/

namespace TidyImports

namespace Disk

variable {d d' d'' : Disk} {p : Path} {place : Location} {bytes : ByteArray} {n : Node}

-- ---------------------------------------------------------------------------
-- What access does
-- ---------------------------------------------------------------------------

theorem find_eq_ok {followLast : Bool} :
    d.find followLast p = .ok (place, n) ↔
      d.resolve followLast p = .ok place ∧ d.node? place = some n := by
  rw [find]
  cases d.resolve followLast p with
  | error e => simp
  | ok here =>
    simp only [Except.ok.injEq]
    constructor
    · intro h
      split at h
      · next n' hn =>
        cases h
        exact ⟨rfl, hn⟩
      · cases h
    · rintro ⟨rfl, hn⟩
      rw [hn]

theorem read_eq_ok :
    d.read p = .ok bytes ↔ ∃ place, d.resolve true p = .ok place ∧
      d.node? place = some (.file bytes) := by
  simp only [← find_eq_ok]
  rw [read]
  constructor
  · intro h
    split at h
    · next place bytes' hf =>
      cases h
      exact ⟨place, hf⟩
    all_goals cases h
  · rintro ⟨place, hf⟩
    rw [hf]

theorem read_of_view {root : Path} (h : (d.view root).read p = .ok bytes) :
    d.read (p.under root) = .ok bytes := by
  rw [view] at h
  simp only at h
  split at h
  · next hread =>
    cases h
    exact hread
  · cases h

/-- The bytes of a file, if it can be read. -/
def bytes? (d : Disk) (p : Path) : Option ByteArray := (d.read p).toOption

theorem mem_bytes? : bytes ∈ d.bytes? p ↔ d.read p = .ok bytes := Except.mem_toOption

theorem isFile_iff : d.isFile p ↔ ∃ bytes, d.read p = .ok bytes := by
  simp only [read_eq_ok, ← find_eq_ok]
  rw [isFile]
  constructor
  · intro h
    split at h
    · next place bytes hf => exact ⟨bytes, place, hf⟩
    · cases h
  · rintro ⟨bytes, place, hf⟩
    rw [hf]

theorem create_eq_ok (h : d.create p n = .ok d') :
    ∃ place, d.resolve false p = .ok place ∧ d.node? place = none ∧ d' = d.put place n := by
  rw [create] at h
  split at h
  · cases h
  · next place hr =>
    split at h
    · cases h
    · split at h
      · cases h
      · next hn =>
        cases h
        exact ⟨place, hr, by simpa using hn, rfl⟩

theorem walkTo_ne_exists {followLast : Bool}
    {follow : Location → List String → Except Fault Location}
    (hfollow : ∀ here pieces, follow here pieces ≠ .error .exists) (here : Location)
    (pieces : List String) : d.walkTo followLast follow here pieces ≠ .error .exists := by
  induction pieces generalizing here with
  | nil => exact fun h => nomatch h
  | cons piece rest ih =>
    intro h
    rw [walkTo] at h
    split at h
    · cases h
    · split at h
      · exact ih _ h
      · split at h
        · exact ih _ h
        · split at h
          · cases h
          · split at h
            · split at h <;> cases h
            · split at h
              · cases h
              · exact hfollow _ _ h
            · exact ih _ h

/-- Looking for a place is never refused because something is there. -/
theorem resolve_ne_exists {followLast : Bool} : d.resolve followLast p ≠ .error .exists := by
  have hwalk : ∀ links here pieces, d.walk followLast links here pieces ≠ .error .exists := by
    intro links
    induction links with
    | zero =>
      intro here pieces
      refine walkTo_ne_exists (fun _ _ h => ?_) here pieces
      cases h
    | succ links ih => exact fun here pieces => walkTo_ne_exists ih here pieces
  intro h
  rw [resolve] at h
  split at h
  · cases h
  · split at h
    · cases h
    · split at h
      · cases h
      · exact hwalk _ _ _ h

theorem create_eq_exists (h : d.create p n = .error .exists) :
    ∃ place, d.resolve false p = .ok place ∧ (d.node? place).isSome := by
  rw [create] at h
  split at h
  · next fault hr =>
    cases h
    exact absurd hr resolve_ne_exists
  · next place hr =>
    split at h
    · cases h
    · split at h
      · next hn => exact ⟨place, hr, hn⟩
      · cases h

theorem write_eq_ok (h : d.write p bytes = .ok d') :
    ∃ place, d.resolve true p = .ok place ∧ d.node? place ≠ some .directory ∧
      d' = d.put place (.file bytes) := by
  rw [write] at h
  split at h
  · cases h
  · next place hr =>
    split at h
    · cases h
    · next hn =>
      cases h
      exact ⟨place, hr, hn, rfl⟩

-- ---------------------------------------------------------------------------
-- Disks on which files have changed
-- ---------------------------------------------------------------------------

/-- The second disk is the first with files created where nothing was, at some places, and with
files rewritten, at others. -/
structure Evolves (created written : Location → Prop) (d d' : Disk) : Prop where
  workingDir : d'.workingDir = d.workingDir
  node : ∀ place, d'.node? place = d.node? place ∨
    (∃ bytes, d'.node? place = some (.file bytes)) ∧
      (created place ∧ d.node? place = none ∨
        written place ∧ ∃ old, d.node? place = some (.file old))

namespace Evolves

variable {created written created' written' : Location → Prop}

theorem refl (d : Disk) : Evolves created written d d := ⟨rfl, fun _ => .inl rfl⟩

theorem mono (h : Evolves created written d d') (hc : ∀ place, created place → created' place)
    (hw : ∀ place, written place → written' place) : Evolves created' written' d d' where
  workingDir := h.workingDir
  node place := (h.node place).imp id fun ⟨hfile, hwhy⟩ =>
    ⟨hfile, hwhy.imp (fun ⟨hat, hn⟩ => ⟨hc place hat, hn⟩) fun ⟨hat, hn⟩ => ⟨hw place hat, hn⟩⟩

theorem trans (h : Evolves created written d d') (h' : Evolves created written d' d'') :
    Evolves created written d d'' where
  workingDir := h'.workingDir.trans h.workingDir
  node place := by
    rcases h'.node place with hsame | ⟨hfile, hwhy⟩
    · rw [hsame]
      exact h.node place
    · refine .inr ⟨hfile, ?_⟩
      rcases h.node place with hsame | ⟨⟨bytes, hfile'⟩, hwhy'⟩
      · rw [← hsame]
        exact hwhy
      · exact hwhy'

theorem create (hplace : created place) (hn : d.node? place = none) :
    Evolves created written d (d.put place (.file bytes)) := by
  refine ⟨rfl, fun other => ?_⟩
  by_cases heq : other = place
  · subst heq
    have hne : other ≠ [] := by
      rintro rfl
      cases hn
    exact .inr ⟨⟨bytes, node?_put_same d _ hne⟩, .inl ⟨hplace, hn⟩⟩
  · exact .inl (node?_put_other d _ heq)

theorem write {old : ByteArray} (hplace : written place) (hn : d.node? place = some (.file old)) :
    Evolves created written d (d.put place (.file bytes)) := by
  refine ⟨rfl, fun other => ?_⟩
  by_cases heq : other = place
  · subst heq
    have hne : other ≠ [] := by
      rintro rfl
      cases hn
    exact .inr ⟨⟨bytes, node?_put_same d _ hne⟩, .inr ⟨hplace, old, hn⟩⟩
  · exact .inl (node?_put_other d _ heq)

theorem linkless (h : Evolves created written d d') (hd : d.Linkless) : d'.Linkless := by
  intro place target hn
  rcases h.node place with hsame | ⟨⟨bytes, hfile⟩, -⟩
  · exact hd place target (hsame ▸ hn)
  · rw [hfile] at hn
    cases hn

theorem sameDirectories (h : Evolves created written d d') : d.SameDirectories d' where
  workingDir := h.workingDir
  directory place := by
    rcases h.node place with hsame | ⟨⟨bytes, hfile⟩, ⟨-, hn⟩ | ⟨-, old, hn⟩⟩
    · rw [hsame]
    all_goals simp [hfile, hn]

theorem resolve (h : Evolves created written d d') (hd : d.Linkless) {followLast : Bool} :
    d'.resolve followLast p = .ok place ↔ d.resolve followLast p = .ok place :=
  h.sameDirectories.resolve hd (h.linkless hd)

/-- A path leads where it led at first. -/
theorem place_of_resolve (h : Evolves created written d d') (hd : d.Linkless) {followLast : Bool}
    (hp : d'.resolve followLast p = .ok place) : place = d.target p := by
  rw [target_of_resolve (h.linkless hd) hp, h.sameDirectories.target]

/-- What stands where it stood is still a file, if it was one, and otherwise the same. -/
theorem node_eq (h : Evolves created written d d') (hn : d.node? place = some n)
    (hfile : ∀ bytes, n ≠ .file bytes) : d'.node? place = some n := by
  rcases h.node place with hsame | ⟨-, ⟨-, hnone⟩ | ⟨-, old, hold⟩⟩
  · rw [hsame, hn]
  · rw [hn] at hnone
    cases hnone
  · rw [hn] at hold
    exact absurd (Option.some.inj hold) (hfile old)

theorem file_of_file (h : Evolves created written d d') (hn : d.node? place = some (.file bytes)) :
    ∃ bytes', d'.node? place = some (.file bytes') := by
  rcases h.node place with hsame | ⟨hfile, -⟩
  · exact ⟨bytes, hsame.trans hn⟩
  · exact hfile

/-- Nothing is taken away. -/
theorem isSome (h : Evolves created written d d') (hsome : (d.node? place).isSome) :
    (d'.node? place).isSome := by
  rcases h.node place with hsame | ⟨⟨bytes, hfile⟩, -⟩
  · rwa [hsame]
  · rw [hfile]
    rfl

theorem none_of_none (h : Evolves created written d d') (hnone : d'.node? place = none) :
    d.node? place = none := by
  cases hn : d.node? place with
  | none => rfl
  | some n =>
    have hsome : (d'.node? place).isSome := h.isSome (by rw [hn]; rfl)
    rw [hnone] at hsome
    cases hsome

/-- What was there and was not written is as it was. -/
theorem node_of_not_written (h : Evolves created written d d') (hsome : (d.node? place).isSome)
    (hnot : ¬ written place) : d'.node? place = d.node? place := by
  rcases h.node place with hsame | ⟨-, ⟨-, hnone⟩ | ⟨hwritten, -⟩⟩
  · exact hsame
  · rw [hnone] at hsome
    cases hsome
  · exact absurd hwritten hnot

/-- What a walk meets on its way to a node is there still. -/
theorem walkTo (h : Evolves created written d d') {followLast : Bool}
    {follow follow' : Location → List String → Except Fault Location} {here : Location}
    {pieces : List String} (hnode : (d.node? place).isSome)
    (hfollow : ∀ here pieces, follow here pieces = .ok place → follow' here pieces = .ok place)
    (hok : d.walkTo followLast follow here pieces = .ok place) :
    d'.walkTo followLast follow' here pieces = .ok place := by
  induction pieces generalizing here with
  | nil => exact hok
  | cons piece rest ih =>
    rw [Disk.walkTo] at hok ⊢
    by_cases hdir : d.node? here ≠ some .directory
    · rw [if_pos hdir] at hok
      cases hok
    rw [if_neg hdir] at hok
    rw [ne_eq, Decidable.not_not] at hdir
    have hdir' : ¬ d'.node? here ≠ some .directory := by
      rw [h.node_eq hdir fun _ => Node.noConfusion]
      exact fun hne => hne rfl
    rw [if_neg hdir']
    by_cases hvoid : Path.isVoid piece
    · rw [if_pos hvoid] at hok ⊢
      exact ih hok
    rw [if_neg hvoid] at hok ⊢
    by_cases hparent : piece = ".."
    · rw [if_pos hparent] at hok ⊢
      exact ih hok
    rw [if_neg hparent] at hok ⊢
    by_cases hlong : maxName < piece.utf8ByteSize
    · rw [if_pos hlong] at hok
      cases hok
    rw [if_neg hlong] at hok ⊢
    cases hn : d.node? (here ++ [piece]) with
    | none =>
      -- The walk could only end here, and nothing is here.
      simp only [hn] at hok
      split at hok
      · cases hok
        rw [hn] at hnode
        cases hnode
      · cases hok
    | some n =>
      cases n with
      | link target =>
        simp only [hn] at hok
        simp only [h.node_eq hn fun _ => Node.noConfusion]
        split at hok
        · next hlast => rw [if_pos hlast, hok]
        · next hlast =>
          rw [if_neg hlast]
          exact hfollow _ _ hok
      | file bytes =>
        obtain ⟨bytes', hfile⟩ := h.file_of_file hn
        simp only [hn] at hok
        simp only [hfile]
        exact ih hok
      | directory =>
        simp only [hn] at hok
        simp only [h.node_eq hn fun _ => Node.noConfusion]
        exact ih hok

theorem walk (h : Evolves created written d d') {followLast : Bool} {links : Nat} {here : Location}
    {pieces : List String} (hnode : (d.node? place).isSome)
    (hok : d.walk followLast links here pieces = .ok place) :
    d'.walk followLast links here pieces = .ok place := by
  induction links generalizing here pieces with
  | zero =>
    rw [Disk.walk] at hok ⊢
    refine h.walkTo hnode (fun _ _ hfail => ?_) hok
    cases hfail
  | succ links ih =>
    rw [Disk.walk] at hok ⊢
    exact h.walkTo hnode (fun _ _ => ih) hok

/-- A path to a node, through links or not, still leads to its place. -/
theorem resolve_of_node (h : Evolves created written d d') {followLast : Bool}
    (hnode : (d.node? place).isSome) (hok : d.resolve followLast p = .ok place) :
    d'.resolve followLast p = .ok place := by
  rw [Disk.resolve] at hok ⊢
  split at hok
  · cases hok
  · next hempty =>
    split at hok
    · cases hok
    · next hnul =>
      split at hok
      · cases hok
      · next hlong =>
        rw [if_neg hempty, if_neg hnul, if_neg hlong, h.workingDir]
        exact h.walk hnode hok

/-- A file that was not written reads as before. -/
theorem read (h : Evolves created written d d') (hd : d.Linkless) (hr : d.read p = .ok bytes)
    (hp : ∀ place, d.resolve true p = .ok place → ¬ written place) : d'.read p = .ok bytes := by
  obtain ⟨place, hplace, hn⟩ := read_eq_ok.1 hr
  refine read_eq_ok.2 ⟨place, (h.resolve hd).2 hplace, ?_⟩
  rw [h.node_of_not_written (by rw [hn]; rfl) (hp place hplace), hn]

/-- What was no file is one only where one was created. -/
theorem isFile (h : Evolves created written d d') (hd : d.Linkless)
    (hp : ∀ place, d.resolve true p = .ok place → ¬ created place) : d'.isFile p = d.isFile p := by
  rw [Bool.eq_iff_iff, isFile_iff, isFile_iff]
  simp only [read_eq_ok, h.resolve hd]
  constructor
  · rintro ⟨bytes, place, hplace, hn⟩
    rcases h.node place with hsame | ⟨-, ⟨hc, -⟩ | ⟨-, old, hold⟩⟩
    · exact ⟨bytes, place, hplace, hsame ▸ hn⟩
    · exact absurd hc (hp place hplace)
    · exact ⟨old, place, hplace, hold⟩
  · rintro ⟨bytes, place, hplace, hn⟩
    rcases h.node place with hsame | ⟨⟨new, hnew⟩, -⟩
    · exact ⟨bytes, place, hplace, hsame.trans hn⟩
    · exact ⟨new, place, hplace, hnew⟩

end Evolves

end Disk

end TidyImports
