-- SUMMARY: Where paths lead on a disk without links: told by their texts and by the directories.
import TidyImports.Disk.Resolve

/-!
# Resolution without links

On a disk without links a path leads where its pieces say, or nowhere. Whether
it leads there depends on the directories alone, so that files may come and
change without an effect on where paths lead.
-/

namespace TidyImports

/-- What two runs of a function come to can be compared. -/
instance Except.decEq {ε α : Type} [DecidableEq ε] [DecidableEq α] : DecidableEq (Except ε α)
  | .ok a, .ok b => decidable_of_iff (a = b) (by simp)
  | .error e, .error f => decidable_of_iff (e = f) (by simp)
  | .ok _, .error _ => isFalse (by simp)
  | .error _, .ok _ => isFalse (by simp)

theorem Except.mem_toOption {ε α : Type} {x : Except ε α} {a : α} :
    a ∈ x.toOption ↔ x = .ok a := by
  cases x <;> simp [Except.toOption]

def Node.isLink : Node → Bool
  | .link _ => true
  | _ => false

namespace Disk

variable {d d' : Disk} {followLast : Bool} {links : Nat} {here place : Location}
  {pieces : List String} {p : Path}

/-- The location a path denotes, if there is one. -/
def place? (d : Disk) (followLast : Bool) (p : Path) : Option Location :=
  (d.resolve followLast p).toOption

theorem mem_place? : place ∈ d.place? followLast p ↔ d.resolve followLast p = .ok place :=
  Except.mem_toOption

/-- What stands at a location is kept there. -/
theorem mem_nodes_of_node? {n : Node} (hplace : place ≠ []) (h : d.node? place = some n) :
    (place, n) ∈ d.nodes := by
  rw [node?, if_neg (by simpa using hplace)] at h
  obtain ⟨front, back, hnodes, -⟩ := List.lookup_eq_some_iff.1 h
  rw [hnodes]
  simp

theorem isSome_node?_of_mem {x : Location × Node} (hx : x ∈ d.nodes) : (d.node? x.1).isSome := by
  rw [node?]
  split
  · rfl
  · apply Option.isSome_iff_ne_none.2
    intro hnone
    exact absurd (List.lookup_eq_none_iff.1 hnone x hx) (by simp)

/-- No node is a symbolic link. -/
def Linkless (d : Disk) : Prop := ∀ place target, d.node? place ≠ some (.link target)

/-- Only the nodes that are kept can be links. -/
theorem linkless_iff : d.Linkless ↔ ∀ x ∈ d.nodes, ∀ n ∈ d.node? x.1, !n.isLink := by
  constructor
  · intro h x _ n hn
    cases n with
    | link target => exact absurd hn (h _ _)
    | file bytes => rfl
    | directory => rfl
  · intro h place target hn
    have hplace : place ≠ [] := by
      rintro rfl
      cases hn
    exact absurd (h _ (mem_nodes_of_node? hplace hn) _ hn) (by simp [Node.isLink])

instance (d : Disk) : Decidable d.Linkless := decidable_of_iff _ linkless_iff.symm

/-- Where a piece leads from a location. -/
def descend (here : Location) (piece : String) : Location :=
  if Path.isVoid piece then here
  else if piece = ".." then here.dropLast
  else here ++ [piece]

/-- Can pieces be followed? Each is looked up in a directory, and its name is not too long. -/
def Passes (d : Disk) (here : Location) : List String → Prop
  | [] => True
  | piece :: rest =>
    d.node? here = some .directory ∧
      (Path.isVoid piece ∨ piece = ".." ∨ piece.utf8ByteSize ≤ maxName) ∧
        d.Passes (descend here piece) rest

theorem walkTo_ok_iff (hd : d.Linkless) {follow : Location → List String → Except Fault Location} :
    d.walkTo followLast follow here pieces = .ok place ↔
      d.Passes here pieces ∧ place = pieces.foldl descend here := by
  induction pieces generalizing here with
  | nil =>
    rw [walkTo, Passes, List.foldl_nil, true_and, Except.ok.injEq]
    exact eq_comm
  | cons piece rest ih =>
    rw [walkTo, Passes, List.foldl_cons]
    by_cases hdir : d.node? here ≠ some .directory
    · rw [if_pos hdir]
      simp [hdir]
    rw [if_neg hdir]
    rw [ne_eq, Decidable.not_not] at hdir
    by_cases hvoid : Path.isVoid piece
    · rw [if_pos hvoid, ih, descend, if_pos hvoid]
      simp [hdir, hvoid]
    rw [if_neg hvoid]
    by_cases hparent : piece = ".."
    · rw [if_pos hparent, ih, descend, if_neg hvoid, if_pos hparent]
      simp [hdir, hparent]
    rw [if_neg hparent, descend, if_neg hvoid, if_neg hparent]
    by_cases hlong : maxName < piece.utf8ByteSize
    · rw [if_pos hlong]
      simp [hvoid, hparent, Nat.not_le.2 hlong]
    rw [if_neg hlong]
    have hshort : Path.isVoid piece ∨ piece = ".." ∨ piece.utf8ByteSize ≤ maxName :=
      .inr (.inr (Nat.le_of_not_lt hlong))
    simp only [hdir, hshort, true_and]
    match hn : d.node? (here ++ [piece]) with
    | none =>
      cases rest with
      | nil =>
        simp only [List.isEmpty_nil, if_true, Passes, List.foldl_nil, true_and, Except.ok.injEq]
        exact eq_comm
      | cons next rest => simp [Passes, hn]
    | some (.link target) => exact absurd hn (hd _ _)
    | some (.file bytes) => exact ih
    | some .directory => exact ih

theorem walk_ok_iff (hd : d.Linkless) :
    d.walk followLast links here pieces = .ok place ↔
      d.Passes here pieces ∧ place = pieces.foldl descend here := by
  cases links with
  | zero => exact walkTo_ok_iff hd
  | succ links => exact walkTo_ok_iff hd

/-- Where the text of a path leads. -/
def target (d : Disk) (p : Path) : Location :=
  (slashPieces p.text).foldl descend (if p.isAbsolute then [] else d.workingDir)

/-- A path that leads somewhere is not empty, and can be followed. -/
theorem passes_of_resolve (hd : d.Linkless) (h : d.resolve followLast p = .ok place) :
    p.text ≠ "" ∧ d.Passes (if p.isAbsolute then [] else d.workingDir) (slashPieces p.text) ∧
      place = d.target p := by
  rw [resolve] at h
  split at h
  · cases h
  · next hempty =>
    split at h
    · cases h
    · split at h
      · cases h
      · exact ⟨fun heq => hempty (String.isEmpty_iff.2 heq), (walk_ok_iff hd).1 h⟩

/-- Without links it makes no difference whether the last one is followed. -/
theorem resolve_followLast (hd : d.Linkless) (followLast' : Bool) :
    d.resolve followLast p = .ok place ↔ d.resolve followLast' p = .ok place := by
  simp only [resolve]
  split
  · exact Iff.rfl
  · split
    · exact Iff.rfl
    · split
      · exact Iff.rfl
      · rw [walk_ok_iff hd, walk_ok_iff hd]

theorem target_of_resolve (hd : d.Linkless) (h : d.resolve followLast p = .ok place) :
    place = d.target p :=
  (passes_of_resolve hd h).2.2

/-- What more pieces follow is a directory. -/
theorem directory_of_passes {front back : List String} (h : d.Passes here (front ++ back))
    (hne : back ≠ []) : d.node? (front.foldl descend here) = some .directory := by
  induction front generalizing here with
  | nil =>
    obtain ⟨piece, rest, rfl⟩ := List.exists_cons_of_ne_nil hne
    exact h.1
  | cons piece front ih => exact ih h.2.2

-- ---------------------------------------------------------------------------
-- Other disks
-- ---------------------------------------------------------------------------

/-- The same places are directories, and relative paths start at the same one. -/
structure SameDirectories (d d' : Disk) : Prop where
  workingDir : d'.workingDir = d.workingDir
  directory : ∀ place, d'.node? place = some .directory ↔ d.node? place = some .directory

theorem SameDirectories.refl (d : Disk) : d.SameDirectories d := ⟨rfl, fun _ => Iff.rfl⟩

theorem SameDirectories.trans {d'' : Disk} (h : d.SameDirectories d')
    (h' : d'.SameDirectories d'') : d.SameDirectories d'' where
  workingDir := h'.workingDir.trans h.workingDir
  directory place := (h'.directory place).trans (h.directory place)

theorem SameDirectories.target (h : d.SameDirectories d') (p : Path) : d'.target p = d.target p := by
  rw [Disk.target, Disk.target, h.workingDir]

theorem SameDirectories.passes (h : d.SameDirectories d') :
    d'.Passes here pieces ↔ d.Passes here pieces := by
  induction pieces generalizing here with
  | nil => exact Iff.rfl
  | cons piece rest ih => rw [Passes, Passes, h.directory, ih]

/-- A path leads to the same place as long as the directories stay. -/
theorem SameDirectories.resolve (h : d.SameDirectories d') (hd : d.Linkless) (hd' : d'.Linkless) :
    d'.resolve followLast p = .ok place ↔ d.resolve followLast p = .ok place := by
  rw [Disk.resolve, Disk.resolve]
  split
  · exact Iff.rfl
  · split
    · exact Iff.rfl
    · split
      · exact Iff.rfl
      · rw [walk_ok_iff hd, walk_ok_iff hd', h.workingDir, h.passes]

end Disk

end TidyImports
