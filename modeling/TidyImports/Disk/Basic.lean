-- SUMMARY: A disk as a value: locations and the files, directories and links that stand there.
import TidyImports.KeyedList

/-!
# Disks

A disk assigns nodes to locations. A location is the list of names that lead to
it from the root, so it is what a path denotes once its links are followed. The
main facts say that a change at one location is seen there and nowhere else.
-/

namespace TidyImports

/-- The names that lead to a place on the disk. -/
abbrev Location := List String

/-- Bytes are equal when they are the same array. -/
local instance decidableEqBytes : DecidableEq ByteArray := ByteArray.decEq

inductive Node where
  | file (bytes : ByteArray)
  | directory
  /-- A symbolic link. -/
  | link (target : String)
  deriving DecidableEq, Inhabited

structure Disk where
  /-- Where relative paths start. -/
  workingDir : Location := []
  nodes : List (Location × Node) := []
  deriving DecidableEq, Inhabited

namespace Disk

-- ---------------------------------------------------------------------------
-- Nodes
-- ---------------------------------------------------------------------------

/-- The node at a location; the root is always a directory. -/
def node? (d : Disk) (place : Location) : Option Node :=
  if place.isEmpty then some .directory else d.nodes.lookup place

/-- Put a node at a location. -/
def put (d : Disk) (place : Location) (n : Node) : Disk :=
  { d with nodes := KeyedList.put Prod.fst (place, n) d.nodes }

/-- The bytes of the file at a location. -/
def file? (d : Disk) (place : Location) : Option ByteArray :=
  match d.node? place with
  | some (.file bytes) => some bytes
  | _ => none

/-- Remove what is at a location, with everything below it. -/
def erase (d : Disk) (place : Location) : Disk :=
  { d with nodes := d.nodes.filter fun (l, _) => !place.isPrefixOf l }

/-- The names in the directory at a location, in the order of their bytes. -/
def namesIn (d : Disk) (place : Location) : List String :=
  let names := d.nodes.filterMap fun (l, _) =>
    if l.dropLast == place && !l.isEmpty then l.getLast? else none
  names.mergeSort (· ≤ ·)

/-- Everything below a location, with the names that lead there from it. -/
def below (d : Disk) (place : Location) : List (Location × Node) :=
  d.nodes.filterMap fun (l, n) =>
    if place.isPrefixOf l && l.length != place.length then some (l.drop place.length, n) else none

-- ---------------------------------------------------------------------------
-- What a change does
-- ---------------------------------------------------------------------------

theorem lookup_put (place l : Location) (n : Node) (nodes : List (Location × Node)) :
    (KeyedList.put Prod.fst (place, n) nodes).lookup l =
      if l = place then some n else nodes.lookup l := by
  induction nodes with
  | nil =>
    by_cases h : l = place
    · simp [KeyedList.put, h]
    · have hb : (l == place) = false := by simpa using h
      simp [KeyedList.put, List.lookup_cons, h, hb]
  | cons m ms ih =>
    obtain ⟨k, v⟩ := m
    by_cases hk : k = place
    · subst hk
      by_cases h : l = k
      · simp [KeyedList.put, h]
      · have hb : (l == k) = false := by simpa using h
        simp [KeyedList.put, List.lookup_cons, h, hb]
    · by_cases h : l = place
      · subst h
        have hb : (l == k) = false := by simpa using fun e : l = k => hk e.symm
        simp only [KeyedList.put, hk, if_false, List.lookup_cons, hb]
        simpa using ih
      · simp only [KeyedList.put, hk, if_false, List.lookup_cons]
        split
        · simp [h]
        · simpa [h] using ih

theorem node?_put_same (d : Disk) {place : Location} (n : Node) (h : place ≠ []) :
    (d.put place n).node? place = some n := by
  simp [node?, put, lookup_put, h]

theorem node?_put_other (d : Disk) {place l : Location} (n : Node) (h : l ≠ place) :
    (d.put place n).node? l = d.node? l := by
  simp [node?, put, lookup_put, h]

end Disk

end TidyImports
