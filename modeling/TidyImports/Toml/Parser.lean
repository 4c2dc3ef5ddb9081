-- SUMMARY: Reading TOML text: values by a stack machine, then one definition or header per line.
import TidyImports.Toml.Lexeme
import TidyImports.Toml.Scalar
import TidyImports.Toml.Tree

/-!
# Reading TOML

The lexemes are divided into lines; a line break inside brackets divides
nothing. A line is empty, opens a table, or defines a key. Values are assembled
by a machine with one frame per open list or inline table. Line breaks and
comments may stand anywhere inside of these but within a key.
-/

namespace TidyImports

namespace Toml

-- ---------------------------------------------------------------------------
-- Keys
-- ---------------------------------------------------------------------------

def isBareChar (c : Char) : Bool := c.isAlphanum || c == '_' || c == '-'

/-- A part of a key, or a dot between two parts. -/
inductive KeyPiece where
  | part (s : String)
  | dot
  deriving DecidableEq, Repr, Inhabited

/-- The pieces of an atom inside a key. -/
def atomPieces (t : Text) : List KeyPiece :=
  (((t.splitOn '.').map fun bare =>
    if bare.isEmpty then [] else [KeyPiece.part (String.ofList bare)]).intersperse [.dot]).flatten

/-- The pieces that a lexeme adds to a key. -/
def keyPieces? : Lexeme → Option (List KeyPiece)
  | .blank _ => some []
  | .text s false => some [.part s]
  | .atom t => if t.all fun c => isBareChar c || c == '.' then some (atomPieces t) else none
  | _ => none

/-- The parts of a key, given its pieces: parts and dots take turns. -/
def joinPieces : List KeyPiece → Option (List String)
  | [.part s] => some [s]
  | .part s :: .dot :: rest => (joinPieces rest).map (s :: ·)
  | _ => none

/-- How many parts a key can have, and how many containers can be open at a time. -/
def maxDepth : Nat := 80

/-- The key that some lexemes spell. -/
def key? (ls : List Lexeme) : Option (List String) := do
  let key ← joinPieces (← ls.mapM keyPieces?).flatten
  if key.length ≤ maxDepth then some key else none

-- ---------------------------------------------------------------------------
-- Values
-- ---------------------------------------------------------------------------

/-- An open container. -/
inductive Frame where
  /-- A list, with its items in reverse. -/
  | list (items : List Document)
  | inline (fields : Fields)
  /-- An inline table with a key that still lacks its value. -/
  | entry (fields : Fields) (key : List String)
  deriving Inhabited

/-- What may come next. -/
inductive Due where
  | value
  | itemOrEnd
  /-- A key, of which these lexemes have been read, last first; before the first of them the table
  may end. -/
  | key (read : List Lexeme)
  /-- The sign between a key and its value. -/
  | equals
  | commaOrEnd
  deriving DecidableEq, Repr, Inhabited

/-- The machine: open containers, innermost first, and what is due; or the finished value. -/
inductive Machine where
  | reading (frames : List Frame) (due : Due)
  | finished (d : Document)
  deriving Inhabited

/-- A complete value has been read inside these containers. -/
def complete (d : Document) : List Frame → Option Machine
  | [] => some (.finished d)
  | .list items :: frames => some (.reading (.list (d :: items) :: frames) .commaOrEnd)
  | .entry fields key :: frames => do
    let fields ← assign key d fields
    return .reading (.inline fields :: frames) .commaOrEnd
  | .inline _ :: _ => none

/-- The innermost container is closed. -/
def close (c : Char) : List Frame → Option Machine
  | .list items :: frames => if c = ']' then complete (.list items.reverse) frames else none
  | .inline fields :: frames =>
    if c = '\x7d' then complete (.table (documents fields)) frames else none
  | _ => none

/-- Open a container inside others. -/
def openFrame (frame : Frame) (due : Due) (frames : List Frame) : Option Machine :=
  if frames.length < maxDepth then some (.reading (frame :: frames) due) else none

/-- A value, or the start of one. -/
def beginValue (frames : List Frame) : Lexeme → Option Machine
  | .mark '[' => openFrame (.list []) .itemOrEnd frames
  | .mark '\x7b' => openFrame (.inline []) (.key []) frames
  | .text s _ => complete (.text s) frames
  | .atom t => (scalar? t).bind (complete · frames)
  | _ => none

/-- What follows a comma. -/
def afterComma : List Frame → Option Machine
  | .list items :: frames => some (.reading (.list items :: frames) .itemOrEnd)
  | .inline fields :: frames => some (.reading (.inline fields :: frames) (.key []))
  | _ => none

/-- The key of an inline table is complete. -/
def finishKey (read : List Lexeme) (due : Due) : List Frame → Option Machine
  | .inline fields :: frames =>
    (key? read.reverse).map fun key => .reading (.entry fields key :: frames) due
  | _ => none

/-- One lexeme of a key, or what follows the key. -/
def keyStep (frames : List Frame) (read : List Lexeme) : Lexeme → Option Machine
  | .blank _ => some (.reading frames (.key read))
  | .newline | .comment =>
    if read.isEmpty then some (.reading frames (.key [])) else finishKey read .equals frames
  | .mark '=' => finishKey read .value frames
  | .mark c => if read.isEmpty then close c frames else none
  | l => some (.reading frames (.key (l :: read)))

/-- One lexeme. -/
def Machine.step (m : Machine) (l : Lexeme) : Option Machine :=
  match m with
  | .finished _ => none
  | .reading frames due =>
    match due, l with
    | .key read, l => keyStep frames read l
    | _, .blank _ => some m
    | _, .newline | _, .comment => if frames.isEmpty then none else some m
    | .equals, .mark '=' => some (.reading frames .value)
    | .equals, _ => none
    | .itemOrEnd, .mark ']' => close ']' frames
    | .value, l | .itemOrEnd, l => beginValue frames l
    | .commaOrEnd, .mark ',' => afterComma frames
    | .commaOrEnd, .mark c => close c frames
    | .commaOrEnd, _ => none

/-- A date and a time with one space between are one atom. -/
def joinDates : List Lexeme → List Lexeme
  | .atom a :: .blank ' ' :: .atom b :: rest =>
    if isDate a then .atom (a ++ ' ' :: b) :: joinDates rest
    else .atom a :: .blank ' ' :: joinDates (.atom b :: rest)
  | l :: rest => l :: joinDates rest
  | [] => []

/-- The value that some lexemes spell. -/
def value? (ls : List Lexeme) : Option Document := do
  match ← (joinDates ls).foldlM Machine.step (.reading [] .value) with
  | .finished d => some d
  | .reading _ _ => none

-- ---------------------------------------------------------------------------
-- Lines
-- ---------------------------------------------------------------------------

/-- Brackets that are open after a lexeme. -/
def depthAfter (depth : Nat) : Lexeme → Nat
  | .mark c =>
    if c = '[' ∨ c = '\x7b' then depth + 1
    else if c = ']' ∨ c = '\x7d' then depth - 1
    else depth
  | _ => depth

/-- Divide lexemes into lines; a line break inside brackets divides nothing. -/
def lines (depth : Nat) (line : List Lexeme) : List Lexeme → List (List Lexeme)
  | [] => [line.reverse]
  | l :: rest =>
    if l = .newline ∧ depth = 0 then line.reverse :: lines 0 [] rest
    else lines (depthAfter depth l) (l :: line) rest

/-- A text that is being read: its tables so far, and the one that keys are defined in. -/
structure Draft where
  root : Fields := []
  current : List String := []
  deriving Inhabited

def isFiller : Lexeme → Bool
  | .blank _ | .comment => true
  | _ => false

/-- A line without blanks in front, and without blanks and a comment behind. -/
def trimLine (line : List Lexeme) : List Lexeme :=
  ((line.dropWhile isFiller).reverse.dropWhile isFiller).reverse

/-- The lexemes before a number of closing brackets that end a line. -/
def header? (n : Nat) (line : List Lexeme) : Option (List Lexeme) :=
  let (inside, brackets) := (line.take (line.length - n), line.drop (line.length - n))
  if brackets = List.replicate n (.mark ']') then some inside else none

/-- A line that defines a key in the current table. -/
def Draft.define (s : Draft) (line : List Lexeme) : Option Draft := do
  let left := line.takeWhile (· != .mark '=')
  let key ← key? left
  let d ← value? (line.drop (left.length + 1))
  let root ← alter false (fun _ => assign key d) s.current .header s.root
  return { s with root }

/-- One line. -/
def Draft.step (s : Draft) (line : List Lexeme) : Option Draft :=
  match trimLine line with
  | [] => some s
  | .mark '[' :: .mark '[' :: rest => do
    let key ← (header? 2 rest).bind key?
    return ⟨← openItem key s.root, key⟩
  | .mark '[' :: rest => do
    let key ← (header? 1 rest).bind key?
    return ⟨← openTable key s.root, key⟩
  | line => s.define line

/-- The document a text holds, which may have a byte order mark in front. -/
def parse? (t : Text) : Option Document := do
  let t := if t.head? = some byteOrderMark then t.tail else t
  guard (returnsPaired t)
  let ls ← lexemes? t
  let s ← (lines 0 [] ls).foldlM Draft.step {}
  return .table (documents s.root)

end Toml

end TidyImports
