-- SUMMARY: Documents: the values that structured texts hold, and how records are read from them.
import TidyImports.Decimal

/-!
# Documents

A document is what a JSON or TOML text means: scalars, lists and tables. Readers
of domain values take it as a record first and then read its fields, which can
be owed in three ways: required, defaulted (it may be missing), or optional (it
may be missing or null). What can stand for a record, for a word and for the name
of a kind depends on the notation, and on whether the document is part of one
that names its own kind.
-/

namespace TidyImports

/-- A structured value. -/
inductive Document where
  | null
  | bool (b : Bool)
  | integer (n : Int)
  /-- A number with a fraction or exponent, as it is written. -/
  | decimal (literal : String)
  /-- A date, a time or both, as it is written. -/
  | moment (literal : String)
  | text (s : String)
  | list (items : List Document)
  | table (fields : List (String × Document))
  deriving Repr, Inhabited

namespace Document

-- ---------------------------------------------------------------------------
-- Scalars and lists
-- ---------------------------------------------------------------------------

def asText? : Document → Option String
  | .text s => some s
  | _ => none

def asBool? : Document → Option Bool
  | .bool b => some b
  | _ => none

/-- A counter: an integer from 0 to 2⁶⁴ - 1. -/
def asCount? : Document → Option Nat
  | .integer n => if 0 ≤ n ∧ n ≤ 0xFFFFFFFFFFFFFFFF then some n.toNat else none
  | _ => none

def asListOf? (read : Document → Option α) : Document → Option (List α)
  | .list items => items.mapM read
  | _ => none

/-- The entries of a table, each name once, with the value it was given last. -/
def asEntries? : Document → Option (List (String × Document))
  | .table fields =>
    some (fields.foldr (fun f rest => if rest.any (·.1 == f.1) then rest else f :: rest) [])
  | _ => none

-- ---------------------------------------------------------------------------
-- Range
-- ---------------------------------------------------------------------------

mutual

/-- Are all numbers in the document of a size that a reader can hold: integers of 128 bits, with or
without a sign, and doubles? -/
def inRange : Document → Bool
  | .integer n =>
    -0x80000000000000000000000000000000 ≤ n && n ≤ 0xFFFFFFFFFFFFFFFFFFFFFFFFFFFFFFFF
  | .decimal literal => (Decimal.ofText literal.toList).fitsDouble
  | .list items => itemsInRange items
  | .table fields => fieldsInRange fields
  | .null | .bool _ | .moment _ | .text _ => true

def itemsInRange : List Document → Bool
  | [] => true
  | d :: ds => d.inRange && itemsInRange ds

def fieldsInRange : List (String × Document) → Bool
  | [] => true
  | (_, d) :: fs => d.inRange && fieldsInRange fs

end

-- ---------------------------------------------------------------------------
-- Records
-- ---------------------------------------------------------------------------

/-- The notation a document was written in. -/
inductive Dialect where
  | json
  /-- JSON inside a document that names its own kind. Such a document is read whole before its kind
  is known, and its parts are then read more freely. -/
  | taggedJson
  | toml
  deriving DecidableEq, Repr, Inhabited

/-- May a list that stands for a record hold more items than the record has fields? -/
def Dialect.allowsSurplus : Dialect → Bool
  | .json | .taggedJson => false
  | .toml => true

/-- May a kind be given by its number instead of its name? -/
def Dialect.numbersKinds : Dialect → Bool
  | .taggedJson => true
  | .json | .toml => false

/-- What stands beside a word that is written as the only key of a table. -/
def Dialect.isUnit : Dialect → Document → Bool
  | .json, .null => true
  | .taggedJson, .null | .taggedJson, .table [] => true
  | .toml, .table [] | .toml, .list [] => true
  | _, _ => false

/-- A document as a record with fields of these names. A table may hold other fields, whose numbers
are still read. A list gives the fields by position; items beyond them are not looked at. A date has
none of the fields, and is a record in which all of them are missing. -/
def asRecord? (dialect : Dialect) (names : List String) : Document → Option Document
  | .table fields =>
    if fields.all fun f => names.contains f.1 || f.2.inRange then some (.table fields) else none
  | .list items =>
    if dialect.allowsSurplus || items.length ≤ names.length then some (.table (names.zip items))
    else none
  | .moment _ => some (.table [])
  | _ => none

/-- The value of a field, given last. -/
def field? (d : Document) (name : String) : Option Document :=
  match d with
  | .table fields => (fields.findRev? (·.1 == name)).map (·.2)
  | _ => none

def required (d : Document) (name : String) (read : Document → Option α) : Option α :=
  (d.field? name).bind read

def defaulted (d : Document) (name : String) (read : Document → Option α) (value : α) :
    Option α :=
  match d.field? name with
  | none => some value
  | some x => read x

def optional (d : Document) (name : String) (read : Document → Option α) : Option (Option α) :=
  match d.field? name with
  | none | some .null => some none
  | some x => (read x).map some

/-- One of a closed set of words: a text, or the only key of a table. -/
def asWord? (dialect : Dialect) : Document → Option String
  | .text word => some word
  | .table [(word, beside)] => if dialect.isUnit beside then some word else none
  | _ => none

/-- One of these kinds: a text, or the number of the kind, counted from 0. -/
def asKind? (dialect : Dialect) (kinds : List String) : Document → Option String
  | .text word => some word
  | .integer n => if dialect.numbersKinds && 0 ≤ n then kinds[n.toNat]? else none
  | _ => none

/-- A document that names its own kind: that word, and the record it stands for. A table names it in
a field, and a list has it in front. -/
def tagged? (dialect : Dialect) (name : String) (kinds : List String) (d : Document) :
    Option (String × Document) :=
  match d with
  | .table _ => (d.required name (asKind? dialect kinds)).map (·, d)
  | .list (kind :: items) => (kind.asKind? dialect kinds).map (·, .list items)
  | _ => none

-- ---------------------------------------------------------------------------
-- Building
-- ---------------------------------------------------------------------------

def ofNat (n : Nat) : Document := .integer n

def ofTexts (items : List String) : Document := .list (items.map .text)

/-- A list of fields from which the absent ones are left out. -/
def present (fields : List (String × Option Document)) : List (String × Document) :=
  fields.filterMap fun (name, value) => value.map (name, ·)

end Document

end TidyImports
