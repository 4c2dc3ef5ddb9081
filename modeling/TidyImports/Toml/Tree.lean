-- SUMMARY: Tables under construction: who defined them decides who may extend them.
import TidyImports.Document.Basic

/-!
# TOML trees

While a text is read its tables stay open. A table remembers how it came to be:
under a header of its own, on the way to another header, or as part of a dotted
key. Each key is defined once, and a table is extended only in the way it was
made.
-/

namespace TidyImports

namespace Toml

/-- How a table came to be. -/
inductive Origin where
  | header
  /-- On the way to the table of a header. -/
  | implied
  /-- As part of a dotted key. -/
  | dotted
  deriving DecidableEq, Repr, Inhabited

inductive Node where
  /-- A finished value: a scalar, a list or an inline table. -/
  | value (d : Document)
  | table (origin : Origin) (fields : List (String × Node))
  /-- Tables that share a header; the last one is open. -/
  | tables (closed : List (List (String × Node))) (last : List (String × Node))
  deriving Inhabited

abbrev Fields := List (String × Node)

mutual

def Node.toDocument : Node → Document
  | .value d => d
  | .table _ fields => .table (documents fields)
  | .tables closed last => .list (records closed ++ [.table (documents last)])

/-- The fields as documents. -/
def documents : List (String × Node) → List (String × Document)
  | [] => []
  | (k, n) :: rest => (k, n.toDocument) :: documents rest

/-- A table for each group of fields. -/
def records : List (List (String × Node)) → List Document
  | [] => []
  | fields :: rest => .table (documents fields) :: records rest

end

-- ---------------------------------------------------------------------------
-- Fields
-- ---------------------------------------------------------------------------

/-- Give an existing field a new value. -/
def replaceField (key : String) (n : Node) (fields : Fields) : Fields :=
  fields.map fun f => if f.1 == key then (key, n) else f

/-- A new field at the end. -/
def addField (key : String) (n : Node) (fields : Fields) : Fields := fields ++ [(key, n)]

/-- Change the table at the end of a path. Tables that are missing are made, as parts of a dotted
key or on the way to a header. A dotted key does not enter the table of a header. -/
def alter (isKey : Bool) (change : Origin → Fields → Option Fields) :
    List String → Origin → Fields → Option Fields
  | [], origin, fields => change origin fields
  | k :: path, _, fields =>
    match fields.lookup k with
    | none => do
      let origin := if isKey then Origin.dotted else .implied
      let inside ← alter isKey change path origin []
      return addField k (.table origin inside) fields
    | some (.table origin inside) =>
      if isKey && origin == .header then none
      else do
        let inside ← alter isKey change path origin inside
        return replaceField k (.table origin inside) fields
    | some (.tables closed last) => do
      let last ← alter isKey change path .header last
      return replaceField k (.tables closed last) fields
    | some (.value _) => none

-- ---------------------------------------------------------------------------
-- Definitions
-- ---------------------------------------------------------------------------

/-- Define a key inside a table. All tables of a dotted key but the first belong to dotted keys. -/
def assign (key : List String) (d : Document) (fields : Fields) : Option Fields :=
  match key.getLast? with
  | none => none
  | some name =>
    alter true (fun origin fields =>
      if 1 < key.length && origin != .dotted then none
      else if (fields.lookup name).isSome then none
      else some (addField name (.value d) fields)) key.dropLast .header fields

/-- Open the table of a header. -/
def openTable (key : List String) (root : Fields) : Option Fields :=
  match key.getLast? with
  | none => none
  | some name =>
    alter false (fun _ fields =>
      match fields.lookup name with
      | none => some (addField name (.table .header []) fields)
      | some (.table .implied inside) => some (replaceField name (.table .header inside) fields)
      | some _ => none) key.dropLast .header root

/-- Open one more table of a header that many share. -/
def openItem (key : List String) (root : Fields) : Option Fields :=
  match key.getLast? with
  | none => none
  | some name =>
    alter false (fun _ fields =>
      match fields.lookup name with
      | none => some (addField name (.tables [] []) fields)
      | some (.tables closed last) =>
        some (replaceField name (.tables (closed ++ [last]) []) fields)
      | some _ => none) key.dropLast .header root

end Toml

end TidyImports
