-- SUMMARY: The vocabulary as a table for people.
import TidyImports.Vocabulary.Document

/-!
# Listing the vocabulary

Columns are padded to a width in characters; a longer cell pushes the rest of
its line to the right.
-/

namespace TidyImports

namespace Vocabulary

/-- A cell of a column. -/
def cell (width : Nat) (s : String) : Text :=
  s.toList ++ List.replicate (width - s.toList.length) ' '

/-- A line with cells of given widths; the last one is not padded. -/
def row (cells : List (Nat × String)) (last : String) : Text :=
  [' ', ' '] ++ cells.flatMap (fun (width, s) => cell width s ++ [' ']) ++ last.toList ++ ['\n']

def symbolRow (name module binding usage : String) : Text :=
  row [(24, name), (12, module), (8, binding)] usage

def dataRow (r : DataRule) : Text :=
  row [(24, "|".intercalate r.keywords), (20, r.binding)] r.file

/-- The directive, the symbols by module, and the data rules. -/
def listing (v : Vocabulary) : Text :=
  ("Client directive: '" ++ v.clientDirective ++ "'\n\n").toList ++
  symbolRow "SYMBOL" "MODULE" "BINDING" "USAGE" ++
  symbolRow "------" "------" "-------" "-----" ++
  v.sortedModules.flatMap (fun m => m.symbols.flatMap fun s =>
    symbolRow s.name m.specifier s.binding.word s.pattern.word) ++
  ("\nData alias: " ++ v.data.shorthand ++ "\n").toList ++
  v.data.rules.flatMap dataRow

end Vocabulary

end TidyImports
