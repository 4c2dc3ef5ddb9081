-- SUMMARY: The names a script binds, by its imports and by its own declarations.
import TidyImports.Source.Statement

/-!
# Bindings

Names come into a script in three ways: it declares them, a recognized import
declaration binds them, or they occur in an import statement of another form,
which may bind any of its identifiers.
-/

namespace TidyImports

namespace Script

-- ---------------------------------------------------------------------------
-- Code
-- ---------------------------------------------------------------------------

/-- The tokens from `index` on that are no comments and lie in no statement. -/
def codeFrom (index : Nat) (statements : List Statement) : List Token → List Token
  | [] => []
  | tok :: rest =>
    let ahead := statements.dropWhile (·.past ≤ index)
    if tok.isComment || ahead.head?.any (·.first ≤ index) then codeFrom (index + 1) ahead rest
    else tok :: codeFrom (index + 1) ahead rest

/-- The code outside import statements, without comments. -/
def code (s : Script) : List Token := codeFrom 0 s.statements s.tokens

end Script

-- ---------------------------------------------------------------------------
-- Declared names
-- ---------------------------------------------------------------------------

namespace Bindings

def declarationWords : List String := ["const", "let", "var", "function", "class"]

/-- The identifiers of a destructuring pattern whose brackets are `opening` and `closing`, without
the property keys. -/
def patternNames (opening closing : Char) (depth : Nat) : List Token → List String
  | [] => []
  | tok :: rest =>
    if tok.isPunct opening then patternNames opening closing (depth + 1) rest
    else if tok.isPunct closing then
      if depth ≤ 1 then [] else patternNames opening closing (depth - 1) rest
    else if tok.isIdent && !rest.head?.any (·.isPunct ':') then
      tok.name :: patternNames opening closing depth rest
    else patternNames opening closing depth rest

/-- The names that code after a declaration word declares. -/
def declaredAfter (rest : List Token) : List String :=
  match rest with
  | [] => []
  | next :: _ =>
    if next.isIdent then [next.name]
    else if next.isPunct '\x7b' then patternNames '\x7b' '\x7d' 0 rest
    else if next.isPunct '[' then patternNames '[' ']' 0 rest
    else []

/-- The names that code declares. -/
def declaredNames : List Token → List String
  | [] => []
  | tok :: rest =>
    (if declarationWords.any tok.isWord then declaredAfter rest else []) ++ declaredNames rest

end Bindings

-- ---------------------------------------------------------------------------
-- All bindings
-- ---------------------------------------------------------------------------

/-- The names a script binds. -/
structure Bindings where
  /-- Names the script declares itself. -/
  declared : List String
  /-- Module and local name of each recognized import. -/
  imported : List (String × String)
  /-- Identifiers of import statements of other forms. -/
  unrecognized : List String
  deriving Repr, Inhabited

namespace Bindings

/-- Words of an import statement that are no names. -/
def clauseWords : List String := ["import", "from", "as", "type"]

/-- The identifiers of a statement, without the words of its form. -/
def identifiers (tokens : List Token) : List String :=
  ((tokens.filter Token.isIdent).map Token.name).filter (!clauseWords.contains ·)

def ofScript (s : Script) : Bindings where
  declared := declaredNames s.code
  imported := s.declarations.flatMap fun d => d.localNames.map (d.specifier, ·)
  unrecognized := s.statements.flatMap fun st =>
    if st.specifier?.isSome && st.declaration?.isNone then identifiers (s.tokensOf st) else []

/-- Is the name declared, or bound by an import of any module? -/
def binds (b : Bindings) (name : String) : Bool :=
  b.declared.contains name || b.unrecognized.contains name || b.imported.any (·.2 == name)

/-- Is the name declared, or bound by an import that is no recognized import of `specifier`? -/
def bindsElsewhere (b : Bindings) (name specifier : String) : Bool :=
  b.declared.contains name || b.unrecognized.contains name ||
    b.imported.any fun (module, n) => module != specifier && n == name

end Bindings

end TidyImports
