-- SUMMARY: Detection of vocabulary symbols that a script uses and does not bind itself.
import TidyImports.Source.Bindings
import TidyImports.Import.Usage

/-!
# Detection

Only code counts: not strings, template text, comments or import statements,
and not a name after a dot. A symbol is used where its name occurs in code in
the shape its rule asks for.
-/

namespace TidyImports

/-- A code token with its neighbours. -/
structure Occurrence where
  previous? : Option Token
  token : Token
  next? : Option Token
  deriving Repr, Inhabited

namespace Occurrence

/-- The tokens of code with their neighbours, given the token before them. -/
def ofTokens (previous? : Option Token) : List Token → List Occurrence
  | [] => []
  | tok :: rest => ⟨previous?, tok, rest.head?⟩ :: ofTokens (some tok) rest

/-- An identifier that does not follow a dot. -/
def isBare (o : Occurrence) : Bool := o.token.isIdent && !o.previous?.any (·.isPunct '.')

end Occurrence

/-- Does the occurrence have the shape a pattern asks for? -/
def Pattern.matches? (p : Pattern) (o : Occurrence) : Bool :=
  match p with
  | .reference => true
  | .call => o.next?.any (·.isPunct '(')
  | .element => o.next?.any (·.isPunct '(') || o.previous?.any (·.isPunct '<')

namespace Script

/-- The identifiers in code that follow no dot. -/
def bareOccurrences (s : Script) : List Occurrence :=
  (Occurrence.ofTokens none s.code).filter Occurrence.isBare

/-- The usages that one occurrence stands for. -/
def usagesAt (b : Bindings) (v : Vocabulary) (o : Occurrence) : List Usage :=
  v.modules.flatMap fun m =>
    (m.symbols.filter fun r => r.name == o.token.name &&
      !b.bindsElsewhere r.name m.specifier && r.pattern.matches? o).map fun r =>
        ⟨m.specifier, r.name, r.binding⟩

/-- The vocabulary symbols that the script uses and does not bind from elsewhere. -/
def usages (s : Script) (v : Vocabulary) : UsageSet :=
  let b := Bindings.ofScript s
  SortedSet.ofList (s.bareOccurrences.flatMap (usagesAt b v))

/-- Does code refer to the name, while nothing binds it? -/
def hasUnbound (s : Script) (name : String) : Bool :=
  (s.bareOccurrences.any (·.token.name == name)) && !(Bindings.ofScript s).binds name

end Script

end TidyImports
