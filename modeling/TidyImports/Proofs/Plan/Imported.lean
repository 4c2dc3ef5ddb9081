-- SUMMARY: A name that a file imports is not detected as a use of another module's symbol.
import TidyImports.Proofs.Outline.Held
import TidyImports.Proofs.Plan.Uses

/-!
# Imported names

The clause of an import that the scan meets stands in a statement with a
specifier. If this is recognized, its local names are bound by its module;
otherwise all its identifiers are bound. Either way the names are no uses of
other modules. An import that the scan does not meet is taken for code.
-/

namespace TidyImports

open Token

-- ---------------------------------------------------------------------------
-- Names
-- ---------------------------------------------------------------------------

theorem Part.mem_statementsFrom_append {offset index : Nat} {ps qs : List Part} {head : Mark}
    {body : List Mark} {at? : Option Nat} :
    ∃ offset', (Part.statement head body at?).statementAt offset' (index + (allMarks ps).length) ∈
      statementsFrom offset index (ps ++ .statement head body at? :: qs) :=
  ⟨_, statementAt_mem offset index ps qs head body at?⟩

/-- The names of tokens are their identifiers. -/
theorem Bindings.mem_identifiers {tokens : List Token} {tok : Token} (htok : tok ∈ tokens)
    (hident : tok.isIdent) (hword : tok.name ∉ clauseWords) : tok.name ∈ identifiers tokens := by
  apply List.mem_filter.2
  refine ⟨List.mem_map_of_mem (List.mem_filter.2 ⟨htok, hident⟩), ?_⟩
  simpa using hword

/-- A name in an import is detected only as a symbol of the module that the import is recognized
for, or where it is recognized and does not bind the name, but an alias for it. -/
theorem Script.usages_imported {t : Text} {before clause : List Token} {head tok : Token}
    {v : Vocabulary} {u : Usage} (h : t.HasImport before head clause)
    (hmeets : t.MeetsImport before head) (hu : u ∈ (parse t).usages v) (htok : tok ∈ clause)
    (hident : tok.isIdent) (hname : tok.name = u.name) (hword : tok.name ∉ Bindings.clauseWords) :
    ∃ st ∈ (parse t).statements, st.first = before.length ∧
      ∃ d, st.declaration? = some d ∧ (d.specifier = u.module ∨ u.name ∉ d.localNames) := by
  obtain ⟨ps, m, body, i, qs, hparts, hclause, hspecifier, hfirst⟩ := h.exists_part hmeets
  obtain ⟨mod, -, sym, -, rfl, hfree, -⟩ := mem_usages.1 hu
  rw [reading_parse] at hfree
  have hpart : Part.statement m body (some i) ∈ t.parts := by
    rw [hparts]
    exact List.mem_append_right _ (List.mem_cons_self ..)
  cases hdeclaration : (Part.statement m body (some i)).declaration? with
  | none =>
    -- All identifiers of the statement are bound.
    refine absurd (.inl (.inr (List.mem_flatMap.2 ⟨_, hpart, ?_⟩))) hfree
    have hbound : tok.bare.name ∈ Bindings.identifiers (m.token :: body.map Mark.token) :=
      Bindings.mem_identifiers (List.mem_cons_of_mem _ (hclause tok htok)) hident hword
    have hsymbol : tok.bare.name = sym.name := hname
    rw [Part.unrecognized, hspecifier, hdeclaration, ← hsymbol]
    exact hbound
  | some d =>
    have hlength : (Part.allMarks ps).length = before.length :=
      hfirst.resolve_right (by rw [hdeclaration]; exact Option.some_ne_none d)
    obtain ⟨offset, hst⟩ := @Part.mem_statementsFrom_append t.markSize 0 ps qs m body (some i)
    rw [← hparts, ← statements_parse, Nat.zero_add, hlength] at hst
    refine ⟨_, hst, rfl, _, by rw [Part.statementAt, hdeclaration]; rfl, ?_⟩
    apply Decidable.byContradiction
    intro hother
    obtain ⟨hmodule, hlocal⟩ := not_or.1 hother
    exact hfree (.inr ⟨d, List.mem_filterMap.2 ⟨_, hpart, hdeclaration⟩, hmodule,
      Decidable.not_not.1 hlocal⟩)

/-- Behind a comment, an import is met where it follows a `;`. -/
example : (Script.parse ("f();\n/* state */ import \x7b useState \x7d from 'preact/hooks';\n" ++
    "useState(0);\n").toList).usages {} = ∅ := by
  decide +kernel

/-- A text that imports an item of a module and uses a hook. -/
def hookText (item module : String) : Text :=
  ("import \x7b " ++ item ++ " \x7d from '" ++ module ++ "';\nuseState(0);\n").toList

/-- What stands between its `import` and its `from`. -/
def hookClause (item module : String) : List Token :=
  (tokenize (hookText item module)).tail.takeWhile (!·.isWord "from")

/-- A hook that its own module binds is detected. -/
theorem Script.usages_imported_hook :
    ∃ st ∈ (parse (hookText "useState" "react")).statements, st.first = 0 ∧
      ∃ d, st.declaration? = some d ∧ (d.specifier = "react" ∨ "useState" ∉ d.localNames) := by
  have himport : (hookText "useState" "react").HasImport [] ⟨.ident, 0, "import".toList⟩
      (hookClause "useState" "react") := by
    refine ⟨by decide +kernel, by decide +kernel, by decide +kernel, by decide +kernel,
      by decide +kernel, ?_⟩
    exact ⟨⟨.ident, 20, "from".toList⟩, [], ⟨.string true, 25, "'react'".toList⟩,
      (tokenize (hookText "useState" "react")).drop 6, by decide +kernel, by decide +kernel,
      by decide +kernel, by decide +kernel⟩
  have husage :
      ⟨"react", "useState", .named⟩ ∈ (parse (hookText "useState" "react")).usages {} := by
    decide +kernel
  have hclause : ⟨.ident, 9, "useState".toList⟩ ∈ hookClause "useState" "react" := by
    decide +kernel
  exact usages_imported himport (by decide +kernel) husage hclause (by decide +kernel)
    (by decide +kernel) (by decide +kernel)

/-- A name that is imported under an alias is free for other modules, though it stands in the
import. -/
theorem Script.usages_imported_alias :
    ¬ ∀ (t : Text) (before clause : List Token) (head tok : Token) (v : Vocabulary) (u : Usage),
      t.HasImport before head clause → u ∈ (parse t).usages v → tok ∈ clause → tok.isIdent →
        tok.name = u.name → tok.name ∉ Bindings.clauseWords →
          ∃ st ∈ (parse t).statements, st.first = before.length ∧
            ∃ d, st.declaration? = some d ∧ d.specifier = u.module := by
  intro hall
  have himport : (hookText "useState as s" "preact/hooks").HasImport []
      ⟨.ident, 0, "import".toList⟩ (hookClause "useState as s" "preact/hooks") := by
    refine ⟨by decide +kernel, by decide +kernel, by decide +kernel, by decide +kernel,
      by decide +kernel, ?_⟩
    exact ⟨⟨.ident, 25, "from".toList⟩, [], ⟨.string true, 30, "'preact/hooks'".toList⟩,
      (tokenize (hookText "useState as s" "preact/hooks")).drop 8, by decide +kernel,
      by decide +kernel, by decide +kernel, by decide +kernel⟩
  obtain ⟨st, hst, -, d, hd, hmodule⟩ := hall _ [] _ _ ⟨.ident, 9, "useState".toList⟩ {}
    ⟨"react", "useState", .named⟩ himport (by decide +kernel) (by decide +kernel)
    (by decide +kernel) (by decide +kernel) (by decide +kernel)
  have hothers : ∀ st ∈ (parse (hookText "useState as s" "preact/hooks")).statements,
      ∀ d ∈ st.declaration?, d.specifier ≠ "react" := by decide +kernel
  exact hothers st hst d hd hmodule

end TidyImports
