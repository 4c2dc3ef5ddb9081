-- SUMMARY: The step of a module as an edit of the list of import statements.
import TidyImports.Proofs.Edits.Imports
import TidyImports.Proofs.Plan.Steps

/-!
# The step of a module on the list of imports

When its edits are clear, and the module has no declaration or several, the step
of the module takes its declarations from the list of imports and puts the
canonical one in before the first import at or below the place of new lines. All
other imports keep their order and their tokens, and so does the code between
them, with the two tokens of a new directive in front.
-/

namespace TidyImports

open Text Lexer Edit

-- ---------------------------------------------------------------------------
-- What is written
-- ---------------------------------------------------------------------------

/-- A canonical import as it is written in a style. -/
def Canonical.written (c : Canonical) (style : Style) : WrittenImport where
  tokens := (head [] :: c.bodyMarks style).map Mark.token
  specifier? := some c.specifier
  declaration? := some (c.declaration style)

theorem Canonical.written?_part {c : Canonical} {style : Style} (hc : c.Writable) (gap : Text) :
    (c.part style gap).written? = some (c.written style) := by
  have hdeclaration := declaration?_part (hc.writableIn style.quote).spelledIn gap
  have hspecifier : (c.part style gap).specifier? = some c.specifier := by
    rw [Part.specifier?, part, Part.specifierMark?, Option.bind_some, getElem?_bodyMarks,
      Option.bind_some, contents?_string, Option.map_some, String.ofList_toList]
  rw [part] at hdeclaration hspecifier
  rw [part, Part.written?, hdeclaration, hspecifier]
  rfl

/-- The line of a canonical import puts this import in. -/
theorem imports_insertLine {c : Canonical} {style : Style} {rendered eol t : Text} {offset : Nat}
    (hc : c.Writable) (hr : c.render? style = some rendered) (he : IsLineBreak eol) :
    (insertLine t offset rendered eol).imports = [c.written style] ∧
      (insertLine t offset rendered eol).code = [] := by
  have hflushed : (insertLine t offset rendered eol).replacement.flushed =
      [(c.part style []).flush] :=
    flushed_replacement (Exchange.replacement_insertLine hr he offset)
      (Canonical.inserts_rendered hc hr he.spaces he.mem) (Canonical.fresh_rendered hr _)
  constructor
  · rw [Edit.imports, Script.map_snd_imports, hflushed, List.filterMap_cons,
      Part.written?_flush, Canonical.written?_part hc]
    rfl
  · rw [Edit.code, Script.bareCode_parse, hflushed]
    rfl

/-- The tokens of a directive. -/
def directiveTokens (directive : String) : List Token :=
  [⟨.string true, 0, '\'' :: (directive.toList ++ ['\''])⟩, ⟨.punct ';', 0, [';']⟩]

theorem code_insertion_directive {directive : String} {eol : Text} {offset : Nat}
    (hv : isPlain directive.toList) (he : IsLineBreak eol) :
    (Edit.insertion offset ('\'' :: directive.toList ++ ['\'', ';'] ++ eol ++ eol)).code =
      directiveTokens directive := by
  have hspaces : (eol ++ eol).all isSpace := by rw [List.all_append, he.spaces]; rfl
  have hflushed := flushed_replacement (y := '\'' :: directive.toList ++ ['\'', ';'] ++ (eol ++ eol))
    (e := .insertion offset ('\'' :: directive.toList ++ ['\'', ';'] ++ eol ++ eol))
    (by simp [Edit.insertion, Edit.lead])
    (inserts_directive hv hspaces (List.mem_append_left _ he.mem))
    (by simp [Fresh, byteOrderMark])
  rw [Edit.code, Script.bareCode_parse, hflushed]
  rfl

/-- The tokens that the step of a module puts on top of the code: those of the directive, where the
module owes it and has no declaration. -/
def directiveCode (v : Vocabulary) (m : ModuleRule) (s : Script) : List Token :=
  if (s.declarationsOf m.specifier).isEmpty && m.requiresDirective &&
      !s.hasDirective v.clientDirective then directiveTokens v.clientDirective
  else []

-- ---------------------------------------------------------------------------
-- The step
-- ---------------------------------------------------------------------------

section

variable {v : Vocabulary} {m : ModuleRule} {eol t : Text} {c : Canonical} {style : Style}
  {rendered : Text}

/-- The edits of a step that puts in a line put in no code but the directive. -/
theorem code_canonicalStep (hc : c.Writable) (hr : c.render? style = some rendered)
    (hv : isPlain v.clientDirective.toList) (he : IsLineBreak eol)
    (hcount : ((Script.parse t).declarationsOf m.specifier).length ≠ 1) :
    (Sorting.sort Edit.before (canonicalStep v m eol (Script.parse t)
      ((Script.parse t).declarationsOf m.specifier) c rendered).edits).flatMap Edit.code =
        directiveCode v m (Script.parse t) := by
  have hline : ∀ offset, (insertLine (Script.parse t).text offset rendered eol).code = [] :=
    fun _ => (imports_insertLine hc hr he).2
  rw [directiveCode]
  generalize (Script.parse t).declarationsOf m.specifier = ds at *
  match ds with
  | [] =>
    simp only [canonicalStep, directiveEdits, List.isEmpty_nil, Bool.true_and]
    split
    · simp only [List.singleton_append, Sorting.sort, Sorting.insert]
      split <;> simp only [List.flatMap_cons, List.flatMap_nil, hline,
        code_insertion_directive hv he, List.append_nil, List.nil_append]
    · simp only [List.nil_append, Sorting.sort, Sorting.insert, List.flatMap_cons,
        List.flatMap_nil, hline]
  | [d] => exact absurd rfl hcount
  | d :: d' :: more =>
    rw [List.isEmpty_cons, Bool.false_and, Bool.false_and, if_neg Bool.false_ne_true,
      List.flatMap_eq_nil_iff]
    intro e hedit
    rcases List.mem_cons.1 (Sorting.mem_sort.1 hedit) with rfl | hedit
    · exact hline _
    · obtain ⟨d, -, rfl⟩ := List.mem_map.1 hedit
      rw [Edit.code, Script.bareCode_parse, removeDeclaration, Edit.removal, flushed_nil]
      rfl

/-- A step that puts the canonical import in takes the declarations of the module from the list of
imports. -/
theorem canonicalStep_imports (hc : c.Writable) (hr : c.render? style = some rendered)
    (hv : isPlain v.clientDirective.toList) (he : IsLineBreak eol)
    (hcount : ((Script.parse t).declarationsOf m.specifier).length ≠ 1)
    (hclear : AllClear t (Sorting.sort Edit.before (canonicalStep v m eol (Script.parse t)
      ((Script.parse t).declarationsOf m.specifier) c rendered).edits)) :
    let s := Script.parse t
    let s' := Script.parse (Edit.applyAll (canonicalStep v m eol s
      (s.declarationsOf m.specifier) c rendered).edits t)
    s'.imports.map Prod.snd =
        (s.imports.filter fun q =>
          q.1 < s.insertionOffset && !q.2.declares m.specifier).map Prod.snd ++
        [c.written style] ++
        (s.imports.filter fun q =>
          s.insertionOffset ≤ q.1 && !q.2.declares m.specifier).map Prod.snd ∧
      s'.bareCode = directiveCode v m s ++ s.bareCode := by
  intro s s'
  obtain ⟨xs, hperm, hedits⟩ := exists_exchanges v m eol t c style rendered hcount
  have hothers : ∀ x ∈ otherExchanges v m eol t (s.declarationsOf m.specifier),
      x.Holds t ∧ x.added = [] :=
    holds_otherExchanges (fun d hd => (List.mem_filter.1 hd).1) hv he
  have hcode := code_canonicalStep hc hr hv he hcount
  -- What the other exchanges take out are the declarations of the module.
  have hkept : ∀ p : Nat → Bool,
      (s.imports.filter fun q => p q.1 && !(Exchange.placesOf (otherExchanges v m eol t
        (s.declarationsOf m.specifier))).contains q.1) =
      s.imports.filter fun q => p q.1 && !q.2.declares m.specifier := fun p =>
    List.filter_congr fun q hq => by
      congr 2
      rw [Bool.eq_iff_iff, List.contains_iff_mem, Script.declares_iff hq, Exchange.placesOf,
        show Exchange.places = fun x => x.removed.map (·.span.start) from rfl, ← List.map_flatMap,
        removed_otherExchanges, List.mem_map]
  rw [← hedits] at hclear hcode
  obtain ⟨himports, hbare⟩ := Exchange.imports_applyAll (fun x hx => by
    rcases List.mem_cons.1 (hperm.mem_iff.1 hx) with rfl | hx
    · exact holds_lineExchange hc hr he
    · exact (hothers x hx).1) hperm rfl (fun x hx => (hothers x hx).2) hclear
  rw [hcode] at hbare
  rw [hedits] at himports hbare
  refine ⟨himports.trans ?_, hbare⟩
  rw [show (lineExchange eol t c style rendered).edit.imports = [c.written style] from
    (imports_insertLine hc hr he).1]
  exact congrArg₂ (fun above below => above.map Prod.snd ++ [c.written style] ++ below.map Prod.snd)
    (hkept fun k => k < s.insertionOffset) (hkept fun k => s.insertionOffset ≤ k)

/-- The step of a module with no declaration or several, and something to bind, edits the list of
imports: it takes out the declarations of the module, and puts in the canonical one before the
first import that starts at or below the place of new lines. The code stays, but for a new
directive. -/
theorem moduleStep_imports (hm : m ∈ v.modules) (hv : v.Plain) (he : IsLineBreak eol)
    (hcount : ((Script.parse t).declarationsOf m.specifier).length ≠ 1)
    (hc : (synthesize m.specifier ((Script.parse t).declarationsOf m.specifier)
      ((Script.parse t).usages v)).canonical? = some c)
    (hclear : AllClear t (Sorting.sort Edit.before (moduleStep v m eol (Script.parse t)).edits)) :
    let s := Script.parse t
    let s' := Script.parse (Edit.applyAll (moduleStep v m eol s).edits t)
    let style := (synthesize m.specifier (s.declarationsOf m.specifier) (s.usages v)).style
    s'.imports.map Prod.snd =
        (s.imports.filter fun q =>
          q.1 < s.insertionOffset && !q.2.declares m.specifier).map Prod.snd ++
        [c.written style] ++
        (s.imports.filter fun q =>
          s.insertionOffset ≤ q.1 && !q.2.declares m.specifier).map Prod.snd ∧
      s'.bareCode = directiveCode v m s ++ s.bareCode := by
  intro s s' style
  have hmerges := synthesize_some (Script.pairwise_declarationsOf t m.specifier)
    (fun d hd => Script.specifier_of_mem_declarationsOf hd)
    (fun u hu => Script.alias?_of_mem_usages hv hu) hc
  have hwritable := hmerges.writable hm hv fun u hu => (Script.mem_usages_ofModule.1 hu).1
  obtain ⟨rendered, hr, -⟩ := Canonical.exists_render hmerges.binds style
  have hedits : (moduleStep v m eol s).edits =
      (canonicalStep v m eol s (s.declarationsOf m.specifier) c rendered).edits := by
    have hrender : (synthesize m.specifier (s.declarationsOf m.specifier) (s.usages v)).render? =
        some rendered := by
      rw [Synthesis.render?, hc]
      exact hr
    rw [moduleStep]
    split
    · next hempty =>
      -- Then there would be nothing to bind.
      simp only [Bool.and_eq_true, List.isEmpty_iff] at hempty
      rw [hempty.1, synthesize_eq List.Pairwise.nil (by simp), hempty.2] at hc
      cases hc
    · simp only [s, hc, hrender]
  rw [hedits] at hclear
  have himports := canonicalStep_imports hwritable hr hv.directive he hcount hclear
  simp only [s', hedits]
  exact himports

/-- Two imports are merged, and the one below them keeps its place. -/
theorem moduleStep_imports_two :
    let t : Text := ("import \x7b b \x7d from 'react';\nimport \x7b a \x7d from 'react';\n" ++
      "import 'c';\nf();\n").toList
    let c : Canonical := ⟨"react", none, .ofList ["a", "b"]⟩
    let s := Script.parse t
    let step := moduleStep {} reactModule ['\n'] s
    let s' := Script.parse (applyAll step.edits t)
    reactModule ∈ ({} : Vocabulary).modules ∧ ({} : Vocabulary).Plain ∧ IsLineBreak ['\n'] ∧
      (s.declarationsOf "react").length ≠ 1 ∧
      (synthesize "react" (s.declarationsOf "react") (s.usages {})).canonical? = some c ∧
      AllClear t (Sorting.sort Edit.before step.edits) ∧
      s'.imports.map Prod.snd = (s.imports.drop 2).map Prod.snd ++ [c.written ⟨.single, true⟩] ∧
      s'.bareCode = s.bareCode := by
  intro t c s step s'
  have hm : reactModule ∈ ({} : Vocabulary).modules := by decide
  have he : IsLineBreak ['\n'] := .inl rfl
  have hcount : (s.declarationsOf "react").length ≠ 1 := by decide +kernel
  have hc : (synthesize "react" (s.declarationsOf "react") (s.usages {})).canonical? = some c := by
    decide +kernel
  have hclear : AllClear t (Sorting.sort Edit.before step.edits) := by decide +kernel
  obtain ⟨himports, hcode⟩ := moduleStep_imports hm Vocabulary.plain_builtin he hcount hc hclear
  exact ⟨hm, Vocabulary.plain_builtin, he, hcount, hc, hclear,
    himports.trans (by decide +kernel), hcode.trans (by decide +kernel)⟩

end

end TidyImports
