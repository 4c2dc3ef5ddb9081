-- SUMMARY: A plan writes only the characters of the text, of the vocabulary, and of the forms it writes.
import TidyImports.Plan
import TidyImports.Proofs.Edits.Clear
import TidyImports.Proofs.Plan.Quiet
import TidyImports.Proofs.Plan.Uses

/-!
# Characters of a plan

What a step puts into a text is made of names that stand in the text, of strings
of the vocabulary, of the line break, and of the few characters of the forms it
is written in. So a character that is in none of them does not come into the
text.
-/

namespace TidyImports

open Text

/-- The characters of a written import and of a written directive, names and strings apart. -/
def writtenCharacters : Text := "import from as ,;'\"\x7b\x7d".toList

/-- The strings of a vocabulary that a plan can write do not hold the character. -/
structure Vocabulary.Avoids (v : Vocabulary) (c : Char) : Prop where
  directive : c ∉ v.clientDirective.toList
  specifier : ∀ m ∈ v.modules, c ∉ m.specifier.toList
  symbol : ∀ m ∈ v.modules, ∀ s ∈ m.symbols, c ∉ s.name.toList
  shorthand : c ∉ v.data.shorthand.toList
  file : ∀ r ∈ v.data.rules, c ∉ r.file.toList
  binding : ∀ r ∈ v.data.rules, c ∉ r.binding.toList

section

variable {c : Char} {t : Text}

-- ---------------------------------------------------------------------------
-- Names in a text
-- ---------------------------------------------------------------------------

theorem Text.not_mem_marks (hc : c ∉ t) : ∀ m ∈ Part.allMarks t.parts, c ∉ m.text := by
  intro m hm hmem
  obtain ⟨mark, ht, -, -⟩ := t.exists_body
  obtain ⟨tail, htail⟩ := Lexer.sources_top t.body
  rw [allMarks_parts] at hm
  refine hc ?_
  rw [ht, htail]
  refine List.mem_append_right _ (List.mem_append_left _ (List.mem_flatMap.2 ⟨m, hm, ?_⟩))
  exact List.mem_append_right _ hmem

theorem Text.not_mem_of_written {s : Text} (hw : c ∉ writtenCharacters)
    (hs : s.all writtenCharacters.contains) : c ∉ s := fun h =>
  hw (List.contains_iff_mem.1 (List.all_eq_true.1 hs c h))

/-- What a clause binds is written with the characters of its tokens. -/
theorem Statement.not_mem_clause? {ts : List Token} {default? : Option String}
    {named : List String} (h : clause? ts = some (default?, named))
    (hts : ∀ tok ∈ ts, c ∉ tok.text) (hc : c ∉ writtenCharacters) :
    (∀ name ∈ default?, c ∉ name.toList) ∧ ∀ item ∈ named, c ∉ item.toList := by
  have hname : ∀ tok ∈ ts, c ∉ tok.name.toList := fun tok htok => by
    rw [Token.name, String.toList_ofList]
    exact hts tok htok
  have has : c ∉ Item.asWord.toList := not_mem_of_written hc (by decide)
  obtain ⟨hdefault, hnamed⟩ := (clause?_eq_some_iff.1 h).madeOf
  refine ⟨fun name hd => ?_, fun item hitem => ?_⟩
  · obtain ⟨a, ha, -, rfl⟩ := hdefault name hd
    exact hname a ha
  · obtain ⟨a, ha, -, rfl | ⟨b, hb, -, rfl⟩⟩ := hnamed item hitem
    · exact hname a ha
    · simp only [String.toList_append, List.mem_append, not_or]
      exact ⟨⟨hname a ha, has⟩, hname b hb⟩

/-- What a declaration of a text binds is written with the characters of the text. -/
theorem Script.not_mem_of_mem_declarations {d : Declaration} (hc : c ∉ t)
    (hw : c ∉ writtenCharacters) (h : d ∈ (parse t).declarations) :
    (∀ name ∈ d.default?, c ∉ name.toList) ∧ ∀ item ∈ d.named, c ∉ item.toList := by
  obtain ⟨clause, word, specifier, tail, hreads, hmarks⟩ := reads_of_mem h
  refine Statement.not_mem_clause? hreads.clause_eq (fun tok htok => ?_) hw
  obtain ⟨m, hm, rfl⟩ := List.mem_map.1 htok
  refine not_mem_marks hc m ?_
  rw [allMarks_parts]
  exact hmarks m (List.mem_append_left _ hm)

/-- What a declaration of a text binds is written with characters of identifiers. -/
theorem Script.not_mem_names {d : Declaration} (hc : Lexer.isIdentChar c = false)
    (hw : c ∉ writtenCharacters) (h : d ∈ (parse t).declarations) :
    (∀ name ∈ d.default?, c ∉ name.toList) ∧ ∀ item ∈ d.named, c ∉ item.toList := by
  have hword : ∀ w : Text, IsName w → c ∉ w := fun w hw =>
    Lexer.not_mem_of_isIdentChar (Lexer.all_of_isWord hw.1) hc
  have has : c ∉ Item.asWord.toList := not_mem_of_written hw (by decide)
  obtain ⟨hdefault, hnamed⟩ := names_of_mem_declarations h
  refine ⟨fun name hname => hword _ (hdefault name hname), fun item hitem => ?_⟩
  rcases hnamed item hitem with hname | ⟨a, b, ha, hb, heq⟩
  · exact hword _ hname
  · rw [heq, List.mem_append, List.mem_append]
    exact fun hmem => hmem.elim (fun hmem => hmem.elim (hword a ha) has) (hword b hb)

-- ---------------------------------------------------------------------------
-- Written imports
-- ---------------------------------------------------------------------------

/-- A written import has the characters of what it binds and of its module. -/
theorem Canonical.not_mem_render? {k : Canonical} {style : Style} {rendered : Text}
    (hw : c ∉ writtenCharacters) (hspecifier : c ∉ k.specifier.toList)
    (hdefault : ∀ name ∈ k.default?, c ∉ name.toList) (hnamed : ∀ item ∈ k.named, c ∉ item.toList)
    (h : k.render? style = some rendered) : c ∉ rendered := by
  have hbraces : c ∉ k.braces := by
    have hitems := not_mem_intercalate (not_mem_of_written hw (s := [',', ' ']) (by decide))
      (List.forall_mem_map.2 hnamed : ∀ x ∈ k.named.toList.map String.toList, c ∉ x)
    rw [braces]
    simp only [List.mem_append, not_or]
    exact ⟨⟨not_mem_of_written hw (by decide), hitems⟩, not_mem_of_written hw (by decide)⟩
  have hclause : ∀ clause, k.clause? = some clause → c ∉ clause := by
    intro clause hclause
    rw [clause?] at hclause
    split at hclause
    · next d hd _ =>
      cases hclause
      simp only [List.mem_append, not_or]
      exact ⟨⟨hdefault d hd, not_mem_of_written hw (by decide)⟩, hbraces⟩
    · next d hd _ =>
      cases hclause
      exact hdefault d hd
    · cases hclause
      exact hbraces
    · cases hclause
  have hquote : c ≠ style.quote.char := by
    rintro rfl
    exact hw (by cases style.quote <;> decide)
  have hsemicolon : c ∉ (if style.semicolon then [';'] else []) := by
    split
    · exact not_mem_of_written hw (by decide)
    · exact List.not_mem_nil
  rw [render?] at h
  obtain ⟨clause, hk, rfl⟩ := Option.map_eq_some_iff.1 h
  simp only [List.mem_append, List.mem_cons, not_or]
  exact ⟨⟨⟨not_mem_of_written hw (by decide), hclause clause hk⟩,
    not_mem_of_written hw (by decide)⟩, hquote, hspecifier, hquote, hsemicolon⟩

-- ---------------------------------------------------------------------------
-- Synthesis
-- ---------------------------------------------------------------------------

end

namespace Synthesis.Draft

variable {P : String → Prop} {module : String} {draft : Draft}

/-- All that a draft binds has a property. -/
def Only (P : String → Prop) (draft : Draft) : Prop :=
  (∀ name ∈ draft.default?, P name) ∧ ∀ item ∈ draft.named, P item

theorem Only.claim {name : String} (h : draft.Only P) (hname : P name) :
    (draft.claim module name).Only P := by
  rw [Draft.claim]
  split
  · refine ⟨fun n hn => ?_, h.2⟩
    cases hn
    exact hname
  · split <;> exact h

theorem Only.addDeclaration {d : Declaration} (h : draft.Only P) (hdefault : ∀ n ∈ d.default?, P n)
    (hnamed : ∀ item ∈ d.named, P item) : (draft.addDeclaration module d).Only P := by
  have hdraft : Only P { draft with named := draft.named.insertMany d.named } := by
    refine ⟨h.1, fun item hitem => ?_⟩
    rcases SortedSet.mem_insertMany.1 hitem with hitem | hitem
    · exact h.2 item hitem
    · exact hnamed item hitem
  rw [Draft.addDeclaration]
  split
  · exact hdraft
  · next name hname => exact hdraft.claim (hdefault name hname)

theorem Only.addUsage {u : Usage} (h : draft.Only P) (hu : P u.name) :
    (draft.addUsage module u).Only P := by
  rw [Draft.addUsage]
  split
  · refine ⟨h.1, fun item hitem => ?_⟩
    rcases SortedSet.mem_insert.1 hitem with rfl | hitem
    · exact hu
    · exact h.2 item hitem
  · split
    · exact h
    · exact h.claim hu

end Synthesis.Draft

open Synthesis in
/-- A canonical import binds names of the declarations and of the usages, and no others. -/
theorem synthesize_only {P : String → Prop} {module : String} {ds : List Declaration}
    {us : UsageSet} {k : Canonical}
    (hds : ∀ d ∈ ds, (∀ name ∈ d.default?, P name) ∧ ∀ item ∈ d.named, P item)
    (hus : ∀ u ∈ us.ofModule module, P u.name) (h : (synthesize module ds us).canonical? = some k) :
    k.specifier = module ∧ (∀ name ∈ k.default?, P name) ∧ ∀ item ∈ k.named, P item := by
  have hdeclarations : ∀ (ds : List Declaration) (draft : Draft), draft.Only P →
      (∀ d ∈ ds, (∀ name ∈ d.default?, P name) ∧ ∀ item ∈ d.named, P item) →
        (ds.foldl (Draft.addDeclaration module) draft).Only P := by
    intro ds
    induction ds with
    | nil => exact fun draft h _ => h
    | cons d ds ih =>
      intro draft hdraft hds
      obtain ⟨hdefault, hnamed⟩ := hds d (List.mem_cons_self ..)
      exact ih _ (hdraft.addDeclaration hdefault hnamed) fun k hk =>
        hds k (List.mem_cons_of_mem _ hk)
  have husages : ∀ (us : List Usage) (draft : Draft), draft.Only P → (∀ u ∈ us, P u.name) →
      (us.foldl (Draft.addUsage module) draft).Only P := by
    intro us
    induction us with
    | nil => exact fun draft h _ => h
    | cons u us ih =>
      intro draft hdraft hus
      exact ih _ (hdraft.addUsage (hus u (List.mem_cons_self ..))) fun w hw =>
        hus w (List.mem_cons_of_mem _ hw)
  have hempty : Draft.Only P {} :=
    ⟨fun name h => (Option.not_mem_none name h).elim, fun item h => (List.not_mem_nil h).elim⟩
  have hall := husages _ _ (hdeclarations (Sorting.sort Declaration.before
    (ds.filter (·.specifier == module))) {} hempty fun d hd =>
      hds d (List.mem_filter.1 (Sorting.mem_sort.1 hd)).1) hus
  rw [synthesize] at h
  simp only [Option.ite_none_right_eq_some, Option.some.injEq] at h
  obtain ⟨-, rfl⟩ := h
  exact ⟨rfl, hall⟩

-- ---------------------------------------------------------------------------
-- Steps
-- ---------------------------------------------------------------------------

section

variable {c : Char} {t eol : Text} {v : Vocabulary} {m : ModuleRule}

/-- Does a property of texts carry over to what is put together from them? -/
structure Text.Composes (P : Text → Prop) : Prop where
  nil : P []
  append (a b : Text) (ha : P a) (hb : P b) : P (a ++ b)

theorem Text.composes_not_mem (c : Char) : Composes (c ∉ ·) :=
  ⟨List.not_mem_nil, fun _ _ ha hb h => (List.mem_append.1 h).elim ha hb⟩

namespace Text.Composes

variable {P : Text → Prop} {s : Script}

theorem insertLine {line : Text} {offset : Nat} (h : Composes P) (hline : P line) (heol : P eol) :
    P (insertLine t offset line eol).replacement := by
  rw [TidyImports.insertLine]
  refine h.append _ _ (h.append _ _ ?_ hline) heol
  split
  · exact heol
  · exact h.nil

/-- What the step of a module writes is put together from directives, imports and line breaks. -/
theorem moduleStep (h : Composes P) (heol : P eol)
    (hdirective : P ('\'' :: v.clientDirective.toList ++ ['\'', ';']))
    (hrendered : ∀ rendered, (synthesize m.specifier (s.declarationsOf m.specifier)
      (s.usages v)).render? = some rendered → P rendered) :
    ∀ e ∈ (moduleStep v m eol s).edits, P e.replacement := by
  rcases moduleStep_edits v m eol s with ⟨hnone, -⟩ | ⟨rendered, hr, hedits, -⟩
  · rw [hnone]
    exact fun e he => by cases he
  intro e he
  cases hedits e he with
  | directive => exact h.append _ _ (h.append _ _ hdirective heol) heol
  | line => exact h.insertLine (hrendered rendered hr) heol
  | rewrite => exact hrendered rendered hr
  | removal => exact h.nil

/-- What the step of a data rule writes is put together from imports and line breaks. -/
theorem dataStep {data : DataDirectory} {isFile : Path → Bool} {path : Path} {r : DataRule}
    (h : Composes P) (heol : P eol)
    (hline : P
      ("import " ++ r.binding ++ " from \"" ++ (data.shorthand ++ r.file) ++ "\";").toList) :
    ∀ e ∈ (dataStep data isFile path r eol s).edits, P e.replacement := by
  rcases dataStep_edits data isFile path r eol s with ⟨hedits, -⟩ | ⟨hedits, -⟩ <;> rw [hedits]
  · exact fun e he => by cases he
  · exact List.forall_mem_singleton.2 (h.insertLine hline heol)

end Text.Composes

theorem not_mem_directive (hw : c ∉ writtenCharacters) (hv : v.Avoids c) :
    c ∉ '\'' :: v.clientDirective.toList ++ ['\'', ';'] := by
  have hquote : c ≠ '\'' := fun h => hw (h ▸ by decide)
  have hsemicolon : c ≠ ';' := fun h => hw (h ▸ by decide)
  simp only [List.cons_append, List.mem_cons, List.mem_append, not_or]
  exact ⟨hquote, hv.directive, hquote, hsemicolon, List.not_mem_nil⟩

/-- The import that a step writes. -/
theorem not_mem_rendered {ds : List Declaration} {s : Script} {rendered : Text}
    (hw : c ∉ writtenCharacters) (hv : v.Avoids c) (hm : m ∈ v.modules)
    (hds : ∀ d ∈ ds, (∀ name ∈ d.default?, c ∉ name.toList) ∧ ∀ item ∈ d.named, c ∉ item.toList)
    (h : (synthesize m.specifier ds (s.usages v)).render? = some rendered) : c ∉ rendered := by
  obtain ⟨k, hk, hrender⟩ := Option.bind_eq_some_iff.1 h
  have hus : ∀ u ∈ (s.usages v).ofModule m.specifier, c ∉ u.name.toList := by
    intro u hu
    obtain ⟨n, hn, symbol, hsymbol, rfl, -⟩ := Script.mem_usages.1 (List.mem_filter.1 hu).1
    exact hv.symbol n hn symbol hsymbol
  obtain ⟨hspecifier, hdefault, hnamed⟩ := synthesize_only hds hus hk
  exact Canonical.not_mem_render? hw (hspecifier ▸ hv.specifier m hm) hdefault hnamed hrender

/-- What the step of a module writes. -/
theorem moduleStep_not_mem (hw : c ∉ writtenCharacters) (hv : v.Avoids c) (hm : m ∈ v.modules)
    (heol : c ∉ eol) (hc : c ∉ t) :
    ∀ e ∈ (moduleStep v m eol (Script.parse t)).edits, c ∉ e.replacement :=
  (composes_not_mem c).moduleStep heol (not_mem_directive hw hv) fun _ hrender =>
    not_mem_rendered hw hv hm
      (fun _ hd => Script.not_mem_of_mem_declarations hc hw (List.mem_filter.1 hd).1) hrender

theorem not_mem_dataLine {data : DataDirectory} {r : DataRule} (hw : c ∉ writtenCharacters)
    (hv : v.Avoids c) (hr : r ∈ v.data.rules) (hdata : data.shorthand = v.data.shorthand) :
    c ∉ ("import " ++ r.binding ++ " from \"" ++ (data.shorthand ++ r.file) ++ "\";").toList := by
  simp only [String.toList_append, List.mem_append, not_or]
  refine ⟨⟨⟨⟨?_, hv.binding r hr⟩, ?_⟩, hdata ▸ hv.shorthand, hv.file r hr⟩, ?_⟩
  all_goals exact not_mem_of_written hw (by decide)

/-- What the step of a data rule writes. -/
theorem dataStep_not_mem {data : DataDirectory} {isFile : Path → Bool} {path : Path} {r : DataRule}
    (hw : c ∉ writtenCharacters) (hv : v.Avoids c) (hr : r ∈ v.data.rules)
    (hdata : data.shorthand = v.data.shorthand) (heol : c ∉ eol) :
    ∀ e ∈ (dataStep data isFile path r eol (Script.parse t)).edits, c ∉ e.replacement :=
  (composes_not_mem c).dataStep heol (not_mem_dataLine hw hv hr hdata)

end

theorem Edit.not_mem_applyAll {c : Char} {t : Text} {es : List Edit} (ht : c ∉ t)
    (hes : ∀ e ∈ es, c ∉ e.replacement) : c ∉ applyAll es t := by
  have hcut : ∀ (n : Nat) (u : Text), c ∉ u → c ∉ u.takeBytes n ∧ c ∉ u.dropBytes n := by
    intro n u hu
    rw [← takeBytes_append_dropBytes n u, List.mem_append, not_or] at hu
    exact hu
  have hinOrder : ∀ (es : List Edit) (offset : Nat) (rest : Text), c ∉ rest →
      (∀ e ∈ es, c ∉ e.replacement) → c ∉ applyInOrder offset es rest := by
    intro es
    induction es with
    | nil => exact fun _ _ h _ => h
    | cons e es ih =>
      intro offset rest hrest hes
      simp only [applyInOrder, List.mem_append, not_or]
      exact ⟨⟨(hcut _ rest hrest).1, hes e (List.mem_cons_self ..)⟩,
        ih _ _ (hcut _ rest hrest).2 fun k hk => hes k (List.mem_cons_of_mem _ hk)⟩
  exact hinOrder _ 0 t ht fun e he => hes e (Sorting.mem_sort.1 he)

end TidyImports
