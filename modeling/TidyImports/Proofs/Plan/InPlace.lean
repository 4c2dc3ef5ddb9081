-- SUMMARY: A declaration is written anew where it stands, and all around it stays as it is read.
import TidyImports.Proofs.OrderMark.Shift
import TidyImports.Proofs.Plan.Roundtrip

/-!
# Writing in place

A module that is imported once is imported anew where the declaration stands.
Other code may share its lines, and statements above may look ahead as far as
it. The scanners alone look further than to the next token: a `/` that found no
end before the declaration may find one in the new text. Where a line ends
between each such `/` and the declaration, what stands above is read as it was,
and what stands below is read as it was, further on by the difference of the
two texts.
-/

namespace TidyImports

open Text Lexer Edit

-- ---------------------------------------------------------------------------
-- What follows a statement
-- ---------------------------------------------------------------------------

/-- A statement that is told from the end of another one, in tokens and in bytes. -/
def Statement.behind (st below : Statement) : Statement :=
  { below.shift st.span.stop with
    first := below.first + st.past
    past := below.past + st.past }

theorem Part.statementsFrom_behind (st : Statement) (offset index : Nat) (ps : List Part) :
    statementsFrom (offset + st.span.stop) (index + st.past) ps =
      (statementsFrom offset index ps).map (Statement.behind st) := by
  induction ps generalizing offset index with
  | nil => rfl
  | cons p ps ih =>
    have hrec := ih (offset + (Mark.sources p.marks).size) (index + p.marks.length)
    rw [Nat.add_right_comm, Nat.add_right_comm index] at hrec
    cases p with
    | token m => exact hrec
    | statement head body at? =>
      rw [statementsFrom, statementsFrom, hrec, List.map_cons]
      congr 1
      rw [statementAt, statementAt, Statement.behind, Statement.shift, spanAt_shift, Option.map_map,
        Nat.add_right_comm]
      rfl

/-- A statement among parts and those above and below it. -/
theorem Part.statementsFrom_around {offset : Nat} {ps qs : List Part} {head : Mark}
    {body : List Mark} {at? : Option Nat} {st : Statement}
    (hst : st = (Part.statement head body at?).statementAt
      (offset + (Mark.sources (allMarks ps)).size) (allMarks ps).length) :
    statementsFrom offset 0 (ps ++ .statement head body at? :: qs) =
      statementsFrom offset 0 ps ++ st :: (statementsFrom 0 0 qs).map (Statement.behind st) := by
  have hbelow := statementsFrom_behind st 0 0 qs
  rw [Nat.zero_add, Nat.zero_add] at hbelow
  rw [statementsFrom_append, statementsFrom, Nat.zero_add, ← hst, ← hbelow, hst]
  rfl

-- ---------------------------------------------------------------------------
-- Exchange of a declaration
-- ---------------------------------------------------------------------------

/-- The first text has the declaration `d`, the second one has `rendered` in its place, which is
read as `d'`. Text, tokens and statements above are the same. Those below are the same too, told
from where either declaration ends. -/
structure Declaration.ExchangedFor (t t' rendered : Text) (d d' : Declaration) : Prop where
  span : d'.span = ⟨d.span.start, d.span.start + rendered.size⟩
  text : ∃ above below : Text, above.size = d.span.start ∧ t = above ++ (t.slice d.span ++ below) ∧
    t' = above ++ (rendered ++ below)
  tokens : ∃ above own below : List Token,
    (∀ tok ∈ above, tok.stop ≤ d.span.start) ∧
    (∀ tok ∈ own, d.span.start ≤ tok.start ∧ tok.stop ≤ d.span.stop) ∧
    tokenize t = above ++ (own ++ below.map (Token.shift d.span.stop)) ∧
    tokenize t' = above ++ ((tokenize rendered).map (Token.shift d.span.start) ++
      below.map (Token.shift d'.span.stop))
  statements : ∃ (above : List Statement) (st st' : Statement) (below : List Statement),
    (st.span = d.span ∧ st.declaration? = some d) ∧
    (st'.span = d'.span ∧ st'.declaration? = some d') ∧
    (Script.parse t).statements = above ++ st :: below.map (Statement.behind st) ∧
    (Script.parse t').statements = above ++ st' :: below.map (Statement.behind st')

/-- An import as it is written at an offset. -/
def Canonical.declarationAt (c : Canonical) (style : Style) (offset : Nat) (rendered : Text) :
    Declaration :=
  { c.declaration style with span := ⟨offset, offset + rendered.size⟩ }

/-- A first mark without its white space is placed behind that. -/
theorem Mark.place_behind_gap (offset : Nat) (m : Mark) (ms : List Mark) :
    place offset (m :: ms) = place (offset + m.gap.size) ({ m with gap := [] } :: ms) := by
  rw [place_cons, place_cons, placed, placed, size_source, size_source]
  simp [Nat.add_assoc]

namespace Canonical

variable {c : Canonical} {style : Style} {rendered : Text}

theorem tokenize_rendered (hc : c.WritableIn style.quote) (hr : c.render? style = some rendered) :
    tokenize rendered = Mark.place 0 (head [] :: c.bodyMarks style) := by
  have hmark : rendered.markSize = 0 := markSize_eq_zero (by rw [head?_render hr]; decide)
  rw [tokenize_eq_place, parts_rendered hc hr, hmark]
  simp [part, Part.marks]

/-- A written import among other tokens has the tokens that it has alone. -/
theorem place_rendered (hc : c.WritableIn style.quote) (hr : c.render? style = some rendered)
    (offset : Nat) (gap : Text) :
    Mark.place offset (head gap :: c.bodyMarks style) =
      (tokenize rendered).map (Token.shift (offset + gap.size)) := by
  rw [tokenize_rendered hc hr, ← Mark.place_shift, Nat.zero_add, Mark.place_behind_gap]
  rfl

end Canonical

section

variable {t : Text} {d : Declaration} {c : Canonical} {style : Style}

/-- Where a line ends between each lone `/` and a declaration, it can be exchanged where it
stands. -/
theorem Edit.Replaceable.exchanges {e : Edit} (h : e.Replaceable t)
    (hd : d ∈ (Script.parse t).declarations) (hspan : e.span = d.span) (hc : c.Writable)
    (hr : c.render? style = some e.replacement) (hstyle : style.semicolon = d.style.semicolon) :
    d.ExchangedFor t (applyInOrder 0 [e] t) e.replacement
      (c.declarationAt style d.span.start e.replacement) := by
  obtain ⟨ps, head, body, at?, qs, x, y, z, hfound⟩ := Script.found_of_mem hd
  obtain ⟨hmark, hparts⟩ := h.parts hfound hspan hc hr hstyle
  let offset := t.markSize + (Mark.sources (Part.allMarks ps)).size
  have hown : (Part.statement head body at?).spanAt offset = d.span := hfound.spanAt_eq
  have hstart : offset + head.gap.size = d.span.start := congrArg Span.start hown
  have hstop : offset + (Mark.sources (head :: body)).size = d.span.stop := congrArg Span.stop hown
  have hnew : (c.part style head.gap).spanAt offset =
      (c.declarationAt style d.span.start e.replacement).span := by
    rw [Canonical.spanAt_part hr, hstart]
    rfl
  constructor
  case span => rfl
  case text =>
    obtain ⟨mark, ht, hdspan, -, -⟩ := hfound.exists_around
    refine ⟨mark ++ x, z, congrArg Span.start hdspan.symm, ?_, ?_⟩
    · rw [hfound.slice_span]
      exact ht
    · rw [ht]
      exact applyInOrder_singleton (hspan.trans hdspan)
  case tokens =>
    refine ⟨Mark.place t.markSize (Part.allMarks ps), Mark.place offset (head :: body),
      Mark.place 0 (Part.allMarks qs), fun tok htok => ?_, fun tok htok => ⟨?_, ?_⟩, ?_, ?_⟩
    · rw [← hstart]
      exact Nat.le_trans (Mark.stop_le_of_mem_place htok) (Nat.le_add_right ..)
    · rw [Mark.place_behind_gap, hstart] at htok
      exact Mark.le_start_of_mem_place htok
    · rw [← hstop]
      exact Mark.stop_le_of_mem_place htok
    · rw [← Mark.place_shift, Nat.zero_add, ← hstop, ← Mark.place_append, ← Mark.place_append,
        tokenize_eq_place_top, top_of_statement hfound.parts]
      rfl
    · have hbehind : offset + (Mark.sources (Canonical.head head.gap :: c.bodyMarks style)).size =
          (c.declarationAt style d.span.start e.replacement).span.stop := congrArg Span.stop hnew
      rw [← hstart, ← Canonical.place_rendered (hc.writableIn _) hr, ← Mark.place_shift,
        Nat.zero_add, hstart, ← hbehind, ← Mark.place_append, ← Mark.place_append,
        tokenize_eq_place_top, top_of_statement hparts, hmark]
      rfl
  case statements =>
    refine ⟨Part.statementsFrom t.markSize 0 ps,
      (Part.statement head body at?).statementAt offset (Part.allMarks ps).length,
      (c.part style head.gap).statementAt offset (Part.allMarks ps).length,
      Part.statementsFrom 0 0 qs, ⟨hown, ?_⟩, ⟨hnew, ?_⟩, ?_, ?_⟩
    · rw [Part.statementAt, hfound.declaration, hown]
      rfl
    · rw [Part.statementAt, Canonical.declaration?_part (hc.writableIn _).spelledIn, hnew]
      rfl
    · rw [Script.statements_parse, hfound.parts]
      exact Part.statementsFrom_around rfl
    · rw [Script.statements_parse, hparts, hmark]
      exact Part.statementsFrom_around rfl

-- ---------------------------------------------------------------------------
-- The step of a module
-- ---------------------------------------------------------------------------

/-- A module that is imported once, and not in its canonical form, is imported anew where the
declaration stands, in the same style. Where a line ends between each lone `/` and the declaration,
nothing else in the text is read in another way. -/
theorem moduleStep_exchanges {v : Vocabulary} {m : ModuleRule} (eol : Text) (hm : m ∈ v.modules)
    (hv : v.Plain) (hone : (Script.parse t).declarationsOf m.specifier = [d])
    (hc : (synthesize m.specifier [d] ((Script.parse t).usages v)).canonical? = some c)
    (hmatch : ¬ c.matches? d) :
    ∃ rendered, c.render? d.style = some rendered ∧
      (moduleStep v m eol (Script.parse t)).edits = [⟨d.span, rendered⟩] ∧
      (Replaceable t ⟨d.span, rendered⟩ →
        d.ExchangedFor t (applyAll (moduleStep v m eol (Script.parse t)).edits t) rendered
          (c.declarationAt d.style d.span.start rendered)) := by
  have hd : d ∈ (Script.parse t).declarationsOf m.specifier := hone ▸ List.mem_singleton_self d
  have hsorted : [d].Pairwise fun a b => Declaration.before a b := List.pairwise_singleton _ _
  have hown : ∀ d' ∈ [d], d'.specifier = m.specifier := fun d' hd' =>
    List.mem_singleton.1 hd' ▸ Script.specifier_of_mem_declarationsOf hd
  have hmerges := synthesize_some hsorted hown
    (fun u hu => Script.alias?_of_mem_usages hv hu) hc
  have hwritable : c.Writable :=
    (hone.symm ▸ hmerges).writable hm hv fun u hu => (Script.mem_usages_ofModule.1 hu).1
  obtain ⟨rendered, hr, -⟩ := Canonical.exists_render hmerges.binds d.style
  have hrender : (synthesize m.specifier [d] ((Script.parse t).usages v)).render? =
      some rendered := by
    rw [Synthesis.render?, hc, synthesize_eq hsorted hown]
    exact hr
  have hedits : (moduleStep v m eol (Script.parse t)).edits = [⟨d.span, rendered⟩] := by
    rw [moduleStep, hone]
    simp [hc, hrender, canonicalStep, hmatch]
  refine ⟨rendered, hr, hedits, fun hline => ?_⟩
  rw [hedits, applyAll_singleton]
  exact hline.exchanges (List.mem_filter.1 hd).1 rfl hwritable hr rfl

/-- An import below a division, to which a component is added. -/
theorem moduleStep_exchanges_link :
    let t : Text := "x / 2;\nimport \x7b b, a \x7d from 'next/link';\nLink();\n".toList
    let d : Declaration := ⟨"next/link", ⟨7, 40⟩, none, ["b", "a"], ⟨.single, true⟩⟩
    let c : Canonical := ⟨"next/link", some "Link", .ofList ["a", "b"]⟩
    let rendered : Text := "import Link, \x7b a, b \x7d from 'next/link';".toList
    let s := Script.parse t
    linkModule ∈ ({} : Vocabulary).modules ∧ ({} : Vocabulary).Plain ∧
      s.declarationsOf "next/link" = [d] ∧
      (synthesize "next/link" [d] (s.usages {})).canonical? = some c ∧ ¬ c.matches? d ∧
      c.render? d.style = some rendered ∧ Replaceable t ⟨d.span, rendered⟩ ∧
      d.ExchangedFor t (applyAll (moduleStep {} linkModule ['\n'] s).edits t) rendered
        (c.declarationAt d.style d.span.start rendered) := by
  intro t d c rendered s
  have hm : linkModule ∈ ({} : Vocabulary).modules := by decide
  have hone : s.declarationsOf "next/link" = [d] := by decide +kernel
  have hc : (synthesize "next/link" [d] (s.usages {})).canonical? = some c := by decide +kernel
  have hmatch : ¬ c.matches? d := by decide +kernel
  have hrender : c.render? d.style = some rendered := by decide +kernel
  have hline : Replaceable t ⟨d.span, rendered⟩ := by decide +kernel
  obtain ⟨_, hr, -, hexchanged⟩ :=
    moduleStep_exchanges ['\n'] hm Vocabulary.plain_builtin hone hc hmatch
  obtain rfl := Option.some.inj (hrender.symm.trans hr)
  exact ⟨hm, Vocabulary.plain_builtin, hone, hc, hmatch, hrender, hline, hexchanged hline⟩

end

end TidyImports
