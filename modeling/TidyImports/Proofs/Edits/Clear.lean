-- SUMMARY: Edits that stand clear of other code, and what each of them does to a script's reading.
import Mathlib.Tactic.MkIffOfInductiveProp
import TidyImports.Text.Edit
import TidyImports.Proofs.Edits.Updates

/-!
# Clear edits

An edit may change how the text around it is read: a line may land in a comment
or in the body of a function, and an `import` may become the first on its line.
A clear edit does not. Lines are put in and taken out only below text that
stands on its own, and where what follows does not look back; text is exchanged
only where no `/` before it could find an end in it.
-/

namespace TidyImports

open Text Lexer

-- ---------------------------------------------------------------------------
-- Conditions
-- ---------------------------------------------------------------------------

namespace Edit

/-- The line breaks an edit begins with. -/
def lead (e : Edit) : Text := e.replacement.takeWhile fun c => c == '\r' || c == '\n'

/-- A line is put in below text that stands on its own. A line break that ends an unfinished line
is read as nothing. -/
@[mk_iff]
structure Insertable (t : Text) (e : Edit) : Prop where
  above : (t.takeBytes e.span.start ++ e.lead).Stands
  tokens : tokenize (t.takeBytes e.span.start ++ e.lead ++ t.dropBytes e.span.start) = tokenize t
  statements :
    (Script.parse (t.takeBytes e.span.start ++ e.lead ++ t.dropBytes e.span.start)).statements =
      (Script.parse t).statements
  below : (t.takeBytes e.span.start ++ e.lead ++ t.dropBytes e.span.start).Opens
    (t.takeBytes e.span.start ++ e.lead).size

/-- Text is taken out below text that stands on its own, with no white space around it but that
between tokens. -/
@[mk_iff]
structure Removable (t : Text) (e : Edit) : Prop where
  above : (t.takeBytes (t.edge e.span.start)).Stands
  spaces : ∀ c ∈ t.slice ⟨t.edge e.span.start, e.span.stop⟩, isBlank [c] → isSpace c
  below : t.Opens e.span.stop

instance (t : Text) (e : Edit) : Decidable (e.Insertable t) :=
  decidable_of_iff _ (insertable_iff t e).symm

-- The characters of the text are looked at, not every character there is.
instance (t : Text) (e : Edit) : Decidable (e.Removable t) :=
  have : Decidable (∀ c ∈ t.slice ⟨t.edge e.span.start, e.span.stop⟩, isBlank [c] → isSpace c) :=
    List.decidableBAll _ _
  decidable_of_iff _ (removable_iff t e).symm

end Edit

/-- Does a line end in a text, with no backslash to take its line feed? -/
def Text.hasLineEnd (t : Text) : Bool :=
  (List.range (t.length + 1)).any fun n => decide (EndsLine (t.take n))

/-- A line ends between each lone `/` and the text that is exchanged. -/
def Edit.Replaceable (t : Text) (e : Edit) : Prop :=
  ∀ tok ∈ tokenize t, tok.isPunct '/' → tok.stop ≤ e.span.start →
    (t.slice ⟨tok.stop, e.span.start⟩).hasLineEnd

instance (t : Text) (e : Edit) : Decidable (e.Replaceable t) :=
  inferInstanceAs (Decidable (∀ tok ∈ tokenize t, _ → _ → _))

/-- Does an edit leave what stands around it as it is read? -/
def Edit.Clear (t : Text) (e : Edit) : Prop :=
  if e.span.start = e.span.stop then e.Insertable t
  else if e.replacement = [] then e.Removable t
  else e.Replaceable t

instance (t : Text) (e : Edit) : Decidable (e.Clear t) :=
  inferInstanceAs (Decidable (if e.span.start = e.span.stop then e.Insertable t
    else if e.replacement = [] then e.Removable t else e.Replaceable t))

-- ---------------------------------------------------------------------------
-- Where a declaration is found
-- ---------------------------------------------------------------------------

/-- A declaration in a text: the parts and the text before it, its own, and those after it. -/
structure Declaration.Found (d : Declaration) (t : Text) (ps : List Part) (head : Mark)
    (body : List Mark) (at? : Option Nat) (qs : List Part) (x y z : Text) : Prop where
  parts : t.parts = ps ++ .statement head body at? :: qs
  declaration : (Part.statement head body at?).declaration? = some d.bare
  body_eq : t.body = x ++ (y ++ z)
  before : x = Mark.sources (Part.allMarks ps) ++ head.gap
  text : head.gap ++ y = Mark.sources (head :: body)
  span : d.span = ⟨t.markSize + x.size, t.markSize + x.size + y.size⟩

namespace Part

theorem mem_declarationsFrom {offset : Nat} {ps : List Part} {d : Declaration}
    (h : d ∈ declarationsFrom offset ps) :
    ∃ front p back, ps = front ++ p :: back ∧ p.declaration? = some d.bare ∧
      d.span = p.spanAt (offset + (Mark.sources (allMarks front)).size) := by
  induction ps generalizing offset with
  | nil => cases h
  | cons p ps ih =>
    rw [declarationsFrom, List.mem_append] at h
    rcases h with h | h
    · rw [Option.mem_toList, Option.map_eq_some_iff] at h
      obtain ⟨d', hd, rfl⟩ := h
      refine ⟨[], p, ps, rfl, ?_, rfl⟩
      have := span_of_declaration? hd
      rw [hd]
      obtain ⟨specifier, span, default?, named, style⟩ := d'
      cases this
      rfl
    · obtain ⟨front, q, back, rfl, hq, hspan⟩ := ih h
      refine ⟨p :: front, q, back, rfl, hq, ?_⟩
      rw [hspan]
      simp [Nat.add_assoc]

end Part

theorem Script.found_of_mem {t : Text} {d : Declaration} (h : d ∈ (parse t).declarations) :
    ∃ ps head body at? qs x y z, d.Found t ps head body at? qs x y z := by
  rw [declarations_parse] at h
  obtain ⟨ps, p, qs, hparts, hd, hspan⟩ := Part.mem_declarationsFrom h
  cases p with
  | token m => cases hd
  | statement head body at? =>
    refine ⟨ps, head, body, at?, qs, Mark.sources (Part.allMarks ps) ++ head.gap,
      head.text ++ Mark.sources body, Mark.sources (Part.allMarks qs) ++ (leaveTop t.body).2,
      hparts, hd, ?_, rfl, by simp, ?_⟩
    · refine (sources_top_leaveTop t.body).symm.trans ?_
      rw [top_of_statement hparts]
      simp
    · rw [hspan]
      simp [Part.spanAt, Part.marks, Nat.add_assoc]

namespace Declaration.Found

variable {d : Declaration} {t : Text} {ps qs : List Part} {head : Mark} {body : List Mark}
  {at? : Option Nat} {x y z : Text}

theorem leads (h : d.Found t ps head body at? qs x y z) : head.leads :=
  Part.leads_of_declaration? h.declaration

theorem proper (h : d.Found t ps head body at? qs x y z) :
    ∀ m ∈ Part.allMarks ps ++ head :: body, m.Proper := by
  intro m hm
  refine Part.proper_parts t m ?_
  rw [h.parts, Part.allMarks_append, Part.allMarks_cons]
  simp only [Part.marks, List.mem_append, List.cons_append, List.mem_cons] at hm ⊢
  rcases hm with hm | rfl | hm
  · exact .inl hm
  · exact .inr (.inl rfl)
  · exact .inr (.inr (.inl hm))

/-- A declaration stands in its text between what is before it and what is behind it. -/
theorem exists_around (h : d.Found t ps head body at? qs x y z) :
    ∃ mark, t = mark ++ x ++ (y ++ z) ∧
      d.span = ⟨(mark ++ x).size, (mark ++ x).size + y.size⟩ ∧ mark.size = t.markSize ∧
      lineBlank true mark = true := by
  obtain ⟨mark, hmark, hsize, hblank⟩ := t.exists_body
  refine ⟨mark, ?_, ?_, hsize, hblank⟩
  · rw [List.append_assoc, ← h.body_eq]
    exact hmark
  · rw [h.span, size_append, hsize]

/-- A declaration has the span of its part. -/
theorem spanAt_eq (h : d.Found t ps head body at? qs x y z) :
    (Part.statement head body at?).spanAt
      (t.markSize + (Mark.sources (Part.allMarks ps)).size) = d.span := by
  have hbefore := congrArg size h.before
  have htext := congrArg size h.text
  rw [size_append] at hbefore htext
  rw [h.span]
  simp only [Part.spanAt, Part.marks, List.head?_cons, Option.elim_some, Span.mk.injEq]
  omega

theorem slice_span (h : d.Found t ps head body at? qs x y z) : t.slice d.span = y := by
  obtain ⟨mark, ht, hspan, -, -⟩ := h.exists_around
  have hslice := slice_append (mark ++ x) y z
  rwa [List.append_assoc, ← ht, ← hspan] at hslice

/-- The text of a declaration starts with its keyword. -/
theorem exists_text (h : d.Found t ps head body at? qs x y z) : ∃ y', y = 'i' :: y' := by
  have himport := (h.proper head (by simp)).leads h.leads
  have htext : head.text = "import".toList := eq_of_beq (Bool.and_eq_true_iff.1 himport).2
  have hy := h.text
  rw [Mark.sources_cons, List.append_assoc, List.append_cancel_left_eq] at hy
  exact ⟨"mport".toList ++ Mark.sources body, by rw [hy, htext]; rfl⟩

/-- Nothing but blanks stands before a declaration on its line. -/
theorem lineBlank_before (h : d.Found t ps head body at? qs x y z) : lineBlank true x = true := by
  have hreads := Mark.reads_drop (Part.allMarks ps).length (reads_top t.body)
  rw [top_of_statement h.parts, List.take_left, List.drop_left] at hreads
  have := hreads.1
  rw [h.leads, ← lineBlank_append, ← h.before] at this
  exact (Bool.and_eq_true_iff.1 this.symm).1

end Declaration.Found

/-- A declaration of a text says what marks of the text do. -/
theorem Script.reads_of_mem {t : Text} {d : Declaration} (h : d ∈ (parse t).declarations) :
    ∃ clause word specifier tail, d.Reads clause word specifier tail ∧
      ∀ m ∈ clause ++ word :: specifier :: tail, m ∈ top t.body := by
  obtain ⟨ps, head, body, at?, qs, x, y, z, hfound⟩ := found_of_mem h
  obtain ⟨rest, n, hms, rfl, he, -⟩ := outline_eq_statement (outline_suffix hfound.parts).symm
  obtain ⟨-, -, clause, word, specifier, tail, htake, -, hreads⟩ :=
    Part.reads_of_declaration? he hfound.declaration
  refine ⟨clause, word, specifier, tail, ⟨hreads.isFrom, hreads.notFrom, hreads.contents,
    hreads.quote, hreads.clause_eq, hreads.tail_eq⟩, fun m hm => ?_⟩
  rw [← htake] at hm
  rw [top_of_statement hfound.parts]
  exact List.mem_append_right _ (List.mem_cons_of_mem _ (List.mem_append_left _ hm))

/-- A declaration starts with its keyword. -/
theorem Script.exists_keyword {t : Text} {d : Declaration} (h : d ∈ (parse t).declarations) :
    d.span.start < d.span.stop ∧ ∃ pre rest, t = pre ++ 'i' :: rest ∧ d.span.start = pre.size := by
  obtain ⟨ps, head, body, at?, qs, x, u, z, hfound⟩ := found_of_mem h
  obtain ⟨mark, ht, hspan, -, -⟩ := hfound.exists_around
  obtain ⟨u', rfl⟩ := hfound.exists_text
  refine ⟨?_, mark ++ x, u' ++ z, ht, ?_⟩
  · have : 0 < ('i' : Char).utf8Size := Char.utf8Size_pos _
    rw [hspan, size_cons]
    simp only
    omega
  · rw [hspan]

end TidyImports
