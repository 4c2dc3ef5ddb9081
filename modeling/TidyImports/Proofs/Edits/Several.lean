-- SUMMARY: Clear edits together: what a step's edits do to the reading of a script.
import TidyImports.Proofs.Edits.Single
import TidyImports.Plan

/-!
# Edits together

The edits of a step are made one at a time, from the last to the first. An edit
leaves the declarations above it where they are, so each edit finds the
declaration it is about in the text that the edits after it leave.
-/

namespace TidyImports

open Text Lexer

-- ---------------------------------------------------------------------------
-- The removal of a declaration
-- ---------------------------------------------------------------------------

/-- What is removed with a declaration: perhaps the start of its line and the blanks behind it. -/
theorem removeDeclaration_span {t : Text} {d : Declaration}
    (hd : d ∈ (Script.parse t).declarations) :
    ∃ pre u w b a y, t = pre ++ ('i' :: u ++ (w ++ b)) ∧ a ++ y = pre ++ 'i' :: u ++ w ∧
      (removeDeclaration t d).span = ⟨a.size, a.size + y.size⟩ ∧
      d.span = ⟨pre.size, (pre ++ 'i' :: u).size⟩ ∧ isBlank w ∧ a.size ≤ pre.size ∧
      (a.size = t.edge pre.size ∨ a.size = pre.size) := by
  obtain ⟨ps, head, body, at?, qs, x, v, z, hfound⟩ := Script.found_of_mem hd
  obtain ⟨u, rfl⟩ := hfound.exists_text
  obtain ⟨mark, ht, hspan, hmarksize, -⟩ := hfound.exists_around
  obtain ⟨rest, hrest⟩ := exists_firstLine z
  rw [← size_append] at hspan
  have hstop : t.nextLine d.span.stop = (mark ++ x ++ 'i' :: u ++ firstLine z).size := by
    rw [nextLine, hspan, ht, ← List.append_assoc, dropBytes_append, size_append _ (firstLine z)]
  by_cases halone : (isBlank (t.slice ⟨t.edge d.span.start, d.span.start⟩) &&
      isBlank (t.slice ⟨d.span.stop, t.nextLine d.span.stop⟩)) = true
  · have hremoved : (removeDeclaration t d).span = ⟨t.edge d.span.start, t.nextLine d.span.stop⟩ :=
      if_pos halone
    obtain ⟨above, line, hpre, -, hedge, -⟩ := exists_edge (mark ++ x) ('i' :: u ++ z)
      (by rw [← ht, ← hmarksize, size_append]; omega)
    rw [← ht] at hedge
    have hblank := (Bool.and_eq_true_iff.1 halone).2
    have hcut : t = (mark ++ x ++ 'i' :: u) ++ (firstLine z ++ rest) := by
      rw [← hrest, ht]
      simp
    rw [hstop, hspan, size_append _ (firstLine z), hcut, slice_of_append] at hblank
    refine ⟨mark ++ x, u, firstLine z, rest, above, line ++ 'i' :: u ++ firstLine z, ?_, ?_, ?_,
      hspan, hblank, by rw [hpre, size_append]; omega, .inl hedge.symm⟩
    · rw [← hrest]
      exact ht
    · rw [hpre]
      simp
    · rw [hremoved, hstop, hspan, hedge, hpre]
      simp
  · have hremoved : (removeDeclaration t d).span = d.span := if_neg halone
    refine ⟨mark ++ x, u, [], z, mark ++ x, 'i' :: u, ht, by simp, ?_, hspan, rfl,
      Nat.le_refl _, .inr rfl⟩
    rw [hremoved, hspan, size_append _ ('i' :: u)]

/-- The removal of a declaration takes it out of every text that agrees up to the end of what is
removed. -/
theorem takesOut_removeDeclaration {t : Text} {d : Declaration}
    (hd : d ∈ (Script.parse t).declarations) :
    ∃ a y b, t = a ++ (y ++ b) ∧ (removeDeclaration t d).span = ⟨a.size, a.size + y.size⟩ ∧
      y ≠ [] ∧ d.span.stop ≤ a.size + y.size ∧
      ∀ b', (removeDeclaration t d).TakesOut (a ++ (y ++ b')) d := by
  obtain ⟨pre, u, w, b, a, y, ht, hay, hspan, hd', hblank, hle, hstart⟩ := removeDeclaration_span hd
  have hcut : ∀ b', a ++ (y ++ b') = pre ++ ('i' :: u ++ (w ++ b')) := fun b' => by
    rw [← List.append_assoc, hay]
    simp
  have hsize : a.size + y.size = (pre ++ 'i' :: u).size + w.size := by
    rw [← size_append, hay, size_append]
  refine ⟨a, y, b, by rw [ht, hcut], hspan, ?_, ?_, fun b' => ?_⟩
  · rintro rfl
    have : 0 < ('i' : Char).utf8Size := Char.utf8Size_pos _
    rw [size_append, size_cons, size_nil] at hsize
    omega
  · rw [hd', hsize]
    exact Nat.le_add_right ..
  · have hedge : (a ++ (y ++ b')).edge pre.size = t.edge pre.size := by
      rw [hcut, ht]
      refine edge_congr ?_
      cases pre <;> rfl
    constructor
    · rfl
    · rw [hspan, hd', hedge]
      exact hstart
    · rw [hspan, hd', hsize]
      exact Nat.le_add_right ..
    · have : a ++ (y ++ b') = (pre ++ 'i' :: u) ++ (w ++ b') := by
        rw [hcut]
        simp
      rw [hspan, hd', hsize, this, slice_of_append]
      exact hblank

-- ---------------------------------------------------------------------------
-- Edits in order
-- ---------------------------------------------------------------------------

/-- Are edits in order clear, each in the text that those after it leave? -/
def Edit.AllClear (t : Text) : List Edit → Prop
  | [] => True
  | e :: es =>
    AllClear t es ∧ e.Clear (applyInOrder 0 es t) ∧ ∀ next ∈ es.head?, e.span.stop ≤ next.span.start

instance Edit.decidableAllClear (t : Text) : (es : List Edit) → Decidable (AllClear t es)
  | [] => isTrue trivial
  | _ :: es =>
    have := decidableAllClear t es
    inferInstanceAs (Decidable (_ ∧ _ ∧ ∀ next ∈ es.head?, _))

/-- An edit with the declarations that it takes out and puts in. -/
structure Exchange where
  edit : Edit
  removed : List Declaration := []
  added : List Declaration := []

/-- What an edit does to the declarations of a text, by its form. -/
inductive Exchange.Holds (t : Text) : Exchange → Prop
  | line {a b rendered eol : Text} {c : Canonical} {style : Style} {e : Edit} (ht : t = a ++ b)
      (hspan : e.span = ⟨a.size, a.size⟩) (hrep : e.replacement = e.lead ++ (rendered ++ eol))
      (hc : c.Writable) (hr : c.render? style = some rendered) (he : eol.all isSpace)
      (hn : '\n' ∈ eol) : Holds t ⟨e, [], [c.declaration style]⟩
  | directive {a b x eol : Text} {e : Edit} (ht : t = a ++ b) (hspan : e.span = ⟨a.size, a.size⟩)
      (hrep : e.replacement = e.lead ++ ('\'' :: x ++ ['\'', ';'] ++ eol)) (hx : isPlain x)
      (he : eol.all isSpace) (hn : '\n' ∈ eol) (hcode : Part.code (a ++ e.lead).flushed = []) :
      Holds t ⟨e, [], []⟩
  | removal {d : Declaration} (hd : d ∈ (Script.parse t).declarations) :
      Holds t ⟨removeDeclaration t d, [d], []⟩

namespace Exchange

open Edit

theorem insertion_first {t a b : Text} {e : Edit} {es : List Edit} (ht : t = a ++ b)
    (hspan : e.span = ⟨a.size, a.size⟩) (hnext : ∀ next ∈ es.head?, e.span.stop ≤ next.span.start) :
    ∃ b', applyInOrder 0 es t = a ++ b' ∧
      applyInOrder 0 (e :: es) t = applyInOrder 0 [e] (applyInOrder 0 es t) := by
  obtain ⟨b', h₁, h₂⟩ := applyInOrder_eq (x := []) (by simpa using ht) (by simpa using hspan)
    fun e' he' => by
      have := hnext e' he'
      rw [hspan] at this
      exact this
  exact ⟨b', by simpa using h₁, h₂⟩

/-- An exchange in the text that it changes, where its edit is clear. -/
inductive Fits (t : Text) : Exchange → Prop
  | line {a b rendered eol : Text} {c : Canonical} {style : Style} {e : Edit}
      (hins : e.Insertable t) (ht : t = a ++ b) (hspan : e.span = ⟨a.size, a.size⟩)
      (hrep : e.replacement = e.lead ++ (rendered ++ eol)) (hc : c.Writable)
      (hr : c.render? style = some rendered) (he : eol.all isSpace) (hn : '\n' ∈ eol) :
      Fits t ⟨e, [], [c.declaration style]⟩
  | directive {a b x eol : Text} {e : Edit} (hins : e.Insertable t) (ht : t = a ++ b)
      (hspan : e.span = ⟨a.size, a.size⟩)
      (hrep : e.replacement = e.lead ++ ('\'' :: x ++ ['\'', ';'] ++ eol)) (hx : isPlain x)
      (he : eol.all isSpace) (hn : '\n' ∈ eol) (hcode : Part.code (a ++ e.lead).flushed = []) :
      Fits t ⟨e, [], []⟩
  | removal {a y b : Text} {d : Declaration} {e : Edit} (hrem : e.Removable t)
      (hd : d ∈ (Script.parse t).declarations) (ho : e.TakesOut t d) (ht : t = a ++ (y ++ b))
      (hspan : e.span = ⟨a.size, a.size + y.size⟩) : Fits t ⟨e, [d], []⟩

/-- The first exchange fits the text that the others leave. -/
theorem Holds.fits {t : Text} {x : Exchange} {es : List Edit} (h : x.Holds t)
    (hclear : x.edit.Clear (applyInOrder 0 es t))
    (hnext : ∀ next ∈ es.head?, x.edit.span.stop ≤ next.span.start)
    (hkeeps : Keeps t (applyInOrder 0 es t) x.edit.span.stop) :
    x.edit.span.start ≤ x.edit.span.stop ∧
      applyInOrder 0 (x.edit :: es) t = applyInOrder 0 [x.edit] (applyInOrder 0 es t) ∧
      x.Fits (applyInOrder 0 es t) := by
  cases h with
  | @line a b rendered eol c style e ht hspan hrep hc hr he hn =>
    obtain ⟨b', h₁, h₂⟩ := insertion_first ht hspan hnext
    have hins : e.Insertable (applyInOrder 0 es t) := by
      rwa [Clear, if_pos (by rw [hspan])] at hclear
    exact ⟨Nat.le_of_eq (by rw [hspan]), h₂, .line hins h₁ hspan hrep hc hr he hn⟩
  | @directive a b x eol e ht hspan hrep hx he hn hcode =>
    obtain ⟨b', h₁, h₂⟩ := insertion_first ht hspan hnext
    have hins : e.Insertable (applyInOrder 0 es t) := by
      rwa [Clear, if_pos (by rw [hspan])] at hclear
    exact ⟨Nat.le_of_eq (by rw [hspan]), h₂, .directive hins h₁ hspan hrep hx he hn hcode⟩
  | @removal d hd =>
    obtain ⟨a, y, b, ht, hspan, hne, hstop, hout⟩ := takesOut_removeDeclaration hd
    obtain ⟨b', h₁, h₂⟩ := applyInOrder_eq ht hspan fun e' he' => by
      have := hnext e' he'
      rw [hspan] at this
      exact this
    have hlt : (removeDeclaration t d).span.start ≠ (removeDeclaration t d).span.stop := by
      rw [hspan]
      cases y with
      | nil => exact absurd rfl hne
      | cons c y =>
        have := c.utf8Size_pos
        rw [size_cons]
        simp only
        omega
    have hremovable : (removeDeclaration t d).Removable (applyInOrder 0 es t) := by
      have hrep : (removeDeclaration t d).replacement = [] := rfl
      rwa [Clear, if_neg hlt, if_pos hrep] at hclear
    have hmem : d ∈ (Script.parse (applyInOrder 0 es t)).declarations :=
      hkeeps d hd (by rw [hspan]; exact hstop)
    exact ⟨by rw [hspan]; exact Nat.le_add_right .., h₂,
      .removal hremovable hmem (h₁ ▸ hout b') h₁ hspan⟩

/-- An exchange exchanges declarations of the reading, and keeps those above it where they are. -/
theorem Fits.reading {t : Text} {x : Exchange} (h : x.Fits t) :
    (Script.parse t).reading.Updates (Script.parse (applyInOrder 0 [x.edit] t)).reading
        (x.removed.map Declaration.bare) x.added ∧
      Keeps t (applyInOrder 0 [x.edit] t) x.edit.span.start := by
  cases h with
  | line hins ht hspan hrep hc hr he hn =>
    exact ⟨hins.declaration ht hspan hrep hc hr he hn,
      hins.keeps ht hspan hrep (by rw [List.append_assoc]; exact Canonical.fresh_rendered hr _)⟩
  | directive hins ht hspan hrep hx he hn hcode =>
    refine ⟨?_, hins.keeps ht hspan hrep (by simp [Fresh, byteOrderMark])⟩
    rw [hins.directive ht hspan hrep hx he hn hcode]
    exact Reading.Updates.refl _
  | removal hrem hd ho ht hspan => exact hrem.reading hd ho ht hspan

/-- Clear edits in order exchange the declarations that each of them does. What stands above the
first stays. -/
theorem reading {t : Text} {xs : List Exchange} (h : ∀ x ∈ xs, x.Holds t)
    (hc : AllClear t (xs.map edit)) :
    (Script.parse t).reading.Updates (Script.parse (applyInOrder 0 (xs.map edit) t)).reading
        (xs.flatMap (·.removed.map Declaration.bare)) (xs.flatMap (·.added)) ∧
      ∀ n, (∀ e ∈ (xs.map edit).head?, n ≤ e.span.start) →
        Keeps t (applyInOrder 0 (xs.map edit) t) n := by
  induction xs with
  | nil => exact ⟨Reading.Updates.refl _, fun n _ d hd _ => hd⟩
  | cons x xs ih =>
    obtain ⟨hrest, hclear, hnext⟩ := hc
    obtain ⟨hupdates, hkeeps⟩ := ih (fun y hy => h y (List.mem_cons_of_mem _ hy)) hrest
    obtain ⟨hle, happly, hfits⟩ := (h x (List.mem_cons_self ..)).fits hclear hnext
      (hkeeps _ hnext)
    obtain ⟨hfirst, hkeep⟩ := hfits.reading
    rw [← happly] at hfirst hkeep
    refine ⟨hupdates.trans hfirst, fun n hn d hd hstop => ?_⟩
    have hn : n ≤ x.edit.span.start := hn x.edit rfl
    refine hkeep d (hkeeps x.edit.span.stop hnext d hd ?_) ?_
    · omega
    · omega

end Exchange

end TidyImports
