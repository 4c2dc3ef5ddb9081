-- SUMMARY: The edits of a step, as exchanges of declarations: new lines, directives, removals.
import TidyImports.Proofs.Edits.Places
import TidyImports.Proofs.Edits.Several

/-!
# Lines of a step

A step makes its edits in the order of their places. Each of them puts in the
line of a declaration or a directive, or takes a declaration out.
-/

namespace TidyImports

open Text Lexer Edit

/-- A line break, with or without a carriage return. -/
def IsLineBreak (eol : Text) : Prop := eol = ['\n'] ∨ eol = ['\r', '\n']

theorem isLineBreak_lineBreakOf (t : Text) : IsLineBreak (lineBreakOf t) := by
  rw [lineBreakOf]
  split
  · exact .inr rfl
  · exact .inl rfl

namespace IsLineBreak

variable {eol : Text}

theorem spaces (h : IsLineBreak eol) : eol.all isSpace := by
  rcases h with rfl | rfl <;> rfl

theorem mem (h : IsLineBreak eol) : '\n' ∈ eol := by
  rcases h with rfl | rfl <;> decide

theorem all (h : IsLineBreak eol) : ∀ c ∈ eol, (c == '\r' || c == '\n') = true := by
  rw [← List.all_eq_true]
  rcases h with rfl | rfl <;> rfl

/-- A line break ends with its line feed. -/
theorem exists_concat (h : IsLineBreak eol) :
    ∃ cr, eol = cr ++ ['\n'] ∧ '\n' ∉ cr ∧ cr.all isSpace := by
  rcases h with rfl | rfl
  · exact ⟨[], rfl, List.not_mem_nil, rfl⟩
  · exact ⟨['\r'], rfl, by decide, rfl⟩

end IsLineBreak

namespace Exchange

variable {t eol : Text}

/-- The line of a canonical import is the import with its line break, perhaps below another line
break. -/
theorem replacement_insertLine {c : Canonical} {style : Style} {rendered : Text}
    (hr : c.render? style = some rendered) (he : IsLineBreak eol) (offset : Nat) :
    (insertLine t offset rendered eol).replacement =
      (insertLine t offset rendered eol).lead ++ (rendered ++ eol) := by
  obtain ⟨lead, hlead, hins⟩ : ∃ lead : Text, (∀ c ∈ lead, (c == '\r' || c == '\n') = true) ∧
      insertLine t offset rendered eol = .insertion offset (lead ++ rendered ++ eol) := by
    rw [insertLine]
    split
    · exact ⟨eol, he.all, rfl⟩
    · exact ⟨[], by simp, rfl⟩
  have hhead : rendered = 'i' :: ("mport".toList ++ Mark.sources (c.bodyMarks style)) :=
    Canonical.sources_bodyMarks hr
  have hfirst : (Edit.insertion offset (lead ++ rendered ++ eol)).lead = lead := by
    rw [Edit.lead, Edit.insertion, List.append_assoc, List.takeWhile_append_of_pos hlead, hhead]
    simp
  rw [hins, hfirst]
  exact List.append_assoc ..

/-- A canonical import is put in on a line of its own. -/
theorem holds_insertLine {c : Canonical} {style : Style} {rendered : Text} (hc : c.Writable)
    (hr : c.render? style = some rendered) (he : IsLineBreak eol) :
    Holds t ⟨insertLine t (Script.parse t).insertionOffset rendered eol, [],
      [c.declaration style]⟩ := by
  obtain ⟨a, b, ht, hsize⟩ := Script.isCut_insertionOffset t
  exact .line ht (congrArg (fun n => Span.mk n n) hsize.symm) (replacement_insertLine hr he _) hc
    hr he.spaces he.mem

/-- A directive is put in on top. -/
theorem holds_directiveEdits {v : Vocabulary} {m : ModuleRule} {e : Edit}
    (hv : isPlain v.clientDirective.toList) (he : IsLineBreak eol)
    (h : e ∈ directiveEdits v m eol (Script.parse t)) : Holds t ⟨e, [], []⟩ := by
  obtain ⟨a, b, ht, hsize, hcode⟩ := Script.exists_directiveOffset t
  rw [directiveEdits] at h
  split at h
  · cases List.mem_singleton.1 h
    refine @Holds.directive t a b v.clientDirective.toList (eol ++ eol) _ ht ?_ ?_ hv ?_ ?_ ?_
    · exact congrArg (fun n => Span.mk n n) hsize
    · simp [Edit.insertion, Edit.lead]
    · rw [List.all_append, he.spaces]
      rfl
    · exact List.mem_append_left _ he.mem
    · have : Edit.lead (.insertion (Script.parse t).text.directiveOffset
          ('\'' :: v.clientDirective.toList ++ ['\'', ';'] ++ eol ++ eol)) = [] := by
        simp [Edit.insertion, Edit.lead]
      rw [this, List.append_nil]
      exact hcode
  · cases h

end Exchange

theorem Reading.Updates.perm {r r' : Reading} {removed removed' added added' : List Declaration}
    (h : r.Updates r' removed added) (hr : removed.Perm removed') (ha : added.Perm added') :
    r.Updates r' removed' added' where
  declared := h.declared
  uses := h.uses
  unrecognized := h.unrecognized
  declarations := ((hr.symm.append_left _).trans h.declarations).trans (ha.append_left _)

/-- Exchanges in any order, made in the order of their places. -/
theorem Exchange.applyAll {t : Text} {xs : List Exchange} (h : ∀ x ∈ xs, x.Holds t)
    (hc : AllClear t (Sorting.sort Edit.before (xs.map edit))) :
    (Script.parse t).reading.Updates (Script.parse (Edit.applyAll (xs.map edit) t)).reading
      (xs.flatMap (·.removed.map Declaration.bare)) (xs.flatMap (·.added)) := by
  have hperm := Sorting.sort_perm (fun a b : Exchange => Edit.before a.edit b.edit) xs
  have hmap := Sorting.map_sort Edit.before Exchange.edit xs
  have hread := (@Exchange.reading t (Sorting.sort (fun a b => Edit.before a.edit b.edit) xs)
    (fun x hx => h x (Sorting.mem_sort.1 hx)) (hmap ▸ hc)).1
  rw [hmap] at hread
  exact hread.perm (hperm.flatMap_right _) (hperm.flatMap_right _)

end TidyImports
