-- SUMMARY: The places where lines are put in lie between characters, and the directive's above code.
import TidyImports.Source.Layout
import TidyImports.Proofs.Edits.Updates

/-!
# Places of new lines

New lines and directives are put in at the end of a line, at the end of the
text, or behind the byte order mark: always between two characters. Nothing but
a `#!` line stands above a new directive.
-/

namespace TidyImports

open Text Lexer

-- ---------------------------------------------------------------------------
-- Where statements stand
-- ---------------------------------------------------------------------------

/-- A text lies before, in and behind parts of it. -/
theorem Text.exists_around {t : Text} {front back : List Part} (h : t.parts = front ++ back) :
    ∃ mark, mark.size = t.markSize ∧ t = mark ++ Mark.sources (Part.allMarks front) ++
      (Mark.sources (Part.allMarks back) ++ (leaveTop t.body).2) := by
  obtain ⟨mark, hmark, hsize, -⟩ := t.exists_body
  have hsrc := sources_top_leaveTop t.body
  rw [top_of_parts h, Mark.sources_append, List.append_assoc] at hsrc
  refine ⟨mark, hsize, ?_⟩
  rw [List.append_assoc, hsrc]
  exact hmark

namespace Script

variable {t : Text} {st : Statement}

/-- A statement is one of the parts of its text. -/
theorem exists_part (h : st ∈ (parse t).statements) :
    ∃ front head body at? back, t.parts = front ++ .statement head body at? :: back ∧
      st.span = (Part.statement head body at?).spanAt
        (t.markSize + (Mark.sources (Part.allMarks front)).size) := by
  rw [statements_parse] at h
  obtain ⟨front, head, body, at?, back, hparts, rfl⟩ := Part.exists_of_mem_statementsFrom h
  exact ⟨front, head, body, at?, back, hparts, rfl⟩

/-- A statement ends where parts of its text end. -/
theorem exists_parts_stop (h : st ∈ (parse t).statements) :
    ∃ front back, t.parts = front ++ back ∧
      st.span.stop = t.markSize + (Mark.sources (Part.allMarks front)).size := by
  obtain ⟨front, head, body, at?, back, hparts, hspan⟩ := exists_part h
  refine ⟨front ++ [.statement head body at?], back, by simp [hparts], ?_⟩
  simp [hspan, Part.spanAt, Nat.add_assoc]

theorem isCut_stop (h : st ∈ (parse t).statements) : t.IsCut st.span.stop := by
  obtain ⟨front, back, hparts, hstop⟩ := exists_parts_stop h
  obtain ⟨mark, hsize, ht⟩ := exists_around hparts
  exact ⟨_, _, ht, by rw [hstop, size_append, hsize]⟩

/-- A statement starts between two characters, and before it ends. -/
theorem isCut_start (h : st ∈ (parse t).statements) :
    t.IsCut st.span.start ∧ st.span.start < st.span.stop := by
  obtain ⟨front, head, body, at?, back, hparts, hspan⟩ := exists_part h
  obtain ⟨mark, hsize, ht⟩ := exists_around hparts
  refine ⟨⟨mark ++ Mark.sources (Part.allMarks front) ++ head.gap,
    head.text ++ (Mark.sources (body ++ Part.allMarks back) ++ (leaveTop t.body).2), ?_, ?_⟩, ?_⟩
  · conv => lhs; rw [ht, Part.allMarks_cons]
    simp [Part.marks]
  · simp [hspan, Part.spanAt, Part.marks, hsize, Nat.add_assoc]
  · rw [hspan]
    refine Part.spanAt_start_lt (fun k hk => Part.proper_parts t k ?_) _
    rw [hparts, Part.allMarks_append, Part.allMarks_cons]
    exact List.mem_append_right _ (List.mem_append_left _ hk)

-- ---------------------------------------------------------------------------
-- Where lines are put in
-- ---------------------------------------------------------------------------

theorem prologueFrom_fst (s : Script) (offset : Nat) (ls : List Text) :
    ∃ front, front <+: ls ∧ (s.prologueFrom offset ls).1 = offset + size front.flatten := by
  induction ls generalizing offset with
  | nil => exact ⟨[], List.prefix_refl _, rfl⟩
  | cons line more ih =>
    obtain ⟨front, hfront, heq⟩ := ih (offset + line.size)
    rw [prologueFrom]
    split
    · refine ⟨line :: front, List.prefix_cons_inj line |>.2 hfront, ?_⟩
      rw [heq, List.flatten_cons, size_append, Nat.add_assoc]
    · refine ⟨line :: front, List.prefix_cons_inj line |>.2 hfront, ?_⟩
      rw [List.flatten_cons, size_append, ← Nat.add_assoc, ← heq]
    · exact ⟨[], List.nil_prefix, rfl⟩

theorem isLineEdge_prologue (s : Script) : s.text.IsLineEdge s.prologue.1 := by
  obtain ⟨front, hfront, heq⟩ := s.prologueFrom_fst 0 s.text.lines
  rw [prologue, heq]
  exact (isLineEdge_zero _).add_lines (by rwa [dropBytes_zero])

theorem isLineEdge_blockEnd {s : Script} {offset : Nat} {sts : List Statement}
    (h : s.text.IsLineEdge offset) (hs : ∀ st ∈ sts, s.text.IsCut st.span.stop) :
    s.text.IsLineEdge (s.blockEnd offset sts) := by
  induction sts generalizing offset with
  | nil => exact h
  | cons st more ih =>
    have hmore : ∀ st ∈ more, s.text.IsCut st.span.stop := fun st hst =>
      hs st (List.mem_cons_of_mem _ hst)
    rw [blockEnd]
    split
    · have hnext := isLineEdge_nextLine ((hs st (List.mem_cons_self ..)).max h.isCut)
      simp only
      split
      · refine ih ?_ hmore
        exact hnext.add_lines (List.takeWhile_prefix _)
      · exact hnext
    · exact ih h hmore

/-- A new line goes to the start of a line, to the end of the text, or behind the byte order
mark. -/
theorem isLineEdge_insertionOffset (t : Text) :
    t.IsLineEdge (parse t).insertionOffset ∨ (parse t).insertionOffset = t.markSize := by
  have hblock : t.IsLineEdge ((parse t).blockEnd (parse t).prologue.1 (parse t).statements) :=
    isLineEdge_blockEnd (isLineEdge_prologue (parse t)) fun _ => isCut_stop
  rcases Nat.le_total ((parse t).blockEnd (parse t).prologue.1 (parse t).statements) t.markSize
    with h | h
  · exact .inr (Nat.max_eq_right h)
  · have heq : (parse t).insertionOffset = (parse t).blockEnd (parse t).prologue.1
        (parse t).statements := Nat.max_eq_left h
    rw [heq]
    exact .inl hblock

/-- A new line goes between two characters. -/
theorem isCut_insertionOffset (t : Text) : t.IsCut (parse t).insertionOffset := by
  rcases isLineEdge_insertionOffset t with h | h
  · exact h.isCut
  · rw [h]
    exact isCut_markSize t

theorem dropWhile_firstLine (t : Text) : ((firstLine t).dropWhile (· != '\n')).all isSpace := by
  induction t with
  | nil => rfl
  | cons c cs ih =>
    by_cases hc : c = '\n'
    · rw [firstLine, if_pos hc, hc]
      rfl
    · rw [firstLine, if_neg hc, List.dropWhile_cons_of_pos (by simpa using hc)]
      exact ih

/-- Nothing but a byte order mark and a `#!` line stands above a new directive. -/
theorem exists_directiveOffset (t : Text) :
    ∃ a b, t = a ++ b ∧ t.directiveOffset = a.size ∧ Part.code a.flushed = [] := by
  obtain ⟨mark, hmark, hmarksize, -⟩ := t.exists_body
  have hbody : mark.body = [] := by
    cases mark with
    | nil => rfl
    | cons c cs =>
      have := congrArg body hmark
      rw [body_append (.inl (by simp))] at this
      exact List.append_left_eq_self.1 this.symm
  rw [Text.directiveOffset]
  split
  · next hhash =>
    obtain ⟨rest, hrest⟩ := List.isPrefixOf_iff_prefix.1 hhash
    obtain ⟨more, hmore⟩ := exists_firstLine t.body
    have hfirst : firstLine t.body = '#' :: '!' :: firstLine rest := by
      rw [body, ← hrest]
      rfl
    refine ⟨mark ++ firstLine t.body, more, ?_, ?_, ?_⟩
    · rw [List.append_assoc, ← hmore]
      exact hmark
    · rw [nextLine, size_append, hmarksize]
      rfl
    · have hspaces := dropWhile_firstLine t.body
      have hspaces' : marks {} false [] ((firstLine t.body).dropWhile (· != '\n')) = [] := by
        rw [← List.append_nil (List.dropWhile _ _), marks_spaces hspaces, marks]
      have htop : top (mark ++ firstLine t.body).body =
          [⟨[], .lineComment, (firstLine t.body).takeWhile (· != '\n'), false⟩] := by
        rw [body_append (.inr (by simp [hfirst, byteOrderMark])), hbody, List.nil_append]
        rw [hfirst] at hspaces' ⊢
        rw [top, hspaces']
      have hbegin : ∀ text, Mark.begin? 0 false ⟨[], .lineComment, text, false⟩ [] = none :=
        fun text => if_neg fun h => absurd h.2.1 Bool.false_ne_true
      rw [flushed, Text.parts, htop]
      simp only [outline, hbegin]
      rfl
  · refine ⟨mark, t.body, hmark, hmarksize.symm, ?_⟩
    rw [flushed, Text.parts, hbody]
    simp [top, marks, outline]

end Script

end TidyImports
