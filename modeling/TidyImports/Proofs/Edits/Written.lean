-- SUMMARY: A declaration that has the text of a written import is read as that import.
import TidyImports.Proofs.Edits.Clear

/-!
# Declarations as written

Lexing has no memory but its state, so the marks of a declaration are those its
text gives from the state in which its keyword is met. If the text is that of a
written import, the marks are the written ones in every state, and the
declaration binds what the import does. A declaration that is not in canonical
form therefore has another text than the import that takes its place.
-/

namespace TidyImports

open Text Lexer

-- ---------------------------------------------------------------------------
-- Marks from a place on
-- ---------------------------------------------------------------------------

/-- Marks in a row are told by how far they reach. -/
theorem Mark.eq_of_sources_eq {p q p' q' : List Mark} (h : p ++ q = p' ++ q')
    (hp : ∀ m ∈ p ++ q, m.text ≠ []) (hs : sources p = sources p') : p = p' := by
  have hlonger : ∀ a b : List Mark, (∀ m ∈ b, m.text ≠ []) → sources a = sources (a ++ b) →
      a = a ++ b := by
    intro a b hb hsources
    rw [sources_append, eq_comm, List.append_right_eq_self] at hsources
    cases b with
    | nil => rw [List.append_nil]
    | cons m b => simp [hb m (List.mem_cons_self ..)] at hsources
  rcases List.append_eq_append_iff.1 h with ⟨b, rfl, rfl⟩ | ⟨b, rfl, rfl⟩
  · refine hlonger p b (fun m hm => hp m ?_) hs
    exact List.mem_append_right _ (List.mem_append_left _ hm)
  · refine (hlonger p' b (fun m hm => hp m ?_) hs.symm).symm
    exact List.mem_append_left _ (List.mem_append_right _ hm)

namespace Lexer

theorem exists_marks_of_append {s : State} {blank : Bool} {t : Text} {p q : List Mark} {m : Mark}
    (h : marks s blank [] t = p ++ m :: q) :
    ∃ s' rest, t = Mark.sources p ++ rest ∧
      m :: q = marks s' (lineBlank blank (Mark.sources p)) [] rest := by
  by_cases hp : p = []
  · subst hp
    exact ⟨s, t, rfl, h.symm⟩
  · obtain ⟨rest, ht, hq⟩ := marks_eq_append h hp blank rfl
    exact ⟨_, rest, ht, hq⟩

/-- From some code on, a text is read on its own. -/
theorem exists_marks_of_top {t : Text} {p q : List Mark} {m : Mark} (h : top t = p ++ m :: q)
    (hm : m.token.isCode) :
    ∃ s rest, t = Mark.sources p ++ rest ∧
      m :: q = marks s (lineBlank true (Mark.sources p)) [] rest := by
  by_cases hbang : ∃ rest, t = '#' :: '!' :: rest
  · obtain ⟨rest, rfl⟩ := hbang
    obtain ⟨line, below, rfl, hline, hb⟩ := exists_line rest
    rw [← List.cons_append, ← List.cons_append, top_shebang hline hb] at h
    cases p with
    | nil =>
      obtain ⟨rfl, -⟩ := List.cons.inj h
      cases hm
    | cons k p =>
      obtain ⟨rfl, hp⟩ := List.cons.inj h
      obtain ⟨s, rest, rfl, hq⟩ := exists_marks_of_append hp
      have hblank : lineBlank true ('#' :: '!' :: line) = false := by
        rw [lineBlank_cons]
        exact lineBlank_false (by simpa using hline)
      refine ⟨s, rest, by simp, ?_⟩
      rw [Mark.sources_cons, List.nil_append, lineBlank_append, hblank]
      exact hq
  · rw [top_of_not_shebang fun rest heq => hbang ⟨rest, heq⟩] at h
    exact exists_marks_of_append h

end Lexer

-- ---------------------------------------------------------------------------
-- The text of a declaration
-- ---------------------------------------------------------------------------

section

variable {d : Declaration} {t : Text} {ps qs : List Part} {head : Mark} {body : List Mark}
  {at? : Option Nat} {x y z : Text}

namespace Declaration.Found

theorem head_eq (h : d.Found t ps head body at? qs x y z) : head = Canonical.head head.gap := by
  obtain ⟨hkind, htext⟩ := Bool.and_eq_true_iff.1 ((h.proper head (by simp)).leads h.leads)
  have hleads := h.leads
  obtain ⟨gap, kind, text, leads⟩ := head
  simp only [Canonical.head, Mark.mk.injEq, true_and]
  exact ⟨eq_of_beq hkind, eq_of_beq htext, hleads⟩

/-- The marks of a declaration and of what follows it are those of its text and the rest. -/
theorem marks_eq (h : d.Found t ps head body at? qs x y z) :
    ∃ s, head :: (body ++ Part.allMarks qs) = marks s true head.gap (y ++ z) := by
  have hcode : head.token.isCode := by
    rw [h.head_eq]
    rfl
  obtain ⟨s, rest, hbody, hmarks⟩ := exists_marks_of_top (top_of_statement h.parts) hcode
  rw [h.body_eq, h.before, List.append_assoc, List.append_cancel_left_eq] at hbody
  rw [← hbody, marks_spaces (h.proper head (by simp)).gap, ← lineBlank_append, ← h.before,
    h.lineBlank_before] at hmarks
  exact ⟨s, hmarks⟩

/-- The specifier of a declaration is a string in its statement. -/
theorem exists_specifier (h : d.Found t ps head body at? qs x y z) :
    ∃ i specifier, at? = some i ∧ body[i]? = some specifier ∧
      specifier.token.contents? = some d.specifier.toList := by
  have hdeclaration := h.declaration
  simp only [Part.declaration?, Option.bind_eq_bind, Option.bind_eq_some_iff] at hdeclaration
  obtain ⟨i, hat, specifier, hspecifier, hread⟩ := hdeclaration
  split at hread
  · obtain ⟨-, -, -, -, hcontents, -⟩ := Statement.readDeclaration?_eq_some hread
    exact ⟨i, specifier, hat, hspecifier, hcontents⟩
  · cases hread

end Declaration.Found

namespace Canonical

variable {c : Canonical} {style : Style}

/-- The specifier is the only string of a written declaration. -/
theorem index_of_isString {q : Quote} (hc : c.SpelledIn q) {i : Nat} {m : Mark}
    (h : (c.bodyMarks style)[i]? = some m) (hm : m.token.isString) :
    i = c.clauseMarks.length + 1 := by
  rw [bodyMarks, List.append_assoc] at h
  rcases Nat.lt_or_ge i c.clauseMarks.length with hi | hi
  · rw [List.getElem?_append_left hi] at h
    have hclause := hc.isClauseMark m (List.mem_of_getElem? h)
    rw [isString_of_isClauseMark hclause] at hm
    cases hm
  · rw [List.getElem?_append_right hi] at h
    -- behind the clause stand `from`, the specifier and perhaps a `;`
    rcases hk : i - c.clauseMarks.length with _ | _ | k
    · rw [hk] at h
      cases h
      cases hm
    · omega
    · rw [hk] at h
      have hmem : m ∈ (if style.semicolon then [Mark.punct [] ';'] else []) :=
        List.mem_of_getElem? (i := k) (by simpa using h)
      split at hmem
      · cases List.mem_singleton.1 hmem
        cases hm
      · cases hmem

end Canonical

/-- A declaration with the text of a written import is read as the import is meant. -/
theorem Script.bare_of_slice {c : Canonical} {rendered : Text}
    (hd : d ∈ (parse t).declarations) (hc : c.SpelledIn d.style.quote)
    (hr : c.render? d.style = some rendered) (ht : t.slice d.span = rendered) :
    d.bare = c.declaration d.style := by
  obtain ⟨ps, head, body, at?, qs, x, y, z, hfound⟩ := found_of_mem hd
  rw [hfound.slice_span] at ht
  subst ht
  obtain ⟨s, hmarks⟩ := hfound.marks_eq
  rw [Canonical.marks_rendered hc hr, List.cons_append] at hmarks
  have hbody : body = c.bodyMarks d.style := by
    refine Mark.eq_of_sources_eq (List.cons.inj hmarks).2 (fun m hm => ?_) ?_
    · have hmem : m ∈ top t.body := by
        rw [top_of_statement hfound.parts]
        exact List.mem_append_right _ (List.mem_cons_of_mem _ hm)
      obtain ⟨k, ks, htext, -⟩ := (proper_top t.body m hmem).start
      rw [htext]
      exact List.cons_ne_nil _ _
    · have htext := hfound.text
      rw [hfound.head_eq, Canonical.sources_bodyMarks hr] at htext
      simpa [Canonical.head] using htext.symm
  have hat : at? = some (c.clauseMarks.length + 1) := by
    obtain ⟨i, specifier, rfl, hspecifier, hcontents⟩ := hfound.exists_specifier
    rw [hbody] at hspecifier
    refine congrArg some (Canonical.index_of_isString hc hspecifier ?_)
    have hkind : specifier.kind = .string true := Token.kind_of_contents? hcontents
    rw [Token.isString, Mark.token, hkind]
  have hpart : Part.statement head body at? = c.part d.style head.gap := by
    rw [Canonical.part, ← hfound.head_eq, hbody, hat]
  have hdeclaration := hfound.declaration
  rw [hpart, Canonical.declaration?_part hc] at hdeclaration
  exact (Option.some.inj hdeclaration).symm

end

end TidyImports
