-- SUMMARY: Line breaks that no declaration of a text can hold, and the edits that leave one.
import TidyImports.Proofs.Outline.Leading
import TidyImports.Proofs.Edits.Single
import TidyImports.Proofs.Edits.Written
import TidyImports.Proofs.Text.Returns

/-!
# Line breaks outside declarations

A declaration can be written on several lines, and be rewritten on one. The
line breaks it holds lie between its keyword and its specifier. So a line break
stands outside of all declarations if its line has a quote or a semicolon, and
if an `import` that is first on its line stands below it.
-/

namespace TidyImports

open Text Lexer

-- ---------------------------------------------------------------------------
-- Line feeds behind carriage returns
-- ---------------------------------------------------------------------------

namespace Text

theorem eq_mark {t mark : Text} (h : t = mark ++ t.body) : mark = [] ∨ mark = [byteOrderMark] := by
  by_cases hhead : t.head? = some byteOrderMark
  · obtain ⟨cs, rfl⟩ := List.head?_eq_some_iff.1 hhead
    have hbody : body (byteOrderMark :: cs) = cs := dropBytes_append [byteOrderMark] cs
    rw [hbody, ← List.singleton_append, List.append_cancel_right_eq] at h
    exact .inr h.symm
  · rw [body_eq_self hhead] at h
    exact .inl (List.append_left_eq_self.1 h.symm)

theorem IsCrlf.body {t : Text} (h : t.IsCrlf) : t.body.IsCrlf := by
  obtain ⟨mark, ht, -, -⟩ := t.exists_body
  have hmark : mark.getLast? ≠ some '\r' := by
    rcases eq_mark ht with rfl | rfl <;> decide
  have hhead := h.head?_ne ht hmark
  rw [ht] at h
  exact h.right hhead

/-- No backslash takes a line feed that follows a carriage return. -/
theorem IsCrlf.breaksLine {w : Text} (h : w.IsCrlf) (hn : '\n' ∈ w) : w.breaksLine := by
  obtain ⟨a, b, rfl⟩ := List.append_of_mem hn
  obtain ⟨a, rfl⟩ := List.getLast?_eq_some_iff.1 (h.getLast? rfl)
  have hline : EndsLine (a ++ ['\r'] ++ ['\n']) := by
    refine ⟨⟨_, rfl⟩, ?_⟩
    rintro ⟨x, hx⟩
    have := congrArg List.reverse hx
    simp at this
  have := hline.breaksLine (w := b)
  simpa using this

/-- No closed string holds a line feed that follows a carriage return. -/
theorem IsQuotable.not_mem {q : Char} {x : Text} (h : IsQuotable q x) (hq : q ≠ '\r')
    (hcrlf : IsCrlf (q :: x)) : '\n' ∉ x := by
  intro hn
  obtain ⟨a, b, rfl⟩ := List.append_of_mem hn
  have hlast := hcrlf.getLast? (a := q :: a) rfl
  rcases List.eq_nil_or_concat a with rfl | ⟨a, c, rfl⟩
  · exact hq (Option.some.inj hlast)
  · have hescapes := h.escaped _ '\n' b rfl (.inr rfl)
    have hc : c = '\r' := by simpa [List.getLast?_cons] using hlast
    subst hc
    simp [escapes] at hescapes

/-- A closed string can be written anew between its quotes, with no line feed in it. -/
theorem IsCrlf.requote {a old new b : Text} {q : Char} (h : IsCrlf (a ++ (q :: old ++ [q]) ++ b))
    (hq : q = '\'' ∨ q = '"') (hold : IsQuotable q old) (hnew : '\n' ∉ old → '\n' ∉ new) :
    IsCrlf (a ++ (q :: new ++ [q]) ++ b) ∧
      ('\n' ∈ a ++ (q :: old ++ [q]) ++ b → '\n' ∈ a ++ (q :: new ++ [q]) ++ b) := by
  have hqne : q ≠ '\n' ∧ q ≠ '\r' := by rcases hq with rfl | rfl <;> decide
  have hquotes : ∀ x : Text, '\n' ∉ x → '\n' ∉ q :: x ++ [q] := fun x hx => by
    simp [hx, hqne.1.symm]
  have hrest : b.IsCrlf := by
    refine h.right (h.head?_ne rfl ?_)
    rw [← List.append_assoc, List.getLast?_concat]
    simpa using hqne.2
  have hline : '\n' ∉ old :=
    hold.not_mem hqne.2 (h.left.right (by simpa using hqne.1)).left
  refine ⟨(h.left.left.append (isCrlf_of_not_mem (hquotes new (hnew hline)))).append hrest, ?_⟩
  intro hn
  rw [List.mem_append, List.mem_append] at hn ⊢
  exact hn.imp_left fun hn => .inl (hn.resolve_right (hquotes old hline))

end Text

-- ---------------------------------------------------------------------------
-- The text of a declaration
-- ---------------------------------------------------------------------------

/-- The characters at which declarations end: quotes and `;`. -/
def closing : List Char := ['\'', '"', ';']

theorem not_blank_of_closing {c : Char} (h : c ∈ closing) :
    isBlank [c] = false ∧ c ≠ '\n' ∧ c ≠ '\r' := by
  simp only [closing, List.mem_cons, List.not_mem_nil, or_false] at h
  rcases h with rfl | rfl | rfl <;> decide

/-- How a declaration stands in a text, with its keyword and clause, its quoted specifier, and
perhaps a `;` behind it. -/
structure Declaration.Layout (d : Declaration) (t above clause : Text) (q : Char)
    (x tail below : Text) : Prop where
  text : t = above ++ (clause ++ q :: (x ++ q :: tail) ++ below)
  span : d.span = ⟨above.size, above.size + (clause ++ q :: (x ++ q :: tail)).size⟩
  blank : lineBlank true above = true
  clause : ∀ c ∈ clause, c ∉ closing
  quote : q = '\'' ∨ q = '"'
  quotable : IsQuotable q x
  tail : tail = [] ∨ ∃ gap, tail = gap ++ [';'] ∧ '\n' ∉ gap

theorem not_closing_of_spaces {gap : Text} (h : gap.all isSpace) : ∀ c ∈ gap, c ∉ closing := by
  intro c hc hclosing
  have hspace : ∀ c ∈ closing, isSpace c = false := by simp [closing, isSpace]
  have hc' := List.all_eq_true.1 h c hc
  rw [hspace c hclosing] at hc'
  cases hc'

/-- No mark of a clause ends a declaration. -/
theorem Mark.not_closing_of_kind {m : Mark} (hp : m.Proper) (h : m.kind = .ident ∨
    m.kind = .punct ',' ∨ m.kind = .punct '\x7b' ∨ m.kind = .punct '\x7d') :
    ∀ c ∈ m.source, c ∉ closing := by
  have hclosing : ∀ c ∈ closing, isIdentChar c = false ∧ c ∉ [',', '\x7b', '\x7d'] := by
    simp [closing, isIdentChar, isIdentStart]
  have hpunct : ∀ k ∈ [',', '\x7b', '\x7d'], m.kind = .punct k → ∀ c ∈ m.text, c ∉ closing := by
    intro k hk hkind c hc hmem
    have hshapes := hp.shapes
    rw [hkind] at hshapes
    rw [show m.text = [k] from hshapes, List.mem_singleton] at hc
    exact (hclosing c hmem).2 (hc ▸ hk)
  intro c hc
  rcases List.mem_append.1 hc with hc | hc
  · exact not_closing_of_spaces hp.gap c hc
  · rcases h with h | h | h | h
    · have hshapes := hp.shapes
      rw [h] at hshapes
      intro hmem
      have hident := (hclosing c hmem).1
      rw [List.all_eq_true.1 (all_of_isWord hshapes) c hc] at hident
      cases hident
    · exact hpunct ',' (by decide) h c hc
    · exact hpunct '\x7b' (by decide) h c hc
    · exact hpunct '\x7d' (by decide) h c hc

/-- The line does not end before a `;` that ends a statement. -/
theorem Mark.not_mem_gap_of_extent? {rest front : List Mark} {m : Mark} {n i : Nat}
    (h : extent? rest = some (n, some i)) (htake : rest.take n = front ++ [m])
    (hfront : front.length = i + 1) : '\n' ∉ m.gap := by
  obtain ⟨-, ⟨-, rfl⟩ | ⟨j, hj, -⟩⟩ := extent?_eq_some h
  · have hlength := congrArg List.length htake
    rw [List.length_take, List.length_append, hfront, List.length_singleton] at hlength
    omega
  · have hrest := List.take_append_drop n rest
    rw [htake, List.append_assoc, List.singleton_append] at hrest
    rw [← hrest, ← hfront, List.drop_left, semicolonIndex?] at hj
    split at hj
    · cases hj
    · assumption

/-- What stands before the quoted specifier of a declaration does not end one. -/
theorem Declaration.Reads.not_closing {d : Declaration} {head word specifier : Mark}
    {clause tail : List Mark} (h : d.Reads clause word specifier tail)
    (hp : ∀ m ∈ head :: (clause ++ word :: specifier :: tail), m.Proper)
    (hhead : head.kind = .ident) :
    ∀ c ∈ head.text ++ Mark.sources clause ++ word.source ++ specifier.gap, c ∉ closing := by
  have hkinds := (Statement.clause?_eq_some_iff.1 h.clause_eq).kind
  intro c hc
  simp only [List.mem_append] at hc
  rcases hc with ((hc | hc) | hc) | hc
  · exact Mark.not_closing_of_kind (hp head (by simp)) (.inl hhead) c (List.mem_append_right _ hc)
  · obtain ⟨m, hm, hc⟩ := List.mem_flatMap.1 hc
    exact Mark.not_closing_of_kind (hp m (by simp [hm]))
      (hkinds m.token (List.mem_map_of_mem hm)) c hc
  · exact Mark.not_closing_of_kind (hp word (by simp))
      (.inl (eq_of_beq (Bool.and_eq_true_iff.1 h.isFrom).1)) c hc
  · exact not_closing_of_spaces (hp specifier (by simp)).gap c hc

/-- Behind the specifier of a declaration nothing stands but a `;` on the same line. -/
theorem Declaration.Reads.tail_sources {d : Declaration} {rest clause tail : List Mark}
    {word specifier : Mark} {n : Nat} (h : d.Reads clause word specifier tail)
    (hp : ∀ m ∈ tail, m.Proper) (htake : rest.take n = clause ++ word :: specifier :: tail)
    (hextent : Mark.extent? rest = some (n, some (clause.length + 1))) :
    Mark.sources tail = [] ∨ ∃ gap, Mark.sources tail = gap ++ [';'] ∧ '\n' ∉ gap := by
  have htail := h.tail_eq
  split at htail
  · obtain ⟨m, rfl, hm⟩ := htail
    have hshapes := (hp m (by simp)).shapes
    rw [show m.kind = .punct ';' from eq_of_beq hm] at hshapes
    refine .inr ⟨m.gap, ?_, ?_⟩
    · rw [Mark.sources_cons, show m.text = [';'] from hshapes]
      simp
    · have hlast : rest.take n = (clause ++ [word, specifier]) ++ [m] := by
        rw [htake]
        simp
      exact Mark.not_mem_gap_of_extent? hextent hlast (by simp)
  · exact .inl (by rw [htail]; rfl)

theorem Script.exists_layout {t : Text} {d : Declaration} (h : d ∈ (parse t).declarations) :
    ∃ above clause q x tail below, d.Layout t above clause q x tail below := by
  obtain ⟨ps, head, body, at?, qs, x, y, z, hfound⟩ := found_of_mem h
  obtain ⟨rest, n, -, rfl, he, -⟩ := outline_eq_statement (outline_suffix hfound.parts).symm
  obtain ⟨-, -, clause, word, specifier, tail, htake, rfl, hreads⟩ :=
    Part.reads_of_declaration? he hfound.declaration
  obtain ⟨mark, ht, hspan, -, hblank⟩ := hfound.exists_around
  have hproper := hfound.proper
  have htop : ∀ m ∈ rest.take n, m ∈ top t.body := fun m hm => by
    rw [top_of_statement hfound.parts]
    exact List.mem_append_right _ (List.mem_cons_of_mem _ (List.mem_append_left _ hm))
  have hy := hfound.text
  rw [htake] at hproper htop hy
  obtain ⟨q, old, hq, htext, hquotable⟩ := quotable_top (htop specifier (by simp))
    (Token.kind_of_contents? hreads.contents)
  have hown : y = (head.text ++ Mark.sources clause ++ word.source ++ specifier.gap) ++
      q :: (old ++ q :: Mark.sources tail) := by
    rw [Mark.sources_cons, List.append_assoc, List.append_cancel_left_eq] at hy
    rw [hy, Mark.source]
    simp [htext]
  refine ⟨mark ++ x, _, q, old, Mark.sources tail, z, ?_, hown ▸ hspan, ?_,
    hreads.not_closing (fun m hm => hproper m (List.mem_append_right _ hm)) ?_, hq, hquotable,
    hreads.tail_sources (fun m hm => hproper m (by simp [hm])) htake he⟩
  · rw [← hown]
    exact ht
  · rw [lineBlank_append, hblank]
    exact hfound.lineBlank_before
  · rw [hfound.head_eq]
    rfl

namespace Declaration.Layout

variable {d : Declaration} {t above clause x tail below : Text} {q : Char}

theorem stop_eq (h : d.Layout t above clause q x tail below) :
    d.span.stop = (above ++ (clause ++ q :: (x ++ q :: tail))).size := by
  rw [h.span]
  exact (size_append above _).symm

/-- A declaration ends with its quote or its `;`. -/
theorem exists_end (h : d.Layout t above clause q x tail below) :
    ∃ front c, t = above ++ (front ++ [c]) ++ below ∧ d.span.stop = (above ++ (front ++ [c])).size ∧
      c ∈ closing := by
  have hend : ∃ front c, clause ++ q :: (x ++ q :: tail) = front ++ [c] ∧ c ∈ closing := by
    rcases h.tail with rfl | ⟨gap, rfl, -⟩
    · refine ⟨clause ++ q :: x, q, by simp, ?_⟩
      rcases h.quote with rfl | rfl <;> decide
    · exact ⟨clause ++ q :: (x ++ q :: gap), ';', by simp, by decide⟩
  obtain ⟨front, c, heq, hc⟩ := hend
  refine ⟨front, c, ?_, heq ▸ h.stop_eq, hc⟩
  rw [← heq, List.append_assoc]
  exact h.text

/-- A line break can stand in a declaration between its keyword and its specifier. -/
theorem not_mem_specifier (h : d.Layout t above clause q x tail below) (ht : t.IsCrlf) :
    '\n' ∉ q :: (x ++ q :: tail) := by
  have hq : q ≠ '\n' ∧ q ≠ '\r' := by rcases h.quote with rfl | rfl <;> decide
  have hquoted : IsCrlf (q :: x) := by
    have htext : t = above ++ clause ++ (q :: x ++ (q :: (tail ++ below))) := by
      rw [h.text]
      simp
    rw [htext] at ht
    exact (ht.right (by simpa using hq.1)).left
  have htail : '\n' ∉ tail := by
    rcases h.tail with rfl | ⟨gap, rfl, hgap⟩
    · exact List.not_mem_nil
    · simpa using hgap
  have hx := h.quotable.not_mem hq.2 hquoted
  simp only [List.mem_cons, List.mem_append, not_or]
  exact ⟨hq.1.symm, hx, hq.1.symm, htail⟩

end Declaration.Layout

theorem Script.splitsNoBreak_stop {t : Text} {d : Declaration} (ht : t.IsCrlf)
    (h : d ∈ (parse t).declarations) : t.SplitsNoBreak d.span.stop := by
  obtain ⟨above, clause, q, x, tail, below, hlayout⟩ := exists_layout h
  obtain ⟨front, c, htext, hstop, hc⟩ := hlayout.exists_end
  rw [hstop]
  refine ht.splitsNoBreak htext ?_
  rw [← List.append_assoc, List.getLast?_concat]
  exact fun heq => (not_blank_of_closing hc).2.2 (Option.some.inj heq)

-- ---------------------------------------------------------------------------
-- Line breaks outside declarations
-- ---------------------------------------------------------------------------

/-- Does a line of the text end above the declaration or below it? -/
def Declaration.LeavesBreak (d : Declaration) (t : Text) : Prop :=
  '\n' ∈ t.takeBytes d.span.start ∨ '\n' ∈ t.dropBytes d.span.stop

instance (d : Declaration) (t : Text) : Decidable (d.LeavesBreak t) :=
  inferInstanceAs (Decidable (_ ∨ _))

/-- Does a text have a line break, also when one of its declarations is written on one line? -/
def Text.LeavesBreak (t : Text) : Prop :=
  '\n' ∈ t ∧ ∀ d ∈ (Script.parse t).declarations, d.LeavesBreak t

/-- A line break that no declaration can hold: above it stands a character at which declarations
end, or below it an `import` that is first on its line. -/
inductive Text.FreeBreak (t : Text) : Prop
  | ended {x y : Text} {c : Char} (text : t = x ++ c :: y) (hc : c ∈ closing) (mem : '\n' ∈ y)
  | above {p q : List Mark} {m : Mark} (marks : top t.body = p ++ m :: q) (leads : m.leads)
      (mem : '\n' ∈ Mark.sources p ++ m.gap)

theorem Declaration.Layout.leavesBreak_iff {d : Declaration} {t above clause x tail below : Text}
    {q : Char} (h : d.Layout t above clause q x tail below) :
    d.LeavesBreak t ↔ '\n' ∈ above ∨ '\n' ∈ below := by
  have htake : t.takeBytes d.span.start = above := by
    rw [h.span, h.text, takeBytes_append]
  have hdrop : t.dropBytes d.span.stop = below := by
    have htext := h.text
    rw [← List.append_assoc above] at htext
    rw [h.stop_eq, htext, dropBytes_append]
  rw [LeavesBreak, htake, hdrop]

namespace Text.FreeBreak

variable {t : Text} {d : Declaration}

theorem mem (h : t.FreeBreak) : '\n' ∈ t := by
  cases h with
  | ended ht _ hmem => rw [ht]; simp [hmem]
  | @above p q m hmarks _ hmem =>
    obtain ⟨mark, ht, -, -⟩ := t.exists_body
    rw [ht, ← sources_top_leaveTop t.body, hmarks, Mark.sources_append, Mark.sources_cons]
    rcases List.mem_append.1 hmem with hmem | hmem <;> simp [hmem]

theorem leavesBreak_of_ended {x y : Text} {c : Char} (hcrlf : t.IsCrlf) (ht : t = x ++ c :: y)
    (hc : c ∈ closing) (hmem : '\n' ∈ y) (hd : d ∈ (Script.parse t).declarations) :
    d.LeavesBreak t := by
  obtain ⟨u, y, rfl⟩ := List.append_of_mem hmem
  obtain ⟨above, clause, q, z, tail, below, hlayout⟩ := Script.exists_layout hd
  rw [hlayout.leavesBreak_iff]
  by_contra hnone
  obtain ⟨habove, hbelow⟩ := not_or.1 hnone
  -- The line break would stand in the clause, and the character there or before it on its line.
  have hrest : '\n' ∉ q :: (z ++ q :: tail) ++ below := fun hmem =>
    (List.mem_append.1 hmem).elim (hlayout.not_mem_specifier hcrlf) hbelow
  have heq : above ++ clause ++ (q :: (z ++ q :: tail) ++ below) = (x ++ c :: u) ++ '\n' :: y := by
    have htext := hlayout.text
    rw [ht] at htext
    simpa using htext.symm
  rcases List.append_eq_append_iff.1 heq with ⟨w, -, hw⟩ | ⟨w, hw, -⟩
  · exact hrest (by rw [hw]; simp)
  · rcases List.append_eq_append_iff.1 (show above ++ clause = x ++ (c :: u ++ w) by simpa using hw)
      with ⟨v, -, hv⟩ | ⟨v, hx, hv⟩
    · exact hlayout.clause c (by rw [hv]; simp) hc
    · cases v with
      | nil => exact hlayout.clause c (by rw [← List.nil_append clause, ← hv]; simp) hc
      | cons k v =>
        rw [List.cons_append, List.cons_append] at hv
        obtain ⟨rfl, -⟩ := List.cons.inj hv
        obtain ⟨hc, hn, -⟩ := not_blank_of_closing hc
        have hv := mem_of_lineBlank hn hc (hx ▸ hlayout.blank)
        exact habove (by rw [hx]; simp [hv])

theorem leavesBreak_of_above {p q : List Mark} {m : Mark} (hmarks : top t.body = p ++ m :: q)
    (hl : m.leads) (hmem : '\n' ∈ Mark.sources p ++ m.gap)
    (hd : d ∈ (Script.parse t).declarations) : d.LeavesBreak t := by
  obtain ⟨above, clause, k, z, tail, below, hlayout⟩ := Script.exists_layout hd
  obtain ⟨front, c, htext, hstop, hc⟩ := hlayout.exists_end
  rw [hlayout.leavesBreak_iff]
  obtain ⟨mark, ht, hsize, hmark⟩ := t.exists_body
  have hcut : t = mark ++ (Mark.sources p ++ m.gap) ++
      (m.text ++ Mark.sources q ++ (leaveTop t.body).2) := by
    conv => lhs; rw [ht, ← sources_top_leaveTop t.body, hmarks]
    simp
  have hreads := reads_top t.body
  rw [hmarks] at hreads
  obtain ⟨ps, hparts, hps⟩ := outline_split_of_leads 0 false
    (fun k hk => proper_top t.body k (hmarks ▸ hk)) hreads hl
  rw [Script.declarations_parse, parts, hmarks, hparts, Part.declarationsFrom_append, hps,
    List.mem_append] at hd
  rcases hd with hd | hd
  · -- Nothing but blanks stands before the `import` on its line, so the declaration ends above it.
    obtain ⟨front', part, back, rfl, -, hspan⟩ := Part.mem_declarationsFrom hd
    have hle : (above ++ (front ++ [c])).size ≤ (mark ++ (Mark.sources p ++ m.gap)).size := by
      rw [← hstop, hspan, ← hps, size_append mark, hsize]
      simp [Part.spanAt, Nat.add_assoc]
    obtain ⟨w, hw, rfl⟩ := exists_of_size_le (htext.symm.trans hcut) hle
    have hblank : lineBlank true (mark ++ (Mark.sources p ++ m.gap)) = true := by
      have hrest := Mark.reads_drop p.length hreads
      rw [List.take_left, List.drop_left] at hrest
      have hleads := hrest.1
      rw [hl] at hleads
      rw [lineBlank_append, hmark, lineBlank_append]
      exact (Bool.and_eq_true_iff.1 hleads.symm).1
    have hend : above ++ (front ++ [c]) ++ w = above ++ front ++ c :: w := by simp
    rw [hw, hend] at hblank
    obtain ⟨hc, hn, -⟩ := not_blank_of_closing hc
    exact .inr (List.mem_append_left _ (mem_of_lineBlank hn hc hblank))
  · have hle := Part.le_start_of_mem hd (n := m.gap.size) (by
      rw [allMarks_outline]
      simp)
    have hstart : (mark ++ (Mark.sources p ++ m.gap)).size ≤ above.size := by
      rw [hlayout.span] at hle
      rw [size_append, hsize, size_append]
      simpa [Nat.add_assoc] using hle
    obtain ⟨w, hw, -⟩ := exists_of_size_le (hcut.symm.trans hlayout.text) hstart
    left
    rw [hw]
    exact List.mem_append_left _ (List.mem_append_right _ hmem)

/-- A free line break is left by all declarations. -/
theorem leavesBreak (h : t.FreeBreak) (hcrlf : t.IsCrlf) : t.LeavesBreak := by
  refine ⟨h.mem, fun d hd => ?_⟩
  cases h with
  | ended ht hc hmem => exact leavesBreak_of_ended hcrlf ht hc hmem hd
  | above hmarks hl hmem => exact leavesBreak_of_above hmarks hl hmem hd

end Text.FreeBreak

-- ---------------------------------------------------------------------------
-- Edits that leave a line break
-- ---------------------------------------------------------------------------

section

variable {t : Text} {d : Declaration}

/-- A line ends between each `/` and an `import` below it that is first on its line. -/
theorem Text.IsCrlf.slashesSettle (ht : t.IsCrlf) {p q : List Mark} {m : Mark}
    (hmarks : top t.body = p ++ m :: q) (hl : m.leads) (s : State) :
    SlashesSettle s p m.gap := by
  rintro front k back hp hk -
  have hbody := (sources_top_leaveTop t.body).symm
  have htext : k.text = ['/'] := by
    have hshapes := (proper_top t.body k (by rw [hmarks, hp]; simp)).shapes
    rw [hk] at hshapes
    exact hshapes
  -- What stands between the `/` and the `import` is a text of its own.
  have hcut : t.body = (Mark.sources front ++ k.gap ++ ['/']) ++ ((Mark.sources back ++ m.gap) ++
      (m.text ++ Mark.sources q ++ (leaveTop t.body).2)) := by
    conv => lhs; rw [hbody, hmarks, hp]
    simp [htext]
  have hcrlf := ht.body
  have hhead := hcrlf.head?_ne hcut (by simp)
  rw [hcut] at hcrlf
  refine (hcrlf.right hhead).left.breaksLine ?_
  have hreads := reads_top t.body
  rw [hmarks] at hreads
  have hrest := Mark.reads_drop p.length hreads
  rw [List.take_left, List.drop_left] at hrest
  have hleads := hrest.1
  have hsources : Mark.sources p ++ m.gap =
      Mark.sources front ++ k.gap ++ '/' :: (Mark.sources back ++ m.gap) := by
    rw [hp]
    simp [htext]
  rw [hl, ← lineBlank_append, hsources] at hleads
  exact mem_of_lineBlank (by decide) (by decide) (Bool.and_eq_true_iff.1 hleads.symm).1

/-- Where a declaration is written anew, its keyword is met again. -/
theorem Declaration.Found.exists_keyword {ps qs : List Part} {head : Mark} {body : List Mark}
    {at? : Option Nat} {x y z start : Text} (h : d.Found t ps head body at? qs x y z)
    (ht : t.IsCrlf) (htext : t = start ++ (y ++ z)) (hsize : start.size = d.span.start) (w : Text) :
    ∃ m q, top (start ++ ("import ".toList ++ w)).body = Part.allMarks ps ++ m :: q ∧ m.leads ∧
      m.gap = head.gap := by
  obtain ⟨y, rfl⟩ := h.exists_text
  have hbody := h.body_eq
  obtain ⟨front, hfront, hfrontSize, hkept⟩ := exists_start (by decide) hbody
  rw [h.span, ← hfrontSize] at hsize
  obtain ⟨rfl, -⟩ := append_inj_size (htext.symm.trans hfront) hsize
  have htop := top_of_statement h.parts
  obtain ⟨s, hs⟩ := top_replace (by decide) (hbody ▸ htop) h.before
    (ht.slashesSettle htop h.leads {})
  obtain ⟨-, hnew⟩ := hkept ("mport".toList ++ (' ' :: w))
  have hmarks := hs ("mport".toList ++ (' ' :: w))
  have hword := @State.scan_word s 'i' "mport".toList (' ' :: w) (by decide)
    (fun k hk => by cases hk; decide)
  rw [h.lineBlank_before, ← List.cons_append, marks_token true head.gap (by decide) hword] at hmarks
  exact ⟨_, _, (congrArg top hnew).trans hmarks, rfl, rfl⟩

/-- A declaration stands between two texts, and leaves the line breaks that these hold. -/
theorem Declaration.Found.exists_outside {ps qs : List Part} {head : Mark} {body : List Mark}
    {at? : Option Nat} {x y z : Text} (h : d.Found t ps head body at? qs x y z) :
    ∃ mark, t = mark ++ x ++ (y ++ z) ∧
      d.span = ⟨(mark ++ x).size, (mark ++ x).size + y.size⟩ ∧ '\n' ∉ mark ∧
      (d.LeavesBreak t ↔ '\n' ∈ x ∨ '\n' ∈ z) := by
  obtain ⟨mark, htext, hspan, -, -⟩ := h.exists_around
  have htake : t.takeBytes d.span.start = mark ++ x := by rw [hspan, htext, takeBytes_append]
  have hdrop : t.dropBytes d.span.stop = z := by
    rw [hspan, htext, ← size_append, ← List.append_assoc, dropBytes_append]
  have hmark : '\n' ∉ mark := by
    have hbody := htext
    rw [List.append_assoc, ← h.body_eq] at hbody
    rcases eq_mark hbody with rfl | rfl <;> decide
  exact ⟨mark, htext, hspan, hmark,
    by rw [LeavesBreak, htake, hdrop, List.mem_append, or_iff_right hmark]⟩

/-- A line break that one declaration leaves is a free one. -/
theorem Text.freeBreak_of_leavesBreak (hd : d ∈ (Script.parse t).declarations)
    (h : d.LeavesBreak t) : t.FreeBreak := by
  obtain ⟨ps, head, body, at?, qs, x, y, z, hfound⟩ := Script.found_of_mem hd
  obtain ⟨mark, htext, hspan, -, hleaves⟩ := hfound.exists_outside
  rcases hleaves.1 h with hmem | hmem
  · exact .above (top_of_statement hfound.parts) hfound.leads (hfound.before ▸ hmem)
  · obtain ⟨above, clause, q, w, tail, below, hlayout⟩ := Script.exists_layout hd
    obtain ⟨front, c, heq, hstop, hc⟩ := hlayout.exists_end
    have hbelow : below = z := by
      have hleft : t.dropBytes d.span.stop = below := by rw [hstop, heq, dropBytes_append]
      rw [← hleft, hspan, htext, ← size_append, ← List.append_assoc, dropBytes_append]
    exact .ended (x := above ++ front) (y := below) (by rw [heq]; simp) hc (hbelow ▸ hmem)

/-- A declaration that leaves a line break, written anew on one line, leaves a free one. -/
theorem Text.freeBreak_of_rewrite {rest : Text} {c : Char} (ht : t.IsCrlf)
    (hd : d ∈ (Script.parse t).declarations) (h : d.LeavesBreak t) (hc : c ∈ closing) :
    FreeBreak (Edit.applyAll [⟨d.span, "import ".toList ++ (rest ++ [c])⟩] t) := by
  obtain ⟨ps, head, body, at?, qs, x, y, z, hfound⟩ := Script.found_of_mem hd
  obtain ⟨mark, htext, hspan, -, hleaves⟩ := hfound.exists_outside
  rw [Edit.applyAll_around htext hspan]
  rcases hleaves.1 h with hmem | hmem
  · obtain ⟨m, q, hmarks, hl, hgap⟩ := hfound.exists_keyword ht htext
      (congrArg Span.start hspan).symm (rest ++ [c] ++ z)
    rw [← List.append_assoc "import ".toList] at hmarks
    exact .above hmarks hl (by rw [hgap, ← hfound.before]; exact hmem)
  · exact .ended (x := mark ++ x ++ ("import ".toList ++ rest)) (y := z) (by simp) hc hmem

/-- A declaration that holds all line breaks, written anew on one line, leaves none. -/
theorem Text.not_mem_rewrite {w : Text} (hd : d ∈ (Script.parse t).declarations)
    (h : ¬ d.LeavesBreak t) (hw : '\n' ∉ w) : '\n' ∉ Edit.applyAll [⟨d.span, w⟩] t := by
  obtain ⟨ps, head, body, at?, qs, x, y, z, hfound⟩ := Script.found_of_mem hd
  obtain ⟨mark, htext, hspan, hmark, hleaves⟩ := hfound.exists_outside
  rw [hleaves, not_or] at h
  rw [Edit.applyAll_around htext hspan]
  simp only [List.mem_append, not_or]
  exact ⟨⟨hmark, h.1⟩, hw, h.2⟩

end

end TidyImports
