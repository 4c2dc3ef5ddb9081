-- SUMMARY: A directive line stays one whatever changes below it.
import TidyImports.Proofs.Lexing.Front

/-!
# Directives of the prologue

What kind of line a line is depends on the code that starts above its end, and
up to a directive there is nothing but closed strings and semicolons. So a
directive that is over on its line is found again in every text that has the
same lines down to it.
-/

namespace TidyImports

open Text Lexer

namespace Script

variable {t t' : Text} {n m : Nat} {v : Text}

-- ---------------------------------------------------------------------------
-- Code on a line
-- ---------------------------------------------------------------------------

/-- The code of a line is the code of the text that reaches into it. -/
theorem filter_isCode_tokensWithin (t : Text) (line : Span) :
    ((parse t).tokensWithin line).filter Token.isCode =
      (Token.codeBefore line.stop (tokenize t)).filter fun tok => line.start < tok.stop := by
  rw [tokensWithin_eq_filter, Token.codeBefore, List.filter_filter, List.filter_filter]
  refine List.filter_congr fun tok _ => ?_
  rw [Bool.and_left_comm, Bool.and_comm (decide (line.start < tok.stop)), ← Bool.and_assoc,
    Bool.and_comm (decide (tok.start < line.stop))]

/-- Lines with the same code are of the same kind. -/
theorem lineKind_congr {line : Span}
    (h : Token.codeBefore line.stop (tokenize t) = Token.codeBefore line.stop (tokenize t')) :
    (parse t).lineKind line = (parse t').lineKind line := by
  rw [lineKind, lineKind, filter_isCode_tokensWithin, filter_isCode_tokensWithin, h]

/-- A line without code is blank, or holds nothing but comments. -/
theorem lineKind_of_nil {line : Span} (h : Token.codeBefore line.stop (tokenize t) = []) :
    (parse t).lineKind line = .trivia := by
  rw [lineKind, filter_isCode_tokensWithin, h]
  rfl

theorem codeBefore_codeBefore (h : n ≤ m) (tokens : List Token) :
    Token.codeBefore n (Token.codeBefore m tokens) = Token.codeBefore n tokens := by
  rw [Token.codeBefore, Token.codeBefore, List.filter_filter, Token.codeBefore]
  refine List.filter_congr fun tok _ => ?_
  by_cases hn : tok.start < n
  · simp [hn, Nat.lt_of_lt_of_le hn h]
  · simp [hn]

/-- The string of a directive opens on its line, and nothing but a `;` comes with it. -/
theorem of_lineKind_directive {line : Span} (h : (parse t).lineKind line = .directive v) :
    ∃ tok ∈ tokenize t, tok.contents? = some v ∧ line.start ≤ tok.start ∧ tok.start < line.stop ∧
      ∀ other ∈ tokenize t, other.isCode → line.start < other.stop → other.start < line.stop →
        other = tok ∨ other.isPunct ';' := by
  have hmem : ∀ tok, tok ∈ ((parse t).tokensWithin line).filter Token.isCode ↔
      tok ∈ tokenize t ∧ tok.isCode ∧ line.start < tok.stop ∧ tok.start < line.stop := fun tok => by
    rw [List.mem_filter, mem_tokensWithin, and_assoc, and_comm (b := tok.isCode = true)]
  rw [lineKind] at h
  cases hcode : ((parse t).tokensWithin line).filter Token.isCode with
  | nil => simp [hcode] at h
  | cons tok rest =>
    rw [hcode] at h hmem
    obtain ⟨htok, -, hstop, hstart⟩ := (hmem tok).1 (List.mem_cons_self ..)
    have hothers : tok.contents? = some v ∧ line.start ≤ tok.start ∧
        ∀ other ∈ rest, other.isPunct ';' := by
      cases hcontents : tok.contents? with
      | none => simp [hcontents] at h
      | some value =>
        simp only [hcontents] at h
        rcases rest with _ | ⟨next, _ | ⟨next', more⟩⟩
        all_goals
          simp only at h
          split at h
          · simp_all
          · cases h
    refine ⟨tok, htok, hothers.1, hothers.2.1, hstart, fun other hother hocode hostop hostart => ?_⟩
    exact (List.mem_cons.1 ((hmem other).2 ⟨hother, hocode, hostop, hostart⟩)).imp id
      (hothers.2.2 other)

-- ---------------------------------------------------------------------------
-- Lines of the prologue
-- ---------------------------------------------------------------------------

theorem InPrologue.isLineEdge {s : Script} (h : s.InPrologue n) : s.text.IsLineEdge n := by
  induction h with
  | top => exact isLineEdge_zero _
  | line _ _ ih => exact isLineEdge_nextLine ih.isCut

/-- The prologue goes on from the start of a line to its end. -/
theorem InPrologue.next (h : (parse t).InPrologue n) (hnext : t.nextLine n = m)
    (hkind : (parse t).lineKind ⟨n, m⟩ ≠ .code) : (parse t).InPrologue m := by
  subst hnext
  exact h.line hkind

/-- What is left of the prologue is found from each of its lines on. -/
theorem InPrologue.prologue_eq {s : Script} (h : s.InPrologue n) :
    ∃ values, s.prologue = ((s.prologueFrom n (lines (s.text.dropBytes n))).1,
      values ++ (s.prologueFrom n (lines (s.text.dropBytes n))).2) := by
  induction h with
  | top => exact ⟨[], by rw [prologue, dropBytes_zero, List.nil_append]⟩
  | line hn hkind ih =>
    rename_i n
    obtain ⟨values, hvalues⟩ := ih
    have hcut := hn.isLineEdge.isCut
    cases hls : lines (s.text.dropBytes n) with
    | nil =>
      have hnil : s.text.dropBytes n = [] := by rw [← flatten_lines (s.text.dropBytes n), hls]; rfl
      have hnext : s.text.nextLine n = n := by
        rw [nextLine, hnil]
        rfl
      exact ⟨values, by rw [hnext, hvalues]⟩
    | cons line more =>
      obtain ⟨hnext, hmore⟩ := lines_dropBytes hcut hls
      rw [hls, prologueFrom] at hvalues
      rw [hmore, hnext]
      rw [hnext] at hkind
      split at hvalues
      · exact ⟨values, hvalues⟩
      · next value _ => exact ⟨values ++ [value], by rw [hvalues]; simp⟩
      · next hcode => exact absurd hcode hkind

theorem le_prologueFrom (s : Script) (n : Nat) (ls : List Text) : n ≤ (s.prologueFrom n ls).1 := by
  obtain ⟨front, -, hfst⟩ := s.prologueFrom_fst n ls
  rw [hfst]
  exact Nat.le_add_right ..

theorem InPrologue.le_prologue {s : Script} (h : s.InPrologue n) : n ≤ s.prologue.1 := by
  obtain ⟨values, hvalues⟩ := h.prologue_eq
  rw [hvalues]
  exact le_prologueFrom ..

theorem mem_prologueFrom {s : Script} {ls : List Text} (hls : lines (s.text.dropBytes n) = ls)
    (h : s.InPrologue n) (hv : v ∈ (s.prologueFrom n ls).2) :
    ∃ m, s.InPrologue m ∧ s.lineKind ⟨m, s.text.nextLine m⟩ = .directive v := by
  induction ls generalizing n with
  | nil => cases hv
  | cons line more ih =>
    obtain ⟨hnext, hmore⟩ := lines_dropBytes h.isLineEdge.isCut hls
    have hstep := fun hkind => ih hmore (h.line hkind)
    rw [hnext] at hstep
    rw [prologueFrom] at hv
    split at hv
    case h_1 hkind => exact hstep (by simp [hkind]) hv
    case h_2 hkind =>
      rcases List.mem_cons.1 hv with rfl | hv
      · exact ⟨n, h, by rw [hnext]; exact hkind⟩
      · exact hstep (by simp [hkind]) hv
    case h_3 => cases hv

/-- The directives are the values of the directive lines of the prologue. -/
theorem mem_prologue : v ∈ (parse t).prologue.2 ↔
    ∃ n, (parse t).InPrologue n ∧ (parse t).lineKind ⟨n, t.nextLine n⟩ = .directive v := by
  refine ⟨mem_prologueFrom (by rw [dropBytes_zero]) .top, ?_⟩
  rintro ⟨n, hn, hkind⟩
  obtain ⟨values, hvalues⟩ := hn.prologue_eq
  rw [hvalues]
  refine List.mem_append_right _ ?_
  cases hls : lines (t.dropBytes n) with
  | nil =>
    have hnil : t.dropBytes n = [] := by rw [← flatten_lines (t.dropBytes n), hls]; rfl
    obtain ⟨tok, -, -, hstart, hlt, -⟩ := of_lineKind_directive hkind
    rw [nextLine, hnil] at hlt
    exact absurd hlt (Nat.not_lt_of_le hstart)
  | cons line more =>
    obtain ⟨hnext, -⟩ := lines_dropBytes hn.isLineEdge.isCut hls
    change t.nextLine n = _ at hnext
    rw [hnext] at hkind
    change v ∈ (prologueFrom (parse t) n (lines (t.dropBytes n))).2
    rw [hls, prologueFrom, hkind]
    exact List.mem_cons_self ..

-- ---------------------------------------------------------------------------
-- Directive lines
-- ---------------------------------------------------------------------------

/-- Is the line from `n` to the end of `front` a directive of the prologue? -/
structure DirectiveLine (front rest : Text) (n : Nat) (v : Text) : Prop where
  ends : front.EndsLines
  inPrologue : (parse (front ++ rest)).InPrologue n
  next : (front ++ rest).nextLine n = front.size
  kind : (parse (front ++ rest)).lineKind ⟨n, front.size⟩ = .directive v

section

variable {front rest : Text}

theorem DirectiveLine.mem_prologue (h : DirectiveLine front rest n v) :
    v ∈ (parse (front ++ rest)).prologue.2 :=
  Script.mem_prologue.2 ⟨n, h.inPrologue, by rw [h.next]; exact h.kind⟩

theorem DirectiveLine.inPrologue_next (h : DirectiveLine front rest n v) :
    (parse (front ++ rest)).InPrologue front.size :=
  h.inPrologue.next h.next (by simp [h.kind])

/-- A directive has its line, or the prologue is all of the text. -/
theorem exists_directiveLine (h : v ∈ (parse t).prologue.2) :
    (∃ front rest n, t = front ++ rest ∧ DirectiveLine front rest n v ∧
      front.size ≤ (parse t).prologue.1) ∨ (parse t).prologue.1 = t.size := by
  obtain ⟨n, hn, hkind⟩ := Script.mem_prologue.1 h
  have hnext : (parse t).InPrologue (t.nextLine n) := hn.next rfl (by simp [hkind])
  obtain ⟨front, rest, rfl, hsize, hedge⟩ := hnext.isLineEdge
  have hle := hnext.le_prologue
  have hends : front.EndsLines ∨ rest = [] := by
    rcases hedge with rfl | hlast | rfl
    · exact .inl fun c hc => nomatch hc
    · exact .inl fun c hc => (Option.some.inj (hlast.symm.trans hc)).symm
    · exact .inr rfl
  rcases hends with hends | rfl
  · rw [← hsize] at hkind hle
    exact .inl ⟨front, rest, n, rfl, ⟨hends, hn, hsize.symm, hkind⟩, hle⟩
  · right
    have hcut := (isLineEdge_prologue (parse (front ++ []))).isCut.le_size
    rw [← hsize] at hle
    change _ ≤ (front ++ []).size at hcut
    rw [List.append_nil] at hcut hle ⊢
    exact Nat.le_antisymm hcut hle

/-- A string that reaches over the end of a line holds a line feed. -/
theorem mem_contents_of_lt {tok : Token} (hends : front.EndsLines)
    (htok : tok ∈ tokenize (front ++ rest)) (hv : tok.contents? = some v)
    (hstart : tok.start < front.size) (hstop : front.size < tok.stop) : '\n' ∈ v := by
  have hne : front ≠ [] := by
    rintro rfl
    exact absurd hstart (Nat.not_lt_zero _)
  obtain ⟨above, rfl⟩ := hends.exists_concat hne
  have hkind : tok.kind = .string true := by
    rw [Token.contents?] at hv
    split at hv
    · assumption
    · cases hv
  obtain ⟨q, x, hq, htext, -⟩ := quotable_tokenize htok hkind
  obtain rfl : v = x := by
    rw [Token.contents?, hkind, htext] at hv
    simpa using hv.symm
  obtain ⟨m, -, a, b, hpiece, rfl, -⟩ := exists_piece htok
  have hmem : '\n' ∈ m.text := by
    rw [List.append_assoc, List.singleton_append] at hpiece
    rw [size_append] at hstart hstop
    have hone : Text.size ['\n'] = 1 := rfl
    refine mem_of_append_eq hpiece.symm ?_ ?_ <;> simp only [Token.stop] at hstart hstop <;> omega
  rw [show m.text = q :: (v ++ [q]) from htext] at hmem
  rcases hq with rfl | rfl <;> simpa using hmem

/-- Down to a directive that is over on its line all code is settled. -/
theorem DirectiveLine.settledBy (h : DirectiveLine front rest n v) (hv : '\n' ∉ v) :
    SettledBy front.size (tokenize (front ++ rest)) := by
  intro tok htok hcode hstart
  have hsemicolon : tok.isPunct ';' → tok.stop ≤ front.size := fun hpunct => by
    have hsize : tok.stop = tok.start + 1 := stop_of_isPunct htok hpunct
    omega
  have hkind := h.inPrologue_next.token htok hcode hstart
  refine ⟨hkind, ?_⟩
  refine Nat.le_of_not_lt fun hlt => ?_
  obtain ⟨dtok, -, hcontents, -, -, honly⟩ := of_lineKind_directive h.kind
  have hn : n ≤ front.size := h.next ▸ Nat.le_add_right ..
  rcases honly tok htok hcode (Nat.lt_of_le_of_lt hn hlt) hstart with rfl | hpunct
  · exact hv (mem_contents_of_lt h.ends htok hcontents hstart hlt)
  · exact absurd hlt (Nat.not_lt_of_le (hsemicolon hpunct))

/-- A directive that is over on its line stays one, whatever changes below. -/
theorem DirectiveLine.below (h : DirectiveLine front rest n v) (hv : '\n' ∉ v) (rest' : Text) :
    DirectiveLine front rest' n v := by
  have hcode := codeBefore_tokenize rest' h.ends (h.settledBy hv)
  have hkind : ∀ line : Span, line.stop ≤ front.size →
      (parse (front ++ rest')).lineKind line = (parse (front ++ rest)).lineKind line :=
    fun line hline => lineKind_congr (by
      rw [← codeBefore_codeBefore hline, hcode, codeBefore_codeBefore hline])
  have hn : n ≤ front.size := h.next ▸ Nat.le_add_right ..
  have hpass : ∀ m, (parse (front ++ rest)).InPrologue m → m ≤ front.size →
      (parse (front ++ rest')).InPrologue m := by
    intro m hm
    induction hm with
    | top => exact fun _ => .top
    | line hm hne ih =>
      rename_i m
      intro hle
      change (front ++ rest).nextLine m ≤ front.size at hle
      change (parse (front ++ rest')).InPrologue ((front ++ rest).nextLine m)
      have hmle : m ≤ (front ++ rest).nextLine m := Nat.le_add_right ..
      rcases Nat.eq_or_lt_of_le (Nat.le_trans hmle hle) with rfl | hlt
      · rw [Nat.le_antisymm hle hmle]
        exact ih (Nat.le_refl _)
      · have hcut := IsCut.of_append hm.isLineEdge.isCut (Nat.le_of_lt hlt)
        have hnext : (front ++ rest').nextLine m = (front ++ rest).nextLine m := by
          rw [nextLine_front h.ends hcut hlt, nextLine_front h.ends hcut hlt]
        refine (ih (Nat.le_of_lt hlt)).next hnext ?_
        rw [hkind _ hle]
        exact hne
  refine ⟨h.ends, hpass n h.inPrologue hn, ?_, (hkind _ (Nat.le_refl _)).trans h.kind⟩
  have hlt : n < front.size := by
    obtain ⟨tok, -, -, hstart, hstop, -⟩ := of_lineKind_directive h.kind
    exact Nat.lt_of_le_of_lt hstart hstop
  have hcut := IsCut.of_append h.inPrologue.isLineEdge.isCut hn
  rw [nextLine_front h.ends hcut hlt, ← nextLine_front h.ends hcut hlt rest, h.next]

end

end Script

end TidyImports
