-- SUMMARY: The prologue, the import block and the places of new lines behind a byte order mark.
import TidyImports.Proofs.Lexing.Tiling
import TidyImports.Proofs.OrderMark.Shift

/-!
# Layout behind a byte order mark

The lines of a script are the same behind a byte order mark, and only the first
of them starts before its text does. So the prologue and the import block end
where they ended, three bytes further on, and new lines go to the same place.
-/

namespace TidyImports

open Text

namespace Script

variable {t : Text} {st : Statement}

-- ---------------------------------------------------------------------------
-- The prologue
-- ---------------------------------------------------------------------------

section

variable (h : t.head? ≠ some byteOrderMark)
include h

theorem tokensWithin_marked (a b : Nat) :
    (parse (byteOrderMark :: t)).tokensWithin ⟨markedLine a, b + 3⟩ =
      ((parse t).tokensWithin ⟨a, b⟩).map (Token.shift 3) := by
  have hdrop : ((parse t).tokens.map (Token.shift 3)).dropWhile (·.stop ≤ markedLine a) =
      ((parse t).tokens.dropWhile (·.stop ≤ a)).map (Token.shift 3) := by
    have hpos : ∀ tok ∈ (parse t).tokens, 0 < tok.stop := fun _ => stop_pos_of_mem_tokenize
    generalize (parse t).tokens = toks at hpos
    induction toks with
    | nil => rfl
    | cons tok toks ih =>
      have hstop := hpos tok (List.mem_cons_self ..)
      have hiff : tok.stop + 3 ≤ markedLine a ↔ tok.stop ≤ a := by
        rw [markedLine]
        split <;> omega
      have hrec := ih fun k hk => hpos k (List.mem_cons_of_mem _ hk)
      by_cases hle : tok.stop ≤ a
      · simp [hiff, hle, hrec]
      · simp [hiff, hle]
  rw [tokensWithin, tokensWithin, tokens_marked h, hdrop, List.takeWhile_map]
  congr 2
  funext tok
  exact decide_eq_decide.2 (Nat.add_lt_add_iff_right)

theorem lineKind_marked (a b : Nat) :
    (parse (byteOrderMark :: t)).lineKind ⟨markedLine a, b + 3⟩ = (parse t).lineKind ⟨a, b⟩ := by
  have hfilter : ∀ toks : List Token, (toks.map (Token.shift 3)).filter Token.isCode =
      (toks.filter Token.isCode).map (Token.shift 3) := fun toks => List.filter_map
  have hle : ∀ tok : Token, markedLine a ≤ tok.start + 3 ↔ a ≤ tok.start := fun tok => by
    rw [markedLine]
    split <;> omega
  rw [lineKind, lineKind, tokensWithin_marked h, hfilter]
  generalize ((parse t).tokensWithin ⟨a, b⟩).filter Token.isCode = toks
  cases toks with
  | nil => rfl
  | cons tok rest =>
    have hcontents : (tok.shift 3).contents? = tok.contents? := rfl
    simp only [List.map_cons, hcontents, Token.start_shift, hle]
    rcases rest with _ | ⟨next, _ | ⟨next', more⟩⟩ <;> rfl

theorem prologueFrom_marked {offset : Nat} (hpos : 0 < offset) (ls : List Text) :
    (parse (byteOrderMark :: t)).prologueFrom (offset + 3) ls =
      (((parse t).prologueFrom offset ls).1 + 3, ((parse t).prologueFrom offset ls).2) := by
  induction ls generalizing offset with
  | nil => rfl
  | cons line more ih =>
    have hkind := lineKind_marked h offset (offset + line.size)
    rw [markedLine_pos hpos] at hkind
    have hrec := ih (Nat.add_pos_left hpos line.size)
    rw [prologueFrom, prologueFrom, Nat.add_right_comm offset 3, hkind]
    cases (parse t).lineKind ⟨offset, offset + line.size⟩ with
    | trivia => exact hrec
    | directive value => simp only [hrec]
    | code => rfl

theorem prologue_marked (hne : t ≠ []) :
    (parse (byteOrderMark :: t)).prologue =
      (markedLine (parse t).prologue.1, (parse t).prologue.2) := by
  obtain ⟨c, l, ls, hlines⟩ : ∃ c l ls, t.lines = (c :: l) :: ls := by
    cases t with
    | nil => exact absurd rfl hne
    | cons c cs =>
      rw [lines]
      split
      · exact ⟨c, [], _, rfl⟩
      · split
        · exact ⟨c, [], [], rfl⟩
        · next l ls _ => exact ⟨c, l, ls, rfl⟩
  have hmarked : lines (byteOrderMark :: t) = (byteOrderMark :: c :: l) :: ls := by
    rw [lines, if_neg (by decide), hlines]
  have hpos : 0 < size (c :: l) := Nat.add_pos_left c.utf8Size_pos _
  have hsize : size (byteOrderMark :: c :: l) = size (c :: l) + 3 := Nat.add_comm ..
  have hkind := lineKind_marked h 0 (0 + size (c :: l))
  have hrec := prologueFrom_marked h (Nat.lt_of_lt_of_eq hpos (Nat.zero_add _).symm) ls
  have hstart : markedLine 0 = 0 := rfl
  have htext : ∀ u, (parse u).text = u := fun _ => rfl
  rw [hstart] at hkind
  rw [prologue, prologue, htext, htext, hmarked, hlines, prologueFrom, prologueFrom, hsize,
    ← Nat.add_assoc, hkind]
  have hstop : ∀ more, 0 < ((parse t).prologueFrom (0 + size (c :: l)) more).1 := fun more => by
    obtain ⟨front, -, heq⟩ := (parse t).prologueFrom_fst (0 + size (c :: l)) more
    omega
  cases (parse t).lineKind ⟨0, 0 + size (c :: l)⟩ with
  | trivia => simp only [hrec, markedLine_pos (hstop ls)]
  | directive value => simp only [hrec, markedLine_pos (hstop ls)]
  | code => rfl

theorem hasDirective_marked (hne : t ≠ []) (directive : String) :
    (parse (byteOrderMark :: t)).hasDirective directive = (parse t).hasDirective directive := by
  rw [hasDirective, hasDirective, prologue_marked h hne]

-- ---------------------------------------------------------------------------
-- The import block
-- ---------------------------------------------------------------------------

omit h in
theorem skipBlankLines_marked (n : Nat) :
    skipBlankLines (byteOrderMark :: t) (n + 3) = skipBlankLines t n + 3 := by
  rw [skipBlankLines, skipBlankLines, dropBytes_marked, Nat.add_right_comm]

omit h in
theorem lineOf_marked (hst : st ∈ (parse t).statements) :
    (parse (byteOrderMark :: t)).lineOf (st.shift 3) = markedLine ((parse t).lineOf st) :=
  lineStart_marked (isCut_start hst).1

omit h in
theorem blockEnd_marked (offset : Nat) {sts : List Statement}
    (hsts : ∀ st ∈ sts, st ∈ (parse t).statements) :
    (parse (byteOrderMark :: t)).blockEnd (markedLine offset) (sts.map (Statement.shift 3)) =
      markedLine ((parse t).blockEnd offset sts) := by
  induction sts generalizing offset with
  | nil => rfl
  | cons st more ih =>
    have hst := hsts st (List.mem_cons_self ..)
    have hmore : ∀ st ∈ more, st ∈ (parse t).statements := fun k hk =>
      hsts k (List.mem_cons_of_mem _ hk)
    rw [List.map_cons, blockEnd, blockEnd, lineOf_marked hst]
    by_cases hline : (parse t).lineOf st = offset
    · have hpos := Nat.lt_of_le_of_lt (Nat.zero_le _) (isCut_start hst).2
      have hmax : max ((st.shift 3).span.stop) (markedLine offset) =
          max st.span.stop offset + 3 := by
        have hstop : (st.shift 3).span.stop = st.span.stop + 3 := rfl
        rw [hstop, markedLine]
        split <;> omega
      have hnext : 0 < t.nextLine (max st.span.stop offset) := by
        rw [nextLine]
        omega
      have hahead : 0 < skipBlankLines t (t.nextLine (max st.span.stop offset)) :=
        Nat.lt_of_lt_of_le hnext (Nat.le_add_right ..)
      have htext : ∀ u, (parse u).text = u := fun _ => rfl
      have hany : ((more.map (Statement.shift 3)).any ((parse (byteOrderMark :: t)).lineOf · ==
          skipBlankLines t (t.nextLine (max st.span.stop offset)) + 3)) =
            more.any ((parse t).lineOf · ==
              skipBlankLines t (t.nextLine (max st.span.stop offset))) := by
        rw [List.any_map, Bool.eq_iff_iff, List.any_eq_true, List.any_eq_true]
        refine exists_congr fun k => and_congr_right fun hk => ?_
        rw [Function.comp_apply, lineOf_marked (hmore k hk), ← markedLine_pos hahead, beq_iff_eq,
          beq_iff_eq]
        exact markedLine_inj
      rw [if_pos (congrArg markedLine hline), if_pos hline]
      simp only [htext, hmax, nextLine_marked, skipBlankLines_marked, hany]
      rw [← markedLine_pos hahead, ih _ hmore, ← markedLine_pos hnext]
      split <;> rfl
    · rw [if_neg fun heq => hline (markedLine_inj.1 heq), if_neg hline]
      exact ih offset hmore

/-- New lines go to the same place. -/
theorem insertionOffset_marked (hne : t ≠ []) :
    (parse (byteOrderMark :: t)).insertionOffset = (parse t).insertionOffset + 3 := by
  have htext : ∀ u, (parse u).text = u := fun _ => rfl
  rw [insertionOffset, insertionOffset, prologue_marked h hne, statements_marked h,
    blockEnd_marked _ fun _ hst => hst, htext, htext, markSize_marked, max_markedLine,
    markSize_eq_zero h, Nat.max_zero]

end

end Script

/-- A new directive goes to the same place. -/
theorem Text.directiveOffset_marked (h : t.head? ≠ some byteOrderMark) :
    directiveOffset (byteOrderMark :: t) = directiveOffset t + 3 := by
  have hbody : dropBytes 3 (byteOrderMark :: t) = t := dropBytes_append [byteOrderMark] t
  have hnext := nextLine_marked 0 t
  rw [directiveOffset, directiveOffset, markSize_marked, markSize_eq_zero h, hbody, dropBytes_zero]
  split
  · exact hnext
  · rfl

end TidyImports
