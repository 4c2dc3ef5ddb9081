-- SUMMARY: A directive written at the top opens the prologue, and the old one follows it.
import TidyImports.Proofs.Edits.Prologue
import TidyImports.Proofs.Plan.Lines

/-!
# A new directive

A new directive goes to the top of a script, above its code and below a `#!`
line. Behind its `;` the lexer is in the state in which a text starts, so all
code below is what it was, further on: the prologue opens with the directive,
and goes on with the lines it had.
-/

namespace TidyImports

open Text Lexer

/-- A directive as it is put in: a line of its own and a blank one. -/
def directiveText (d eol : Text) : Text := '\'' :: d ++ ['\'', ';'] ++ eol ++ eol

namespace Text

theorem firstLine_append_of_not_mem {x : Text} (h : '\n' ∉ x) (y : Text) :
    firstLine (x ++ y) = x ++ firstLine y := by
  induction x with
  | nil => rfl
  | cons c x ih =>
    obtain ⟨hc, hx⟩ := not_or.1 (mt List.mem_cons.2 h)
    rw [List.cons_append, firstLine, if_neg (Ne.symm hc), ih hx, List.cons_append]

/-- Lines below a place move with it. -/
theorem nextLine_insert {p q : Text} {n : Nat} (b : Text) (hcut : (p ++ q).IsCut n)
    (hle : p.size ≤ n) : (p ++ (b ++ q)).nextLine (n + b.size) = (p ++ q).nextLine n + b.size := by
  obtain ⟨z, y, rfl, rfl⟩ := hcut.exists_behind hle
  have hsize : (p ++ z).size + b.size = (p ++ (b ++ z)).size := by
    simp only [size_append]
    omega
  have hafter : p ++ (b ++ (z ++ y)) = p ++ (b ++ z) ++ y := by simp
  rw [hsize, hafter, nextLine, dropBytes_append, nextLine, ← List.append_assoc p z,
    dropBytes_append, ← hsize, Nat.add_right_comm]

/-- A line that goes on over a place ends where the line of the place ends. -/
theorem nextLine_of_lt {p q : Text} {n : Nat} (hcut : (p ++ q).IsCut n) (hle : n ≤ p.size)
    (hlt : p.size < (p ++ q).nextLine n) : (p ++ q).nextLine n = (p ++ q).nextLine p.size := by
  obtain ⟨a, b, rfl, rfl⟩ := hcut.of_append hle
  rw [List.append_assoc, nextLine, dropBytes_append] at hlt ⊢
  have hnot : '\n' ∉ b := fun hmem => by
    have := size_firstLine_append_le (y := q) (.inl hmem)
    rw [size_append] at hlt
    omega
  rw [firstLine_append_of_not_mem hnot, ← List.append_assoc, nextLine, dropBytes_append,
    size_append, size_append, Nat.add_assoc]

/-- A line that goes on below a place goes on below what is put in there. -/
theorem nextLine_below {p q : Text} {n : Nat} (b : Text) (hcut : (p ++ q).IsCut n)
    (hlt : p.size < (p ++ q).nextLine n) :
    (p ++ (b ++ q)).nextLine (max n p.size + b.size) = (p ++ q).nextLine n + b.size := by
  rcases Nat.le_total p.size n with h | h
  · rw [Nat.max_eq_left h, nextLine_insert _ hcut h]
  · rw [Nat.max_eq_right h, nextLine_insert _ ⟨p, q, rfl, rfl⟩ (Nat.le_refl _),
      nextLine_of_lt hcut h hlt]

end Text

namespace Lexer

theorem run_spaces {s : State} {offset : Nat} {spaces t : Text} (h : spaces.all isSpace) :
    run s offset (spaces ++ t) = run s (offset + spaces.size) t := by
  induction spaces generalizing offset with
  | nil => rfl
  | cons c spaces ih =>
    rw [List.all_cons, Bool.and_eq_true] at h
    rw [List.cons_append, run, if_pos h.1, ih h.2, size_cons, Nat.add_assoc]

/-- The tokens of a directive. -/
def directiveTokens (offset : Nat) (d : Text) : List Token :=
  [⟨.string true, offset, '\'' :: (d ++ ['\''])⟩, ⟨.punct ';', offset + (d.size + 2), [';']⟩]

theorem size_quoted (d : Text) : Text.size ('\'' :: (d ++ ['\''])) = d.size + 2 := by
  simp only [size_append, size_cons, size_nil]
  change 1 + (_ + (1 + 0)) = _
  omega

theorem size_directiveText (d eol : Text) :
    (directiveText d eol).size = d.size + 3 + eol.size + eol.size := by
  simp only [directiveText, size_append, size_cons, size_nil]
  change 1 + _ + (1 + (1 + 0)) + _ + _ = _
  omega

/-- A directive at the start of code is a string and a `;`, and code goes on as if it started. -/
theorem run_directive {offset : Nat} {d eol q : Text} (hd : isPlain d) (heol : eol.all isSpace) :
    run {} offset (directiveText d eol ++ q) =
      directiveTokens offset d ++ run {} (offset + (directiveText d eol).size) q := by
  have hspaces : (eol ++ eol).all isSpace := by rw [List.all_append, heol]; rfl
  have htext : directiveText d eol ++ q = '\'' :: (d ++ ['\''] ++ (';' :: (eol ++ eol ++ q))) := by
    simp [directiveText]
  have hone : Text.size [';'] = 1 := rfl
  rw [htext, run, if_neg (by decide), State.scan_string (.inl rfl) hd]
  simp only [List.take_left', List.drop_left']
  rw [size_quoted, run, if_neg (by decide), State.scan_semicolon]
  simp only [List.take_zero, List.drop_zero]
  rw [run_spaces hspaces, size_directiveText, size_append, hone]
  have hend : offset + (d.size + 2) + 1 + (eol.size + eol.size) =
      offset + (d.size + 3 + eol.size + eol.size) := by omega
  rw [hend]
  rfl

theorem of_mem_directiveTokens {offset : Nat} {d : Text} {tok : Token}
    (h : tok ∈ directiveTokens offset d) :
    tok.isCode ∧ tok.start < offset + (d.size + 3) ∧ offset < tok.stop ∧
      tok.stop ≤ offset + (d.size + 3) := by
  have hone : Text.size [';'] = 1 := rfl
  rcases List.mem_cons.1 h with rfl | h
  · refine ⟨rfl, ?_⟩
    simp only [Token.stop, size_quoted]
    omega
  · rw [List.mem_singleton.1 h]
    refine ⟨rfl, ?_⟩
    simp only [Token.stop, hone]
    omega

end Lexer

-- ---------------------------------------------------------------------------
-- Code that moves
-- ---------------------------------------------------------------------------

theorem Token.codeBefore_shift (n k : Nat) (tokens : List Token) :
    codeBefore (n + k) (tokens.map (shift k)) = (codeBefore n tokens).map (shift k) := by
  rw [codeBefore, codeBefore, List.filter_map]
  congr 1
  refine List.filter_congr fun tok _ => ?_
  simp [Token.isCode, Token.isComment, Token.shift]

namespace Script

variable {t t' : Text}

/-- Lines with the same code, further on, are of the same kind. -/
theorem lineKind_of_map {line line' : Span} {k : Nat}
    (h : ((parse t').tokensWithin line').filter Token.isCode =
      (((parse t).tokensWithin line).filter Token.isCode).map (Token.shift k))
    (hstart : ∀ tok ∈ ((parse t).tokensWithin line).filter Token.isCode,
      line'.start ≤ tok.start + k ↔ line.start ≤ tok.start) :
    (parse t').lineKind line' = (parse t).lineKind line := by
  rw [lineKind, lineKind, h]
  cases hcode : ((parse t).tokensWithin line).filter Token.isCode with
  | nil => rfl
  | cons tok rest =>
    have hiff := hstart tok (hcode ▸ List.mem_cons_self ..)
    have hcontents : (tok.shift k).contents? = tok.contents? := rfl
    have hpunct : ∀ tok : Token, (tok.shift k).isPunct ';' = tok.isPunct ';' := fun _ => rfl
    rcases rest with _ | ⟨next, _ | ⟨next', more⟩⟩ <;>
      simp only [List.map_cons, List.map_nil, hcontents, hpunct, Token.start_shift, hiff]

-- ---------------------------------------------------------------------------
-- What stands above code
-- ---------------------------------------------------------------------------

/-- Is the front part what a new directive goes below, a byte order mark and a `#!` line at most?
Below it a text is read from the start, be it as it is or opening with a quote. -/
structure Above (p q : Text) : Prop where
  size : p.size = (p ++ q).directiveOffset
  lines : '\n' ∉ p ∨ ∃ line, p = line ++ ['\n'] ∧ '\n' ∉ line
  code (y : Text) : y = q ∨ y.head? = some '\'' → ∀ n,
    Token.codeBefore n (tokenize (p ++ y)) = Token.codeBefore n (run {} p.size y)

theorem exists_mark (t : Text) : ∃ mark : Text, t = mark ++ t.body ∧ mark.size = t.markSize ∧
    '\n' ∉ mark ∧ ∀ y : Text, y = t.body ∨ y.head? ≠ some byteOrderMark →
      tokenize (mark ++ y) = runFromTop mark.size y := by
  by_cases h : t.head? = some byteOrderMark
  · obtain ⟨cs, rfl⟩ := List.head?_eq_some_iff.1 h
    have hbody : ∀ y : Text, body (byteOrderMark :: y) = y := dropBytes_append [byteOrderMark]
    exact ⟨[byteOrderMark], by rw [hbody]; rfl, rfl, by decide, fun y _ =>
      congrArg (runFromTop 3) (hbody y)⟩
  · refine ⟨[], by rw [body_eq_self h]; rfl, by rw [markSize_eq_zero h]; rfl, by simp,
      fun y hy => ?_⟩
    have hhead : y.head? ≠ some byteOrderMark := by
      rcases hy with rfl | hy
      · rwa [body_eq_self h]
      · exact hy
    rw [List.nil_append, tokenize, markSize_eq_zero hhead, dropBytes_zero]
    rfl

theorem codeBefore_cons_comment {n : Nat} {tok : Token} (h : tok.isComment) (tokens : List Token) :
    Token.codeBefore n (tok :: tokens) = Token.codeBefore n tokens :=
  List.filter_cons_of_neg (by simp [Token.isCode, h])

/-- A script with code below a `#!` line has a place for a new directive there. -/
theorem exists_above_interpreter (h : ∃ tok ∈ tokenize t, tok.isCode)
    (hbang : ['#', '!'] <+: t.body) : ∃ p q, t = p ++ q ∧ Above p q := by
  obtain ⟨mark, hmark, hsize, hline, hrun⟩ := exists_mark t
  obtain ⟨rest, hrest⟩ := hbang
  obtain ⟨line, below, rfl, hline', hbelow⟩ := exists_line rest
  have hbody : t.body = '#' :: '!' :: line ++ below := hrest.symm
  have hnotline : '\n' ∉ '#' :: '!' :: line := by simpa using hline'
  have htokens : ∀ y : Text, (∀ c ∈ y.head?, c = '\n') →
      tokenize (mark ++ ('#' :: '!' :: line ++ y)) =
        ⟨.lineComment, mark.size, '#' :: '!' :: line⟩ ::
          run {} (mark.size + size ('#' :: '!' :: line)) y := fun y hy => by
    have hcut := takeWhile_dropWhile_line hnotline hy
    rw [hrun _ (.inr (by simp [byteOrderMark]))]
    rw [List.cons_append, List.cons_append] at hcut ⊢
    rw [runFromTop, hcut.1, hcut.2]
  obtain ⟨q, rfl⟩ : ∃ q, below = '\n' :: q := by
    cases below with
    | nil =>
      obtain ⟨tok, htok, hcode⟩ := h
      rw [hmark, hbody, htokens [] hbelow, run] at htok
      rw [List.mem_singleton.1 htok] at hcode
      cases hcode
    | cons c q => exact ⟨q, by rw [hbelow c rfl]⟩
  have ht : t = mark ++ ('#' :: '!' :: line) ++ ['\n'] ++ q := by
    rw [hmark, hbody]
    simp
  refine ⟨_, q, ht, ?_, .inr ⟨_, rfl, by simp [hline, hline']⟩, fun y _ n => ?_⟩
  · rw [← ht, directiveOffset, ← body, if_pos (List.isPrefixOf_iff_prefix.2 ⟨_, hrest⟩), nextLine,
      ← body, hbody, firstLine_append hnotline, ← hsize]
    simp only [size_append, Nat.add_assoc]
  · have hy : mark ++ ('#' :: '!' :: line) ++ ['\n'] ++ y =
        mark ++ ('#' :: '!' :: line ++ '\n' :: y) := by simp
    have hone : size ['\n'] = 1 := rfl
    rw [hy, htokens _ (by simp), codeBefore_cons_comment rfl, run, if_pos (by decide),
      size_append, size_append, hone]
    rfl

/-- A script with code has a place for a new directive above it. -/
theorem exists_above (h : ∃ tok ∈ tokenize t, tok.isCode) : ∃ p q, t = p ++ q ∧ Above p q := by
  by_cases hbang : ['#', '!'] <+: t.body
  · exact exists_above_interpreter h hbang
  · obtain ⟨mark, hmark, hsize, hline, hrun⟩ := exists_mark t
    have hquote : ∀ y : Text, y.head? = some '\'' → y.head? ≠ some byteOrderMark := fun y hy => by
      rw [hy]
      decide
    refine ⟨mark, t.body, hmark, ?_, .inl hline, fun y hy n => ?_⟩
    · rw [← hmark, directiveOffset, ← body,
        if_neg fun h => hbang (List.isPrefixOf_iff_prefix.1 h), hsize]
    · rw [hrun y (hy.imp_right (hquote y)), runFromTop_of_not_shebang]
      rcases hy with rfl | hy
      · exact hbang
      · rintro ⟨rest, rfl⟩
        cases hy

-- ---------------------------------------------------------------------------
-- The prologue below a new directive
-- ---------------------------------------------------------------------------

section

variable {p q d eol v : Text} {n m : Nat}

/-- The code below a new directive is the code that was there. -/
theorem Above.code_below (h : Above p q) (hd : isPlain d) (heol : eol.all isSpace) (n : Nat) :
    Token.codeBefore (n + (directiveText d eol).size) (tokenize (p ++ (directiveText d eol ++ q))) =
      Token.codeBefore (n + (directiveText d eol).size) (directiveTokens p.size d) ++
        (Token.codeBefore n (tokenize (p ++ q))).map (Token.shift (directiveText d eol).size) := by
  rw [h.code _ (.inr rfl), run_directive hd heol, h.code q (.inl rfl), ← Token.codeBefore_shift,
    ← run_shift]
  exact List.filter_append ..

/-- A line keeps its kind below a new directive. -/
theorem Above.lineKind_below (h : Above p q) (hd : isPlain d) (heol : eol.all isSpace) (m e : Nat) :
    (parse (p ++ (directiveText d eol ++ q))).lineKind
        ⟨max m p.size + (directiveText d eol).size, e + (directiveText d eol).size⟩ =
      (parse (p ++ q)).lineKind ⟨m, e⟩ := by
  have hbehind : ∀ tok ∈ Token.codeBefore e (tokenize (p ++ q)), p.size ≤ tok.start := by
    intro tok htok
    obtain ⟨hmem, hcode⟩ := List.mem_filter.1 htok
    rw [h.size]
    exact directiveOffset_le_of_isCode hmem (Bool.and_eq_true_iff.1 hcode).1
  refine lineKind_of_map (k := (directiveText d eol).size) ?_ fun tok htok => ?_
  · rw [filter_isCode_tokensWithin, filter_isCode_tokensWithin, h.code_below hd heol,
      List.filter_append, List.filter_map]
    have hfirst : (Token.codeBefore (e + (directiveText d eol).size)
        (directiveTokens p.size d)).filter (fun tok =>
          decide (max m p.size + (directiveText d eol).size < tok.stop)) = [] := by
      refine List.filter_eq_nil_iff.2 fun tok htok => ?_
      have hstop := of_mem_directiveTokens (List.mem_filter.1 htok).1
      rw [size_directiveText, decide_eq_true_eq]
      omega
    rw [hfirst, List.nil_append]
    congr 1
    refine List.filter_congr fun tok htok => ?_
    have hstart := hbehind tok htok
    have hstop : tok.start < tok.stop := (inside_of_mem_tokenize (List.mem_filter.1 htok).1).2.1
    simp only [Function.comp, Token.stop_shift, decide_eq_decide]
    omega
  · rw [filter_isCode_tokensWithin] at htok
    have hstart := hbehind tok (List.mem_filter.1 htok).1
    simp only
    omega

/-- The lines below a new directive are lines of the prologue if they were. -/
theorem Above.inPrologue_below (h : Above p q) (hd : isPlain d) (heol : eol.all isSpace)
    (htop : (parse (p ++ (directiveText d eol ++ q))).InPrologue
      (p.size + (directiveText d eol).size))
    (hn : (parse (p ++ q)).InPrologue n) :
    (parse (p ++ (directiveText d eol ++ q))).InPrologue
      (max n p.size + (directiveText d eol).size) := by
  induction hn with
  | top => rwa [Nat.max_eq_right (Nat.zero_le _)]
  | line hm hkind ih =>
    rename_i m
    have hcut : (p ++ q).IsCut m := hm.isLineEdge.isCut
    change (parse (p ++ q)).lineKind ⟨m, (p ++ q).nextLine m⟩ ≠ .code at hkind
    change InPrologue _ (max ((p ++ q).nextLine m) p.size + _)
    rcases Nat.lt_or_ge p.size ((p ++ q).nextLine m) with hlt | hle
    case inr => rwa [Nat.max_eq_right hle]
    case inl =>
      rw [Nat.max_eq_left (Nat.le_of_lt hlt)]
      refine ih.next (nextLine_below _ hcut hlt) ?_
      rwa [h.lineKind_below hd heol]

/-- The line of a new directive. -/
def directiveLine (d eol : Text) : Text := '\'' :: d ++ ['\'', ';'] ++ eol

/-- A new directive starts a line, or stands behind a byte order mark at the top. -/
theorem Above.exists_line (h : Above p q) (hd : isPlain d) (heol : IsLineBreak eol) :
    ∃ n, (parse (p ++ (directiveText d eol ++ q))).InPrologue n ∧ n ≤ p.size ∧
      (p ++ (directiveText d eol ++ q)).nextLine n = (p ++ directiveLine d eol).size := by
  obtain ⟨cr, rfl, hcr, hspaces⟩ := heol.exists_concat
  have hline : '\n' ∉ '\'' :: d ++ ['\'', ';'] ++ cr := by
    have hd' := (isPlain_iff.1 hd).2.2.2
    simp [hd', hcr]
  have ht : p ++ (directiveText d (cr ++ ['\n']) ++ q) =
      p ++ ('\'' :: d ++ ['\'', ';'] ++ cr ++ '\n' :: (cr ++ ['\n'] ++ q)) := by
    simp [directiveText]
  have hfront : p ++ directiveLine d (cr ++ ['\n']) =
      p ++ ('\'' :: d ++ ['\'', ';'] ++ cr) ++ ['\n'] := by
    simp [directiveLine]
  rcases h.lines with hp | ⟨line, hp, hline'⟩
  · refine ⟨0, .top, Nat.zero_le _, ?_⟩
    rw [nextLine, dropBytes_zero, Nat.zero_add, hfront, ht, ← List.append_assoc,
      firstLine_append (by simpa [hp] using hline)]
  · have hzero : (p ++ (directiveText d (cr ++ ['\n']) ++ q)).nextLine 0 = p.size := by
      rw [nextLine, dropBytes_zero, Nat.zero_add, hp, List.append_assoc, List.singleton_append,
        firstLine_append hline']
    have hkind : (parse (p ++ (directiveText d (cr ++ ['\n']) ++ q))).lineKind ⟨0, p.size⟩ =
        .trivia := by
      refine lineKind_of_nil ?_
      rw [h.code _ (.inr rfl)]
      exact codeBefore_run_of_le (Nat.le_refl _)
    refine ⟨p.size, ?_, Nat.le_refl _, ?_⟩
    · exact InPrologue.top.next hzero (by simp [hkind])
    · rw [nextLine, dropBytes_append, List.append_cancel_left ht, firstLine_append hline, hfront,
        List.append_assoc, size_append]
      simp only [size_append, Nat.add_assoc]

theorem Above.code_directive (h : Above p q) (hd : isPlain d) (heol : eol.all isSpace)
    (hlt : p.size + (d.size + 2) < n) (hle : n ≤ p.size + (directiveText d eol).size) :
    Token.codeBefore n (tokenize (p ++ (directiveText d eol ++ q))) = directiveTokens p.size d := by
  have hnone := @codeBefore_run_of_le {} (p.size + (directiveText d eol).size) n q hle
  rw [h.code _ (.inr rfl), run_directive hd heol]
  rw [Token.codeBefore] at hnone ⊢
  rw [List.filter_append, hnone, List.append_nil]
  refine List.filter_eq_self.2 fun tok htok => ?_
  obtain ⟨hcode, hstart, -⟩ := of_mem_directiveTokens htok
  rw [hcode, Bool.true_and, decide_eq_true_eq]
  omega

theorem size_directiveLine (d eol : Text) : (directiveLine d eol).size = d.size + 3 + eol.size := by
  simp only [directiveLine, size_append, size_cons, size_nil]
  change 1 + _ + (1 + (1 + 0)) + _ = _
  omega

/-- The first line of a new directive is a directive. -/
theorem Above.lineKind_directive (h : Above p q) (hd : isPlain d) (heol : IsLineBreak eol)
    (hle : n ≤ p.size) : (parse (p ++ (directiveText d eol ++ q))).lineKind
      ⟨n, p.size + (directiveLine d eol).size⟩ = .directive d := by
  have hline := size_directiveLine d eol
  have htext := size_directiveText d eol
  have hcode := @Above.code_directive _ _ _ _ (p.size + (directiveLine d eol).size) h hd
    heol.spaces (by have := size_pos (List.ne_nil_of_mem heol.mem); omega) (by omega)
  have hfilter : (directiveTokens p.size d).filter (fun tok => decide (n < tok.stop)) =
      directiveTokens p.size d :=
    List.filter_eq_self.2 fun tok htok => decide_eq_true
      (Nat.lt_of_le_of_lt hle (of_mem_directiveTokens htok).2.2.1)
  rw [lineKind, filter_isCode_tokensWithin, hcode, hfilter]
  simp [directiveTokens, Token.contents?, Token.isPunct, hle]

/-- The second line of a new directive is blank. -/
theorem Above.lineKind_blank (h : Above p q) (hd : isPlain d) (heol : IsLineBreak eol) :
    (parse (p ++ (directiveText d eol ++ q))).lineKind
      ⟨p.size + (directiveLine d eol).size, p.size + (directiveText d eol).size⟩ = .trivia := by
  have hline := size_directiveLine d eol
  have hcode := @Above.code_directive _ _ _ _ (p.size + (directiveText d eol).size) h hd
    heol.spaces (by
      have := size_pos (List.ne_nil_of_mem heol.mem)
      rw [size_directiveText]
      omega) (Nat.le_refl _)
  have hfilter : (directiveTokens p.size d).filter (fun tok =>
      decide (p.size + (directiveLine d eol).size < tok.stop)) = [] :=
    List.filter_eq_nil_iff.2 fun tok htok => by
      have hstop := (of_mem_directiveTokens htok).2.2.2
      rw [decide_eq_true_eq]
      omega
  rw [lineKind, filter_isCode_tokensWithin, hcode, hfilter]

/-- Of the lines of a new directive, the first is a directive of the prologue, and the second is
blank. -/
theorem Above.directive (h : Above p q) (hd : isPlain d) (heol : IsLineBreak eol) :
    (∃ n, DirectiveLine (p ++ directiveLine d eol) (eol ++ q) n d) ∧
      (parse (p ++ (directiveText d eol ++ q))).InPrologue
        (p.size + (directiveText d eol).size) := by
  obtain ⟨n, hn, hle, hnext⟩ := h.exists_line hd heol
  have ht : p ++ (directiveText d eol ++ q) = p ++ directiveLine d eol ++ (eol ++ q) := by
    simp [directiveText, directiveLine]
  have hdirective := h.lineKind_directive hd heol hle
  rw [size_append] at hnext
  have hbehind : (parse (p ++ (directiveText d eol ++ q))).InPrologue
      (p.size + (directiveLine d eol).size) := hn.next hnext (by simp [hdirective])
  have hbelow : (p ++ (directiveText d eol ++ q)).nextLine (p.size + (directiveLine d eol).size) =
      p.size + (directiveText d eol).size := by
    obtain ⟨cr, rfl, hcr, -⟩ := heol.exists_concat
    have hlines : cr ++ ['\n'] ++ q = cr ++ '\n' :: q := by simp
    rw [← size_append p, ht, nextLine, dropBytes_append, hlines, firstLine_append hcr,
      size_append p, size_directiveText, size_directiveLine]
    omega
  refine ⟨⟨n, ?_⟩, hbehind.next hbelow (by simp [h.lineKind_blank hd heol])⟩
  rw [← size_append] at hnext hdirective
  have hends : (p ++ directiveLine d eol).EndsLines := by
    have heolEnds : eol.EndsLines := by rcases heol with rfl | rfl <;> simp [EndsLines]
    rw [directiveLine, ← List.append_assoc]
    exact heolEnds.append (List.ne_nil_of_mem heol.mem) _
  exact ⟨hends, ht ▸ hn, ht ▸ hnext, ht ▸ hdirective⟩

/-- A directive of the prologue is still one below a new directive. -/
theorem Above.directiveLine_below {front rest : Text} (h : Above p q) (hd : isPlain d)
    (heol : IsLineBreak eol) (hpq : p ++ q = front ++ rest) (hline : DirectiveLine front rest n v) :
    ∃ c n', front = p ++ c ∧ q = c ++ rest ∧
      DirectiveLine (p ++ directiveText d eol ++ c) rest n' v := by
  have hcut : (p ++ q).IsCut n := hpq ▸ hline.inPrologue.isLineEdge.isCut
  have hfront : p.size < front.size := by
    obtain ⟨tok, htok, hcontents, -, hstop, -⟩ := of_lineKind_directive hline.kind
    have hcode : tok.isCode := by
      simp [Token.isCode, Token.isComment, Token.kind_of_contents? hcontents]
    have hle := directiveOffset_le_of_isCode htok hcode
    rw [← hpq, ← h.size] at hle
    exact Nat.lt_of_le_of_lt hle hstop
  obtain ⟨c, rfl, rfl⟩ := exists_of_size_le hpq (Nat.le_of_lt hfront)
  have hne : c ≠ [] := by
    rintro rfl
    simp at hfront
  have ht : p ++ (directiveText d eol ++ (c ++ rest)) = p ++ directiveText d eol ++ c ++ rest := by
    simp
  have hsize : (p ++ directiveText d eol ++ c).size =
      (p ++ c).size + (directiveText d eol).size := by
    simp only [size_append]
    omega
  have hkind := h.lineKind_below hd heol.spaces n (p ++ c).size
  rw [← hsize] at hkind
  refine ⟨c, max n p.size + (directiveText d eol).size, rfl, rfl, ?_⟩
  constructor
  case ends => exact (EndsLines.of_append hline.ends).append hne _
  case inPrologue =>
    rw [← ht]
    exact h.inPrologue_below hd heol.spaces (h.directive hd heol).2 (hpq ▸ hline.inPrologue)
  case next =>
    have hnext : (p ++ (c ++ rest)).nextLine n = (p ++ c).size := hpq ▸ hline.next
    rw [← ht, nextLine_below _ hcut (by rw [hnext]; exact hfront), hnext, hsize]
  case kind =>
    rw [← ht, hkind, hpq]
    exact hline.kind

end

end Script

end TidyImports
