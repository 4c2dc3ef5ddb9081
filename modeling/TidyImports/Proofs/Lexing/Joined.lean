-- SUMMARY: Lexing is local: where no token runs across the seam, two texts are lexed one by one.
import TidyImports.Proofs.OrderMark.Shift
import TidyImports.Proofs.Edits.Apart
import TidyImports.Proofs.Edits.Insertion

/-!
# Texts put together

The tokens of two texts in a row are those of the first and, further on, those
of the second. For the first text it takes that no token runs across the seam:
then no scanner has looked at more than it cut, or it has found nothing there.
For the second it takes the state that a text starts in: no template
substitution is open and, if a `/` comes first, it may open a regular
expression.
-/

namespace TidyImports

open Text

namespace Lexer

-- ---------------------------------------------------------------------------
-- Scanners on less text
-- ---------------------------------------------------------------------------

theorem takeWhile_of_append {p : Char → Bool} {x y : Text}
    (h : ((x ++ y).takeWhile p).length ≤ x.length) : (x ++ y).takeWhile p = x.takeWhile p := by
  rw [List.takeWhile_append] at h ⊢
  split
  · next hall =>
    rw [if_pos hall, List.length_append] at h
    have hnil : y.takeWhile p = [] := List.length_eq_zero_iff.1 (by omega)
    rw [hnil, List.append_nil]
    exact ((List.takeWhile_prefix p).eq_of_length hall).symm
  · rfl

theorem commentLength_of_append {x y : Text} (h : commentLength (x ++ y) ≤ x.length) :
    commentLength (x ++ y) = commentLength x := by
  fun_induction commentLength x with
  | case1 => exact Nat.le_zero.1 h
  | case2 rest => rfl
  | case3 c cs hc ih =>
    have hne : ∀ tail, c = '*' → cs ++ y = '/' :: tail → False := by
      intro tail h₁ h₂
      cases cs with
      | nil =>
        rw [List.nil_append] at h₂
        subst h₁ h₂
        simp [commentLength] at h
      | cons d ds =>
        cases h₂
        exact hc ds h₁ rfl
    rw [List.cons_append, commentLength] at h ⊢
    · rw [List.length_cons, Nat.add_le_add_iff_right] at h
      rw [ih h]
    all_goals exact hne

theorem stringLength_eq_zero {q : Char} {y : Text} :
    (stringLength q y).1 = 0 → stringLength q y = (0, false) := by
  fun_cases stringLength q y <;> simp

theorem templateLength_eq_zero {y : Text} :
    (templateLength y).1 = 0 → templateLength y = (0, false) := by
  fun_cases templateLength y <;> simp

theorem stringLength_of_append {q : Char} {x y : Text}
    (h : (stringLength q (x ++ y)).1 ≤ x.length) :
    stringLength q (x ++ y) = stringLength q x := by
  fun_induction stringLength q x with
  | case1 => exact stringLength_eq_zero (Nat.le_zero.1 h)
  | case2 => cases y <;> simp [stringLength]
  | case3 c hc =>
    cases y with
    | nil => simp [stringLength, hc]
    | cons d y =>
      rw [List.singleton_append, stringLength] at h ⊢
      by_cases hb : c = '\\'
      · simp [hb] at h
      · by_cases hq : c = q
        · simp [← hq, hb, hc]
        · have hnext : stringLength q (d :: y) = (0, false) :=
            stringLength_eq_zero (by simpa [hb, hc, hq] using h)
          simp [hb, hc, hq, hnext]
  | case4 d cs n closed heq ih =>
    rw [List.cons_append, List.cons_append, stringLength] at h ⊢
    rw [heq] at ih
    simp only [if_true, List.length_cons, Nat.add_le_add_iff_right] at h ⊢
    rw [ih h]
  | case5 d cs hc => simp [stringLength]
  | case6 d cs hq hn => simp_all [stringLength]
  | case7 c d cs hb hn hq n closed heq ih =>
    rw [List.cons_append, List.cons_append, stringLength, ← List.cons_append] at h ⊢
    rw [heq] at ih
    simp only [hb, hn, hq, if_false, List.length_cons, Nat.add_le_add_iff_right] at h ih ⊢
    rw [ih h]

theorem templateLength_of_append {x y : Text} (h : (templateLength (x ++ y)).1 ≤ x.length) :
    templateLength (x ++ y) = templateLength x := by
  fun_induction templateLength x with
  | case1 => exact templateLength_eq_zero (Nat.le_zero.1 h)
  | case2 c =>
    cases y with
    | nil => rfl
    | cons d y =>
      rw [List.singleton_append, templateLength] at h ⊢
      by_cases hb : c = '\\'
      · simp [hb] at h
      · by_cases hq : c = '`'
        · simp [hq]
        · by_cases ho : c = '$' ∧ d = '{'
          · simp [ho] at h
          · have hnext : templateLength (d :: y) = (0, false) :=
              templateLength_eq_zero (by simpa [hb, hq, ho] using h)
            simp [hb, hq, ho, hnext]
  | case3 d cs n opens heq ih =>
    rw [List.cons_append, List.cons_append, templateLength] at h ⊢
    rw [heq] at ih
    simp only [if_true, List.length_cons, Nat.add_le_add_iff_right] at h ⊢
    rw [ih h]
  | case4 => simp [templateLength]
  | case5 => simp_all [templateLength]
  | case6 c d cs hb hq ho n opens heq ih =>
    rw [List.cons_append, List.cons_append, templateLength, ← List.cons_append] at h ⊢
    rw [heq] at ih
    simp only [hb, hq, ho, if_false, List.length_cons, Nat.add_le_add_iff_right] at h ih ⊢
    rw [ih h]

theorem regexLength?_of_append {ic : Bool} {x y : Text} {n : Nat}
    (h : regexLength? ic (x ++ y) = some n) (hn : n ≤ x.length) :
    regexLength? ic x = some n := by
  fun_induction regexLength? ic x generalizing n with
  | case1 => exact absurd (regexLength?_pos h) (by simpa using hn)
  | case2 ic c hc =>
    cases y with
    | nil => simpa [regexLength?, hc] using h
    | cons d y =>
      rw [List.singleton_append, regexLength?, if_neg (by rw [hc.1]; decide),
        if_neg (by rw [hc.1]; decide), if_pos (by simpa using hc)] at h
      simp only [Option.some.injEq] at h
      simp only [List.length_singleton] at hn
      rw [show n = 1 by omega]
  | case3 ic c hc =>
    have hc' : ¬(c = '/' ∧ !ic) := hc
    cases y with
    | nil =>
      rw [List.append_nil, regexLength?, if_neg hc] at h
      cases h
    | cons d y =>
      rw [List.singleton_append, regexLength?] at h
      split at h
      · obtain ⟨m, -, rfl⟩ := Option.map_eq_some_iff.1 h
        simp at hn
      · split at h
        · cases h
        · obtain ⟨m, hm, rfl⟩ := Option.map_eq_some_iff.1 h
          have hpos := regexLength?_pos hm
          simp at hn
          omega
  | case4 ic d cs ih =>
    rw [List.cons_append, List.cons_append, regexLength?, if_pos rfl] at h
    obtain ⟨m, hm, rfl⟩ := Option.map_eq_some_iff.1 h
    rw [ih hm (by simpa using hn), Option.map_some]
  | case5 => simp_all [regexLength?]
  | case6 ic c d cs hb hl hs =>
    rw [List.cons_append, List.cons_append, regexLength?, if_neg hb, if_neg hl, if_pos hs,
      ← List.cons_append] at h
    obtain rfl := Option.some.inj h
    rw [takeWhile_of_append (by simpa using hn)]
  | case7 ic c d cs hb hl hs ih =>
    rw [List.cons_append, List.cons_append, regexLength?, if_neg hb, if_neg hl, if_neg hs,
      ← List.cons_append] at h
    obtain ⟨m, hm, rfl⟩ := Option.map_eq_some_iff.1 h
    rw [ih hm (by simpa using hn), Option.map_some]

/-- Where a regular expression ends, one ends in a longer text. -/
theorem regexLength?_append_isSome {ic : Bool} {x y : Text} (h : (regexLength? ic x).isSome) :
    (regexLength? ic (x ++ y)).isSome := by
  fun_induction regexLength? ic x with
  | case1 => cases h
  | case2 ic c hc =>
    cases y with
    | nil => simp [regexLength?, hc]
    | cons d y =>
      rw [List.singleton_append, regexLength?, if_neg (by rw [hc.1]; decide),
        if_neg (by rw [hc.1]; decide), if_pos hc]
      rfl
  | case3 => cases h
  | case4 ic d cs ih =>
    rw [List.cons_append, List.cons_append, regexLength?, if_pos rfl, Option.isSome_map]
    exact ih (by simpa using h)
  | case5 => cases h
  | case6 ic c d cs hb hl hs =>
    rw [List.cons_append, List.cons_append, regexLength?, if_neg hb, if_neg hl, if_pos hs]
    rfl
  | case7 ic c d cs hb hl hs ih =>
    rw [List.cons_append, List.cons_append, regexLength?, if_neg hb, if_neg hl, if_neg hs,
      Option.isSome_map]
    exact ih (by simpa using h)

-- ---------------------------------------------------------------------------
-- Tokens on less text
-- ---------------------------------------------------------------------------

/-- A `/` of which nothing is left but itself is punctuation. -/
theorem State.scan_slash_of_le_zero {s : State} {y : Text} (hn : (s.scan '/' ([] ++ y)).2 ≤ 0) :
    s.scan '/' ([] ++ y) = s.scan '/' [] := by
  have hnil : s.scan '/' [] = (.punct '/', 0) := by simp [State.scan, regexLength?]
  rw [List.nil_append] at hn ⊢
  cases y with
  | nil => rfl
  | cons d y =>
    by_cases h₁ : d = '/'
    · subst h₁
      simp [State.scan, lineLength] at hn
    by_cases h₂ : d = '*'
    · subst h₂
      simp [State.scan] at hn
    rw [State.scan_slash h₁ h₂] at hn ⊢
    cases hr : (if s.regexAllowed then regexLength? false (d :: y) else none) with
    | none => rw [hnil]
    | some n =>
      rw [hr] at hn
      have hr' : regexLength? false (d :: y) = some n := by
        split at hr
        · exact hr
        · cases hr
      exact absurd (regexLength?_pos hr') (by simpa using hn)

/-- A token that ends within a text is the same when the text stops there. -/
theorem State.scan_of_append {s : State} {c : Char} {x y : Text}
    (hn : (s.scan c (x ++ y)).2 ≤ x.length) : s.scan c (x ++ y) = s.scan c x := by
  by_cases hc : c = '/'
  · subst hc
    cases x with
    | nil => exact scan_slash_of_le_zero hn
    | cons d x =>
      by_cases h₁ : d = '/'
      · subst h₁
        simp only [State.scan, if_true, List.cons_append] at hn ⊢
        rw [← List.cons_append] at hn ⊢
        rw [lineLength, takeWhile_of_append hn, lineLength]
      by_cases h₂ : d = '*'
      · subst h₂
        simp only [State.scan, if_true, List.cons_append, List.length_cons,
          Nat.add_le_add_iff_right] at hn ⊢
        rw [commentLength_of_append hn]
      rw [List.cons_append, State.scan_slash h₁ h₂, ← List.cons_append] at hn ⊢
      rw [State.scan_slash h₁ h₂]
      by_cases hr : s.regexAllowed
      · simp only [hr, if_true] at hn ⊢
        cases hlong : regexLength? false (d :: x ++ y) with
        | none =>
          have hshort : regexLength? false (d :: x) = none := by
            by_contra hne
            have := regexLength?_append_isSome (y := y) (Option.isSome_iff_ne_none.2 hne)
            rw [hlong] at this
            cases this
          rw [hshort]
        | some n =>
          rw [hlong] at hn
          rw [regexLength?_of_append hlong hn]
      · simp [hr]
  · simp only [State.scan, hc, if_false] at hn ⊢
    split at hn
    · next hq => simp only [hq, if_true, stringLength_of_append hn]
    · next hq =>
      simp only [hq, if_false]
      split at hn
      · next ht => simp only [ht, if_true, templateLength_of_append hn]
      · next ht =>
        simp only [ht, if_false]
        split at hn
        · next hd => simp only [hd, if_true, takeWhile_of_append hn]
        · next hd =>
          simp only [hd, Bool.false_eq_true, if_false]
          split at hn
          · next hi => simp only [hi, if_true, takeWhile_of_append hn]
          · next hi => simp only [hi, Bool.false_eq_true, if_false]

/-- What is cut off a text is no longer than its bytes say. -/
theorem length_le_of_size_take {x y : Text} {n : Nat} (hy : y ≠ [])
    (h : size ((x ++ y).take n) ≤ x.size) : n ≤ x.length := by
  by_contra hlt
  obtain ⟨k, hk⟩ := Nat.exists_eq_add_of_lt (Nat.lt_of_not_le hlt)
  have hpos : 0 < size (y.take (k + 1)) := size_pos (by simpa using hy)
  rw [hk, Nat.add_assoc, List.take_length_add_append, size_append] at h
  omega

/-- Up to a seam that no token runs across, a text is read as if it ended there. -/
theorem run_append {s : State} {offset : Nat} {x y : Text}
    (h : ∀ tok ∈ run s offset (x ++ y), ¬ tok.span.Encloses (offset + x.size)) :
    run s offset (x ++ y) =
      run s offset x ++ run (s.afterTokens (run s offset x)) (offset + x.size) y := by
  by_cases hy : y = []
  · subst hy
    simp [run]
  fun_induction run s offset x with
  | case1 => simp
  | case2 s offset c cs hc ih =>
    rw [List.cons_append, run, if_pos hc] at h ⊢
    rw [ih (by simpa [Nat.add_assoc] using h), size_cons, Nat.add_assoc]
  | case3 s offset c cs hc kind n hscan text ih =>
    obtain ⟨kind', n', hlong⟩ : ∃ kind n, s.scan c (cs ++ y) = (kind, n) := ⟨_, _, rfl⟩
    rw [List.cons_append, run, if_neg hc, hlong] at h ⊢
    obtain ⟨hfirst, hmore⟩ := List.forall_mem_cons.1 h
    -- The token stops before the seam, so it is the one that the first text has.
    have hn : n' ≤ cs.length := by
      refine length_le_of_size_take hy (Nat.le_of_not_lt fun hlt => hfirst ⟨?_, ?_⟩)
      · exact Nat.lt_add_of_pos_right (size_pos (by simp))
      · simpa [Token.span, Token.stop] using hlt
    have hsame : s.scan c (cs ++ y) = s.scan c cs :=
      State.scan_of_append (by rw [hlong]; exact hn)
    rw [hlong, hscan] at hsame
    cases hsame
    simp only [List.take_append_of_le_length hn, List.drop_append_of_le_length hn] at hmore ⊢
    have hsize : size (c :: cs.take n) + size (cs.drop n) = size (c :: cs) := by
      rw [← size_append, List.cons_append, List.take_append_drop]
    rw [ih (by rwa [Nat.add_assoc, hsize]), Nat.add_assoc, hsize]
    rfl

/-- In the same substitutions a text is read the same, unless it may open with a regular
expression. -/
theorem run_congr {s s' : State} {offset : Nat} {t : Text} (hd : s.depths = s'.depths)
    (h : ∀ tok ∈ (run s offset t).find? Token.isCode, tok.text.head? ≠ some '/') :
    run s' offset t = run s offset t := by
  fun_induction run s offset t generalizing s' with
  | case1 => rw [run]
  | case2 s offset c cs hc ih =>
    rw [run, if_pos hc]
    exact ih hd h
  | case3 s offset c cs hc kind n hscan text =>
    rename_i ih
    rw [run, if_neg hc]
    by_cases hk : kind = .lineComment ∨ kind = .blockComment
    · rw [State.scan_comment s' hscan hk]
      simp only [State.after_comment _ _ hk] at ih h ⊢
      refine congrArg _ (ih hd ?_)
      rw [List.find?_cons_of_neg] at h
      · exact h
      · rcases hk with rfl | rfl <;> exact Bool.false_ne_true
    · have hcode : (Token.mk kind offset text).isCode := by
        cases kind <;> simp_all [Token.isCode, Token.isComment]
      rw [List.find?_cons_of_pos hcode] at h
      have hc' : c ≠ '/' := by simpa [text] using h
      rw [State.scan_congr hd hc', hscan]
      simp only [State.after_congr hd hk]
      rfl

theorem run_shift (s : State) (n offset : Nat) (t : Text) :
    run s (offset + n) t = (run s offset t).map (Token.shift n) := by
  have h := run_eq_place s true [] (offset + n) t
  have h' := run_eq_place s true [] offset t
  rw [size_nil, Nat.add_zero] at h h'
  rw [h, h', Mark.place_shift]

-- ---------------------------------------------------------------------------
-- Whole texts
-- ---------------------------------------------------------------------------

/-- A line that does not run across a seam is the one that the first text has. -/
theorem takeWhile_append_of_size_le {p : Char → Bool} {x y : Text}
    (h : size ((x ++ y).takeWhile p) ≤ x.size) :
    (x ++ y).takeWhile p = x.takeWhile p ∧ (x ++ y).dropWhile p = x.dropWhile p ++ y := by
  have htake : (x ++ y).takeWhile p = x.takeWhile p := by
    by_cases hy : y = []
    · rw [hy, List.append_nil]
    · refine takeWhile_of_append (length_le_of_size_take hy ?_)
      rwa [← List.prefix_iff_eq_take.1 (List.takeWhile_prefix p)]
  have hcut := List.takeWhile_append_dropWhile (p := p) (l := x ++ y)
  rw [htake] at hcut
  have hparts : x ++ y = x.takeWhile p ++ (x.dropWhile p ++ y) := by
    rw [← List.append_assoc, List.takeWhile_append_dropWhile]
  exact ⟨htake, List.append_cancel_left (hcut.trans hparts)⟩

theorem runFromTop_of_not_shebang {offset : Nat} {t : Text} (h : ¬ ['#', '!'] <+: t) :
    runFromTop offset t = run {} offset t := by
  rw [runFromTop.eq_def]
  split
  · next rest => exact absurd ⟨rest, rfl⟩ h
  · rfl

/-- Up to a seam that no token runs across, a whole text is read as if it ended there. -/
theorem runFromTop_append {offset : Nat} {x y : Text} (hy : ¬ ['#', '!'] <+: y)
    (h : ∀ tok ∈ runFromTop offset (x ++ y), ¬ tok.span.Encloses (offset + x.size)) :
    runFromTop offset (x ++ y) = runFromTop offset x ++
      run (State.afterTokens {} (runFromTop offset x)) (offset + x.size) y := by
  by_cases hx : ['#', '!'] <+: x ++ y
  · rcases x with _ | ⟨c, _ | ⟨d, x⟩⟩
    · exact absurd hx hy
    · -- The `#!` itself runs across the seam.
      obtain ⟨rest, hrest⟩ := hx
      obtain ⟨rfl, -⟩ : '#' = c ∧ _ := List.cons.inj hrest
      rw [← hrest, List.cons_append, List.cons_append, runFromTop] at h
      have htwo : 2 ≤ size (('#' :: '!' :: rest).takeWhile (· != '\n')) := by
        rw [List.takeWhile_cons_of_pos (by decide), List.takeWhile_cons_of_pos (by decide)]
        change 2 ≤ 1 + (1 + _)
        omega
      exact absurd ⟨Nat.lt_add_of_pos_right (by decide), Nat.add_lt_add_left htwo offset⟩
        (h _ (List.mem_cons_self ..))
    · obtain ⟨rest, hrest⟩ := hx
      obtain ⟨rfl, rfl, -⟩ : '#' = c ∧ '!' = d ∧ _ := by simpa using hrest
      rw [List.cons_append, List.cons_append, runFromTop, ← List.cons_append, ← List.cons_append]
        at h ⊢
      obtain ⟨hline, hmore⟩ := List.forall_mem_cons.1 h
      have hsize : size (('#' :: '!' :: x ++ y).takeWhile (· != '\n')) ≤
          size ('#' :: '!' :: x) := by
        refine Nat.le_of_not_lt fun hlt => hline ⟨?_, Nat.add_lt_add_left hlt offset⟩
        exact Nat.lt_add_of_pos_right (size_pos (by simp))
      obtain ⟨htake, hdrop⟩ := takeWhile_append_of_size_le hsize
      have hcut : size (('#' :: '!' :: x).takeWhile (· != '\n')) +
          size (('#' :: '!' :: x).dropWhile (· != '\n')) = size ('#' :: '!' :: x) := by
        rw [← size_append, List.takeWhile_append_dropWhile]
      rw [htake, hdrop] at hmore ⊢
      rw [run_append (by rwa [Nat.add_assoc, hcut]), runFromTop, Nat.add_assoc, hcut]
      rfl
  · rw [runFromTop_of_not_shebang hx] at h ⊢
    rw [runFromTop_of_not_shebang fun hp => hx (hp.trans (List.prefix_append ..))]
    exact run_append h

-- ---------------------------------------------------------------------------
-- What tokens leave
-- ---------------------------------------------------------------------------

/-- The state that the tokens of a text up to an offset leave. -/
def State.reached (t : Text) (n : Nat) : State :=
  State.afterTokens {} ((tokenize t).filter (·.stop ≤ n))

/-- May a `/` open a regular expression after tokens? The last one that is no comment says so. -/
def allowsRegex (tokens : List Token) : Bool :=
  (Token.lastCode? tokens).all fun tok => (State.after {} tok.kind tok.text).regexAllowed

theorem State.after_of_isComment (s : State) {tok : Token} (h : tok.isComment) :
    s.after tok.kind tok.text = s := by
  obtain ⟨kind, start, text⟩ := tok
  cases kind <;> first | rfl | cases h

theorem State.regexAllowed_after (s s' : State) {tok : Token} (h : tok.isCode) :
    (s.after tok.kind tok.text).regexAllowed = (s'.after tok.kind tok.text).regexAllowed := by
  obtain ⟨kind, start, text⟩ := tok
  cases kind <;> first | rfl | cases h

theorem State.regexAllowed_afterTokens (s : State) (tokens : List Token) :
    (s.afterTokens tokens).regexAllowed = match Token.lastCode? tokens with
      | some tok => (State.after {} tok.kind tok.text).regexAllowed
      | none => s.regexAllowed := by
  induction tokens generalizing s with
  | nil => rfl
  | cons tok tokens ih =>
    rw [afterTokens_cons, ih, Token.lastCode?, Token.lastCode?, List.findRev?]
    cases htail : tokens.findRev? Token.isCode with
    | some last => rfl
    | none =>
      by_cases hcode : tok.isCode
      · simp [hcode, regexAllowed_after s {} hcode]
      · rw [State.after_of_isComment s (by simpa [Token.isCode] using hcode)]
        simp [hcode]

theorem allowsRegex_eq (tokens : List Token) :
    allowsRegex tokens = (State.afterTokens {} tokens).regexAllowed := by
  rw [allowsRegex, State.regexAllowed_afterTokens]
  cases Token.lastCode? tokens <;> rfl

end Lexer

open Lexer

-- ---------------------------------------------------------------------------
-- The seam
-- ---------------------------------------------------------------------------

theorem tokenize_of_plain {t : Text} (hmark : t.head? ≠ some byteOrderMark)
    (hbang : ¬ ['#', '!'] <+: t) : tokenize t = run {} 0 t := by
  rw [tokenize, markSize_eq_zero hmark, dropBytes_zero, runFromTop_of_not_shebang hbang]

/-- Up to a seam that no token runs across, a text is lexed as if it ended there. -/
theorem tokenize_append_run {a b : Text} (hmark : b.head? ≠ some byteOrderMark)
    (hbang : ¬ ['#', '!'] <+: b) (hseam : ∀ tok ∈ tokenize (a ++ b), ¬ tok.span.Encloses a.size) :
    tokenize (a ++ b) = tokenize a ++ run (State.afterTokens {} (tokenize a)) a.size b := by
  have hsize : a.markSize + a.body.size = a.size := by
    obtain ⟨mark, ha, hsize, -⟩ := a.exists_body
    conv => rhs; rw [ha]
    rw [size_append, hsize]
  have hjoined : tokenize (a ++ b) = runFromTop a.markSize (a.body ++ b) := by
    rw [← markSize_append (.inr hmark), ← body_append (.inr hmark)]
    rfl
  rw [hjoined] at hseam ⊢
  rw [runFromTop_append hbang (by rwa [hsize]), hsize]
  rfl

/-- The tokens up to such a seam are those of the first text. -/
theorem filter_stop_le {a b : Text} {s : State}
    (h : tokenize (a ++ b) = tokenize a ++ run s a.size b) :
    (tokenize (a ++ b)).filter (·.stop ≤ a.size) = tokenize a := by
  have hfront : (tokenize a).filter (·.stop ≤ a.size) = tokenize a :=
    List.filter_eq_self.2 fun tok htok => decide_eq_true (inside_of_mem_tokenize htok).2.2
  have hback : (run s a.size b).filter (·.stop ≤ a.size) = [] := by
    refine List.filter_eq_nil_iff.2 fun tok htok hle => ?_
    have hinside := inside_of_mem_tokenize (h ▸ List.mem_append_right (tokenize a) htok)
    have hplace := run_eq_place s true [] a.size b
    rw [size_nil, Nat.add_zero] at hplace
    have hstart := Mark.le_start_of_mem_place (hplace ▸ htok)
    exact absurd (of_decide_eq_true hle) (by omega)
  rw [h, List.filter_append, hfront, hback, List.append_nil]

/-- Lexing is local. Where no token runs across the seam of two texts and no template substitution
is open there, the second text is lexed as on its own, unless it opens with a `/` that may open no
regular expression after the first. -/
theorem tokenize_append {a b : Text} (hmark : b.head? ≠ some byteOrderMark)
    (hbang : ¬ ['#', '!'] <+: b) (hseam : ∀ tok ∈ tokenize (a ++ b), ¬ tok.span.Encloses a.size)
    (hopen : (State.reached (a ++ b) a.size).depths = [])
    (hslash : allowsRegex (tokenize a) ∨
      ∀ tok ∈ (tokenize b).find? Token.isCode, tok.text.head? ≠ some '/') :
    tokenize (a ++ b) = tokenize a ++ (tokenize b).map (Token.shift a.size) := by
  have hfront := tokenize_append_run hmark hbang hseam
  rw [State.reached, filter_stop_le hfront] at hopen
  rw [hfront, tokenize_of_plain hmark hbang, ← run_shift, Nat.zero_add]
  congr 1
  rcases hslash with hallowed | hfirst
  · rw [allowsRegex_eq] at hallowed
    have hstate : State.afterTokens {} (tokenize a) = {} := by
      cases hs : State.afterTokens {} (tokenize a)
      rw [hs] at hopen hallowed
      cases hopen
      cases hallowed
      rfl
    rw [hstate]
  · refine run_congr hopen.symm fun tok htok => ?_
    rw [← Nat.zero_add a.size, run_shift, List.find?_map] at htok
    obtain ⟨tok', htok', rfl⟩ := Option.map_eq_some_iff.1 htok
    rw [tokenize_of_plain hmark hbang] at hfirst
    exact hfirst tok' htok'

/-- Behind a `;` a line may open with a regular expression. -/
theorem tokenize_append_lines :
    tokenize ("x = 1;\n".toList ++ "/'/.test(y)\n".toList) =
      tokenize "x = 1;\n".toList ++ (tokenize "/'/.test(y)\n".toList).map (Token.shift 7) :=
  tokenize_append (by decide) (by decide) (by decide +kernel) (by decide +kernel)
    (.inl (by decide +kernel))

end TidyImports
