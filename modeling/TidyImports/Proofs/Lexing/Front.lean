-- SUMMARY: Lines of strings, semicolons and comments are lexed the same whatever comes below them.
import TidyImports.Proofs.Lexing.Joined

/-!
# The front of a text

Take some lines at the top of a text whose code are closed strings and
semicolons, none of which reaches over the last line. Whatever comes below
them, they hold the same code: only a comment that is open at the end of the
last line can change, and its other end is no code.
-/

namespace TidyImports

open Text

/-- Does a text end with the end of a line? The empty text does. -/
def Text.EndsLines (t : Text) : Prop := ∀ c ∈ t.getLast?, c = '\n'

namespace Text

variable {x : Text}

theorem EndsLines.of_append {a b : Text} (h : (a ++ b).EndsLines) : b.EndsLines := by
  intro c hc
  refine h c ?_
  rw [List.getLast?_append, Option.mem_def.1 hc]
  rfl

theorem EndsLines.append {b : Text} (h : b.EndsLines) (hb : b ≠ []) (a : Text) :
    (a ++ b).EndsLines := by
  intro c hc
  rw [List.getLast?_append_of_ne_nil _ hb] at hc
  exact h c hc

theorem EndsLines.exists_concat (h : x.EndsLines) (hx : x ≠ []) : ∃ front, x = front ++ ['\n'] := by
  obtain ⟨front, c, rfl⟩ := (List.eq_nil_or_concat' x).resolve_left hx
  exact ⟨front, by rw [h c (by simp)]⟩

/-- A character in the middle of a part is one of the part. -/
theorem mem_of_append_eq {a x b front y : Text} {c : Char} (h : a ++ x ++ b = front ++ c :: y)
    (hle : a.size ≤ front.size) (hlt : front.size < a.size + x.size) : c ∈ x := by
  rw [List.append_assoc] at h
  obtain ⟨w, rfl, hw⟩ := exists_of_size_le h hle
  rw [size_append] at hlt
  obtain ⟨v, rfl, hv⟩ := exists_of_size_le hw.symm (by omega)
  cases v with
  | nil => simp at hlt
  | cons d v =>
    obtain ⟨rfl, -⟩ := List.cons.inj hv
    simp

/-- Where a line ends does not depend on what comes below it. -/
theorem nextLine_front {front : Text} {n : Nat} (hends : front.EndsLines) (hcut : front.IsCut n)
    (hlt : n < front.size) (rest : Text) : (front ++ rest).nextLine n = front.nextLine n := by
  obtain ⟨a, b, rfl, rfl⟩ := hcut
  have hb : b ≠ [] := by
    rintro rfl
    simp at hlt
  obtain ⟨line, hline⟩ := (EndsLines.of_append hends).exists_concat hb
  obtain ⟨first, below, hfirst, hmem, hhead⟩ := Lexer.exists_line b
  obtain ⟨below, rfl⟩ : ∃ more, below = '\n' :: more := by
    cases below with
    | nil =>
      rw [List.append_nil] at hfirst
      rw [← hfirst, hline] at hmem
      simp at hmem
    | cons c more => exact ⟨more, by rw [hhead c rfl]⟩
  rw [nextLine, nextLine, List.append_assoc, dropBytes_append, dropBytes_append, hfirst,
    List.append_assoc, List.cons_append, firstLine_append hmem, firstLine_append hmem]

end Text

/-- The code tokens that start before an offset. -/
def Token.codeBefore (n : Nat) (tokens : List Token) : List Token :=
  tokens.filter fun tok => tok.isCode && decide (tok.start < n)

namespace Lexer

-- ---------------------------------------------------------------------------
-- Scanners
-- ---------------------------------------------------------------------------

section

variable {s : State} {c : Char} {cs r : Text} {kind : Token.Kind} {n : Nat}

/-- A token that is as it is on lines that end where they end: a comment, a closed string, or a
semicolon. -/
def Settled (kind : Token.Kind) : Prop :=
  kind = .lineComment ∨ kind = .blockComment ∨ kind = .string true ∨ kind = .punct ';'

theorem lineLength_of_mem (h : '\n' ∈ cs) : lineLength (cs ++ r) = lineLength cs := by
  refine lineLength_append (Nat.lt_of_le_of_ne (List.takeWhile_prefix _).length_le fun heq => ?_)
  have hall := (List.takeWhile_prefix (· != '\n')).eq_of_length heq
  rw [← hall] at h
  simpa using List.all_eq_true.1 List.all_takeWhile _ h

theorem stringLength_le {q : Char} {t : Text} : (stringLength q t).1 ≤ t.length := by
  fun_induction stringLength q t with
  | case4 d cs n closed heq ih =>
    rw [heq] at ih
    exact Nat.add_le_add_right ih 2
  | case7 c d cs hb hn hq n closed heq ih =>
    rw [heq] at ih
    exact Nat.succ_le_succ ih
  | _ => simp

/-- A string that is closed by the end of its line is the same whatever comes below. -/
theorem stringLength_of_endsLines {q : Char} (hq : q = '\'' ∨ q = '"') (hcs : cs.EndsLines)
    (h : stringLength q (cs ++ r) = (n, true)) (hsize : size ((cs ++ r).take n) ≤ cs.size)
    (r' : Text) :
    n ≤ cs.length ∧ stringLength q (cs ++ r') = (n, true) := by
  have hn : n ≤ cs.length := by
    by_cases hr : r = []
    · rw [hr, List.append_nil] at h
      have hle := stringLength_le (q := q) (t := cs)
      rwa [h] at hle
    · exact length_le_of_size_take hr hsize
  have hb : q ≠ '\\' ∧ q ≠ '\n' := by rcases hq with rfl | rfl <;> decide
  have hshort : stringLength q cs = (n, true) := by
    rw [← stringLength_of_append (by rw [h]; exact hn), h]
  obtain ⟨x, hx, -⟩ := exists_quotable hb.1 hshort
  have hlt : n < cs.length := Nat.lt_of_le_of_ne hn fun heq => by
    rw [heq, List.take_length] at hx
    exact hb.2 (hcs q (by simp [hx]))
  exact ⟨hn, by rw [stringLength_append (by rw [hshort]; exact hlt), hshort]⟩

theorem commentLength_of_endsLines {r' : Text} (h : cs.length ≤ commentLength (cs ++ r)) :
    cs.length ≤ commentLength (cs ++ r') := by
  refine Nat.le_of_not_lt fun hlt => ?_
  have hshort := commentLength_of_append (Nat.le_of_lt hlt)
  rw [hshort] at hlt
  rw [commentLength_append hlt] at h
  exact absurd h (Nat.not_le_of_lt hlt)

/-- Below a slash, a comment is the same, or is a block comment that is open where the lines end. -/
theorem State.scan_front_slash (hcs : cs.EndsLines) (hne : cs ≠ [])
    (h : s.scan '/' (cs ++ r) = (kind, n)) (hkind : Settled kind) (r' : Text) :
    (n ≤ cs.length ∧ s.scan '/' (cs ++ r') = (kind, n)) ∨
      kind = .blockComment ∧ cs.length ≤ n ∧
        ∃ n', s.scan '/' (cs ++ r') = (.blockComment, n') ∧ cs.length ≤ n' := by
  obtain ⟨d, ds, rfl⟩ := List.exists_cons_of_ne_nil hne
  by_cases h₁ : d = '/'
  · subst h₁
    obtain ⟨front, hfront⟩ := hcs.exists_concat hne
    have hmem : '\n' ∈ '/' :: ds := by simp [hfront]
    simp only [State.scan, if_true, List.cons_append] at h ⊢
    rw [← List.cons_append, lineLength_of_mem hmem] at h ⊢
    cases h
    exact .inl ⟨(List.takeWhile_prefix _).length_le, rfl⟩
  by_cases h₂ : d = '*'
  · subst h₂
    simp only [State.scan, if_true, List.cons_append] at h ⊢
    obtain ⟨rfl, rfl⟩ := Prod.mk.inj h
    by_cases hlt : commentLength ds < ds.length
    · left
      rw [commentLength_append hlt, commentLength_append hlt, List.length_cons]
      exact ⟨Nat.succ_le_succ (Nat.le_of_lt hlt), rfl⟩
    · have hopen : ∀ y : Text, ds.length ≤ commentLength (ds ++ y) := fun y => by
        refine commentLength_of_endsLines (r := []) ?_
        rw [List.append_nil]
        exact Nat.le_of_not_lt hlt
      exact .inr ⟨rfl, Nat.succ_le_succ (hopen r), _, rfl, Nat.succ_le_succ (hopen r')⟩
  · rw [List.cons_append, State.scan_slash h₁ h₂] at h
    split at h <;> cases h <;> simp [Settled] at hkind

/-- Whatever comes below, a settled token that starts in a line is the same, or is a block comment
that is open where the lines end. -/
theorem State.scan_front (hcs : cs.EndsLines) (hne : cs ≠ []) (h : s.scan c (cs ++ r) = (kind, n))
    (hkind : Settled kind) (hn : kind = .string true → size ((cs ++ r).take n) ≤ cs.size)
    (r' : Text) :
    (n ≤ cs.length ∧ s.scan c (cs ++ r') = (kind, n)) ∨
      kind = .blockComment ∧ cs.length ≤ n ∧
        ∃ n', s.scan c (cs ++ r') = (.blockComment, n') ∧ cs.length ≤ n' := by
  by_cases hc : c = '/'
  · subst hc
    exact State.scan_front_slash hcs hne h hkind r'
  · obtain ⟨d, ds, rfl⟩ := List.exists_cons_of_ne_nil hne
    simp only [State.scan, hc, if_false] at h ⊢
    split at h
    · next hq =>
      obtain ⟨hclosed, rfl⟩ := Prod.mk.inj h
      have htrue : (stringLength c (d :: ds ++ r)).2 = true := by
        subst hclosed
        simpa [Settled] using hkind
      rw [htrue] at hclosed
      obtain ⟨hle, hlong⟩ := stringLength_of_endsLines hq hcs (Prod.ext rfl htrue)
        (hn hclosed.symm) r'
      simp only [hq, if_true, hlong]
      exact .inl ⟨hle, by rw [hclosed]⟩
    · next hq =>
      simp only [hq, if_false]
      split at h
      · cases h
        simp [Settled] at hkind
      · next ht =>
        simp only [ht, if_false]
        split at h
        · cases h
          simp [Settled] at hkind
        · next hd =>
          simp only [hd, Bool.false_eq_true, if_false]
          split at h
          · cases h
            simp [Settled] at hkind
          · next hi =>
            cases h
            simp [hi]

end

-- ---------------------------------------------------------------------------
-- Tokens
-- ---------------------------------------------------------------------------

theorem codeBefore_run_of_le {s : State} {offset n : Nat} {t : Text} (h : n ≤ offset) :
    Token.codeBefore n (run s offset t) = [] := by
  refine List.filter_eq_nil_iff.2 fun tok htok => ?_
  have hplace := run_eq_place s true [] offset t
  rw [size_nil, Nat.add_zero] at hplace
  have hstart := Mark.le_start_of_mem_place (hplace ▸ htok)
  simp only [Bool.and_eq_true, decide_eq_true_eq, not_and]
  omega

/-- There is no code before the end of a comment that the text starts with. -/
theorem codeBefore_comment {s : State} {offset n : Nat} {text rest : Text}
    (h : n ≤ offset + text.size) : Token.codeBefore n
      (⟨.blockComment, offset, text⟩ :: run s (offset + text.size) rest) = [] := by
  rw [Token.codeBefore, List.filter_cons_of_neg (by simp [Token.isCode, Token.isComment]),
    ← Token.codeBefore, codeBefore_run_of_le h]

/-- Is the code that starts before an offset closed strings and semicolons that end there? -/
def SettledBy (n : Nat) (tokens : List Token) : Prop :=
  ∀ tok ∈ tokens, tok.isCode → tok.start < n →
    (tok.contents?.isSome ∨ tok.isPunct ';') ∧ tok.stop ≤ n

theorem Settled.of_settledBy {n offset : Nat} {kind : Token.Kind} {text : Text}
    {tokens : List Token} (h : SettledBy n (⟨kind, offset, text⟩ :: tokens)) (hlt : offset < n) :
    Settled kind ∧ (kind = .string true → offset + text.size ≤ n) := by
  have hfirst := h _ (List.mem_cons_self ..)
  cases kind with
  | lineComment => exact ⟨.inl rfl, by simp⟩
  | blockComment => exact ⟨.inr (.inl rfl), by simp⟩
  | string closed =>
    obtain ⟨hclosed, hstop⟩ := hfirst rfl hlt
    cases closed with
    | false => simp [Token.contents?, Token.isPunct] at hclosed
    | true => exact ⟨.inr (.inr (.inl rfl)), fun _ => hstop⟩
  | punct c =>
    obtain ⟨hpunct, -⟩ := hfirst rfl hlt
    refine ⟨.inr (.inr (.inr ?_)), by simp⟩
    simpa [Token.contents?, Token.isPunct] using hpunct
  | _ => simpa [Token.contents?, Token.isPunct] using hfirst rfl hlt

/-- Lines that hold settled code hold the same code whatever comes below them. -/
theorem codeBefore_run {s : State} {offset : Nat} {x r : Text} (r' : Text) (hx : x.EndsLines)
    (h : SettledBy (offset + x.size) (run s offset (x ++ r))) :
    Token.codeBefore (offset + x.size) (run s offset (x ++ r')) =
      Token.codeBefore (offset + x.size) (run s offset (x ++ r)) := by
  match x with
  | [] =>
    rw [size_nil, Nat.add_zero, codeBefore_run_of_le (Nat.le_refl _),
      codeBefore_run_of_le (Nat.le_refl _)]
  | c :: cs =>
    have hcs : EndsLines cs := EndsLines.of_append (a := [c]) hx
    rw [size_cons, ← Nat.add_assoc] at h ⊢
    rw [List.cons_append, run] at h ⊢
    rw [List.cons_append, run]
    by_cases hc : isSpace c
    · rw [if_pos hc] at h ⊢
      rw [if_pos hc]
      exact codeBefore_run r' hcs h
    · rw [if_neg hc] at h ⊢
      rw [if_neg hc]
      have hne : cs ≠ [] := by
        rintro rfl
        exact hc (by rw [hx c (by simp)]; decide)
      obtain ⟨kind, n, hscan⟩ : ∃ kind n, s.scan c (cs ++ r) = (kind, n) := ⟨_, _, rfl⟩
      rw [hscan] at h ⊢
      simp only at h ⊢
      have hpos : offset < offset + c.utf8Size + size cs := by
        have := c.utf8Size_pos
        omega
      obtain ⟨hkind, hstop⟩ := Settled.of_settledBy h hpos
      have hn : kind = .string true → size ((cs ++ r).take n) ≤ size cs := fun hstring => by
        have hsize := hstop hstring
        rw [size_cons] at hsize
        omega
      rcases State.scan_front hcs hne hscan hkind hn r' with
        ⟨hle, hscan'⟩ | ⟨rfl, hle, n', hscan', hle'⟩
      · -- The token is over before the lines are.
        have hsize : size (c :: cs.take n) + size (cs.drop n) = c.utf8Size + size cs := by
          rw [← size_append, List.cons_append, List.take_append_drop, size_cons]
        rw [hscan']
        simp only [List.take_append_of_le_length hle, List.drop_append_of_le_length hle] at h ⊢
        have hdrop : EndsLines (cs.drop n) :=
          EndsLines.of_append (a := cs.take n) (by rwa [List.take_append_drop])
        have hrec := @codeBefore_run (s.after kind (c :: cs.take n))
          (offset + size (c :: cs.take n)) (cs.drop n) r r' hdrop
        rw [Nat.add_assoc offset, hsize, ← Nat.add_assoc] at hrec
        have hmore := hrec fun tok htok => h tok (List.mem_cons_of_mem _ htok)
        rw [Token.codeBefore, Token.codeBefore, List.filter_cons, List.filter_cons]
        rw [Token.codeBefore, Token.codeBefore] at hmore
        rw [hmore]
      · -- The comment is open at the end of the lines.
        have hopen : ∀ (k : Nat) (y : Text), cs.length ≤ k →
            offset + c.utf8Size + size cs ≤ offset + size (c :: (cs ++ y).take k) := by
          intro k y hk
          rw [List.take_append, List.take_of_length_le hk, size_cons, size_append]
          omega
        rw [hscan']
        simp only
        rw [codeBefore_comment (hopen n' r' hle'), codeBefore_comment (hopen n r hle)]
termination_by x.length
decreasing_by
  all_goals simp only [List.length_cons, List.length_drop]; omega

theorem shebang_of_endsLines {x r : Text} (hx : x.EndsLines) (hne : x ≠ [])
    (h : ['#', '!'] <+: x ++ r) : ∃ line below, x = '#' :: '!' :: line ++ below ∧ '\n' ∉ line ∧
      below ≠ [] ∧ below.EndsLines ∧ ∀ c ∈ below.head?, c = '\n' := by
  obtain ⟨tail, htail⟩ := h
  obtain ⟨rest, rfl⟩ : ∃ rest, x = '#' :: '!' :: rest := by
    match x, hne with
    | [c], _ =>
      obtain ⟨rfl, -⟩ := List.cons.inj htail
      exact absurd (hx '#' rfl) (by decide)
    | c :: d :: rest, _ =>
      obtain ⟨rfl, htail'⟩ := List.cons.inj htail
      obtain ⟨rfl, -⟩ := List.cons.inj htail'
      exact ⟨rest, rfl⟩
  obtain ⟨line, below, rfl, hline, hbelow⟩ := exists_line rest
  refine ⟨line, below, rfl, hline, ?_, EndsLines.of_append (a := '#' :: '!' :: line) hx, hbelow⟩
  rintro rfl
  obtain ⟨front, hfront⟩ := hx.exists_concat hne
  have hmem : '\n' ∈ '#' :: '!' :: (line ++ []) := by
    rw [hfront]
    exact List.mem_append_right _ (List.mem_singleton_self _)
  simp [hline] at hmem

/-- A whole text on lines with settled code at its top. -/
theorem codeBefore_runFromTop {offset : Nat} {x r : Text} (r' : Text) (hx : x.EndsLines)
    (hne : x ≠ []) (h : SettledBy (offset + x.size) (runFromTop offset (x ++ r))) :
    Token.codeBefore (offset + x.size) (runFromTop offset (x ++ r')) =
      Token.codeBefore (offset + x.size) (runFromTop offset (x ++ r)) := by
  by_cases hbang : ['#', '!'] <+: x ++ r
  · obtain ⟨line, below, rfl, hline, hne', hends, hhead⟩ := shebang_of_endsLines hx hne hbang
    have hrun : ∀ y : Text, runFromTop offset ('#' :: '!' :: line ++ below ++ y) =
        ⟨.lineComment, offset, '#' :: '!' :: line⟩ ::
          run {} (offset + size ('#' :: '!' :: line)) (below ++ y) := fun y => by
      obtain ⟨c, below, rfl⟩ := List.exists_cons_of_ne_nil hne'
      have hnotline : '\n' ∉ '#' :: '!' :: line := by simpa using hline
      have hmore : ∀ d ∈ (c :: below ++ y).head?, d = '\n' := hhead
      have hcut := takeWhile_dropWhile_line hnotline hmore
      rw [List.append_assoc]
      rw [List.cons_append, List.cons_append, List.cons_append] at hcut ⊢
      rw [runFromTop, hcut.1, hcut.2]
    rw [hrun] at h ⊢
    have hmore := codeBefore_run (x := below) r' hends fun tok htok => by
      have := h tok (List.mem_cons_of_mem _ htok)
      rwa [size_append, ← Nat.add_assoc] at this
    rw [hrun, Token.codeBefore, Token.codeBefore, List.filter_cons_of_neg (by simp [Token.isCode,
      Token.isComment]), List.filter_cons_of_neg (by simp [Token.isCode, Token.isComment]),
      size_append, ← Nat.add_assoc]
    exact hmore
  · have hbang' : ¬ ['#', '!'] <+: x ++ r' := fun hprefix => by
      obtain ⟨line, below, rfl, -⟩ := shebang_of_endsLines hx hne hprefix
      exact hbang ⟨line ++ below ++ r, by simp⟩
    rw [runFromTop_of_not_shebang hbang] at h ⊢
    rw [runFromTop_of_not_shebang hbang']
    exact codeBefore_run r' hx h

end Lexer

open Lexer

/-- Lines at the top of a text that hold settled code hold the same code whatever comes below. -/
theorem codeBefore_tokenize {x r : Text} (r' : Text) (hx : x.EndsLines)
    (h : SettledBy x.size (tokenize (x ++ r))) :
    Token.codeBefore x.size (tokenize (x ++ r')) = Token.codeBefore x.size (tokenize (x ++ r)) := by
  by_cases hne : x = []
  · subst hne
    simp [Token.codeBefore]
  obtain ⟨mark, hmark, hsize, -⟩ := x.exists_body
  have htop : ∀ y : Text, tokenize (x ++ y) = runFromTop x.markSize (x.body ++ y) := fun y => by
    rw [← markSize_append (.inl hne), ← body_append (.inl hne)]
    rfl
  have hbody : x.markSize + x.body.size = x.size := by
    rw [← hsize, ← size_append, ← hmark]
  by_cases hempty : x.body = []
  · -- There is nothing but the byte order mark.
    have hstart : ∀ y : Text, Token.codeBefore x.size (tokenize (x ++ y)) = [] := fun y => by
      refine List.filter_eq_nil_iff.2 fun tok htok => ?_
      have hinside := (inside_of_mem_tokenize htok).1
      rw [markSize_append (.inl hne)] at hinside
      rw [hempty, size_nil] at hbody
      simp only [Bool.and_eq_true, decide_eq_true_eq, not_and]
      omega
    rw [hstart, hstart]
  · rw [htop, ← hbody] at h ⊢
    rw [htop]
    exact codeBefore_runFromTop r' (EndsLines.of_append (hmark ▸ hx)) hempty h

end TidyImports
