-- SUMMARY: The marks of a whole text, from the byte order mark and the first line on.
import TidyImports.Proofs.Lexing.Replacement
import TidyImports.Proofs.Text.Cutting

/-!
# Whole texts

A text may open with a byte order mark, which belongs to no token, and with a
`#!` line, which is a comment. The rest is read as any other text, so what is
known of marks in general holds of the marks of a whole text.
-/

namespace TidyImports

open Text

namespace Lexer

/-- The marks of a text that may open with a `#!` line. -/
def top (t : Text) : List Mark :=
  match t with
  | '#' :: '!' :: _ =>
    ⟨[], .lineComment, t.takeWhile (· != '\n'), false⟩ ::
      marks {} false [] (t.dropWhile (· != '\n'))
  | _ => marks {} true [] t

theorem runFromTop_eq_place (offset : Nat) (t : Text) :
    runFromTop offset t = Mark.place offset (top t) := by
  rw [runFromTop.eq_def]
  split
  · next rest =>
    have := run_eq_place {} false [] (offset + Text.size (('#' :: '!' :: rest).takeWhile
      (· != '\n'))) (('#' :: '!' :: rest).dropWhile (· != '\n'))
    simpa [top, Mark.place] using this
  · next h =>
    rw [top.eq_2 t h]
    exact run_eq_place {} true [] offset t

end Lexer

namespace Text

/-- What follows the byte order mark. -/
def body (t : Text) : Text := t.dropBytes t.markSize

theorem exists_body (t : Text) :
    ∃ mark : Text, t = mark ++ t.body ∧ mark.size = t.markSize ∧ lineBlank true mark = true := by
  rw [body, markSize]
  by_cases h : t.head? = some byteOrderMark
  · obtain ⟨cs, rfl⟩ := List.head?_eq_some_iff.1 h
    refine ⟨[byteOrderMark], ?_, by simp, rfl⟩
    have := dropBytes_append [byteOrderMark] cs
    simpa [h] using this.symm
  · exact ⟨[], by simp [h], by simp [h], rfl⟩

theorem isCut_markSize (t : Text) : t.IsCut t.markSize := by
  obtain ⟨mark, ht, hsize, -⟩ := t.exists_body
  exact ⟨mark, t.body, ht, hsize⟩

theorem markSize_eq_zero {t : Text} (h : t.head? ≠ some byteOrderMark) : t.markSize = 0 := if_neg h

theorem body_eq_self {t : Text} (h : t.head? ≠ some byteOrderMark) : t.body = t := by
  rw [body, markSize_eq_zero h, dropBytes_zero]

theorem markSize_append {p x : Text} (h : p ≠ [] ∨ x.head? ≠ some byteOrderMark) :
    (p ++ x).markSize = p.markSize := by
  cases p with
  | nil =>
    have hx : x.head? ≠ some byteOrderMark := h.resolve_left (by simp)
    simp [markSize, hx]
  | cons c p => rfl

/-- What follows a text follows its body. -/
theorem body_append {p x : Text} (h : p ≠ [] ∨ x.head? ≠ some byteOrderMark) :
    (p ++ x).body = p.body ++ x := by
  obtain ⟨mark, hp, hsize, -⟩ := p.exists_body
  rw [body, markSize_append h, ← hsize]
  conv => lhs; rw [hp]
  rw [List.append_assoc, dropBytes_append]

/-- A text is cut where its body is. What stands before a character of the body keeps its byte
order mark whatever follows. -/
theorem exists_start {t x y : Text} {c : Char} (hc : c ≠ byteOrderMark)
    (h : t.body = x ++ c :: y) :
    ∃ start : Text, t = start ++ c :: y ∧ start.size = t.markSize + x.size ∧
      ∀ y', (start ++ c :: y').markSize = t.markSize ∧
        (start ++ c :: y').body = x ++ c :: y' := by
  obtain ⟨mark, ht, hsize, -⟩ := t.exists_body
  rw [h, ← List.append_assoc] at ht
  have hhead : ∀ y' : Text, mark ++ x ≠ [] ∨ (c :: y').head? ≠ some byteOrderMark :=
    fun y' => .inr (by simpa using hc)
  have hstart : (mark ++ x).body = x := by
    have hbody := body_append (hhead y)
    rw [← ht, h] at hbody
    exact (List.append_cancel_right hbody).symm
  refine ⟨mark ++ x, ht, by rw [size_append, hsize], fun y' => ⟨?_, ?_⟩⟩
  · have hmark := markSize_append (hhead y)
    rw [← ht] at hmark
    rw [markSize_append (hhead y'), hmark]
  · rw [body_append (hhead y'), hstart]

end Text

/-- The tokens of a text are the marks of its body with their offsets. -/
theorem tokenize_eq_place_top (t : Text) :
    tokenize t = Mark.place t.markSize (Lexer.top t.body) :=
  Lexer.runFromTop_eq_place _ _

namespace Lexer

theorem sources_top (t : Text) : ∃ tail, t = Mark.sources (top t) ++ tail := by
  rw [top.eq_def]
  split
  · next rest =>
    refine ⟨(leave {} [] (('#' :: '!' :: rest).dropWhile (· != '\n'))).2, ?_⟩
    have := sources_marks {} false [] (('#' :: '!' :: rest).dropWhile (· != '\n'))
    rw [Mark.sources_cons, List.append_assoc, this]
    simp [List.takeWhile_append_dropWhile]
  · exact ⟨(leave {} [] t).2, (sources_marks {} true [] t).symm⟩

theorem reads_top (t : Text) : Mark.Reads true (top t) := by
  rw [top.eq_def]
  split
  · next rest =>
    have hnl : '\n' ∉ ('!' :: rest).takeWhile (· != '\n') := fun h => by
      have hall := List.all_takeWhile (p := (· != '\n')) (l := '!' :: rest)
      simpa using List.all_eq_true.1 hall _ h
    have hblank : lineBlank true (('#' :: '!' :: rest).takeWhile (· != '\n')) = false := by
      rw [List.takeWhile_cons_of_pos (by decide), lineBlank_cons]
      exact lineBlank_false hnl
    refine ⟨rfl, ?_⟩
    rw [List.nil_append, hblank]
    exact reads_marks {} false false [] _ rfl
  · exact reads_marks {} true true [] t rfl

theorem proper_top (t : Text) : ∀ m ∈ top t, m.Proper := by
  rw [top.eq_def]
  split
  · next rest =>
    intro m hm
    rcases List.mem_cons.1 hm with rfl | hm
    · exact {
        gap := rfl
        shapes := trivial
        start := ⟨'#', '!' :: rest.takeWhile (· != '\n'), by simp, by decide⟩
        leads := fun h => by cases h }
    · exact proper_marks rfl m hm
  · exact proper_marks rfl

theorem quotable_top {t : Text} {m : Mark} (hm : m ∈ top t) (hk : m.kind = .string true) :
    ∃ q x, (q = '\'' ∨ q = '"') ∧ m.text = q :: (x ++ [q]) ∧ IsQuotable q x := by
  rw [top.eq_def] at hm
  split at hm
  · rcases List.mem_cons.1 hm with rfl | hm
    · cases hk
    · exact quotable_marks hm hk
  · exact quotable_marks hm hk

/-- Closed strings of a text hold quotable text. -/
theorem quotable_tokenize {t : Text} {tok : Token} (h : tok ∈ tokenize t)
    (hk : tok.kind = .string true) :
    ∃ q x, (q = '\'' ∨ q = '"') ∧ tok.text = q :: (x ++ [q]) ∧ IsQuotable q x := by
  rw [tokenize_eq_place_top] at h
  obtain ⟨a, m, b, hms, rfl⟩ := Mark.mem_place h
  exact quotable_top (hms ▸ List.mem_append_right _ (List.mem_cons_self ..)) hk

-- ---------------------------------------------------------------------------
-- Text that ends a line
-- ---------------------------------------------------------------------------

/-- The state in which a text is left from the top, and the white space at its end. -/
def leaveTop (t : Text) : State × Text :=
  match t with
  | '#' :: '!' :: _ => leave {} [] (t.dropWhile (· != '\n'))
  | _ => leave {} [] t

theorem top_of_not_shebang {t : Text} (h : ∀ rest, t ≠ '#' :: '!' :: rest) :
    top t = marks {} true [] t := by
  rw [top.eq_def]
  split
  · next rest => exact absurd rfl (h rest)
  · rfl

theorem leaveTop_of_not_shebang {t : Text} (h : ∀ rest, t ≠ '#' :: '!' :: rest) :
    leaveTop t = leave {} [] t := by
  rw [leaveTop.eq_def]
  split
  · next rest => exact absurd rfl (h rest)
  · rfl

theorem sources_top_leaveTop (t : Text) : Mark.sources (top t) ++ (leaveTop t).2 = t := by
  by_cases h : ∃ rest, t = '#' :: '!' :: rest
  · obtain ⟨rest, rfl⟩ := h
    have := sources_marks {} false [] (('#' :: '!' :: rest).dropWhile (· != '\n'))
    rw [top, leaveTop, Mark.sources_cons, List.append_assoc, this]
    simp [List.takeWhile_append_dropWhile]
  · have h' : ∀ rest, t ≠ '#' :: '!' :: rest := fun rest heq => h ⟨rest, heq⟩
    rw [top_of_not_shebang h', leaveTop_of_not_shebang h']
    exact sources_marks {} true [] t

theorem leaveTop_isSpace (t : Text) : (leaveTop t).2.all isSpace := by
  rw [leaveTop.eq_def]
  split <;> exact leave_isSpace _ _ _ rfl

/-- A text is a line and what follows it, which opens with the end of the line. -/
theorem exists_line (t : Text) :
    ∃ line below, t = line ++ below ∧ '\n' ∉ line ∧ ∀ c ∈ below.head?, c = '\n' := by
  refine ⟨t.takeWhile (· != '\n'), t.dropWhile (· != '\n'),
    List.takeWhile_append_dropWhile.symm, fun h => ?_, fun c hc => ?_⟩
  · simpa using List.all_eq_true.1 List.all_takeWhile _ h
  · have hhead := List.head?_dropWhile_not (· != '\n') t
    rw [Option.mem_def.1 hc] at hhead
    simpa using hhead

theorem takeWhile_dropWhile_line {line below : Text} (h : '\n' ∉ line)
    (hb : ∀ c ∈ below.head?, c = '\n') :
    (line ++ below).takeWhile (· != '\n') = line ∧
      (line ++ below).dropWhile (· != '\n') = below := by
  have htake : (line ++ below).takeWhile (· != '\n') = line := by
    refine takeWhile_append_of_all (List.all_eq_true.2 fun c hc => ?_) fun c hc => ?_
    · rw [bne_iff_ne]
      rintro rfl
      exact h hc
    · rw [hb c hc]
      rfl
  have hcut := List.takeWhile_append_dropWhile (p := (· != '\n')) (l := line ++ below)
  rw [htake] at hcut
  exact ⟨htake, List.append_cancel_left hcut⟩

/-- What follows a `#!` line is read as a text of its own. -/
theorem top_shebang {line below : Text} (h : '\n' ∉ line) (hb : ∀ c ∈ below.head?, c = '\n') :
    top ('#' :: '!' :: line ++ below) =
      ⟨[], .lineComment, '#' :: '!' :: line, false⟩ :: marks {} false [] below := by
  have hline : '\n' ∉ '#' :: '!' :: line := by simpa using h
  obtain ⟨htake, hdrop⟩ := takeWhile_dropWhile_line hline hb
  rw [List.cons_append, List.cons_append] at htake hdrop ⊢
  rw [top, htake, hdrop]

theorem leaveTop_shebang {line below : Text} (h : '\n' ∉ line)
    (hb : ∀ c ∈ below.head?, c = '\n') :
    leaveTop ('#' :: '!' :: line ++ below) = leave {} [] below := by
  have hline : '\n' ∉ '#' :: '!' :: line := by simpa using h
  obtain ⟨-, hdrop⟩ := takeWhile_dropWhile_line hline hb
  rw [List.cons_append, List.cons_append] at hdrop ⊢
  rw [leaveTop, hdrop]

/-- What follows a text that ends a line outside all tokens does not change how it is read. -/
theorem top_append {a : Text} (ha : a.EndsLine) (hg : (leaveTop a).2 ≠ []) (b : Text) :
    top (a ++ b) = top a ++ marks (leaveTop a).1 true (leaveTop a).2 b := by
  by_cases h : ∃ rest, a = '#' :: '!' :: rest
  · obtain ⟨rest, rfl⟩ := h
    obtain ⟨line, below, rfl, hline, hb⟩ := exists_line rest
    rw [← List.cons_append, ← List.cons_append] at ha hg ⊢
    rw [leaveTop_shebang hline hb] at hg ⊢
    have hne : below ≠ [] := by
      rintro rfl
      exact hg (by rw [leave])
    have hbelow : below.EndsLine := ha.of_append hne
    have hb' : ∀ c ∈ (below ++ b).head?, c = '\n' := by
      obtain ⟨c, below, rfl⟩ := List.exists_cons_of_ne_nil hne
      exact hb
    rw [List.append_assoc, top_shebang hline hb, top_shebang hline hb',
      marks_append (fun _ => hbelow) (fun _ => hg), hbelow.lineBlank]
    rfl
  · have h' : ∀ rest, a ≠ '#' :: '!' :: rest := fun rest heq => h ⟨rest, heq⟩
    have hlong : ∀ rest, a ++ b ≠ '#' :: '!' :: rest := by
      intro rest heq
      rcases a with _ | ⟨c, _ | ⟨e, a⟩⟩
      · exact ha.ne_nil rfl
      · cases heq
        exact absurd ha.eq_of_singleton (by decide)
      · cases heq
        exact h' a rfl
    rw [leaveTop_of_not_shebang h'] at hg
    rw [top_of_not_shebang h', top_of_not_shebang hlong, leaveTop_of_not_shebang h',
      marks_append (fun _ => ha) (fun _ => hg), ha.lineBlank]

/-- The white space at the end of such a text holds the end of the line. -/
theorem mem_leaveTop {a : Text} (ha : a.EndsLine) (hg : (leaveTop a).2 ≠ []) :
    '\n' ∈ (leaveTop a).2 := by
  obtain ⟨x, hx⟩ := ha.1
  have hlast : a.getLast? = some '\n' := by rw [← hx]; simp
  rw [← sources_top_leaveTop a, List.getLast?_append] at hlast
  cases hgap : (leaveTop a).2.getLast? with
  | none => exact absurd (List.getLast?_eq_none_iff.1 hgap) hg
  | some c =>
    rw [hgap] at hlast
    cases hlast
    exact List.mem_of_getLast? hgap

-- ---------------------------------------------------------------------------
-- Text that is replaced
-- ---------------------------------------------------------------------------

/-- Text can be replaced from the start of a token on, if its first character stays. -/
theorem top_replace {d : Char} {x y : Text} {p q : List Mark} {m : Mark}
    (hd : d ≠ '#' ∧ d ≠ '!' ∧ isSpace d = false) (h : top (x ++ d :: y) = p ++ m :: q)
    (hx : x = Mark.sources p ++ m.gap) (hs : SlashesSettle {} p m.gap) :
    ∃ s : State, ∀ y', (top (x ++ d :: y') =
      p ++ marks s (lineBlank true x) m.gap (d :: y')) := by
  by_cases hbang : ∃ rest, x ++ d :: y = '#' :: '!' :: rest
  · obtain ⟨rest, hrest⟩ := hbang
    obtain ⟨line, below, rfl, hline, hb⟩ := exists_line rest
    rw [← List.cons_append, ← List.cons_append] at hrest
    rw [hrest, top_shebang hline hb] at h
    cases p with
    | nil =>
      obtain ⟨rfl, -⟩ := List.cons.inj h
      subst hx
      exact absurd (List.cons.inj hrest).1 hd.1
    | cons k p =>
      obtain ⟨rfl, hp⟩ := List.cons.inj h
      -- The replaced text starts below the `#!` line.
      have hx' : x = '#' :: '!' :: line ++ (Mark.sources p ++ m.gap) := by
        rw [hx]
        simp
      have hsp : SlashesSettle {} p m.gap := hs.of_cons
      rw [hx', List.append_assoc, List.append_cancel_left_eq] at hrest
      rw [← hrest] at hp hb
      obtain ⟨z, hz⟩ : ∃ z, Mark.sources p ++ m.gap = '\n' :: z := by
        cases hsrc : Mark.sources p ++ m.gap with
        | nil =>
          rw [hsrc] at hb
          rw [hb d rfl] at hd
          exact absurd hd.2.2 (by decide)
        | cons c z =>
          rw [hsrc] at hb
          exact ⟨z, by rw [hb c rfl]⟩
      refine ⟨State.afterMarks {} p, fun y' => ?_⟩
      have hblank : lineBlank true x = lineBlank false (Mark.sources p ++ m.gap) := by
        rw [hx', hz, lineBlank_append, lineBlank_cons, lineBlank_cons false]
        rfl
      have hb' : ∀ c ∈ (Mark.sources p ++ m.gap ++ d :: y').head?, c = '\n' := by
        rw [hz]
        simp
      rw [hblank, hx', List.append_assoc, top_shebang hline hb',
        marks_replace rfl hp rfl hsp false rfl y']
      rfl
  · have hshort : ∀ rest, x ++ d :: y ≠ '#' :: '!' :: rest := fun rest heq => hbang ⟨rest, heq⟩
    have hlong : ∀ y' rest, x ++ d :: y' ≠ '#' :: '!' :: rest := by
      intro y' rest heq
      match x with
      | [] => exact hd.1 (List.cons.inj heq).1
      | [c] => exact hd.2.1 (List.cons.inj (List.cons.inj heq).2).1
      | c :: e :: x =>
        cases heq
        exact hshort _ rfl
    rw [top_of_not_shebang hshort] at h
    refine ⟨State.afterMarks {} p, fun y' => ?_⟩
    rw [top_of_not_shebang (hlong y'), hx]
    have := marks_replace rfl h hx hs true rfl y'
    rwa [hx] at this

end Lexer

end TidyImports
