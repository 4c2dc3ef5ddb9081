-- SUMMARY: Where a token ends on another line than it began, that line is not blank or ends with it.
import Mathlib.Data.List.Chain
import TidyImports.Proofs.Lexing.Top

/-!
# Ends of tokens

An `import` is first on its line when nothing but blanks stands before it, and
the tail of a token above might pass for blanks. It does not: a token that
reaches over a line ends with its closing mark, which is no blank, unless it is
a string that nobody closed, and then its line ends with it.
-/

namespace TidyImports

open Text

namespace Lexer

-- ---------------------------------------------------------------------------
-- Scanners
-- ---------------------------------------------------------------------------

theorem commentLength_ends (t : Text) :
    t.drop (commentLength t) = [] ∨ ∃ x, t.take (commentLength t) = x ++ ['/'] := by
  fun_induction commentLength t with
  | case1 => exact .inl rfl
  | case2 rest => exact .inr ⟨['*'], rfl⟩
  | case3 c cs hc ih =>
    refine ih.imp id ?_
    rintro ⟨x, hx⟩
    exact ⟨c :: x, by rw [List.take_succ_cons, hx, List.cons_append]⟩

theorem stringLength_ends {q : Char} {t : Text} (h : (stringLength q t).2 = false) :
    t.drop (stringLength q t).1 = [] ∨ (t.drop (stringLength q t).1).head? = some '\n' := by
  fun_induction stringLength q t with
  | case1 => exact .inl rfl
  | case2 => exact .inr rfl
  | case3 => exact .inl rfl
  | case4 d cs n closed heq ih =>
    rw [heq] at ih
    exact ih h
  | case5 => exact .inr rfl
  | case6 => cases h
  | case7 c d cs hb hn hq n closed heq ih =>
    rw [heq] at ih
    exact ih h

theorem templateLength_ends (t : Text) :
    t.drop (templateLength t).1 = [] ∨
      ∃ x e, t.take (templateLength t).1 = x ++ [e] ∧ (e = '`' ∨ e = '{') := by
  fun_induction templateLength t with
  | case1 => exact .inl rfl
  | case2 => exact .inl rfl
  | case3 d cs n opens heq ih =>
    rw [heq] at ih
    refine ih.imp id ?_
    rintro ⟨x, e, hx, he⟩
    exact ⟨'\\' :: d :: x, e, by simpa using hx, he⟩
  | case4 => exact .inr ⟨[], '`', rfl, .inl rfl⟩
  | case5 c d cs hb hq ho => exact .inr ⟨['$'], '{', by simp [ho], .inr rfl⟩
  | case6 c d cs hb hq ho n opens heq ih =>
    rw [heq] at ih
    refine ih.imp id ?_
    rintro ⟨x, e, hx, he⟩
    exact ⟨c :: x, e, by simpa using hx, he⟩

theorem not_mem_takeWhile {p : Char → Bool} (hp : p '\n' = false) (t : Text) :
    '\n' ∉ t.takeWhile p := fun h => by
  have hall := List.all_eq_true.1 (List.all_takeWhile (p := p) (l := t)) _ h
  rw [hp] at hall
  cases hall

theorem regexLength?_ends {ic : Bool} {t : Text} {n : Nat} (h : regexLength? ic t = some n) :
    ∃ x flags, t.take n = x ++ '/' :: flags ∧ '\n' ∉ flags := by
  fun_induction regexLength? ic t generalizing n with
  | case1 => cases h
  | case2 ic c hc =>
    cases h
    exact ⟨[], [], by rw [hc.1]; rfl, List.not_mem_nil⟩
  | case3 => cases h
  | case4 ic d cs ih =>
    obtain ⟨m, hm, rfl⟩ := Option.map_eq_some_iff.1 h
    obtain ⟨x, flags, hx, hflags⟩ := ih hm
    exact ⟨'\\' :: d :: x, flags, by simp [hx], hflags⟩
  | case5 => cases h
  | case6 ic c d cs hb hl hs =>
    cases h
    refine ⟨[], (d :: cs).takeWhile isIdentChar, ?_, not_mem_takeWhile (by decide) _⟩
    rw [List.take_succ_cons, ← List.prefix_iff_eq_take.1 (List.takeWhile_prefix _), hs.1]
    rfl
  | case7 ic c d cs hb hl hs ih =>
    obtain ⟨m, hm, rfl⟩ := Option.map_eq_some_iff.1 h
    obtain ⟨x, flags, hx, hflags⟩ := ih hm
    exact ⟨c :: x, flags, by rw [List.take_succ_cons, hx]; rfl, hflags⟩

-- ---------------------------------------------------------------------------
-- Tokens
-- ---------------------------------------------------------------------------

/-- How a token ends before `rest`: with the text, with its line, behind something on its line that
is no blank, or on the line where it began. -/
def Ends (kind : Token.Kind) (text rest : Text) : Prop :=
  rest = [] ∨ rest.head? = some '\n' ∨ (∀ blank, lineBlank blank text = false) ∨
    '\n' ∉ text ∧ ∀ closed, kind ≠ .string closed

theorem Ends.of_concat {kind : Token.Kind} {x rest : Text} {c : Char} (hn : c ≠ '\n')
    (hc : isBlank [c] = false) : Ends kind (x ++ [c]) rest :=
  .inr (.inr (.inl fun _ => lineBlank_concat hn hc))

theorem Ends.of_not_mem {kind : Token.Kind} {text rest : Text} (h : '\n' ∉ text)
    (hk : ∀ closed, kind ≠ .string closed) : Ends kind text rest :=
  .inr (.inr (.inr ⟨h, hk⟩))

theorem State.ends_scan {s : State} {c : Char} {rest : Text} {kind : Token.Kind} {n : Nat}
    (hc : isSpace c = false) (h : s.scan c rest = (kind, n)) :
    Ends kind (c :: rest.take n) (rest.drop n) := by
  have hn : '\n' ≠ c := by
    rintro rfl
    exact absurd hc (by decide)
  have hwhile : ∀ p : Char → Bool, p '\n' = false →
      '\n' ∉ c :: rest.take (rest.takeWhile p).length := fun p hp => by
    rw [← List.prefix_iff_eq_take.1 (List.takeWhile_prefix p), List.mem_cons, not_or]
    exact ⟨hn, not_mem_takeWhile hp rest⟩
  simp only [State.scan] at h
  split at h
  · split at h
    · cases h
      exact .of_not_mem (hwhile (· != '\n') rfl) (by simp)
    · next body =>
      cases h
      rw [List.take_succ_cons, List.drop_succ_cons]
      rcases commentLength_ends body with hnil | ⟨x, hx⟩
      · exact .inl hnil
      · rw [hx]
        exact .of_concat (x := c :: '*' :: x) (by decide) (by decide)
    · split at h
      · next m hm =>
        cases h
        have hregex : regexLength? false rest = some n := by
          split at hm
          · exact hm
          · cases hm
        obtain ⟨x, flags, hx, hflags⟩ := regexLength?_ends hregex
        refine .inr (.inr (.inl fun blank => ?_))
        have hsplit : c :: (x ++ '/' :: flags) = (c :: x ++ ['/']) ++ flags := by simp
        rw [hx, hsplit, lineBlank_append, lineBlank_concat (by decide) (by decide),
          lineBlank_false hflags]
      · cases h
        exact .of_not_mem (by simpa using hn) (by simp)
  · split at h
    · next hq =>
      obtain ⟨rfl, rfl⟩ := Prod.mk.inj h
      cases hclosed : (stringLength c rest).2 with
      | false => exact (stringLength_ends hclosed).imp id .inl
      | true =>
        have hb : c ≠ '\\' := by rcases hq with rfl | rfl <;> decide
        obtain ⟨x, hx, -⟩ := exists_quotable hb (Prod.ext rfl hclosed)
        rw [hx]
        refine .of_concat (x := c :: x) (Ne.symm hn) ?_
        rcases hq with rfl | rfl <;> decide
    · split at h
      · cases h
        rcases templateLength_ends rest with hnil | ⟨x, e, hx, he⟩
        · exact .inl hnil
        · rw [hx]
          refine .of_concat (x := c :: x) ?_ ?_ <;> rcases he with rfl | rfl <;> decide
      · split at h
        · cases h
          exact .of_not_mem (hwhile isNumberChar (by decide)) (by simp)
        · split at h
          · cases h
            exact .of_not_mem (hwhile isIdentChar (by decide)) (by simp)
          · cases h
            exact .of_not_mem (by simpa using hn) (by simp)

-- ---------------------------------------------------------------------------
-- Marks
-- ---------------------------------------------------------------------------

end Lexer

namespace Mark

/-- A mark and the next one: a line ends between them, or the mark ends behind something on its
line that is no blank, or on the line where it began. -/
def Precedes (m next : Mark) : Prop :=
  '\n' ∈ next.gap ∨ (∀ blank, lineBlank blank m.text = false) ∨
    '\n' ∉ m.text ∧ m.token.isString = false

end Mark

namespace Lexer

theorem mem_gap_of_head {s : State} {blank : Bool} {t : Text} (h : t.head? = some '\n') :
    ∀ m ∈ (marks s blank [] t).head?, '\n' ∈ m.gap := by
  obtain ⟨rest, rfl⟩ := List.head?_eq_some_iff.1 h
  have hindent := marks_indent s true ['\n'] [] rest
  rw [List.append_nil] at hindent
  rw [marks, if_pos (by decide), List.nil_append]
  change ∀ m ∈ (marks s true ['\n'] rest).head?, _
  rw [hindent]
  cases marks s true [] rest with
  | nil => simp
  | cons m ms => simp [Mark.indent]

theorem isChain_marks (s : State) (blank : Bool) (gap t : Text) :
    (marks s blank gap t).IsChain Mark.Precedes := by
  fun_induction marks s blank gap t with
  | case1 => exact List.IsChain.nil
  | case2 s blank gap c cs hc ih => exact ih
  | case3 s blank gap c cs hc kind n hscan text ih =>
    refine ih.cons fun next hnext => ?_
    rcases State.ends_scan (by simpa using hc) hscan with hnil | hhead | hblank | ⟨hmem, hkind⟩
    · rw [hnil, marks] at hnext
      cases hnext
    · exact .inl (mem_gap_of_head hhead next hnext)
    · exact .inr (.inl hblank)
    · refine .inr (.inr ⟨hmem, ?_⟩)
      cases kind with
      | string closed => exact absurd rfl (hkind closed)
      | _ => rfl

theorem isChain_top (t : Text) : (top t).IsChain Mark.Precedes := by
  rw [top.eq_def]
  split
  · refine (isChain_marks _ _ _ _).cons fun next _ => .inr (.inr ⟨?_, rfl⟩)
    exact not_mem_takeWhile rfl _
  · exact isChain_marks _ _ _ _

end Lexer

end TidyImports
