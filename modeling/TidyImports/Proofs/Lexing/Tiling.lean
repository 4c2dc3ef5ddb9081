-- SUMMARY: The tokens of a text lie in order on character boundaries, with white space between.
import Mathlib.Data.List.Pairwise
import TidyImports.Patch
import TidyImports.Proofs.Lexing.Top

/-!
# Tokens tile their text

The marks of a text with the white space at its end are the text, so a byte of
it lies in a gap, in a token or in that white space. The tokens are the marks
with their offsets: each starts where the gap before it ends and stops where
the next gap starts.
-/

namespace TidyImports

open Text

namespace Text

-- ---------------------------------------------------------------------------
-- Bytes
-- ---------------------------------------------------------------------------

@[simp] theorem bytes_append (a b : Text) : (a ++ b).bytes = a.bytes ++ b.bytes := by
  simp [bytes]

theorem bytes_cons (c : Char) (t : Text) :
    bytes (c :: t) = (String.utf8EncodeChar c).toByteArray ++ t.bytes := by
  rw [← List.singleton_append, bytes_append]
  simp [bytes, List.utf8Encode_singleton]

@[simp] theorem size_bytes (t : Text) : t.bytes.size = t.size := by
  induction t with
  | nil => rfl
  | cons c t ih =>
    rw [bytes_cons, ByteArray.size_append, ih, size_cons, List.size_toByteArray,
      String.length_utf8EncodeChar]

end Text

namespace Lexer

/-- Space, tab, carriage return, line feed, vertical tab, form feed. -/
def spaceBytes : List UInt8 := [0x20, 0x09, 0x0D, 0x0A, 0x0B, 0x0C]

theorem mem_spaceBytes_of_isSpace {c : Char} (h : isSpace c) :
    ∀ b ∈ String.utf8EncodeChar c, b ∈ spaceBytes := by
  simp only [isSpace, Bool.or_eq_true, beq_iff_eq] at h
  rcases h with ((((rfl | rfl) | rfl) | rfl) | rfl) | rfl <;> decide +kernel

end Lexer

open Lexer

namespace Text

theorem getElem_bytes_isSpace {w : Text} (hw : w.all isSpace) {n : Nat} (hn : n < w.bytes.size) :
    w.bytes[n] ∈ spaceBytes := by
  induction w generalizing n with
  | nil => exact absurd hn (Nat.not_lt_zero n)
  | cons c w ih =>
    rw [List.all_cons, Bool.and_eq_true] at hw
    simp only [bytes_cons]
    by_cases hc : n < (String.utf8EncodeChar c).toByteArray.size
    · rw [ByteArray.getElem_append_left hc, List.getElem_toByteArray]
      exact mem_spaceBytes_of_isSpace hw.1 _ (List.getElem_mem _)
    · rw [ByteArray.getElem_append_right (Nat.le_of_not_lt hc)]
      exact ih hw.2 _

/-- The bytes of a part of a text are bytes of the text. -/
theorem getElem_bytes_append {a w b : Text} {n : Nat} (hn : a.size + n < (a ++ (w ++ b)).bytes.size)
    (hw : n < w.bytes.size) : (a ++ (w ++ b)).bytes[a.size + n] = w.bytes[n] := by
  simp only [bytes_append]
  rw [ByteArray.getElem_append_right (by simp), ByteArray.getElem_append_left (by simpa using hw)]
  simp

/-- White space in a text has its own bytes. -/
theorem getElem_bytes_gap {t a w b : Text} (ht : t = a ++ (w ++ b)) (hw : w.all isSpace) {n : Nat}
    (hn : n < t.bytes.size) (ha : a.size ≤ n) (hb : n < a.size + w.size) :
    t.bytes[n] ∈ spaceBytes := by
  subst ht
  obtain ⟨k, rfl⟩ := Nat.exists_eq_add_of_le ha
  have hk : k < w.bytes.size := by
    rw [size_bytes]
    omega
  rw [getElem_bytes_append hn hk]
  exact getElem_bytes_isSpace hw hk

end Text

-- ---------------------------------------------------------------------------
-- Tokens and what is between them
-- ---------------------------------------------------------------------------

namespace Token

/-- Does a byte offset lie in a token? -/
def Covers (tok : Token) (n : Nat) : Prop := tok.start ≤ n ∧ n < tok.stop

end Token

namespace Mark

variable {t before after : Text} {ms : List Mark}

/-- Outside the tokens of marks in a row all bytes are white space. -/
theorem getElem_bytes_place (ht : t = before ++ (sources ms ++ after))
    (hgap : ∀ m ∈ ms, m.gap.all isSpace) (hafter : after.all isSpace) {n : Nat}
    (hn : n < t.bytes.size) (hbefore : before.size ≤ n)
    (hout : ∀ tok ∈ place before.size ms, ¬ tok.Covers n) : t.bytes[n] ∈ spaceBytes := by
  induction ms generalizing before with
  | nil =>
    refine getElem_bytes_gap (b := []) (by simpa using ht) hafter hn hbefore ?_
    rw [size_bytes, ht] at hn
    simpa using hn
  | cons m ms ih =>
    have hsplit : t = (before ++ m.source) ++ (sources ms ++ after) := by
      rw [ht]
      simp [source]
    rw [place_cons] at hout
    obtain ⟨htok, hmore⟩ := List.forall_mem_cons.1 hout
    -- The byte is in the gap of the first mark, or in its token, or behind both.
    by_cases hlt : n < before.size + m.gap.size
    · refine getElem_bytes_gap (b := m.text ++ (sources ms ++ after)) ?_
        (hgap m (List.mem_cons_self ..)) hn hbefore hlt
      rw [ht]
      simp
    · have hbehind : (before ++ m.source).size ≤ n := by
        have : ¬ n < (m.placed before.size).stop := fun hstop =>
          htok ⟨Nat.le_of_not_lt hlt, hstop⟩
        rw [stop_placed] at this
        simpa using this
      refine ih hsplit (fun k hk => hgap k (List.mem_cons_of_mem _ hk)) hbehind fun tok hmem => ?_
      rw [size_append] at hmem
      exact hmore tok hmem

/-- A token is a piece of the text its marks are written out in. -/
theorem exists_piece (ht : t = before ++ (sources ms ++ after)) {tok : Token}
    (h : tok ∈ place before.size ms) :
    ∃ m ∈ ms, ∃ front back, t = front ++ m.text ++ back ∧ tok = ⟨m.kind, front.size, m.text⟩ ∧
      before.size ≤ front.size := by
  obtain ⟨a, m, b, rfl, rfl⟩ := mem_place h
  refine ⟨m, by simp, before ++ sources a ++ m.gap, sources b ++ after, ?_, ?_, ?_⟩
  · rw [ht]
    simp
  · simp [placed, Nat.add_assoc]
  · simp

theorem pairwise_place (offset : Nat) {ms : List Mark} (hms : ∀ m ∈ ms, m.text ≠ []) :
    (place offset ms).Pairwise fun a b => a.start < b.start ∧ a.stop ≤ b.start := by
  induction ms generalizing offset with
  | nil => exact List.Pairwise.nil
  | cons m ms ih =>
    rw [place_cons]
    refine List.Pairwise.cons (fun tok htok => ?_)
      (ih _ fun k hk => hms k (List.mem_cons_of_mem _ hk))
    have hle : (m.placed offset).stop ≤ tok.start := by
      rw [stop_placed]
      exact le_start_of_mem_place htok
    have hpos := Text.size_pos (hms m (List.mem_cons_self ..))
    exact ⟨Nat.lt_of_lt_of_le (Nat.lt_add_of_pos_right hpos) hle, hle⟩

end Mark

-- ---------------------------------------------------------------------------
-- Whole texts
-- ---------------------------------------------------------------------------

namespace Text

/-- A token is a piece of its text behind the byte order mark. -/
theorem exists_piece {t : Text} {tok : Token} (h : tok ∈ tokenize t) :
    ∃ m ∈ top t.body, ∃ front back, t = front ++ m.text ++ back ∧
      tok = ⟨m.kind, front.size, m.text⟩ ∧ t.markSize ≤ front.size := by
  obtain ⟨mark, ht, hmark, -⟩ := t.exists_body
  rw [← sources_top_leaveTop t.body] at ht
  rw [tokenize_eq_place_top, ← hmark] at h
  rw [← hmark]
  exact Mark.exists_piece ht h

theorem ne_nil_of_mem_top {t : Text} {m : Mark} (h : m ∈ top t) : m.text ≠ [] := by
  obtain ⟨c, cs, htext, -⟩ := (proper_top t m h).start
  simp [htext]

/-- A token is not empty and lies behind the byte order mark. -/
theorem inside_of_mem_tokenize {t : Text} {tok : Token} (h : tok ∈ tokenize t) :
    t.markSize ≤ tok.start ∧ tok.start < tok.stop ∧ tok.stop ≤ t.size := by
  obtain ⟨m, hm, front, back, htext, rfl, hfront⟩ := exists_piece h
  have hsize := congrArg size htext
  simp only [size_append] at hsize
  have hpos := size_pos (ne_nil_of_mem_top hm)
  simp only [Token.stop]
  omega

theorem stop_pos_of_mem_tokenize {t : Text} {tok : Token} (h : tok ∈ tokenize t) : 0 < tok.stop :=
  Nat.zero_lt_of_lt (inside_of_mem_tokenize h).2.1

/-- Tokens start and stop between characters. -/
theorem isCut_of_mem_tokenize {t : Text} {tok : Token} (h : tok ∈ tokenize t) :
    t.IsCut tok.start ∧ t.IsCut tok.stop := by
  obtain ⟨m, -, front, back, htext, rfl, -⟩ := exists_piece h
  exact ⟨⟨front, m.text ++ back, by simp [htext], rfl⟩,
    ⟨front ++ m.text, back, htext, by simp [Token.stop]⟩⟩

/-- Each token ends before the next one starts. -/
theorem pairwise_tokenize (t : Text) :
    (tokenize t).Pairwise fun a b => a.start < b.start ∧ a.stop ≤ b.start := by
  rw [tokenize_eq_place_top]
  exact Mark.pairwise_place _ fun m => ne_nil_of_mem_top

/-- Tokens that are not the same do not overlap. -/
theorem apart_of_mem_tokenize {t : Text} {tok other : Token} (htok : tok ∈ tokenize t)
    (hother : other ∈ tokenize t) (hne : tok ≠ other) :
    tok.stop ≤ other.start ∨ other.stop ≤ tok.start := by
  have : Std.Symm fun a b : Token => a.stop ≤ b.start ∨ b.stop ≤ a.start := ⟨fun _ _ => Or.symm⟩
  have hpair : (tokenize t).Pairwise fun a b => a.stop ≤ b.start ∨ b.stop ≤ a.start :=
    (pairwise_tokenize t).imp fun h => .inl h.2
  exact hpair.forall htok hother hne

/-- A token of one character. -/
theorem stop_of_isPunct {t : Text} {tok : Token} {c : Char} (htok : tok ∈ tokenize t)
    (h : tok.isPunct c) : tok.stop = tok.start + c.utf8Size := by
  obtain ⟨m, hm, front, back, -, rfl, -⟩ := exists_piece htok
  have hkind : m.kind = .punct c := eq_of_beq h
  have hshape := (proper_top _ m hm).shapes
  rw [hkind] at hshape
  have htext : m.text = [c] := hshape
  simp [Token.stop, htext]

/-- Do tokens tile a text behind its byte order mark? -/
structure TiledBy (t : Text) (tokens : List Token) : Prop where
  /-- A token is not empty and lies behind the byte order mark. -/
  inside : ∀ tok ∈ tokens, t.markSize ≤ tok.start ∧ tok.start < tok.stop ∧ tok.stop ≤ t.size
  /-- No character is cut, and the token is the text between its ends. -/
  cuts : ∀ tok ∈ tokens, t.IsCut tok.start ∧ t.IsCut tok.stop ∧ t.slice tok.span = tok.text
  /-- Each token ends before the next one starts. -/
  ascending : tokens.Pairwise fun a b => a.start < b.start ∧ a.stop ≤ b.start
  /-- What is in no token is white space. -/
  spaces : ∀ n (h : n < t.bytes.size), t.markSize ≤ n → (∀ tok ∈ tokens, ¬ tok.Covers n) →
    t.bytes[n] ∈ spaceBytes
  /-- A closed string stands between two quotes of one kind, with none of them and no line feed
  between them but where a backslash escapes it. -/
  strings : ∀ tok ∈ tokens, tok.kind = .string true →
    ∃ q x, (q = '\'' ∨ q = '"') ∧ tok.text = q :: (x ++ [q]) ∧ IsQuotable q x

theorem tiledBy_tokenize (t : Text) : t.TiledBy (tokenize t) := by
  constructor
  case inside => exact fun tok => inside_of_mem_tokenize
  case cuts =>
    intro tok htok
    obtain ⟨hstart, hstop⟩ := isCut_of_mem_tokenize htok
    obtain ⟨m, -, front, back, htext, rfl, -⟩ := exists_piece htok
    refine ⟨hstart, hstop, ?_⟩
    conv => lhs; rw [htext]
    exact slice_append front m.text back
  case ascending => exact pairwise_tokenize t
  case spaces =>
    obtain ⟨mark, ht, hmark, -⟩ := t.exists_body
    rw [← sources_top_leaveTop t.body] at ht
    rw [tokenize_eq_place_top, ← hmark]
    intro n hn hbehind hout
    exact Mark.getElem_bytes_place ht (fun m hm => (proper_top _ m hm).gap) (leaveTop_isSpace _) hn
      hbehind hout
  case strings => exact fun tok => quotable_tokenize

end Text

end TidyImports
