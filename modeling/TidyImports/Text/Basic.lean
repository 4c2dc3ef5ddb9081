-- SUMMARY: Text as a list of characters addressed by UTF-8 byte offsets: size, cutting, lines.

/-!
# Text

A source text is the list of its characters. Positions in it are byte offsets
into its UTF-8 encoding, so every operation that takes or gives a position
counts `Char.utf8Size` and not characters. The main facts say that cutting at
an offset loses nothing and that the cut falls where the sizes say.
-/

namespace TidyImports

/-- A text is the list of its characters. -/
abbrev Text := List Char

/-- A half-open range of byte offsets. -/
structure Span where
  start : Nat
  stop : Nat
  deriving DecidableEq, Repr, Inhabited

/-- Spans are told apart by their ends. -/
theorem Span.eq_iff {a b : Span} : a = b ↔ a.start = b.start ∧ a.stop = b.stop := by
  cases a
  cases b
  simp only [mk.injEq]

/-- The byte order mark, U+FEFF. -/
def byteOrderMark : Char := '\uFEFF'

namespace Text

-- ---------------------------------------------------------------------------
-- Size
-- ---------------------------------------------------------------------------

/-- Bytes of the UTF-8 encoding. -/
def size : Text → Nat
  | [] => 0
  | c :: cs => c.utf8Size + size cs

@[simp] theorem size_nil : size [] = 0 := rfl

@[simp] theorem size_cons (c : Char) (cs : Text) : size (c :: cs) = c.utf8Size + size cs := rfl

@[simp] theorem size_append (a b : Text) : size (a ++ b) = size a + size b := by
  induction a with
  | nil => simp
  | cons c cs ih => simp [ih, Nat.add_assoc]

-- ---------------------------------------------------------------------------
-- Cutting at a byte offset
-- ---------------------------------------------------------------------------

/-- The characters that start before byte `n`. -/
def takeBytes (n : Nat) : Text → Text
  | [] => []
  | c :: cs => if n = 0 then [] else c :: takeBytes (n - c.utf8Size) cs

/-- The characters that start at byte `n` or later. -/
def dropBytes (n : Nat) : Text → Text
  | [] => []
  | c :: cs => if n = 0 then c :: cs else dropBytes (n - c.utf8Size) cs

theorem takeBytes_append_dropBytes (n : Nat) (t : Text) :
    takeBytes n t ++ dropBytes n t = t := by
  induction t generalizing n with
  | nil => rfl
  | cons c cs ih =>
    by_cases h : n = 0
    · simp [takeBytes, dropBytes, h]
    · simp [takeBytes, dropBytes, h, ih]

@[simp] theorem takeBytes_zero (t : Text) : takeBytes 0 t = [] := by
  cases t <;> simp [takeBytes]

@[simp] theorem dropBytes_zero (t : Text) : dropBytes 0 t = t := by
  cases t <;> simp [dropBytes]

/-- A cut at the size of a front part gives that part back. -/
theorem takeBytes_append (a b : Text) : takeBytes (size a) (a ++ b) = a := by
  induction a with
  | nil => simp
  | cons c cs ih =>
    have hne : c.utf8Size ≠ 0 := Nat.ne_of_gt c.utf8Size_pos
    simp [takeBytes, hne, ih]

theorem dropBytes_append (a b : Text) : dropBytes (size a) (a ++ b) = b := by
  induction a with
  | nil => simp
  | cons c cs ih =>
    have hne : c.utf8Size ≠ 0 := Nat.ne_of_gt c.utf8Size_pos
    simp [dropBytes, hne, ih]

/-- The characters that start inside a span. -/
def slice (s : Span) (t : Text) : Text := takeBytes (s.stop - s.start) (dropBytes s.start t)

-- ---------------------------------------------------------------------------
-- Lines
-- ---------------------------------------------------------------------------

/-- The first line, with its line feed if it has one. -/
def firstLine : Text → Text
  | [] => []
  | c :: cs => if c = '\n' then [c] else c :: firstLine cs

/-- What follows the last line feed. -/
def lastLine (t : Text) : Text := (t.reverse.takeWhile (· != '\n')).reverse

/-- The lines of a text, each with its line feed; only the last may lack one. -/
def lines : Text → List Text
  | [] => []
  | c :: cs =>
    if c = '\n' then [c] :: lines cs
    else match lines cs with
      | [] => [[c]]
      | l :: ls => (c :: l) :: ls

/-- Nothing is lost by splitting into lines. -/
theorem flatten_lines (t : Text) : (lines t).flatten = t := by
  induction t with
  | nil => rfl
  | cons c cs ih =>
    by_cases h : c = '\n'
    · simp [lines, h, ih]
    · simp only [lines, h, if_false]
      split <;> simp_all

/-- Where the line that holds `offset` starts. -/
def lineStart (t : Text) (offset : Nat) : Nat :=
  offset - size (lastLine (t.takeBytes offset))

/-- Where the line after the one that holds `offset` starts, or the end of the text. -/
def nextLine (t : Text) (offset : Nat) : Nat :=
  offset + size (firstLine (t.dropBytes offset))

/-- Where the line that holds `offset` ends: at its line feed, or at the end of the text. -/
def lineEnd (t : Text) (offset : Nat) : Nat :=
  offset + size ((t.dropBytes offset).takeWhile (· != '\n'))

-- ---------------------------------------------------------------------------
-- Searching
-- ---------------------------------------------------------------------------

/-- Does `needle` occur in the text? -/
def hasInfix : (t needle : Text) → Bool
  | [], needle => needle.isEmpty
  | c :: cs, needle => needle.isPrefixOf (c :: cs) || hasInfix cs needle

/-- What follows the rightmost occurrence of `needle`. -/
def afterLast? : (t needle : Text) → Option Text
  | [], needle => if needle.isEmpty then some [] else none
  | c :: cs, needle => (afterLast? cs needle).or (needle.isPrefixOf? (c :: cs))

/-- Bytes of the byte order mark a text starts with: three, or none. -/
def markSize (t : Text) : Nat :=
  if t.head? = some byteOrderMark then byteOrderMark.utf8Size else 0

end Text

end TidyImports
