/-!
# Text and bytes

Text is a list of characters and a program is a list of bytes, so every reader in this library is
a function on lists and every law about it an induction on lists.

The words of a program are separated by six blanks, and every other character, control characters and
the remaining Unicode spaces included, belongs to a word. Written filters are free to hold any white
space around their parts. A newline byte ends a line, and bytes after the last newline are a line too.
-/
namespace DequeMachine

abbrev Text := List Char

abbrev Bytes := List UInt8

namespace Text

/-- Space, tab, newline, vertical tab, form feed and carriage return. -/
def isBlank (c : Char) : Bool :=
  c == ' ' || c == '\t' || c == '\n' || c == '\x0b' || c == '\x0c' || c == '\r'

def trimStart (t : Text) : Text := t.dropWhile isBlank

theorem head_trimStart {t rest : Text} {c : Char} (h : trimStart t = c :: rest) :
    isBlank c = false := by
  have := List.head?_dropWhile_not isBlank t
  rw [trimStart] at h
  simpa [h] using this

/-- Whether a character lies in one of some closed ranges of code points. -/
def inRanges (ranges : List (Nat × Nat)) (c : Char) : Bool :=
  ranges.any fun (lo, hi) => lo ≤ c.toNat && c.toNat ≤ hi

/-- The 25 code points with the Unicode property of white space, as closed ranges that ascend and lie apart. -/
def whiteSpaceRanges : List (Nat × Nat) :=
  [(0x9, 0xd), (0x20, 0x20), (0x85, 0x85), (0xa0, 0xa0), (0x1680, 0x1680), (0x2000, 0x200a),
    (0x2028, 0x2029), (0x202f, 0x202f), (0x205f, 0x205f), (0x3000, 0x3000)]

def isWhiteSpace (c : Char) : Bool := inRanges whiteSpaceRanges c

/-- Without the white space at both ends. -/
def trim (t : Text) : Text :=
  ((t.dropWhile isWhiteSpace).reverse.dropWhile isWhiteSpace).reverse

end Text

namespace Bytes

def newline : UInt8 := 10

/-- The lines that a newline ends, without it. -/
def finishedLines (b : Bytes) : List Bytes := (b.splitOn newline).dropLast

/-- The bytes after the last newline. -/
def unfinishedLine (b : Bytes) : Bytes := (b.splitOn newline).getLastD []

def lines (b : Bytes) : List Bytes :=
  let tail := unfinishedLine b
  if tail.isEmpty then finishedLines b else finishedLines b ++ [tail]

@[simp] theorem lines_nil : lines [] = [] := rfl

/-- A line that a newline ends is followed by the lines of the rest. -/
theorem splitOn_append_newline (a b : Bytes) :
    (a ++ newline :: b).splitOn newline = a.splitOn newline ++ b.splitOn newline := by
  simp only [List.splitOn_eq_splitOnP]
  exact List.splitOnP_append_cons a b (by simp)

theorem splitOn_ne_nil (b : Bytes) : b.splitOn newline ≠ [] := by
  rw [List.splitOn_eq_splitOnP]
  exact List.splitOnP_ne_nil _ b

theorem finishedLines_append_newline (a b : Bytes) :
    finishedLines (a ++ newline :: b) = a.splitOn newline ++ finishedLines b := by
  rw [finishedLines, splitOn_append_newline, List.dropLast_append_of_ne_nil (splitOn_ne_nil b)]
  rfl

theorem unfinishedLine_append_newline (a b : Bytes) :
    unfinishedLine (a ++ newline :: b) = unfinishedLine b := by
  have h := splitOn_ne_nil b
  simp [unfinishedLine, splitOn_append_newline, List.getLastD_eq_getLast?, List.getLast?_append,
    List.getLast?_eq_some_getLast h]

theorem lines_append_newline (a b : Bytes) :
    lines (a ++ newline :: b) = a.splitOn newline ++ lines b := by
  simp only [lines, unfinishedLine_append_newline, finishedLines_append_newline]
  split <;> simp [List.append_assoc]

end Bytes

end DequeMachine
