import DequeMachine.Text.Utf8
import DequeMachine.Opcode
import DequeMachine.Error

/-!
# Reading a line

A reader stands between two bytes of a line, behind those that were read and in front of those that
were not. Blanks and the comment mark are bytes by themselves, so it goes from byte to byte and never
looks at a whole character.

What a reader gives out is a text cut from the line, and both cuts are checked: if one of them goes
through a character, the answer is `none`. So `none` means that the reader came to stand inside a
character, never that the line has no more words: then the answer itself is `none`.
-/
namespace DequeMachine

structure LineReader where
  passed : Bytes := []
  rest : Bytes
  deriving DecidableEq, Repr

namespace LineReader

def ofLine (line : Text) : LineReader := { rest := Utf8.encode line }

/-- Space, tab, newline, vertical tab, form feed and carriage return. -/
def isBlankByte (b : UInt8) : Bool :=
  b == 0x20 || b == 0x09 || b == 0x0a || b == 0x0b || b == 0x0c || b == 0x0d

def isWordByte (b : UInt8) : Bool := !isBlankByte b

/-- The byte that begins a comment where a word could begin. -/
def commentByte : UInt8 := 0x23

/-- Moves past the longest beginning of what is unread whose bytes all satisfy `p`. -/
def advance (p : UInt8 → Bool) (r : LineReader) : LineReader :=
  ⟨r.passed ++ r.rest.takeWhile p, r.rest.dropWhile p⟩

def skipBlanks (r : LineReader) : LineReader := r.advance isBlankByte

/-- Whether a cut in front of the bytes that follow goes through no character. -/
def isBoundary (rest : Bytes) : Bool := !rest.head?.any Utf8.continuation.contains

/-- The text of a piece of the line in front of `rest`. -/
def cut? (piece rest : Bytes) : Option Text :=
  if isBoundary (piece ++ rest) && isBoundary rest then some (Utf8.decode piece) else none

/-- The word that begins at the reader, or `none` where a blank or the end is. -/
def readWord? (r : LineReader) : Option (Option Text × LineReader) :=
  let word := r.rest.takeWhile isWordByte
  let after := r.advance isWordByte
  if word.isEmpty then some (none, after) else (cut? word after.rest).map fun w => (some w, after)

/-- The next word as it is, even one that begins with a comment mark. -/
def nextWord? (r : LineReader) : Option (Option Text × LineReader) := r.skipBlanks.readWord?

/-- The next word classified. A comment mark in front of it makes the rest of the line a comment. -/
def nextToken? (r : LineReader) : Option (Option Token × LineReader) :=
  let r := r.skipBlanks
  match r.rest.head? with
  | none => some (none, r)
  | some b =>
    if b = commentByte then some (some .comment, r.advance fun _ => true)
    else r.readWord?.map fun (word, r) => (word.map Token.ofWord, r)

/-- All that was read, without the blanks in front. -/
def consumed? (r : LineReader) : Option Text := (cut? r.passed r.rest).map Text.trimStart

/-- The next word. A reader inside a character, which no readings lead to, has nothing to give. -/
def nextWord (r : LineReader) : Option Text × LineReader := r.nextWord?.getD (none, r)

def nextToken (r : LineReader) : Option Token × LineReader := r.nextToken?.getD (none, r)

def consumed (r : LineReader) : Text := r.consumed?.getD []

end LineReader

/-- An opcode with at most one argument. The argument is kept as written, since only `push` reads it, and words
after it are ignored. -/
structure Instruction where
  opcode : Text
  op : Opcode
  argument : Option Text
  deriving DecidableEq, Repr

/-- What a line holds; `none` for a blank line or a comment. -/
def Instruction.ofLine (line : Text) : Except Fault (Option Instruction) :=
  match (LineReader.ofLine line).nextToken with
  | (none, _) => .ok none
  | (some .comment, _) => .ok none
  | (some (.word w), _) => .error (.unknownInstruction w)
  | (some (.instruction op), r) => .ok (some ⟨r.consumed, op, r.nextWord.1⟩)

end DequeMachine
