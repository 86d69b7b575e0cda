import DequeMachine.Text.Basic

/-!
# UTF-8

The encoder writes each character in one to four bytes. The decoder accepts every byte string: a
character begun but not finished, cut at the first byte that cannot continue it, is replaced by
one replacement character, and so is every byte that cannot begin one.

The decoder is a machine that takes one byte at a time, so what it answers for a byte string is
fixed by what it answers for a beginning of the string and by the state it is left in there.
-/
namespace DequeMachine.Utf8

def encode (t : Text) : Bytes := t.flatMap String.utf8EncodeChar

def replacement : Char := '\ufffd'

structure ByteRange where
  lo : UInt8
  hi : UInt8
  deriving DecidableEq, Repr

def ByteRange.contains (r : ByteRange) (b : UInt8) : Bool := r.lo ≤ b && b ≤ r.hi

/-- What any byte after the second must be. -/
def continuation : ByteRange := ⟨0x80, 0xbf⟩

/-- A character in progress: the bits read so far and the bytes that may follow, in order.
Nothing is in progress when no byte is awaited. -/
structure Pending where
  bits : Nat
  awaited : List ByteRange
  deriving DecidableEq, Repr

def idle : Pending := ⟨0, []⟩

/-- The byte ranges after a leading byte. The narrowed second ranges exclude overlong forms,
surrogates and what lies beyond the last code point. -/
def afterLead? (b : UInt8) : Option (List ByteRange) :=
  if 0xc2 ≤ b ∧ b ≤ 0xdf then some [continuation]
  else if b = 0xe0 then some [⟨0xa0, 0xbf⟩, continuation]
  else if b = 0xed then some [⟨0x80, 0x9f⟩, continuation]
  else if 0xe1 ≤ b ∧ b ≤ 0xef then some [continuation, continuation]
  else if b = 0xf0 then some [⟨0x90, 0xbf⟩, continuation, continuation]
  else if 0xf1 ≤ b ∧ b ≤ 0xf3 then some [continuation, continuation, continuation]
  else if b = 0xf4 then some [⟨0x80, 0x8f⟩, continuation, continuation]
  else none

/-- The bits a leading byte carries when `n` bytes follow it. -/
def leadBits (b : UInt8) (n : Nat) : Nat := b.toNat % (1 <<< (6 - n))

def start (b : UInt8) : Pending × Text :=
  if b < 0x80 then (idle, [Char.ofNat b.toNat])
  else match afterLead? b with
    | some ranges => (⟨leadBits b ranges.length, ranges⟩, [])
    | none => (idle, [replacement])

/-- One byte: the state after it and the characters it completes. -/
def step (p : Pending) (b : UInt8) : Pending × Text :=
  match p.awaited with
  | [] => start b
  | range :: ranges =>
    if range.contains b then
      let bits := p.bits * 64 + b.toNat % 64
      if ranges.isEmpty then (idle, [Char.ofNat bits]) else (⟨bits, ranges⟩, [])
    else
      let (p, t) := start b
      (p, replacement :: t)

/-- A character still in progress at the end is cut there. -/
def finish (p : Pending) : Text := if p.awaited.isEmpty then [] else [replacement]

/-- A run of the machine: its state and the characters completed so far, latest first. -/
structure Run where
  pending : Pending := idle
  completed : Text := []
  deriving DecidableEq, Repr

def Run.take (r : Run) (b : UInt8) : Run :=
  let (pending, new) := step r.pending b
  ⟨pending, new.reverse ++ r.completed⟩

def feed (b : Bytes) : Run := b.foldl Run.take {}

def decode (b : Bytes) : Text :=
  let r := feed b
  r.completed.reverse ++ finish r.pending

@[simp] theorem encode_nil : encode [] = [] := rfl

@[simp] theorem encode_append (s t : Text) : encode (s ++ t) = encode s ++ encode t :=
  List.flatMap_append

@[simp] theorem decode_nil : decode [] = [] := rfl

/-- What comes later reads on from the state that the beginning leaves. -/
theorem feed_append (a b : Bytes) : feed (a ++ b) = b.foldl Run.take (feed a) := List.foldl_append

/-- What was completed before is left as it is. -/
theorem foldl_take (b : Bytes) (p : Pending) (t : Text) :
    b.foldl Run.take ⟨p, t⟩ =
      ⟨(b.foldl Run.take ⟨p, []⟩).pending, (b.foldl Run.take ⟨p, []⟩).completed ++ t⟩ := by
  induction b generalizing p t with
  | nil => rfl
  | cons c b ih =>
    simp only [List.foldl_cons, Run.take, List.append_nil]
    rw [ih, ih _ (step p c).2.reverse]
    simp [List.append_assoc]

end DequeMachine.Utf8
