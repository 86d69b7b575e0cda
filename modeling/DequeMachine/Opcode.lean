import DequeMachine.Text.Basic

/-!
# Opcodes and tokens

The seventeen opcodes and their words. Words are matched exactly, in lower case; division has a
second spelling. A word that names no opcode is left as it is, and a comment stands for the rest of
its line.
-/
namespace DequeMachine

inductive Opcode
  | push
  | pop
  | pall
  | pint
  | swap
  | add
  | sub
  | mul
  | div
  | mod
  | pchar
  | pstr
  | rotl
  | rotr
  | stack
  | queue
  | nop
  deriving DecidableEq, Repr

namespace Opcode

def all : List Opcode :=
  [push, pop, pall, pint, swap, add, sub, mul, div, mod, pchar, pstr, rotl, rotr, stack, queue, nop]

def word : Opcode → Text
  | push => "push".toList
  | pop => "pop".toList
  | pall => "pall".toList
  | pint => "pint".toList
  | swap => "swap".toList
  | add => "add".toList
  | sub => "sub".toList
  | mul => "mul".toList
  | div => "div".toList
  | mod => "mod".toList
  | pchar => "pchar".toList
  | pstr => "pstr".toList
  | rotl => "rotl".toList
  | rotr => "rotr".toList
  | stack => "stack".toList
  | queue => "queue".toList
  | nop => "nop".toList

/-- The second spelling of division. -/
def divAlias : Text := "div_m".toList

def ofWord? (w : Text) : Option Opcode :=
  if w = divAlias then some div else all.find? fun op => op.word = w

theorem ofWord?_word (op : Opcode) : ofWord? op.word = some op := by cases op <;> decide

theorem ofWord?_eq_some_iff {w : Text} {op : Opcode} :
    ofWord? w = some op ↔ w = op.word ∨ w = divAlias ∧ op = div := by
  constructor
  · intro h
    unfold ofWord? at h
    split at h
    · exact .inr ⟨‹_›, (Option.some.inj h).symm⟩
    · have := List.find?_some h
      exact .inl (by simpa using (of_decide_eq_true this).symm)
  · rintro (rfl | ⟨rfl, rfl⟩)
    · exact ofWord?_word op
    · rfl

end Opcode

inductive Token
  | instruction (op : Opcode)
  | comment
  | word (text : Text)
  deriving DecidableEq, Repr

/-- The character that begins a comment where a word could begin. -/
def Token.commentMark : Char := '#'

def Token.ofWord (w : Text) : Token :=
  match Opcode.ofWord? w with
  | some op => .instruction op
  | none => .word w

theorem Token.ofWord_ne_comment (w : Text) : ofWord w ≠ comment := by
  unfold ofWord
  split <;> exact Token.noConfusion

end DequeMachine
