import Mathlib
import DequeMachine.Error

/-!
# What a message tells

A message is read back: the line from the label in front, if there is one, and the fault from the words
behind it. So two errors on lines never share a message, whatever token or opcode they speak of.
-/
namespace DequeMachine

namespace Fault

/-- The faults whose messages quote nothing. -/
def bare : List Fault :=
  [pushUsage, popEmpty, pintEmpty, divisionByZero, pcharEmpty, pcharOutOfRange]

/-- The fault that a message speaks of. -/
def ofMessage? (t : Text) : Option Fault :=
  match "unknown instruction ".toList.isPrefixOf? t with
  | some token => some (unknownInstruction token)
  | none =>
    match ("can't ".toList.isPrefixOf? t).bind (", stack too short".toList.isSuffixOf? ·) with
    | some opcode => some (tooShort opcode)
    | none => bare.find? (·.message = t)

theorem ofMessage?_message (fault : Fault) : ofMessage? fault.message = some fault := by
  cases fault with
  | unknownInstruction token =>
    have hquoted : "unknown instruction ".toList.isPrefixOf? (unknownInstruction token).message =
        some token := List.isPrefixOf?_eq_some_iff_append_eq.mpr rfl
    rw [ofMessage?, hquoted]
  | tooShort opcode =>
    have hknown : "unknown instruction ".toList.isPrefixOf? (tooShort opcode).message = none := rfl
    have hfront : "can't ".toList.isPrefixOf? (tooShort opcode).message =
        some (opcode ++ ", stack too short".toList) :=
      List.isPrefixOf?_eq_some_iff_append_eq.mpr (List.append_assoc ..).symm
    have hquoted : ", stack too short".toList.isSuffixOf? (opcode ++ ", stack too short".toList) =
        some opcode := List.isSuffixOf?_eq_some_iff_append_eq.mpr rfl
    rw [ofMessage?, hknown, hfront, Option.bind_some, hquoted]
  | pushUsage | popEmpty | pintEmpty | divisionByZero | pcharEmpty | pcharOutOfRange => rfl

theorem message_injective : Function.Injective message := fun f g h => by
  simpa [ofMessage?_message] using congrArg ofMessage? h

end Fault

theorem Decimal.digits_injective : Function.Injective digits := fun m n h => by
  simpa [readNat?_digits] using congrArg readNat? h

namespace Text

variable {m n : Nat} {t u : Text}

/-- The digits of a label end where its colon stands. -/
theorem takeWhile_label (n : Nat) (t : Text) :
    (Decimal.digits n ++ ": ".toList ++ t).takeWhile Char.isDigit = Decimal.digits n := by
  rw [List.append_assoc, List.takeWhile_append_of_pos fun _ => Decimal.isDigit_of_mem_digits]
  exact List.append_nil _

theorem onLine_inj : onLine m t = onLine n u ↔ m = n ∧ t = u := by
  constructor
  · intro h
    have hbehind : Decimal.digits m ++ ": ".toList ++ t = Decimal.digits n ++ ": ".toList ++ u :=
      List.tail_eq_of_cons_eq h
    have hdigits := congrArg (List.takeWhile Char.isDigit) hbehind
    rw [takeWhile_label, takeWhile_label] at hdigits
    obtain rfl := Decimal.digits_injective hdigits
    exact ⟨rfl, List.append_cancel_left hbehind⟩
  · rintro ⟨rfl, rfl⟩
    rfl

/-- A text on a line begins with the label of this line and of no other. -/
theorem label_prefix_onLine_iff :
    'L' :: (Decimal.digits n ++ ": ".toList) <+: onLine m t ↔ m = n := by
  constructor
  · rintro ⟨rest, hrest⟩
    exact (onLine_inj.mp hrest.symm).1
  · rintro rfl
    exact ⟨t, rfl⟩

end Text

namespace Error

theorem exists_atLine {e : Error} (h : e.line?.isSome) : ∃ n fault, e = atLine n fault := by
  cases e with
  | atLine n fault => exact ⟨n, fault, rfl⟩
  | allocation | io _ | halted => cases h

/-- Without a label a message begins with a word that is none. -/
theorem exists_message {e : Error} (h : e.line? = none) :
    ∃ t, e.message = "Error: ".toList ++ t := by
  cases e with
  | atLine n fault => cases h
  | allocation => exact ⟨"malloc failed".toList, rfl⟩
  | io text => exact ⟨text, rfl⟩
  | halted => exact ⟨"interpreter has already halted".toList, rfl⟩

/-- Errors on lines that have one message are one error: the message tells the line, the kind of fault, and
what it quotes. An error is on line `n` just when its message begins with the label of that line, and on no
line just when it begins as a message without a label does. -/
theorem message_identifies :
    (∀ e e' : Error, e.line?.isSome → e'.line?.isSome → e.message = e'.message → e = e') ∧
    ∀ e : Error,
      (∀ n, e.line? = some n ↔ 'L' :: (Decimal.digits n ++ ": ".toList) <+: e.message) ∧
      (e.line? = none ↔ "Error: ".toList <+: e.message) := by
  refine ⟨fun e e' he he' h => ?_, fun e => ?_⟩
  · obtain ⟨m, fault, rfl⟩ := exists_atLine he
    obtain ⟨n, fault', rfl⟩ := exists_atLine he'
    obtain ⟨rfl, hmessage⟩ := Text.onLine_inj.mp h
    rw [Fault.message_injective hmessage]
  · cases hline : e.line? with
    | some m =>
      obtain ⟨m', fault, rfl⟩ := exists_atLine (hline ▸ Option.isSome_some)
      obtain rfl : m' = m := Option.some.inj hline
      refine ⟨fun n => ?_, iff_of_false nofun fun hprefix => ?_⟩
      · exact Option.some_inj.trans Text.label_prefix_onLine_iff.symm
      · have hhead : 'E' = 'L' := (List.cons_prefix_cons.mp hprefix).1
        exact absurd hhead (by decide)
    | none =>
      obtain ⟨t, ht⟩ := exists_message hline
      have hfront : "Error: ".toList ++ t = 'E' :: ("rror: ".toList ++ t) := rfl
      rw [ht]
      refine ⟨fun n => iff_of_false nofun fun hprefix => ?_, iff_of_true rfl (List.prefix_append ..)⟩
      rw [hfront] at hprefix
      exact absurd (List.cons_prefix_cons.mp hprefix).1 (by decide)

/-- An opcode that reads like a message, quoted in one. -/
theorem message_identifies_quoted :
    let e : Error := .atLine 10 (.tooShort ("can't pop".toList ++ ", stack too short".toList))
    let e' : Error := .atLine 10 (.tooShort "can't pop, stack too short".toList)
    e.line?.isSome ∧ e'.line?.isSome ∧ e.message = e'.message ∧ e = e' ∧ e.line? = some 10 := by
  intro e e'
  have hmessage : e.message = e'.message := by decide
  have hlabel : 'L' :: (Decimal.digits 10 ++ ": ".toList) <+: e.message := by decide
  exact ⟨rfl, rfl, hmessage, message_identifies.1 e e' rfl rfl hmessage,
    ((message_identifies.2 e).1 10).mpr hlabel⟩

end Error

end DequeMachine
