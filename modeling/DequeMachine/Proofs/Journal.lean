import DequeMachine.Interpreter

namespace DequeMachine

theorem Level.rank_le_trace (l : Level) : l.rank ≤ trace.rank := by
  cases l <;> decide

namespace Journal

/-- A filter for every target admits what is grave enough, and without a limit nothing. -/
theorem Filter.admits_upTo_option (limit : Option Level) (r : Record) :
    (upTo limit).admits r = limit.any fun l => r.level.rank ≤ l.rank := by
  cases limit with
  | none => exact admits_silent r
  | some l => exact admits_upTo l r

inductive Event
  | skipped (line : Nat)
  | opcode (line : Nat) (word : Text)
  | switched (line : Nat) (mode : Mode)
  | halted (lines : Nat) (state : Lifecycle)
  deriving DecidableEq, Repr

namespace Event

def level : Event → Level
  | skipped _ => .trace
  | opcode _ _ => .debug
  | switched _ _ => .debug
  | halted _ _ => .info

def text : Event → Text
  | skipped line => Text.onLine line "skipped".toList
  | opcode line word => Text.onLine line word
  | switched line mode => Text.onLine line ("switching to ".toList ++ mode.name ++ " mode".toList)
  | halted lines state =>
    "halted after ".toList ++ Decimal.digits lines ++ " lines: ".toList ++ state.name

def record (e : Event) : Record := ⟨e.level, target, e.text⟩

/-- No event is graver than an `info`. -/
theorem info_le_level (e : Event) : Level.info.rank ≤ e.level.rank := by
  cases e <;> simp [level, Level.rank]

end Event

def tell (es : List Event) (j : Journal) : Journal :=
  { j with records := j.records ++ (es.map Event.record).filter j.filter.admits }

@[simp] theorem filter_tell (es : List Event) (j : Journal) : (j.tell es).filter = j.filter := rfl

theorem toList_records_tell (es : List Event) (j : Journal) :
    (j.tell es).records.toList =
      j.records.toList ++ (es.map Event.record).filter j.filter.admits :=
  Array.toList_appendList

@[simp] theorem tell_nil (j : Journal) : j.tell [] = j := by simp [tell]

theorem tell_tell (es fs : List Event) (j : Journal) :
    (j.tell es).tell fs = j.tell (es ++ fs) := by
  have hrecords : ((j.tell es).tell fs).records = (j.tell (es ++ fs)).records := by
    apply Array.toList_inj.mp
    simp only [toList_records_tell, filter_tell, List.map_append, List.filter_append,
      List.append_assoc]
  exact congrArg (Journal.mk j.filter) hrecords

theorem note_eq_tell (e : Event) (j : Journal) : j.note e.level e.text = j.tell [e] := by
  have hrecord : e.record = ⟨e.level, target, e.text⟩ := rfl
  rw [note, ← hrecord, tell, List.map_singleton]
  by_cases hadmits : j.filter.admits e.record
  · rw [if_pos hadmits, List.filter_cons_of_pos hadmits, List.filter_nil]
    rfl
  · rw [if_neg hadmits, List.filter_cons_of_neg hadmits, List.filter_nil, Array.appendList_nil]

end Journal

end DequeMachine
