import DequeMachine.Proofs.Interpreter.Ahead
import DequeMachine.Proofs.Interpreter.BrokenSource
import DequeMachine.Proofs.Journal

/-!
# Records of a run

A run tells its journal of every line that it counts, in order, and of its end. What it tells depends on the
lines alone, and what the journal does not admit is missing from its records and changes nothing else.
-/
namespace DequeMachine

open Journal (Event)
open Utf8 (decode)

/-- The mode that an opcode asks for. -/
def Opcode.mode? : Opcode → Option Mode
  | stack => some .stack
  | queue => some .queue
  | _ => none

theorem Opcode.mode?_eq_none_of_fault {op : Opcode} {fault : Fault} (h : fault ∈ op.faults) :
    op.mode? = none := by
  cases op <;> first | rfl | exact absurd h List.not_mem_nil

theorem Machine.mode_insert (v : Int32) (m : Machine) : (m.insert v).2.mode = m.mode := by
  obtain ⟨values, mode⟩ := m
  cases mode <;> rfl

theorem Machine.mode_step (i : Instruction) (m : Machine) :
    (m.step i).2.mode = i.op.mode?.getD m.mode := by
  obtain ⟨values, mode⟩ := m
  unfold step
  cases i.op with
  | push =>
    dsimp only [push]
    cases i.argument.bind Decimal.read? with
    | none => rfl
    | some v =>
      have hinsert := mode_insert v ⟨values, mode⟩
      dsimp only
      generalize insert v ⟨values, mode⟩ = answer at hinsert
      obtain ⟨_ | _, m⟩ := answer
      · exact hinsert
      · exact hinsert
  | pop =>
    dsimp only [pop]
    split <;> rfl
  | swap =>
    dsimp only [swap]
    split <;> rfl
  | add | sub | mul | div | mod =>
    dsimp only [combine]
    split
    · rfl
    · split <;> rfl
  | pall | pint | pchar | pstr | rotl | rotr | stack | queue | nop => rfl

/-- A step that can be refused does not switch modes. -/
theorem Machine.mode?_eq_none_of_error {i : Instruction} {m m' : Machine} {refusal : Refusal}
    (h : m.step i = (.error refusal, m')) : i.op.mode? = none := by
  cases refusal with
  | fault fault => exact Opcode.mode?_eq_none_of_fault (fault_mem_of_step h)
  | allocation =>
    rw [(full_of_step h).1]
    rfl

variable {t : Text} {i : Instruction} {fault : Fault}

/-- The mode behind a line that was reached in some mode. -/
def Text.modeAfter (mode : Mode) (t : Text) : Mode :=
  match Instruction.ofLine t with
  | .ok (some i) => i.op.mode?.getD mode
  | _ => mode

theorem Text.modeAfter_of_error (h : Instruction.ofLine t = .error fault) (mode : Mode) :
    modeAfter mode t = mode := by
  rw [modeAfter, h]

theorem Text.modeAfter_of_skipped (h : Instruction.ofLine t = .ok none) (mode : Mode) :
    modeAfter mode t = mode := by
  rw [modeAfter, h]

theorem Text.modeAfter_of_instruction (h : Instruction.ofLine t = .ok (some i)) (mode : Mode) :
    modeAfter mode t = i.op.mode?.getD mode := by
  rw [modeAfter, h]

namespace Journal.Event

def ofModes (n : Nat) (before after : Mode) : List Event :=
  if before = after then [] else [.switched n after]

/-- A skipped line is told of as such and an instruction by its opcode as written, before anything else is
known of it. If it asks for another mode, the switch follows. An unknown instruction is not told of. -/
def ofLine (n : Nat) (mode : Mode) (t : Text) : List Event :=
  match Instruction.ofLine t with
  | .error _ => []
  | .ok none => [.skipped n]
  | .ok (some i) => .opcode n i.opcode :: ofModes n mode (i.op.mode?.getD mode)

theorem ofLine_of_error (h : Instruction.ofLine t = .error fault) (n : Nat) (mode : Mode) :
    ofLine n mode t = [] := by
  rw [ofLine, h]

theorem ofLine_of_skipped (h : Instruction.ofLine t = .ok none) (n : Nat) (mode : Mode) :
    ofLine n mode t = [.skipped n] := by
  rw [ofLine, h]

theorem ofLine_of_instruction (h : Instruction.ofLine t = .ok (some i)) (n : Nat) (mode : Mode) :
    ofLine n mode t = .opcode n i.opcode :: ofModes n mode (i.op.mode?.getD mode) := by
  rw [ofLine, h]

/-- Lines that begin with line `n`. -/
def ofLines : Nat → Mode → List Text → List Event
  | _, _, [] => []
  | n, mode, t :: ts => ofLine n mode t ++ ofLines (n + 1) (Text.modeAfter mode t) ts

/-- An event that stands for a line. -/
def isLine : Event → Bool
  | skipped _ | opcode _ _ => true
  | switched _ _ | halted _ _ => false

theorem countP_ofModes (n : Nat) (before after : Mode) :
    (ofModes n before after).countP isLine = 0 := by
  unfold ofModes
  split <;> rfl

def switch? : Event → Option Mode
  | switched _ mode => some mode
  | _ => none

def switches (es : List Event) : List Mode := es.filterMap switch?

theorem switches_append (es fs : List Event) : switches (es ++ fs) = switches es ++ switches fs :=
  List.filterMap_append

/-- A line tells of a switch when it changes the mode. -/
theorem switches_ofLine (n : Nat) (mode : Mode) (t : Text) :
    switches (ofLine n mode t) =
      if mode = Text.modeAfter mode t then [] else [Text.modeAfter mode t] := by
  cases hline : Instruction.ofLine t with
  | error fault =>
    rw [ofLine_of_error hline, Text.modeAfter_of_error hline, if_pos rfl]
    rfl
  | ok held =>
    cases held with
    | none =>
      rw [ofLine_of_skipped hline, Text.modeAfter_of_skipped hline, if_pos rfl]
      rfl
    | some i =>
      rw [ofLine_of_instruction hline, Text.modeAfter_of_instruction hline]
      exact apply_ite switches _ [] [.switched n (i.op.mode?.getD mode)]

/-- The modes that lines switch to differ each from the one before, and the last of them stays. -/
theorem switches_ofLines (n : Nat) (mode : Mode) (ts : List Text) :
    List.IsChain (· ≠ ·) (mode :: switches (ofLines n mode ts)) ∧
      ts.foldl Text.modeAfter mode = (switches (ofLines n mode ts)).getLastD mode := by
  induction ts generalizing n mode with
  | nil => exact ⟨.singleton mode, rfl⟩
  | cons t ts ih =>
    obtain ⟨hchain, hlast⟩ := ih (n + 1) (Text.modeAfter mode t)
    rw [ofLines, switches_append, switches_ofLine, List.foldl_cons, hlast]
    by_cases hsame : mode = Text.modeAfter mode t
    · rw [if_pos hsame, List.nil_append]
      rw [← hsame] at hchain ⊢
      exact ⟨hchain, rfl⟩
    · rw [if_neg hsame, List.singleton_append]
      exact ⟨.cons_cons hsame hchain, (List.getLastD_cons ..).symm⟩

end Journal.Event

def Error.isUnknown : Error → Bool
  | .atLine _ (.unknownInstruction _) => true
  | _ => false

theorem Opcode.isUnknown_fault {op : Opcode} {fault : Fault} (h : fault ∈ op.faults) (n : Nat) :
    Error.isUnknown (.atLine n fault) = false := by
  cases fault with
  | unknownInstruction token => cases op <;> simp [faults] at h
  | pushUsage | popEmpty | pintEmpty | tooShort | divisionByZero | pcharEmpty | pcharOutOfRange => rfl

theorem Machine.isUnknown_of_error {i : Instruction} {m m' : Machine} {refusal : Refusal}
    (h : m.step i = (.error refusal, m')) (n : Nat) : (refusal.onLine n).isUnknown = false := by
  cases refusal with
  | fault fault => exact Opcode.isUnknown_fault (fault_mem_of_step h) n
  | allocation => rfl

theorem Instruction.isUnknown_fault {t : Text} {fault : Fault} (h : ofLine t = .error fault)
    (n : Nat) : Error.isUnknown (.atLine n fault) = true := by
  have hparses := parses_ofWords n (Text.words t)
  rw [← ofLine_eq, h] at hparses
  generalize Text.words t = ws at hparses
  cases hparses
  rfl

namespace Interpreter

variable {s t u : Interpreter} {e : Error} {lines : List Bytes} {source : Source}

theorem noteMode_eq_tell (n : Nat) (before after : Mode) (j : Journal) :
    noteMode n before after j = j.tell (Event.ofModes n before after) := by
  unfold noteMode Event.ofModes
  by_cases hsame : before = after
  · rw [if_pos hsame, if_pos hsame, Journal.tell_nil]
  · rw [if_neg hsame, if_neg hsame]
    exact Journal.note_eq_tell (.switched n after) j

/-- What one line tells the journal, and the mode it leaves. -/
structure Tells (s : Interpreter) (x : Text) (s' : Interpreter) : Prop where
  journal : s'.journal = s.journal.tell (Event.ofLine (s.lines + 1) s.machine.mode x)
  mode : s'.machine.mode = x.modeAfter s.machine.mode

theorem tells_executeLine (x : Text) (s : Interpreter) : s.Tells x (s.executeLine x).2 := by
  cases hline : Instruction.ofLine x with
  | error fault =>
    rw [executeLine, hline]
    refine ⟨?_, (Text.modeAfter_of_error hline _).symm⟩
    rw [Event.ofLine_of_error hline, Journal.tell_nil]
  | ok held =>
    cases held with
    | none =>
      rw [executeLine, hline]
      refine ⟨?_, (Text.modeAfter_of_skipped hline _).symm⟩
      rw [Event.ofLine_of_skipped hline]
      exact Journal.note_eq_tell (.skipped (s.lines + 1)) s.journal
    | some i =>
      have hmode := Machine.mode_step i s.machine
      have hopcode := Journal.note_eq_tell (.opcode (s.lines + 1) i.opcode) s.journal
      rw [executeLine_of_instruction hline]
      rcases hstep : s.machine.step i with ⟨refusal | b, m⟩
      · rw [hstep] at hmode
        rw [execute_of_error (s := { s with lines := s.lines + 1 }) hstep]
        refine ⟨?_, hmode.trans (Text.modeAfter_of_instruction hline _).symm⟩
        have hnone := Machine.mode?_eq_none_of_error hstep
        rw [Event.ofLine_of_instruction hline, hnone, Option.getD_none, Event.ofModes, if_pos rfl]
        exact hopcode
      · rw [hstep] at hmode
        rw [execute_of_ok (s := { s with lines := s.lines + 1 }) hstep]
        refine ⟨?_, hmode.trans (Text.modeAfter_of_instruction hline _).symm⟩
        rw [Event.ofLine_of_instruction hline, ← hmode, ← List.singleton_append,
          ← Journal.tell_tell, ← hopcode]
        exact noteMode_eq_tell _ _ _ _

theorem any_isUnknown_map_io (failure : Option Text) :
    (failure.map Error.io).any Error.isUnknown = false := by
  cases failure <;> rfl

/-- A line is told of once, unless its error is that of an unknown instruction. -/
theorem countP_isLine_executeLine (x : Text) (s : Interpreter) (n : Nat) (mode : Mode) :
    (Event.ofLine n mode x).countP Event.isLine +
      ((s.executeLine x).1.any Error.isUnknown).toNat = 1 := by
  cases hline : Instruction.ofLine x with
  | error fault =>
    rw [executeLine, hline, Event.ofLine_of_error hline, Option.any_some,
      Instruction.isUnknown_fault hline]
    rfl
  | ok held =>
    cases held with
    | none =>
      rw [executeLine, hline, Event.ofLine_of_skipped hline]
      rfl
    | some i =>
      have hcount : (Event.ofLine n mode x).countP Event.isLine = 1 := by
        rw [Event.ofLine_of_instruction hline, List.countP_cons_of_pos rfl, Event.countP_ofModes]
      have hknown : (s.executeLine x).1.any Error.isUnknown = false := by
        rw [executeLine_of_instruction hline]
        rcases hstep : s.machine.step i with ⟨refusal | b, m⟩
        · rw [execute_of_error (s := { s with lines := s.lines + 1 }) hstep]
          exact Machine.isUnknown_of_error hstep _
        · rw [execute_of_ok (s := { s with lines := s.lines + 1 }) hstep]
          exact any_isUnknown_map_io _
      rw [hcount, hknown]
      rfl

/-- What lines have told that were executed one after the other, only the last of them with an error if any. -/
structure Told (s : Interpreter) (ts : List Text) (answer : Option Error × Interpreter) : Prop where
  lines : answer.2.lines = s.lines + ts.length
  journal : answer.2.journal =
    s.journal.tell (Event.ofLines (s.lines + 1) s.machine.mode ts)
  mode : answer.2.machine.mode = ts.foldl Text.modeAfter s.machine.mode
  count : (Event.ofLines (s.lines + 1) s.machine.mode ts).countP Event.isLine +
    (answer.1.any Error.isUnknown).toNat = ts.length

theorem told_nil (s : Interpreter) : s.Told [] (none, s) :=
  ⟨rfl, (Journal.tell_nil s.journal).symm, rfl, rfl⟩

theorem told_executeLine (x : Text) (s : Interpreter) : s.Told [x] (s.executeLine x) := by
  have htells := tells_executeLine x s
  constructor
  · exact lines_executeLine x s
  · rw [htells.journal, Event.ofLines, Event.ofLines, List.append_nil]
  · exact htells.mode
  · rw [Event.ofLines, Event.ofLines, List.append_nil]
    exact countP_isLine_executeLine x s _ _

theorem Told.cons {x : Text} {ts : List Text} {answer : Option Error × Interpreter}
    (hline : s.executeLine x = (none, t)) (h : t.Told ts answer) : s.Told (x :: ts) answer := by
  have htells := tells_executeLine x s
  have hlines := lines_executeLine x s
  have hcount := countP_isLine_executeLine x s (s.lines + 1) s.machine.mode
  rw [hline] at htells hlines hcount
  have hrest := h.count
  rw [hlines, htells.mode] at hrest
  constructor
  · rw [h.lines, hlines, List.length_cons]
    omega
  · rw [h.journal, htells.journal, Journal.tell_tell, hlines, htells.mode, Event.ofLines]
  · rw [h.mode, htells.mode, List.foldl_cons]
  · rw [Event.ofLines, List.countP_append, List.length_cons]
    simp only [Option.any_none, Bool.toNat_false] at hcount
    omega

/-- Lines tell of themselves as far as they are executed. -/
theorem exists_told (lines : List Bytes) (s : Interpreter) :
    ∃ told, told <+: lines ∧ s.Told (told.map decode) (s.executeLines lines) := by
  induction lines generalizing s with
  | nil => exact ⟨[], List.prefix_rfl, told_nil s⟩
  | cons line lines ih =>
    rcases hline : s.executeLine (decode line) with ⟨_ | e, t⟩
    · obtain ⟨told, hprefix, htold⟩ := ih t
      rw [executeLines_of_passing hline]
      exact ⟨line :: told, List.cons_prefix_cons.mpr ⟨rfl, hprefix⟩, htold.cons hline⟩
    · rw [executeLines_of_failing hline, ← hline]
      exact ⟨[line], ⟨lines, rfl⟩, told_executeLine (decode line) s⟩

theorem journal_halt (e : Option Error) (s : Interpreter) :
    (s.halt e).2.journal =
      s.journal.tell [.halted (s.halt e).2.lines (s.halt e).2.state] :=
  Journal.note_eq_tell (.halted s.lines (s.halt e).2.state) s.journal

/-- Later errors do not hide that of an unknown instruction, and are none themselves. -/
theorem any_isUnknown_run (hs : s.state = .running) (source : Source) :
    (s.run source).1.any Error.isUnknown =
      (s.executeLines source.reading.1).1.any Error.isUnknown := by
  rw [run_fst hs]
  rcases (s.executeLines source.reading.1).1 with _ | e
  · rw [Option.none_or, Option.any_none]
    cases source.reading.2 with
    | none => exact any_isUnknown_map_io _
    | some text => rfl
  · rfl

/-- What a run has to tell: its lines as far as they were counted, and its end. -/
def events (source : Source) (s : Interpreter) : List Event :=
  let answer := s.run source
  let counted := source.bytes.lines.take (answer.2.lines - s.lines)
  Event.ofLines (s.lines + 1) s.machine.mode (counted.map decode) ++
    [.halted answer.2.lines answer.2.state]

theorem exists_told_run (hs : s.state = .running) (source : Source) :
    ∃ k, k ≤ source.bytes.lines.length ∧
      s.Told ((source.bytes.lines.take k).map decode) (s.executeLines source.reading.1) ∧
      (s.run source).2.lines = s.lines + k := by
  obtain ⟨told, hprefix, htold⟩ := exists_told source.reading.1 s
  have hall := hprefix.trans source.reading_prefix
  have htake := List.prefix_iff_eq_take.mp hall
  refine ⟨told.length, hall.length_le, ?_, ?_⟩
  · rwa [← htake]
  · rw [run_eq_halt hs]
    have hlines := htold.lines
    rwa [List.length_map] at hlines

theorem journal_run (hs : s.state = .running) (source : Source) :
    (s.run source).2.journal = s.journal.tell (s.events source) := by
  obtain ⟨k, -, htold, hlines⟩ := exists_told_run hs source
  have hk : (s.run source).2.lines - s.lines = k := by omega
  rw [events, hk, ← Journal.tell_tell, ← htold.journal, run_eq_halt hs]
  exact journal_halt _ _

/-- A journal changes nothing but what is recorded. -/
theorem Ahead.run (h : t.Ahead 0 s) (source : Source) :
    (t.run source).1 = (s.run source).1 ∧ (t.run source).2.Ahead 0 (s.run source).2 := by
  by_cases hs : s.state = .running
  · have hlines : List.Forall₂ Text.Alike (source.reading.1.map decode) (source.reading.1.map decode) :=
      List.forall₂_same.mpr fun x _ => .refl x
    obtain ⟨herror, hahead⟩ := h.executeLines hlines
    rw [Error.map_delayed_zero] at herror
    have hhalt := hahead.halt ((s.executeLines source.reading.1).1.or (source.reading.2.map .io))
    rw [Error.map_delayed_zero, Error.map_delayed_zero] at hhalt
    rw [run_eq_halt hs, run_eq_halt (h.state.trans hs), herror]
    exact hhalt
  · have ht : t.state ≠ .running := fun ht => hs (h.state.symm.trans ht)
    rw [run_of_halted hs, run_of_halted ht]
    exact ⟨rfl, h⟩

theorem Ahead.events_eq (h : t.Ahead 0 s) (source : Source) : t.events source = s.events source := by
  obtain ⟨-, hrun⟩ := h.run source
  rw [Interpreter.events, Interpreter.events, hrun.lines, hrun.state, h.lines, h.machine]
  rfl

/-- With a filter for every target the journal keeps what is grave enough. -/
theorem records_run (hs : s.state = .running) {limit : Option Level}
    (hfilter : s.journal.filter = .upTo limit) (source : Source) :
    (s.run source).2.journal.records.toList = s.journal.records.toList ++
      ((s.events source).map Event.record).filter fun r => limit.any fun l => r.level.rank ≤ l.rank := by
  have hadmits : s.journal.filter.admits = fun r => limit.any fun l => r.level.rank ≤ l.rank := by
    funext r
    rw [hfilter, Journal.Filter.admits_upTo_option]
  rw [journal_run hs, Journal.toList_records_tell, hadmits]

/-- At the level `trace` a run records, line by line, what the lines that it counted have to tell, and then
its end. Each counted line is told of once, except for an unknown instruction. The modes switched to differ
each from the one before, of which the first is that of a stack, and the last of them is the mode at the end.
At any other level the records that are too talkative are missing, and nothing else is different. -/
theorem run_journal (source : Source) (sink : Sink) (earlier : Array Record) :
    let new (limit : Option Level) : Interpreter := { sink, journal := ⟨.upTo limit, earlier⟩ }
    let answer := ((new (some .trace)).run source).1
    let halted := ((new (some .trace)).run source).2
    let lines := (source.bytes.lines.take halted.lines).map decode
    let events := Event.ofLines 1 .stack lines
    let records := (events ++ [Event.halted halted.lines halted.state]).map Event.record
    let switches := Event.switches events
    lines.length = halted.lines ∧
    halted.journal.records.toList = earlier.toList ++ records ∧
    events.countP Event.isLine + (answer.any Error.isUnknown).toNat = halted.lines ∧
    List.IsChain (· ≠ ·) (.stack :: switches) ∧ halted.machine.mode = switches.getLastD .stack ∧
    ∀ limit : Option Level,
      let other := (new limit).run source
      other.1 = answer ∧ other.2.unlogged = halted.unlogged ∧
      other.2.journal.records.toList =
        earlier.toList ++ records.filter fun r => limit.any fun l => r.level.rank ≤ l.rank := by
  intro new answer halted lines events records switches
  obtain ⟨k, hk, htold, hcount⟩ := exists_told_run (s := new (some .trace)) rfl source
  obtain rfl : halted.lines = k := hcount.trans (Nat.zero_add k)
  have hevents : (new (some .trace)).events source = events ++ [.halted halted.lines halted.state] := rfl
  have hall : (records.filter fun r => (some Level.trace).any fun l => r.level.rank ≤ l.rank) = records :=
    List.filter_eq_self.mpr fun r _ => decide_eq_true r.level.rank_le_trace
  have hlength : lines.length = halted.lines := by
    rw [List.length_map, List.length_take, Nat.min_eq_left hk]
  obtain ⟨hchain, hlast⟩ := Event.switches_ofLines 1 .stack lines
  refine ⟨hlength, ?_, ?_, hchain, ?_, fun limit => ?_⟩
  · have hrecords := records_run (s := new (some .trace)) rfl rfl source
    rwa [hevents, hall] at hrecords
  · have hlines := htold.count
    rw [← any_isUnknown_run rfl] at hlines
    exact hlines.trans hlength
  · have hmode : halted.machine.mode = lines.foldl Text.modeAfter .stack := htold.mode
    rw [hmode, hlast]
  · have hahead : (new limit).Ahead 0 (new (some .trace)) := ⟨rfl, rfl, rfl, rfl⟩
    obtain ⟨herror, hhalted⟩ := hahead.run source
    refine ⟨herror, ahead_zero_iff.mp hhalted, ?_⟩
    have hrecords := records_run (s := new limit) rfl rfl source
    rwa [hahead.events_eq, hevents] at hrecords

/-- The second `queue` changes nothing, an instruction that fails is told of, and lines behind it are not. -/
example :
    let program := Utf8.encode "queue\nqueue 1\n# stack\ndiv_m\npush 1".toList
    let s : Interpreter := { journal := { filter := .upTo (some .trace) } }
    (s.run { bytes := program }).2.journal.records.toList.map Record.text =
      ["L1: queue".toList, "L1: switching to Queue mode".toList, "L2: queue".toList,
        "L3: skipped".toList, "L4: div_m".toList, "halted after 4 lines: HaltedError".toList] := by
  decide

end Interpreter

end DequeMachine
