import DequeMachine.Proofs.Interpreter.Runs
import DequeMachine.Proofs.Plain.Expression
import DequeMachine.Proofs.Text.DecodedLines

namespace DequeMachine

open Bytes (newline unlines)
open Utf8 (decode encode)

namespace Plain

open Expression (line literal)

/-- What is held after some values are pushed one by one. -/
def pushed (mode : Mode) (xs held : List Int32) : List Int32 :=
  match mode with
  | .stack => xs.reverse ++ held
  | .queue => held ++ xs

theorem pushed_cons (mode : Mode) (v : Int32) (xs held : List Int32) :
    pushed mode (v :: xs) held = pushed mode xs (pushed mode [v] held) := by
  cases mode <;> simp [pushed]

theorem Machine.push_write (m : Machine) (v : Int32) :
    m.push (some (Decimal.write v)) = m.leave (pushed m.mode [v] m.values) := by
  obtain ⟨values, mode⟩ := m
  rw [push, Option.bind_some, integer?_eq, Decimal.read?_write]
  cases mode <;> rfl

theorem Machine.line_word (op : Opcode) (m : Machine) :
    Machine.line op.word m = m.step ⟨op.word, op, none⟩ := by
  have hop := Opcode.ofWord?_word op
  have hwords : op.word.words = [op.word] :=
    Text.words_singleton (Opcode.ne_nil hop) (Opcode.isBlank_of_mem hop)
  rw [Machine.line, hwords, Instruction.ofWords_of_opcode hop]
  rfl

namespace Interpreter

variable (s : Interpreter)

theorem executeLine_push (v : Int32) :
    s.executeLine (line (literal v)) = (none, { s with
      machine := { s.machine with values := pushed s.machine.mode [v] s.machine.values }
      lines := s.lines + 1 }) := by
  rw [executeLine, Expression.machine_line_literal, Machine.push_write]
  simp only [Machine.leave, List.append_nil]

theorem executeLines_pushes (xs : List Int32) :
    s.executeLines (xs.map fun v => line (literal v)) = (none, { s with
      machine := { s.machine with values := pushed s.machine.mode xs s.machine.values }
      lines := s.lines + xs.length }) := by
  induction xs generalizing s with
  | nil => cases hmode : s.machine.mode <;> simp [executeLines, pushed]
  | cons v xs ih =>
    rw [List.map_cons, executeLines, executeLine_push]
    simp only [ih, pushed_cons _ v xs, List.length_cons, Nat.add_assoc, Nat.add_comm 1]

theorem executeLine_queue :
    s.executeLine Opcode.queue.word = (none, { s with
      machine := { s.machine with mode := .queue }
      lines := s.lines + 1 }) := by
  rw [executeLine, Machine.line_word]
  simp only [Machine.step, List.append_nil]

theorem executeLine_pall :
    s.executeLine Opcode.pall.word = (none, { s with
      lines := s.lines + 1
      output := s.output ++ writtenLines s.machine.values }) := by
  rw [executeLine, Machine.line_word]
  rfl

/-- The lines that push some values and then print what is held. -/
def listing (xs : List Int32) : List Text := (xs.map fun v => line (literal v)) ++ [Opcode.pall.word]

theorem newline_notMem_listing (xs : List Int32) : ∀ t ∈ listing xs, '\n' ∉ t := by
  intro t ht
  rcases List.mem_append.mp ht with hpush | hpall
  · obtain ⟨v, -, rfl⟩ := List.mem_map.mp hpush
    have hpush : '\n' ∉ "push ".toList := by decide
    exact List.not_mem_append hpush (Decimal.newline_notMem_write v)
  · rw [List.mem_singleton.mp hpall]
    decide

theorem executeLines_listing (xs : List Int32) :
    s.executeLines (listing xs) = (none, { s with
      machine := { s.machine with values := pushed s.machine.mode xs s.machine.values }
      lines := s.lines + xs.length + 1
      output := s.output ++ writtenLines (pushed s.machine.mode xs s.machine.values) }) := by
  rw [listing, executeLines_append, executeLines_pushes]
  simp only [executeLines, executeLine_pall]

theorem executeLines_stack_listing (xs : List Int32) :
    ({} : Interpreter).executeLines (listing xs) =
      (none, ⟨⟨xs.reverse, .stack⟩, xs.length + 1, .running, writtenLines xs.reverse⟩) := by
  rw [executeLines_listing]
  simp only [pushed, List.append_nil, List.nil_append, Nat.zero_add]

theorem executeLines_queue_listing (xs : List Int32) :
    ({} : Interpreter).executeLines (Opcode.queue.word :: listing xs) =
      (none, ⟨⟨xs, .queue⟩, xs.length + 2, .running, writtenLines xs⟩) := by
  have hcount : 0 + 1 + xs.length + 1 = xs.length + 2 := by omega
  rw [executeLines, executeLine_queue]
  simp only [executeLines_listing, pushed, List.nil_append, hcount]

end Interpreter

end Plain

namespace Interpreter

variable {s : Interpreter} {xs : List Int32}

/-- The bytes of each value, without the newline behind it. -/
def pieces (xs : List Int32) : List Bytes := xs.map fun v => encode (Decimal.write v)

theorem newline_notMem_pieces (xs : List Int32) : ∀ piece ∈ pieces xs, newline ∉ piece := by
  intro piece hpiece
  obtain ⟨v, -, rfl⟩ := List.mem_map.mp hpiece
  exact Utf8.newline_notMem_encode (Decimal.newline_notMem_write v)

theorem encode_writtenLines (xs : List Int32) :
    encode (Plain.writtenLines xs) = unlines (pieces xs) := by
  rw [Plain.encode_writtenLines, unlines, pieces, List.flatMap_map]
  rfl

theorem pall_eq (hs : s.Reachable) (hxs : s.machine.values.chain.toList? = some xs) :
    s.machine.pall = encode (Plain.writtenLines xs) := by
  have hvalues := (hs.represents_values hxs).machine.values.toList_eq
  rw [Plain.encode_writtenLines, Machine.pall, hvalues]

theorem executeLine_pall (hs : s.Reachable) (hxs : s.machine.values.chain.toList? = some xs) :
    (s.executeLine Opcode.pall.word).1 = (s.sink.write s.machine.pall).1.map .io ∧
      (s.executeLine Opcode.pall.word).2.sink = (s.sink.write s.machine.pall).2 := by
  have hrep := hs.represents_values hxs
  obtain ⟨s', hs', hcounted⟩ := executeLine_of_ok hrep (Plain.Machine.line_word .pall _)
  rw [hs', pall_eq hs hxs]
  exact ⟨rfl, hcounted.sink⟩

theorem map_integer?_pieces (xs : List Int32) :
    (pieces xs).map (fun piece => Plain.integer? (decode piece)) = xs.map some := by
  rw [pieces, List.map_map]
  apply List.map_congr_left
  intro v _
  rw [Function.comp_apply, Utf8.decode_encode, Plain.integer?_eq, Decimal.read?_write]

/-- The lines that push the printed values are those of the values themselves. -/
theorem listing_pieces (xs : List Int32) :
    (pieces xs).map (encode "push ".toList ++ ·) ++ [encode "pall".toList] =
      (Plain.Interpreter.listing xs).map encode := by
  have hpush : ∀ v ∈ xs, encode "push ".toList ++ encode (Decimal.write v) =
      encode (Plain.Expression.line (.literal v)) := fun v _ => (Utf8.encode_append _ _).symm
  rw [pieces, Plain.Interpreter.listing, List.map_append, List.map_map, List.map_map]
  exact congrArg (· ++ _) (List.map_congr_left hpush)

theorem run_of_plain {program : Bytes} {mode : Mode} {n : Nat} {state : Lifecycle} {output : Text}
    (h : ({} : Plain.Interpreter).executeLines (program.lines.map decode) =
      (none, ⟨⟨xs, mode⟩, n, state, output⟩)) (journal : Journal) :
    (({ journal } : Interpreter).run { bytes := program }).1 = none ∧
      (({ journal } : Interpreter).consume { bytes := program }).2.machine.values.chain.toList? =
        some xs ∧
      (({ journal } : Interpreter).run { bytes := program }).2.sink.kept.toList = encode output := by
  obtain ⟨herror, hshows⟩ := (follows_new journal).run rfl program
  obtain ⟨-, hfollows⟩ := new_executeLines journal program.lines
  rw [Plain.Interpreter.run, h] at herror hshows
  rw [h] at hfollows
  exact ⟨herror, hfollows.shows.values, hshows.output⟩

/-- What is printed of all the values held is a line for each, which denotes the value. A queue made of
the lines in their order holds the same values and prints the same bytes; a stack holds them in reverse. -/
theorem run_printed (hs : s.Reachable) (hxs : s.machine.values.chain.toList? = some xs)
    (journal : Journal) :
    let out := s.machine.pall
    let pieces := Bytes.finishedLines out
    let pushes := pieces.map (encode "push ".toList ++ ·) ++ [encode "pall".toList]
    let queued := unlines (encode "queue".toList :: pushes)
    let stacked := unlines pushes
    ((s.executeLine "pall".toList).1 = (s.sink.write out).1.map .io ∧
      (s.executeLine "pall".toList).2.sink = (s.sink.write out).2) ∧
    out.splitOn newline = pieces ++ [[]] ∧
    pieces.map (fun piece => Plain.integer? (decode piece)) = xs.map some ∧
    ((({ journal } : Interpreter).run { bytes := queued }).1 = none ∧
      (({ journal } : Interpreter).consume { bytes := queued }).2.machine.values.chain.toList? =
        some xs ∧
      (({ journal } : Interpreter).run { bytes := queued }).2.sink.kept.toList = out) ∧
    ((({ journal } : Interpreter).run { bytes := stacked }).1 = none ∧
      (({ journal } : Interpreter).consume { bytes := stacked }).2.machine.values.chain.toList? =
        some xs.reverse) := by
  intro out pieces pushes queued stacked
  have hprinted : out = encode (Plain.writtenLines xs) := pall_eq hs hxs
  have hout : out = unlines (Interpreter.pieces xs) := hprinted.trans (encode_writtenLines xs)
  have hpieces : pieces = Interpreter.pieces xs := by
    rw [← Bytes.finishedLines_unlines (newline_notMem_pieces xs), ← hout]
  have hpushes : pushes = (Plain.Interpreter.listing xs).map encode := by
    rw [← listing_pieces, ← hpieces]
  -- No line of either program holds a newline, so the lines that are run are those put together.
  have hlisting := Plain.Interpreter.newline_notMem_listing xs
  refine ⟨executeLine_pall hs hxs, ?_, ?_, ?_, ?_⟩
  · rw [hout, hpieces, Bytes.splitOn_unlines (newline_notMem_pieces xs)]
  · rw [hpieces, map_integer?_pieces]
  · have hlines : queued.lines.map decode = Opcode.queue.word :: Plain.Interpreter.listing xs := by
      have hqueue : ∀ t ∈ Opcode.queue.word :: Plain.Interpreter.listing xs, '\n' ∉ t :=
        List.forall_mem_cons.mpr ⟨by decide, hlisting⟩
      rw [← Utf8.map_decode_lines_unlines hqueue, List.map_cons, ← hpushes]
      rfl
    have hplain := Plain.Interpreter.executeLines_queue_listing xs
    rw [← hlines] at hplain
    obtain ⟨hnone, hvalues, hkept⟩ := run_of_plain hplain journal
    exact ⟨hnone, hvalues, hkept.trans hprinted.symm⟩
  · have hlines : stacked.lines.map decode = Plain.Interpreter.listing xs := by
      rw [← Utf8.map_decode_lines_unlines hlisting, ← hpushes]
    have hplain := Plain.Interpreter.executeLines_stack_listing xs
    rw [← hlines] at hplain
    obtain ⟨hnone, hvalues, -⟩ := run_of_plain hplain journal
    exact ⟨hnone, hvalues⟩

/-- The smallest value, zero and a seven, pushed on a stack and read back in a queue. -/
theorem run_printed_smallest :
    let s := ["push 7", "push 0", "push -2147483648"].foldl
      (fun s t => (s.executeLine t.toList).2) ({} : Interpreter)
    let printed := encode "-2147483648\n0\n7\n".toList
    let program := encode "queue\npush -2147483648\npush 0\npush 7\npall\n".toList
    s.Reachable ∧ s.machine.values.chain.toList? = some [-2147483648, 0, 7] ∧
      s.machine.pall = printed ∧ (({} : Interpreter).run { bytes := program }).1 = none ∧
      (({} : Interpreter).run { bytes := program }).2.sink.kept.toList = printed := by
  intro s printed program
  have hs : s.Reachable := .line (.line (.line (.new none none {}) _) _) _
  have hxs : s.machine.values.chain.toList? = some [-2147483648, 0, 7] := by decide
  have hpall : s.machine.pall = printed := by decide
  have hprogram : unlines (encode "queue".toList ::
      ((Bytes.finishedLines printed).map (encode "push ".toList ++ ·) ++ [encode "pall".toList])) =
        program := by decide
  obtain ⟨-, -, -, ⟨hnone, -, hkept⟩, -⟩ := run_printed hs hxs {}
  rw [hpall, hprogram] at hnone hkept
  exact ⟨hs, hxs, hpall, hnone, hkept⟩

end Interpreter

end DequeMachine
