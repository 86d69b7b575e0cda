import DequeMachine.Proofs.Interpreter.Ahead
import DequeMachine.Proofs.Interpreter.Effects
import DequeMachine.Proofs.Interpreter.Lifecycle
import DequeMachine.Proofs.Text.DecodedLines

/-!
# Inert lines

A line of blanks, a comment or a `nop` does nothing but count. Put between the lines of a program, such lines
leave an interpreter ahead by their number, and the program does what it does without them.
-/
namespace DequeMachine

open Bytes (newline unlines)
open Text (separators words)
open Utf8 (decode encode)

/-- Only blanks; or a comment mark behind them, with any bytes after it; or the word `nop`, with any bytes
after it that do not continue the word. -/
inductive Inert : Bytes → Prop
  | blank {blanks : Text} (hblanks : ∀ c ∈ blanks, c ∈ separators) : Inert (encode blanks)
  | comment {blanks : Text} (hblanks : ∀ c ∈ blanks, c ∈ separators) (rest : Bytes) :
    Inert (encode (blanks ++ ['#']) ++ rest)
  | nop {blanks : Text} (hblanks : ∀ c ∈ blanks, c ∈ separators) {rest : Bytes}
    (hrest : ∀ c ∈ (decode rest).head?, c ∈ separators) :
    Inert (encode (blanks ++ "nop".toList) ++ rest)

theorem Text.words_append_of_blanks {blanks : Text} (h : ∀ c ∈ blanks, c ∈ separators) (t : Text) :
    words (blanks ++ t) = words t := by
  induction blanks with
  | nil => rfl
  | cons c blanks ih =>
    obtain ⟨hc, hblanks⟩ := List.forall_mem_cons.mp h
    rw [List.cons_append, words_cons_blank (isBlank_iff.mpr hc), ih hblanks]

theorem Inert.ofLine {line : Bytes} (h : Inert line) :
    Instruction.ofLine (decode line) = .ok none ∨
      ∃ argument, Instruction.ofLine (decode line) = .ok (some ⟨Opcode.nop.word, .nop, argument⟩) := by
  rw [Instruction.ofLine_eq]
  cases h with
  | @blank blanks hblanks =>
    left
    rw [Utf8.decode_encode, ← List.append_nil blanks, Text.words_append_of_blanks hblanks,
      Text.words_nil]
    rfl
  | comment hblanks rest =>
    left
    rw [Utf8.decode_encode_append, List.append_assoc, Text.words_append_of_blanks hblanks,
      List.singleton_append, Text.words_cons (by decide)]
    rfl
  | @nop blanks hblanks rest hrest =>
    right
    have hnop := Opcode.ofWord?_word .nop
    have hword : ("nop".toList : Text) = Opcode.nop.word := rfl
    rw [Utf8.decode_encode_append, List.append_assoc, Text.words_append_of_blanks hblanks, hword,
      Text.words_append (Opcode.ne_nil hnop) (Opcode.isBlank_of_mem hnop)
        fun c hc => Text.isBlank_iff.mpr (hrest c hc),
      Instruction.ofWords_of_opcode hnop]
    exact ⟨_, rfl⟩

/-- A line of a program, or one that was put between its lines. -/
inductive ProgramLine
  | own (line : Bytes)
  | inserted (line : Bytes)
  deriving DecidableEq, Repr

namespace ProgramLine

def bytes : ProgramLine → Bytes
  | own line => line
  | inserted line => line

def own? : ProgramLine → Option Bytes
  | own line => some line
  | inserted _ => none

/-- The program without what was inserted. -/
def owns (ps : List ProgramLine) : List Bytes := ps.filterMap own?

/-- How many lines were inserted before line `n` of the program, counted from zero, or in all if it has no
such line. -/
def insertedBefore : List ProgramLine → Nat → Nat
  | [], _ => 0
  | inserted _ :: ps, n => insertedBefore ps n + 1
  | own _ :: _, 0 => 0
  | own _ :: ps, n + 1 => insertedBefore ps n

theorem owns_append (ps qs : List ProgramLine) : owns (ps ++ qs) = owns ps ++ owns qs :=
  List.filterMap_append

theorem mem_owns {ps : List ProgramLine} {line : Bytes} (h : line ∈ owns ps) :
    ∃ p ∈ ps, p.bytes = line := by
  obtain ⟨p, hp, hline⟩ := List.mem_filterMap.mp h
  cases p with
  | own line' => exact ⟨_, hp, Option.some.inj hline⟩
  | inserted line' => cases hline

end ProgramLine

namespace Interpreter

open ProgramLine (bytes owns insertedBefore)

/-- How many of the lines pass before one fails. -/
def passed : List Bytes → Interpreter → Nat
  | [], _ => 0
  | line :: lines, s =>
    match s.executeLine (decode line) with
    | (some _, _) => 0
    | (none, s) => s.passed lines + 1

variable {s t u : Interpreter} {d : Nat} {line : Bytes}

theorem passed_of_passing (h : s.executeLine (decode line) = (none, t)) (lines : List Bytes) :
    s.passed (line :: lines) = t.passed lines + 1 := by
  rw [passed, h]

theorem passed_of_failing {e : Error} (h : s.executeLine (decode line) = (some e, t))
    (lines : List Bytes) : s.passed (line :: lines) = 0 := by
  rw [passed, h]

/-- The line that fails is counted, and no line behind it. -/
theorem lines_executeLines (lines : List Bytes) (s : Interpreter) :
    (s.executeLines lines).2.lines = s.lines + s.passed lines +
      if (s.executeLines lines).1.isNone then 0 else 1 := by
  induction lines generalizing s with
  | nil => rfl
  | cons line lines ih =>
    have hcount := lines_executeLine (decode line) s
    rcases hline : s.executeLine (decode line) with ⟨_ | e, t⟩
    · rw [hline] at hcount
      rw [executeLines_of_passing hline, passed_of_passing hline, ih t, hcount]
      omega
    · rw [hline] at hcount
      rw [executeLines_of_failing hline, passed_of_failing hline]
      exact hcount

theorem executeLine_inert (hfits : s.sink.Fits) (hline : Inert line) :
    ∃ t, s.executeLine (decode line) = (none, t) ∧ t.Ahead 1 s := by
  rw [executeLine]
  rcases hline.ofLine with hnone | ⟨argument, hnop⟩
  · rw [hnone]
    exact ⟨_, rfl, rfl, rfl, rfl, rfl⟩
  · rw [hnop]
    have hstep : s.machine.step ⟨Opcode.nop.word, .nop, argument⟩ = (.ok [], s.machine) := rfl
    dsimp only
    rw [execute_of_ok (s := { s with lines := s.lines + 1 }) hstep, Sink.write_nil hfits]
    exact ⟨_, rfl, rfl, rfl, rfl, rfl⟩

variable {ps : List ProgramLine}

/-- Both fail on the same line or on none, and the insertions in front of it are what the second interpreter
gets ahead by. -/
theorem Ahead.executeLines_inserted (h : t.Ahead d s) (hfits : s.sink.Fits)
    (hinert : ∀ line, .inserted line ∈ ps → Inert line) :
    (t.executeLines (ps.map bytes)).1 = (s.executeLines (owns ps)).1.map
        (Error.delayed (d + insertedBefore ps (s.passed (owns ps)))) ∧
      (t.executeLines (ps.map bytes)).2.Ahead (d + insertedBefore ps (s.passed (owns ps)))
        (s.executeLines (owns ps)).2 := by
  induction ps generalizing s t d with
  | nil => exact ⟨rfl, h⟩
  | cons p ps ih =>
    have hrest : ∀ line, .inserted line ∈ ps → Inert line :=
      fun line hline => hinert line (List.mem_cons_of_mem p hline)
    cases p with
    | inserted line =>
      have hfits' : t.sink.Fits := h.sink ▸ hfits
      obtain ⟨u, hu, hahead⟩ := executeLine_inert hfits' (hinert line List.mem_cons_self)
      have hcount : d + insertedBefore (.inserted line :: ps) (s.passed (owns ps)) =
          d + 1 + insertedBefore ps (s.passed (owns ps)) := by
        rw [insertedBefore]
        omega
      have howns : owns (.inserted line :: ps) = owns ps := rfl
      have hpadded : t.executeLines ((ProgramLine.inserted line :: ps).map bytes) =
          u.executeLines (ps.map bytes) := executeLines_of_passing hu _
      rw [howns, hcount, hpadded]
      exact ih (hahead.trans h) hfits hrest
    | own line =>
      obtain ⟨herror, hahead⟩ := h.executeLine (.refl (decode line))
      have hfits' := fits_executeLine hfits (decode line)
      have howns : owns (.own line :: ps) = line :: owns ps := rfl
      rw [howns, List.map_cons, bytes]
      rcases hs : s.executeLine (decode line) with ⟨_ | e, s'⟩
      · rw [hs] at herror hahead hfits'
        have ht : t.executeLine (decode line) = (none, (t.executeLine (decode line)).2) :=
          Prod.ext herror rfl
        rw [executeLines_of_passing hs, executeLines_of_passing ht, passed_of_passing hs, insertedBefore]
        exact ih hahead hfits' hrest
      · rw [hs] at herror hahead
        have ht : t.executeLine (decode line) =
            (some (e.delayed d), (t.executeLine (decode line)).2) := Prod.ext herror rfl
        rw [executeLines_of_failing hs, executeLines_of_failing ht, passed_of_failing hs, insertedBefore]
        exact ⟨rfl, hahead⟩

theorem executeLines_inserted (hfits : s.sink.Fits)
    (hinert : ∀ line, .inserted line ∈ ps → Inert line) :
    (s.executeLines (ps.map bytes)).1 = (s.executeLines (owns ps)).1.map
        (Error.delayed (insertedBefore ps (s.passed (owns ps)))) ∧
      (s.executeLines (ps.map bytes)).2.Ahead (insertedBefore ps (s.passed (owns ps)))
        (s.executeLines (owns ps)).2 := by
  have hlines := (Ahead.refl s).executeLines_inserted hfits hinert
  rwa [Nat.zero_add] at hlines

/-- Behind a line of the program everything but the count and the journal is as it is without insertions. -/
theorem exists_ahead_after (hfits : s.sink.Fits) {before rest : List ProgramLine}
    (hps : ps = before ++ .own line :: rest) (hinert : ∀ line, .inserted line ∈ ps → Inert line) :
    ∃ k, (s.after (ps.map bytes) (before.length + 1)).Ahead k
      (s.after (owns ps) ((owns before).length + 1)) := by
  have hsplit : ps = (before ++ [.own line]) ++ rest := by
    rw [hps, List.append_assoc, List.singleton_append]
  have hpadded : (ps.map bytes).take (before.length + 1) = (before ++ [ProgramLine.own line]).map bytes := by
    rw [hsplit, List.map_append]
    exact List.take_left' (by rw [List.length_map, List.length_append, List.length_singleton])
  have howns : (owns ps).take ((owns before).length + 1) = owns (before ++ [.own line]) := by
    rw [hsplit, ProgramLine.owns_append]
    refine List.take_left' ?_
    rw [ProgramLine.owns_append, List.length_append]
    rfl
  have hbefore : ∀ line', .inserted line' ∈ before ++ [.own line] → Inert line' :=
    fun line' hline' => hinert line' (hsplit ▸ List.mem_append_left rest hline')
  rw [after, after, hpadded, howns]
  exact ⟨_, (executeLines_inserted hfits hbefore).2⟩

/-- Inert lines among those of a program change neither its errors nor its output, its mode or its state, and
behind each of its own lines nothing else either. The count of lines, and the line of an error, grow by the
number of insertions in front of the last line of the program that is executed, or of all insertions if no
line fails. -/
theorem run_inserted (ps : List ProgramLine) (hlines : ∀ p ∈ ps, newline ∉ p.bytes)
    (hinert : ∀ line, .inserted line ∈ ps → Inert line) (limit : Option Sink.Limit)
    (flushFailure : Option Text) (journal : Journal) :
    let s : Interpreter := { sink := { limit, flushFailure }, journal }
    let plain := s.run { bytes := unlines (owns ps) }
    let padded := s.run { bytes := unlines (ps.map bytes) }
    let last := if (s.executeLines (owns ps)).1.isNone then plain.2.lines else plain.2.lines - 1
    let k := insertedBefore ps last
    padded.1 = plain.1.map (Error.delayed k) ∧ padded.2.Ahead k plain.2 ∧
    ∀ before line rest, ps = before ++ .own line :: rest →
      let withThem := s.after (ps.map bytes) (before.length + 1)
      let without := s.after (owns ps) ((owns before).length + 1)
      withThem.machine = without.machine ∧ withThem.sink = without.sink := by
  intro s plain padded last k
  have hfits : s.sink.Fits := (represents_new limit flushFailure journal).sink
  have hown : ∀ line ∈ owns ps, newline ∉ line := by
    intro line hline
    obtain ⟨p, hp, rfl⟩ := ProgramLine.mem_owns hline
    exact hlines p hp
  have hall : ∀ line ∈ ps.map bytes, newline ∉ line := List.forall_mem_map.mpr hlines
  have hplain : plain = (s.executeLines (owns ps)).2.halt (s.executeLines (owns ps)).1 := by
    have hrun := run_of_running (s := s) rfl (unlines (owns ps))
    rwa [Bytes.lines_unlines hown] at hrun
  have hpadded : padded =
      (s.executeLines (ps.map bytes)).2.halt (s.executeLines (ps.map bytes)).1 := by
    have hrun := run_of_running (s := s) rfl (unlines (ps.map bytes))
    rwa [Bytes.lines_unlines hall] at hrun
  have hlast : last = s.passed (owns ps) := by
    have hcount : plain.2.lines = s.passed (owns ps) +
        if (s.executeLines (owns ps)).1.isNone then 0 else 1 := by
      rw [hplain]
      exact (lines_executeLines (owns ps) s).trans (congrArg (· + _) (Nat.zero_add _))
    change (if _ then plain.2.lines else plain.2.lines - 1) = _
    rw [hcount]
    split <;> rfl
  obtain ⟨herror, hahead⟩ := executeLines_inserted hfits hinert
  rw [← hlast] at herror hahead
  have hhalt := hahead.halt (s.executeLines (owns ps)).1
  rw [← herror, ← hpadded, ← hplain] at hhalt
  refine ⟨hhalt.1, hhalt.2, fun before line rest hps => ?_⟩
  obtain ⟨k, hk⟩ := exists_ahead_after hfits hps hinert
  exact ⟨hk.machine, hk.sink⟩

/-- A comment of ill-formed bytes, a `nop` with another opcode behind it and an empty line: the pop that
fails on line 3 fails on line 6. -/
theorem run_inserted_pop :
    let comment := encode ([' '] ++ ['#']) ++ 0xff :: 0xe2 :: encode "pop".toList
    let nop := encode (['\t'] ++ "nop".toList) ++ encode " pop".toList
    let ps : List ProgramLine := [.inserted comment, .own (encode "push 3".toList), .inserted nop,
      .own (encode "pop".toList), .inserted [], .own (encode "pop".toList), .inserted comment,
      .own (encode "pint".toList)]
    let s : Interpreter := {}
    let plain := s.run { bytes := unlines (owns ps) }
    let padded := s.run { bytes := unlines (ps.map bytes) }
    (∀ p ∈ ps, newline ∉ p.bytes) ∧ (∀ line, .inserted line ∈ ps → Inert line) ∧
      plain.1 = some (.atLine 3 .popEmpty) ∧ padded.1 = some (.atLine 6 .popEmpty) ∧
      padded.2.Ahead 3 plain.2 := by
  intro comment nop ps s plain padded
  have hlines : ∀ p ∈ ps, newline ∉ p.bytes := by decide
  have hcomment : Inert comment := .comment (by simp [separators]) _
  have hnop : Inert nop := by
    apply Inert.nop
    · simp [separators]
    · rw [Utf8.decode_encode]
      simp [separators]
  have hinert : ∀ line, .inserted line ∈ ps → Inert line := by
    intro line hline
    simp only [ps, List.mem_cons, ProgramLine.inserted.injEq, reduceCtorEq, List.not_mem_nil,
      false_or, or_false] at hline
    rcases hline with rfl | rfl | rfl | rfl
    · exact hcomment
    · exact hnop
    · exact .blank fun c hc => absurd hc List.not_mem_nil
    · exact hcomment
  have hplain : plain.1 = some (.atLine 3 .popEmpty) := by decide
  obtain ⟨herror, hahead, -⟩ := run_inserted ps hlines hinert none none {}
  have hlast : (if (s.executeLines (owns ps)).1.isNone then plain.2.lines else plain.2.lines - 1) = 2 := by
    decide
  rw [hlast] at herror hahead
  rw [hplain] at herror
  exact ⟨hlines, hinert, hplain, herror, hahead⟩

end Interpreter

end DequeMachine
