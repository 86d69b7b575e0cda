import DequeMachine.Proofs.Interpreter.BrokenSource
import DequeMachine.Proofs.Interpreter.Runs

namespace DequeMachine

open Bytes (IsLine unlines)
open Text (words)
open Utf8 (decode)

/-- An unknown instruction is named by a word that begins no comment and names no opcode, and too few values
by an opcode that takes two. -/
def Fault.WellNamed : Fault → Prop
  | unknownInstruction token => token.IsWord ∧ token.head? ≠ some '#' ∧
    (∀ op : Opcode, token ≠ op.word) ∧ token ≠ Opcode.divAlias
  | tooShort name => ∃ op ∈ [Opcode.swap, .add, .sub, .mul, .div, .mod], name = op.word
  | pushUsage | popEmpty | pintEmpty | divisionByZero | pcharEmpty | pcharOutOfRange => True

variable {fault : Fault}

theorem Instruction.wellNamed_of_ofLine {t : Text} (h : ofLine t = .error fault) :
    fault.WellNamed := by
  have hparses := parses_ofWords 0 (words t)
  rw [← ofLine_eq, h] at hparses
  generalize hwords : words t = ws at hparses
  cases hparses with
  | unknown ws mark word divAlias =>
    have hword := Text.isWord_of_mem_words (t := t) (hwords ▸ List.mem_cons_self)
    exact ⟨hword, mark, word, divAlias⟩

theorem Opcode.wellNamed_faults (op : Opcode) : ∀ fault ∈ op.faults, fault.WellNamed := by
  cases op <;> simp [faults, Fault.WellNamed]

/-- No line of text ends within the text. -/
structure Text.OneLine (t : Text) : Prop where
  newline : '\n' ∉ t
  carriageReturn : '\r' ∉ t

instance (t : Text) : Decidable t.OneLine :=
  decidable_of_iff ('\n' ∉ t ∧ '\r' ∉ t) ⟨fun h => ⟨h.1, h.2⟩, fun h => ⟨h.1, h.2⟩⟩

theorem Text.OneLine.append {t u : Text} (ht : t.OneLine) (hu : u.OneLine) : (t ++ u).OneLine :=
  ⟨List.not_mem_append ht.newline hu.newline,
    List.not_mem_append ht.carriageReturn hu.carriageReturn⟩

theorem Text.IsWord.oneLine {w : Text} (h : w.IsWord) : w.OneLine where
  newline := h.newline_notMem
  carriageReturn := fun hmem => absurd (h.inside _ hmem) (by decide)

theorem Text.OneLine.onLine {t : Text} (h : t.OneLine) (n : Nat) : (Text.onLine n t).OneLine := by
  have hmark : Text.OneLine ['L'] := by decide
  have hcolon : Text.OneLine ": ".toList := by decide
  exact ((hmark.append (Decimal.isWord_digits n).oneLine).append hcolon).append h

theorem Fault.WellNamed.oneLine_message (h : fault.WellNamed) : fault.message.OneLine := by
  cases fault with
  | unknownInstruction token =>
    have hbegin : Text.OneLine "unknown instruction ".toList := by decide
    exact hbegin.append h.1.oneLine
  | tooShort name =>
    obtain ⟨op, -, rfl⟩ := h
    have hbegin : Text.OneLine "can't ".toList := by decide
    have hend : Text.OneLine ", stack too short".toList := by decide
    exact (hbegin.append (Opcode.isWord (Opcode.ofWord?_word op)).oneLine).append hend
  | pushUsage | popEmpty | pintEmpty | divisionByZero | pcharEmpty | pcharOutOfRange =>
    decide

namespace Interpreter

/-- The line holds an instruction or nothing at all. -/
def Parsed (line : Bytes) : Prop := ∃ i, Instruction.ofLine (decode line) = .ok i

/-- Why a line fails: a fault, which is told with the number of the line, or a sink that cuts off what the
line prints. -/
inductive Fails (s : Interpreter) (line : Bytes) : Error → Prop
  | fault {fault : Fault} (named : fault.WellNamed) : Fails s line (.atLine (s.lines + 1) fault)
  | sink {l : Sink.Limit} (limit : l ∈ s.sink.limit) (parsed : Parsed line) : Fails s line (.io l.text)

variable {s t u : Interpreter} {p : Plain.Machine} {line : Bytes} {lines : List Bytes} {e : Error}
  {source : Source}

theorem Represents.fails (hs : s.Represents p) (h : s.executeLine (decode line) = (some e, t)) :
    s.Fails line e := by
  rw [Interpreter.executeLine] at h
  cases hline : Instruction.ofLine (decode line) with
  | error fault =>
    rw [hline] at h
    cases h
    exact .fault (Instruction.wellNamed_of_ofLine hline)
  | ok held =>
    rw [hline] at h
    cases held with
    | none => cases h
    | some i =>
      dsimp only at h
      rcases hstep : s.machine.step i with ⟨refusal | b, m⟩
      · rw [execute_of_error (s := { s with lines := s.lines + 1 }) hstep] at h
        cases h
        cases refusal with
        | fault fault => exact .fault (i.op.wellNamed_faults fault (Machine.fault_mem_of_step hstep))
        | allocation => exact absurd (Machine.full_of_step hstep).2.2 (by simp [hs.machine.values.isFull_eq])
      · rw [execute_of_ok (s := { s with lines := s.lines + 1 }) hstep] at h
        obtain ⟨text, htext, rfl⟩ := Option.map_eq_some_iff.mp (congrArg Prod.fst h)
        obtain ⟨l, hl, rfl⟩ := Sink.exists_limit_of_write htext
        exact .sink hl ⟨some i, hline⟩

theorem ne_nil_of_executeLine (h : s.executeLine (decode line) = (some e, t)) : line ≠ [] := by
  rintro rfl
  cases h

theorem parsed_of_executeLine (h : s.executeLine (decode line) = (none, t)) : Parsed line := by
  rw [executeLine] at h
  cases hline : Instruction.ofLine (decode line) with
  | ok held => exact ⟨held, hline⟩
  | error fault =>
    rw [hline] at h
    cases h

theorem Passes.parsed (h : s.Passes lines t) : ∀ line ∈ lines, Parsed line := by
  induction h with
  | nil s => exact fun line hline => absurd hline List.not_mem_nil
  | cons first rest ih => exact List.forall_mem_cons.mpr ⟨parsed_of_executeLine first, ih⟩

theorem lines_run (hs : s.state = .running) (source : Source) :
    (s.run source).2.lines = (s.executeLines source.reading.1).2.lines := by
  rw [run_eq_halt hs]
  rfl

theorem lines_run_of_failing (hs : s.state = .running) {before after : List Bytes}
    (hreading : source.reading.1 = before ++ line :: after) (hpasses : s.Passes before t)
    (hfails : t.executeLine (decode line) = (some e, u)) :
    (s.run source).2.lines = t.lines + 1 := by
  have hcount := lines_executeLine (decode line) t
  rw [hfails] at hcount
  rw [lines_run hs, executeLines_eq_some_iff.mpr ⟨before, line, after, t, hreading, hpasses, hfails⟩]
  exact hcount

theorem lines_run_of_passing (hs : s.state = .running) (hpasses : s.Passes source.reading.1 t) :
    (s.run source).2.lines = s.lines + source.reading.1.length := by
  rw [lines_run hs, executeLines_eq_none_iff.mpr hpasses]
  exact hpasses.lines_eq

theorem Passes.represents (h : s.Passes lines t) (hs : s.Represents p) : ∃ p', t.Represents p' := by
  induction h generalizing p with
  | nil s => exact ⟨p, hs⟩
  | @cons s t u line lines first rest ih =>
    obtain ⟨q, hq⟩ := hs.executeLine (decode line)
    rw [first] at hq
    exact ih hq

/-- The line `n` of a program fails: where it stands, what its error says and how it is shown. -/
structure Diagnosis (s : Interpreter) (program : Bytes) (n : Nat) (e : Error) : Prop where
  place : ∃ before line after t u, IsLine before line after program ∧ line ≠ [] ∧
    n = before.count Bytes.newline + 1 ∧ s.Passes before.lines t ∧
    t.executeLine (decode line) = (some e, u)
  fault : ∃ fault : Fault, e = .atLine n fault ∧ fault.WellNamed
  message : ∃ text, e.message = 'L' :: Decimal.digits n ++ ": ".toList ++ text
  oneLine : e.message.OneLine

theorem Ends.diagnosis (h : s.Ends source (some e)) (hrep : s.Represents p) (hs : s.state = .running)
    (hzero : s.lines = 0) {n : Nat} (hn : e.line? = some n) :
    n = (s.run source).2.lines ∧ s.Diagnosis source.bytes n e := by
  cases h with
  | source hpasses hbreaks => cases hn
  | flush hpasses hreading hfails => cases hn
  | @line before after line _ t u hreading hpasses hfails =>
    obtain ⟨q, hq⟩ := hpasses.represents hrep
    cases hq.fails hfails with
    | sink hlimit hparsed => cases hn
    | @fault fault hnamed =>
      obtain rfl : t.lines + 1 = n := Option.some.inj hn
      obtain ⟨more, hlines⟩ := Source.exists_lines_eq hreading
      obtain ⟨hbefore, rest, hplace⟩ := Bytes.exists_isLine hlines
      have hcount : t.lines = (unlines before).count Bytes.newline := by
        rw [Bytes.count_unlines hbefore, hpasses.lines_eq, hzero, Nat.zero_add]
      have hbegin : s.Passes (unlines before).lines t := by
        rwa [Bytes.lines_unlines hbefore]
      exact ⟨(lines_run_of_failing hs hreading hpasses hfails).symm,
        { place := ⟨_, line, rest, t, u, hplace, ne_nil_of_executeLine hfails,
            congrArg (· + 1) hcount, hbegin, hfails⟩
          fault := ⟨fault, rfl, hnamed⟩
          message := ⟨fault.message, rfl⟩
          oneLine := hnamed.oneLine_message.onLine (t.lines + 1) }⟩

theorem Ends.count (h : s.Ends source none) (hs : s.state = .running) (hzero : s.lines = 0) :
    (s.run source).2.lines =
      source.bytes.count Bytes.newline + if source.bytes.Whole then 0 else 1 := by
  cases h with
  | good hpasses hreading hflushes =>
    rw [lines_run_of_passing hs hpasses, hzero, Nat.zero_add, source.reading_fst hreading,
      Bytes.length_lines]

/-- The lines counted are the first ones of the program, and hold what can be parsed. -/
structure Counts (program : Bytes) (n : Nat) : Prop where
  le : n ≤ program.lines.length
  parsed : ∀ line ∈ program.lines.take n, Parsed line

theorem counts_of_prefix {program : Bytes} (h : lines <+: program.lines)
    (hparsed : ∀ line ∈ lines, Parsed line) : Counts program lines.length where
  le := h.length_le
  parsed := by
    rwa [← List.prefix_iff_eq_take.mp h]

theorem Passes.counts (h : s.Passes source.reading.1 t) (hs : s.state = .running)
    (hzero : s.lines = 0) : Counts source.bytes (s.run source).2.lines := by
  rw [lines_run_of_passing hs h, hzero, Nat.zero_add]
  exact counts_of_prefix source.reading_prefix h.parsed

theorem Ends.counts (h : s.Ends source (some e)) (hrep : s.Represents p) (hs : s.state = .running)
    (hzero : s.lines = 0) (hn : e.line? = none) :
    (∃ text, e = .io text ∧
      ((∃ b ∈ source.broken, b.after ≤ source.bytes.length ∧ text = b.text) ∨
        (∃ l ∈ s.sink.limit, text = l.text) ∨ s.sink.flushFailure = some text)) ∧
      Counts source.bytes (s.run source).2.lines := by
  cases h with
  | source hpasses hbreaks =>
    exact ⟨⟨_, rfl, .inl (Source.exists_break_of_reading hbreaks)⟩, hpasses.counts hs hzero⟩
  | flush hpasses hreading hfails => exact ⟨⟨_, rfl, .inr (.inr hfails)⟩, hpasses.counts hs hzero⟩
  | @line before after line _ t u hreading hpasses hfails =>
    obtain ⟨q, hq⟩ := hpasses.represents hrep
    cases hq.fails hfails with
    | fault hnamed => cases hn
    | @sink l hlimit hparsed =>
      rw [hpasses.continues.sink.limit] at hlimit
      refine ⟨⟨_, rfl, .inr (.inl ⟨l, hlimit, rfl⟩)⟩, ?_⟩
      obtain ⟨more, hlines⟩ := Source.exists_lines_eq hreading
      have hcounted : before ++ [line] <+: source.bytes.lines :=
        ⟨more, by rw [hlines, List.append_assoc, List.singleton_append]⟩
      have hall : ∀ line' ∈ before ++ [line], Parsed line' :=
        List.forall_mem_append.mpr ⟨hpasses.parsed, List.forall_mem_singleton.mpr hparsed⟩
      have hcount := counts_of_prefix hcounted hall
      rwa [lines_run_of_failing hs hreading hpasses hfails, hpasses.lines_eq, hzero, Nat.zero_add,
        ← List.length_concat (a := line), List.concat_eq_append]

/-- A run that ends with an error on a line has counted the lines up to that one, and the error tells its
number in a message of one line. Any other error is that of the source or of the sink, and the lines
counted by then can all be parsed. A run without an error has counted all lines of the program. -/
theorem run_diagnostics (source : Source) (limit : Option Sink.Limit) (flushFailure : Option Text)
    (journal : Journal) :
    let s : Interpreter := { sink := { limit, flushFailure }, journal }
    let answer := (s.run source).1
    let count := (s.run source).2.lines
    (∀ e n, answer = some e → e.line? = some n → n = count ∧ s.Diagnosis source.bytes n e) ∧
    (∀ e, answer = some e → e.line? = none →
      (∃ text, e = .io text ∧
        ((∃ b ∈ source.broken, b.after ≤ source.bytes.length ∧ text = b.text) ∨
          (∃ l ∈ limit, text = l.text) ∨ flushFailure = some text)) ∧
      Counts source.bytes count) ∧
    (answer = none →
      count = source.bytes.count Bytes.newline + if source.bytes.Whole then 0 else 1) := by
  intro s answer count
  have hends : s.Ends source answer := ends_run rfl source
  refine ⟨fun e n he hn => ?_, fun e he hn => ?_, fun he => ?_⟩
  · rw [he] at hends
    exact hends.diagnosis (represents_new limit flushFailure journal) rfl rfl hn
  · rw [he] at hends
    exact hends.counts (represents_new limit flushFailure journal) rfl rfl hn
  · rw [he] at hends
    exact hends.count rfl rfl

/-- Behind an empty line and with a byte that is no text, a word is unknown on line 3. -/
theorem run_diagnostics_unknown :
    let program := Utf8.encode "push 1\n\n ju".toList ++ 0xff :: Utf8.encode "mp 3\r\npall".toList
    let e : Error := .atLine 3 (.unknownInstruction ("ju".toList ++ '\ufffd' :: "mp".toList))
    let s : Interpreter := {}
    (s.run { bytes := program }).1 = some e ∧ e.line? = some 3 ∧
      3 = (s.run { bytes := program }).2.lines ∧ s.Diagnosis program 3 e := by
  intro program e s
  have herror : (s.run { bytes := program }).1 = some e := by decide
  exact ⟨herror, rfl, (run_diagnostics { bytes := program } none none {}).1 e 3 herror rfl⟩

end Interpreter

end DequeMachine
