import Mathlib
import DequeMachine.Proofs.Interpreter.Lifecycle

namespace DequeMachine.Interpreter

/-- The interpreter as a limit on its sink would have left it. -/
def cut (l : Sink.Limit) (s : Interpreter) : Interpreter := { s with sink := s.sink.cut l }

variable {s t : Interpreter} {l : Sink.Limit} {lines : List Bytes}

theorem Effect.on_cut {sink : Sink} (hs : sink.limit = none) (h : sink.kept.size ≤ l.room)
    (effect : Effect) :
    effect.on (sink.cut l) =
      (if (effect.on sink).2.kept.size ≤ l.room then (effect.on sink).1 else some (.io l.text),
        (effect.on sink).2.cut l) := by
  cases effect with
  | leave e => exact Prod.ext (if_pos h).symm rfl
  | write b =>
    rw [on, on, Sink.write_cut h, Sink.write_of_unlimited hs]
    refine Prod.ext ?_ rfl
    exact apply_ite (Option.map Error.io) _ none (some l.text)

theorem executeLine_cut (hs : s.sink.limit = none) (h : s.sink.kept.size ≤ l.room) (t : Text) :
    (s.cut l).executeLine t =
      (if (s.executeLine t).2.sink.kept.size ≤ l.room then (s.executeLine t).1
        else some (.io l.text), (s.executeLine t).2.cut l) := by
  obtain ⟨effect, machine, journal, hdoes⟩ := exists_does t s
  have hcut : (s.cut l).executeLine t = _ := hdoes.eq (s.sink.cut l)
  rw [hcut, hdoes.eq s.sink, effect.on_cut hs h]
  rfl

theorem size_kept_le (h : t.Continues s) : s.sink.kept.size ≤ t.sink.kept.size := by
  have hkept := h.sink.kept.length_le
  rwa [Array.length_toList, Array.length_toList] at hkept

/-- Lines whose output the sink has room for do what they do without a limit. -/
theorem executeLines_cut (hs : s.sink.limit = none)
    (h : (s.executeLines lines).2.sink.kept.size ≤ l.room) :
    (s.cut l).executeLines lines = ((s.executeLines lines).1, (s.executeLines lines).2.cut l) := by
  induction lines generalizing s with
  | nil => rfl
  | cons line lines ih =>
    have hstart := (size_kept_le (continues_executeLines (line :: lines) s)).trans h
    have hline := executeLine_cut hs hstart (Utf8.decode line)
    have hcontinues := continues_executeLine (Utf8.decode line) s
    rcases hanswer : s.executeLine (Utf8.decode line) with ⟨_ | e, t⟩
    · rw [executeLines_of_passing hanswer] at h ⊢
      rw [hanswer] at hline hcontinues
      have ht : t.sink.kept.size ≤ l.room := (size_kept_le (continues_executeLines lines t)).trans h
      rw [if_pos ht] at hline
      rw [executeLines_of_passing hline]
      exact ih (hcontinues.sink.limit.trans hs) h
    · rw [executeLines_of_failing hanswer] at h ⊢
      rw [hanswer, if_pos h] at hline
      exact executeLines_of_failing hline lines

/-- The first line whose output goes beyond the limit, reached by lines that pass, is the last one. -/
theorem exists_overflow (hs : s.sink.limit = none) (hstart : s.sink.kept.size ≤ l.room)
    (h : l.room < (s.executeLines lines).2.sink.kept.size) :
    ∃ before line after t, lines = before ++ line :: after ∧ s.Passes before t ∧
      t.sink.kept.size ≤ l.room ∧
      l.room < (t.executeLine (Utf8.decode line)).2.sink.kept.size ∧
      (s.cut l).executeLines lines =
        (some (.io l.text), (t.executeLine (Utf8.decode line)).2.cut l) := by
  induction lines generalizing s with
  | nil => exact absurd hstart (Nat.not_le_of_lt h)
  | cons line lines ih =>
    have hline := executeLine_cut hs hstart (Utf8.decode line)
    by_cases hroom : (s.executeLine (Utf8.decode line)).2.sink.kept.size ≤ l.room
    · rw [if_pos hroom] at hline
      have hcontinues := continues_executeLine (Utf8.decode line) s
      rcases hanswer : s.executeLine (Utf8.decode line) with ⟨_ | e, t⟩
      · rw [hanswer] at hline hroom hcontinues
        rw [executeLines_of_passing hanswer] at h
        obtain ⟨before, failing, after, t', rfl, hpasses, ht', hfailing, hcut⟩ :=
          ih (hcontinues.sink.limit.trans hs) hroom h
        refine ⟨line :: before, failing, after, t', rfl, .cons hanswer hpasses, ht', hfailing, ?_⟩
        rw [executeLines_of_passing hline, hcut]
      · rw [executeLines_of_failing hanswer] at h
        rw [hanswer] at hroom
        exact absurd hroom (Nat.not_le_of_lt h)
    · rw [if_neg hroom] at hline
      refine ⟨[], line, lines, s, rfl, .nil s, hstart, Nat.lt_of_not_le hroom, ?_⟩
      exact executeLines_of_failing hline lines

/-- A line that prints leaves the machine as it is. -/
theorem machine_executeLine (hs : s.sink.limit = none) {t : Text}
    (h : s.sink.kept.size < (s.executeLine t).2.sink.kept.size) :
    (s.executeLine t).2.machine = s.machine := by
  obtain ⟨effect, machine, journal, hdoes⟩ := exists_does t s
  rw [hdoes.eq s.sink] at h ⊢
  cases effect with
  | leave e => exact absurd h (Nat.lt_irrefl s.sink.kept.size)
  | write b =>
    apply hdoes.printing b rfl
    rintro rfl
    have hnil : (Effect.on s.sink (.write [])).2 = s.sink :=
      (congrArg Prod.snd (Sink.write_of_unlimited hs [])).trans (Sink.append_nil s.sink)
    rw [hnil] at h
    exact absurd h (Nat.lt_irrefl s.sink.kept.size)

/-- Lines whose output the sink has no room for are executed as far as the first that goes beyond it.
That line prints, so the machine is the one before it. -/
theorem exists_crossing (hs : s.sink.limit = none) (hstart : s.sink.kept.size ≤ l.room)
    (h : l.room < (s.executeLines lines).2.sink.kept.size) :
    ∃ k, (s.after lines k).sink.kept.size ≤ l.room ∧
      l.room < (s.after lines (k + 1)).sink.kept.size ∧
      (s.after lines (k + 1)).machine = (s.after lines k).machine ∧
      (s.after lines (k + 1)).lines = s.lines + k + 1 ∧
      (s.cut l).executeLines lines = (some (.io l.text), (s.after lines (k + 1)).cut l) := by
  obtain ⟨before, line, later, t, rfl, hpasses, ht, hline, hcut⟩ := exists_overflow hs hstart h
  have hunlimited : t.sink.limit = none := hpasses.continues.sink.limit.trans hs
  refine ⟨before.length, ?_⟩
  rw [hpasses.after_length, hpasses.after_succ_length, lines_executeLine, hpasses.lines_eq]
  exact ⟨ht, hline, machine_executeLine hunlimited (ht.trans_lt hline), rfl, hcut⟩

theorem isLeast_crossing {n k : Nat} (h : (s.after lines k).sink.kept.size ≤ n)
    (hnext : n < (s.after lines (k + 1)).sink.kept.size) :
    IsLeast {j | n < (s.after lines j).sink.kept.size} (k + 1) := by
  refine ⟨hnext, fun j hj => ?_⟩
  by_contra hlt
  have hle := size_kept_le (continues_after (Nat.lt_succ_iff.mp (Nat.lt_of_not_le hlt)) lines s)
  exact absurd (hle.trans h) (Nat.not_le_of_lt hj)

/-- Of the whole output the beginning is settled as soon as there is enough of it. -/
theorem take_kept_after {n k : Nat} (h : n ≤ (s.after lines k).sink.kept.size) :
    (s.after lines k).sink.kept.toList.take n =
      (s.executeLines lines).2.sink.kept.toList.take n := by
  obtain ⟨rest, hrest⟩ := (continues_mono (List.take_prefix k lines) s).sink.kept
  rw [← Array.length_toList] at h
  rw [← hrest]
  exact (List.take_append_of_le_length h).symm

theorem run_cut {source : Source} (hs : s.state = .running) (hlimit : s.sink.limit = none)
    (h : (s.run source).2.sink.kept.size ≤ l.room) :
    (s.cut l).run source = ((s.run source).1, (s.run source).2.cut l) := by
  rw [run_eq_halt hs] at h ⊢
  have hcut : (s.cut l).state = .running := hs
  rw [run_eq_halt hcut, executeLines_cut hlimit h]
  rfl

/-- Output that the sink has room for makes no difference. Otherwise the run fails with the text of the
limit on the first line that goes beyond it, in the mode of that line, and the sink keeps the beginning
of the whole output that it has room for. -/
theorem run_limited (source : Source) (n : Nat) (text : Text) (flushFailure : Option Text)
    (journal : Journal) :
    let free : Interpreter := { sink := { flushFailure }, journal }
    let limited : Interpreter := { sink := { limit := some ⟨n, text⟩, flushFailure }, journal }
    let whole := free.run source
    let short := limited.run source
    let after := free.after source.reading.1
    (whole.2.sink.kept.size ≤ n →
      short = (whole.1, { whole.2 with sink := { whole.2.sink with limit := some ⟨n, text⟩ } })) ∧
    (n < whole.2.sink.kept.size →
      short.1 = some (.io text) ∧ short.2.sink.kept.toList = whole.2.sink.kept.toList.take n ∧
      short.2.state = .haltedError ∧ short.2.machine.values.Released ∧
      IsLeast {k | n < (after k).sink.kept.size} short.2.lines ∧
      ∀ k, k ≤ short.2.lines → short.2.lines ≤ k + 1 →
        short.2.machine.mode = (after k).machine.mode) := by
  intro free limited whole short after
  let l : Sink.Limit := ⟨n, text⟩
  have hfree : free.sink.kept.size ≤ l.room := Nat.zero_le n
  have hlimited : limited = free.cut l := by
    rw [cut, Sink.cut_of_room hfree]
  refine ⟨fun h => ?_, fun h => ?_⟩
  · have hshort : (free.cut l).run source = (whole.1, whole.2.cut l) := run_cut rfl rfl h
    rwa [← hlimited, cut, Sink.cut_of_room h] at hshort
  · have hwhole : whole = (free.executeLines source.reading.1).2.halt _ := run_eq_halt rfl source
    rw [hwhole] at h ⊢
    obtain ⟨k, hk, hnext, hmachine, hlines, hcut⟩ := exists_crossing rfl hfree h
    rw [← hlimited] at hcut
    have hshort : short = ((after (k + 1)).cut l).halt (some (.io text)) :=
      run_of_failing rfl rfl hcut
    have hcount : short.2.lines = k + 1 := by
      rw [hshort]
      exact hlines.trans (congrArg (· + 1) (Nat.zero_add k))
    have hkept : short.2.sink.kept.toList =
        (free.executeLines source.reading.1).2.sink.kept.toList.take n := by
      rw [hshort]
      exact take_kept_after (Nat.le_of_lt hnext)
    have hmode : short.2.machine.mode = (after (k + 1)).machine.mode := by
      rw [hshort]
      rfl
    refine ⟨?_, hkept, ?_, ?_, ?_, ?_⟩
    · rw [hshort]
      rfl
    · rw [hshort]
      rfl
    · rw [hshort]
      exact (after (k + 1)).machine.values.released_release
    · rw [hcount]
      exact isLeast_crossing hk hnext
    · rw [hcount]
      intro j hj hj'
      obtain rfl | rfl : j = k ∨ j = k + 1 := by omega
      · rw [hmode, hmachine]
      · exact hmode

/-- The limit falls inside a number that `pall` prints behind another one. -/
theorem run_limited_number :
    let source : Source := { bytes := Utf8.encode "queue\npush 12\npush 345\npall\nswap".toList }
    let text := "write failed".toList
    let whole := ({} : Interpreter).run source
    let short := ({ sink := { limit := some ⟨5, text⟩ } } : Interpreter).run source
    5 < whole.2.sink.kept.size ∧ whole.2.sink.kept.toList = Utf8.encode "12\n345\n".toList ∧
      short.1 = some (.io text) ∧ short.2.sink.kept.toList = Utf8.encode "12\n34".toList ∧
      short.2.lines = 4 ∧ short.2.machine.mode = .queue := by
  intro source text whole short
  have hlong : 5 < whole.2.sink.kept.size := by decide
  have hwhole : whole.2.sink.kept.toList = Utf8.encode "12\n345\n".toList := by decide
  obtain ⟨herror, hkept, -⟩ := (run_limited source 5 text none {}).2 hlong
  refine ⟨hlong, hwhole, herror, ?_, by decide, by decide⟩
  rw [hkept, hwhole]
  decide

end DequeMachine.Interpreter
