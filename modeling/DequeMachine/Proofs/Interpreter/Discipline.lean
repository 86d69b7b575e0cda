import DequeMachine.Proofs.Interpreter.Passes
import DequeMachine.Proofs.Interpreter.Runs
import DequeMachine.Proofs.Plain.Discipline

namespace DequeMachine.Interpreter

open Utf8 (decode)
open Plain (Transfer)
open Plain.Transfer (entered left Supplied Carries Matched Unmatched Remain)

variable {s : Interpreter} {lines : List Bytes} {ts : List Transfer} {xs : List Int32}

theorem executeLines_carries (hs : s.Reachable) (hxs : s.machine.values.chain.toList? = some xs)
    (hlines : lines.map (fun line => Transfer.ofText? (decode line)) = ts.map some)
    (hsupplied : Supplied xs.length ts) :
    ∃ t ys, s.executeLines lines = (none, t) ∧ Carries s.machine.mode xs ts ys ∧
      t.machine.Represents ⟨ys, s.machine.mode⟩ ∧ t.sink = s.sink := by
  have hp := hs.represents_values hxs
  have htexts : (lines.map decode).map Transfer.ofText? = ts.map some := by rw [List.map_map, ← hlines]; rfl
  obtain ⟨ys, hys, hplain⟩ := Plain.Interpreter.executeLines_carries
    (s := { machine := ⟨xs, s.machine.mode⟩, lines := s.lines, state := s.state }) htexts hsupplied
  obtain ⟨t, ht, hmachine, hsink⟩ := hp.executeLines_of_silent hplain rfl
  exact ⟨t, ys, ht, hys, hmachine, hsink⟩

/-- In front of any of the lines, the values are those that the lines before it have left. -/
theorem after_carries (hs : s.Reachable) (hxs : s.machine.values.chain.toList? = some xs)
    (hlines : lines.map (fun line => Transfer.ofText? (decode line)) = ts.map some)
    (hsupplied : Supplied xs.length ts) (j : Nat) :
    ∃ ys, Carries s.machine.mode xs (ts.take j) ys ∧
      (s.after lines j).machine.values.front? = ys.head? := by
  have hlinesj : (lines.take j).map (fun line => Transfer.ofText? (decode line)) = (ts.take j).map some := by
    rw [List.map_take, List.map_take, hlines]
  obtain ⟨t, ys, ht, hys, hmachine, -⟩ := executeLines_carries hs hxs hlinesj (hsupplied.take j)
  refine ⟨ys, hys, ?_⟩
  rw [after, ht]
  exact hmachine.values.front?_eq

/-- Lines of `push` and `pop` that find a value whenever one is to leave all pass. In a queue the values at first
and those that entered leave in this order, and what is left is the rest of them. On a stack that is empty at
first each value leaves at the `pop` that matches the `push` it entered at, which is the latest unmatched one
before it, and what is left are the values of the unmatched ones, latest first. -/
theorem executeLines_transfers (hs : s.Reachable) (hxs : s.machine.values.chain.toList? = some xs)
    (hlines : lines.map (fun line => Transfer.ofText? (decode line)) = ts.map some)
    (hsupplied : Supplied xs.length ts) :
    (s.machine.mode = .queue →
      ∃ t, s.executeLines lines = (none, t) ∧
        t.machine.values.chain.toList? = some ((xs ++ entered ts).drop (left ts)) ∧
        t.machine.mode = .queue ∧ t.sink = s.sink ∧
        ∀ j, ts[j]? = some .leave → ∃ v, (s.after lines j).machine.values.front? = some v ∧
          (xs ++ entered ts)[left (ts.take j)]? = some v) ∧
    (s.machine.mode = .stack → xs = [] →
      ∃ t ys, s.executeLines lines = (none, t) ∧ t.machine.values.chain.toList? = some ys ∧
        Remain ts ys ∧ t.machine.mode = .stack ∧ t.sink = s.sink ∧
        ∀ j, ts[j]? = some .leave → ∃ i v, (s.after lines j).machine.values.front? = some v ∧
          ts[i]? = some (.enter v) ∧ Matched ts i j ∧ IsGreatest {k | Unmatched (ts.take j) k} i) := by
  have hbefore := after_carries hs hxs hlines hsupplied
  obtain ⟨t, ys, ht, hys, hmachine, hsink⟩ := executeLines_carries hs hxs hlines hsupplied
  have hvalues := Chain.Represents.toList?_eq hmachine.values
  have hkept := hmachine.mode
  constructor
  · intro hmode
    rw [hmode] at hbefore hys hkept
    refine ⟨t, ht, hys.queue ▸ hvalues, hkept, hsink, fun j hj => ?_⟩
    obtain ⟨zs, hzs, hfront⟩ := hbefore j
    rw [hfront]
    exact hzs.queue_leave hsupplied hj
  · rintro hmode rfl
    rw [hmode] at hbefore hys hkept
    obtain ⟨is, his⟩ := hys.stack
    refine ⟨t, ys, ht, hvalues, his.remain, hkept, hsink, fun j hj => ?_⟩
    obtain ⟨zs, hzs, hfront⟩ := hbefore j
    rw [hfront]
    exact hzs.stack_leave hsupplied hj

/-- A queue that holds 7 at first, and a stack on which 2 leaves before 3 enters. -/
theorem executeLines_transfers_seven :
    let q := (({} : Interpreter).executeLines (["push 7", "queue"].map fun x => Utf8.encode x.toList)).2
    let turns := ["push 1", "pop", " pop now", "push -2"].map fun x => Utf8.encode x.toList
    let s : Interpreter := {}
    let lines := ["push 1", "push 2", "pop", "push 3"].map fun x => Utf8.encode x.toList
    let ts : List Transfer := [.enter 1, .enter 2, .leave, .enter 3]
    (∃ t, q.executeLines turns = (none, t) ∧ t.machine.values.chain.toList? = some [-2]) ∧
      (∃ t ys, s.executeLines lines = (none, t) ∧ t.machine.values.chain.toList? = some ys ∧
        Remain ts ys) ∧
      ∃ i v, (s.after lines 2).machine.values.front? = some v ∧ ts[i]? = some (.enter v) ∧
        Matched ts i 2 := by
  intro q turns s lines ts
  have hq : q.Reachable := (Reachable.new none none {}).executeLines _
  have hs : s.Reachable := .new none none {}
  have hread : Plain.integer? = Decimal.read? := funext Plain.integer?_eq
  have hturns : turns.map (fun line => Transfer.ofText? (decode line)) =
      ([.enter 1, .leave, .leave, .enter (-2)] : List Transfer).map some := by
    simp only [Transfer.ofText?, hread]
    decide
  have hlines : lines.map (fun line => Transfer.ofText? (decode line)) = ts.map some := by
    simp only [Transfer.ofText?, hread]
    decide
  have hseven : q.machine.values.chain.toList? = some [7] := by decide
  have hempty : s.machine.values.chain.toList? = some [] := rfl
  have hqueue := (executeLines_transfers hq hseven hturns (by decide)).1 (by decide)
  have hstack := (executeLines_transfers hs hempty hlines (by decide)).2 rfl rfl
  obtain ⟨t, ht, hvalues, -⟩ := hqueue
  obtain ⟨t', ys, ht', hvalues', hremain, -, -, hmatched⟩ := hstack
  obtain ⟨i, v, hfront, hi, hmatch, -⟩ := hmatched 2 rfl
  exact ⟨⟨t, ht, hvalues⟩, ⟨t', ys, ht', hvalues', hremain⟩, i, v, hfront, hi, hmatch⟩

end DequeMachine.Interpreter
