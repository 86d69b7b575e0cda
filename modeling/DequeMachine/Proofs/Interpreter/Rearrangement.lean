import DequeMachine.Proofs.Interpreter.Balance
import DequeMachine.Proofs.Plain.Rearrangement

namespace DequeMachine.Interpreter

open Utf8 (decode)

variable {s t : Interpreter} {p : Plain.Machine} {lines back : List Bytes} {xs : List Int32}

/-- Lines that restore values pass on an interpreter too, and leave its sink alone. -/
theorem Represents.restores (h : s.Represents p) {ops : List Opcode}
    (hrestores : Plain.Restores ops p.values xs) (hback : Text.Spells (back.map decode) ops) :
    ∃ u, s.executeLines back = (none, u) ∧ u.machine.Represents ⟨xs, s.machine.mode⟩ ∧
      u.sink = s.sink := by
  obtain ⟨u, hu, hmachine, hsink⟩ := h.executeLines_of_silent (hrestores (back.map decode) hback _ rfl) rfl
  exact ⟨u, hu, ⟨hmachine.values, hmachine.mode.trans h.machine.mode.symm⟩, hsink⟩

/-- Rearranging lines that pass leave the values in some order, as many of them in as many slots. Lines that
name the opposite opcodes in the opposite order then pass, print nothing and put the values back. -/
theorem executeLines_undoing (hs : s.Reachable)
    (hops : ∀ op ∈ Bytes.opcodes lines, op ∈ Opcode.rearranging)
    (h : s.executeLines lines = (none, t)) :
    ∃ xs ys, s.machine.values.chain.toList? = some xs ∧ t.machine.values.chain.toList? = some ys ∧
      ys.Perm xs ∧ t.machine.values.size = s.machine.values.size ∧
      t.machine.values.live = s.machine.values.live ∧
      ∀ back, Text.Spells (back.map decode) (Opcode.undoing (Bytes.opcodes lines)) →
        ∃ u, t.executeLines back = (none, u) ∧ u.machine.values.chain.toList? = some xs ∧
          u.machine.values.size = s.machine.values.size ∧ u.machine.values.live = s.machine.values.live ∧
          u.machine.mode = t.machine.mode ∧ u.sink = t.sink := by
  obtain ⟨p, hp⟩ := hs.represents
  have hfollowed := hp.follows.executeLines_of_written hp.sink lines
  have ht := hs.executeLines lines
  rw [h] at hfollowed ht
  obtain ⟨herror, hfollows⟩ := hfollowed nofun
  rw [Bytes.opcodes_eq] at hops ⊢
  obtain ⟨hperm, hrestores⟩ :=
    Plain.Interpreter.executeLines_rearranging hops (Prod.ext herror.symm rfl)
  obtain ⟨p', hp'⟩ := ht.represents
  have hvalues := hfollows.machine.values
  have hlength := hperm.length_eq
  refine ⟨_, _, Chain.Represents.toList?_eq hp.machine.values, Chain.Represents.toList?_eq hvalues, hperm,
    ?_, ?_, fun back hback => ?_⟩
  · rw [hvalues.size_eq, hp.machine.values.size_eq, hlength]
  · rw [hvalues.live_eq, hp.machine.values.live_eq, hlength]
  · have hrep : t.Represents _ := ⟨hfollows.machine, hp'.sink⟩
    obtain ⟨u, hu, hmachine, hsink⟩ := hrep.restores hrestores hback
    refine ⟨u, hu, Chain.Represents.toList?_eq hmachine.values, ?_, ?_, hmachine.mode, hsink⟩
    · rw [hmachine.values.size_eq, hp.machine.values.size_eq]
    · rw [hmachine.values.live_eq, hp.machine.values.live_eq]

/-- Three values in a queue, and back again with other spellings of the lines. -/
theorem executeLines_undoing_queue :
    let s := ((({} : Interpreter).executeLines
      (["push 1", "queue", "push 2", "push 3"].map fun x => Utf8.encode x.toList))).2
    let lines := ["rotl", "pint", "stack", "swap now", "# rotr", "rotl"].map fun x => Utf8.encode x.toList
    let back := ["rotr", " swap", "rotr again"].map fun x => Utf8.encode x.toList
    let t := (s.executeLines lines).2
    s.executeLines lines = (none, t) ∧ t.machine.values.toList = [2, 1, 3] ∧
      ∃ u, t.executeLines back = (none, u) ∧ u.machine.values.chain.toList? = some [1, 2, 3] ∧
        u.machine.mode = .stack := by
  intro s lines back t
  have hs : s.Reachable := (Reachable.new none none {}).executeLines _
  have hfst : (s.executeLines lines).1 = none := by decide
  have hpasses : s.executeLines lines = (none, t) := Prod.ext hfst rfl
  obtain ⟨xs, ys, hxs, -, -, -, -, hundo⟩ := executeLines_undoing hs (by decide) hpasses
  have hvalues : s.machine.values.chain.toList? = some [1, 2, 3] := by decide
  obtain rfl : [1, 2, 3] = xs := Option.some.inj (hvalues.symm.trans hxs)
  obtain ⟨u, hu, hu', -, -, hmode, -⟩ := hundo back (by decide)
  have ht : t.machine.mode = .stack := by decide
  exact ⟨hpasses, by decide, u, hu, hu', hmode.trans ht⟩

end DequeMachine.Interpreter
