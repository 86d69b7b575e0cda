import DequeMachine.Proofs.Interpreter.Passes
import DequeMachine.Proofs.Interpreter.ReadBack
import DequeMachine.Proofs.Plain.Balance

namespace DequeMachine

open Utf8 (decode)

/-- The opcodes that the lines name, from first to last. -/
def Bytes.opcodes (lines : List Bytes) : List Opcode :=
  lines.filterMap fun line => Text.opcode? (decode line)

theorem Bytes.opcodes_eq (lines : List Bytes) :
    opcodes lines = (lines.map decode).filterMap Text.opcode? := by
  rw [opcodes, List.filterMap_map]
  rfl

theorem Bytes.balance_opcodes_cons (line : Bytes) (lines : List Bytes) :
    Opcode.balance (opcodes (line :: lines)) =
      Opcode.balance (Text.opcode? (decode line)).toList + Opcode.balance (opcodes lines) := by
  rw [opcodes_eq, List.map_cons, Text.filterMap_opcode?_cons, Opcode.balance_append, ← opcodes_eq]

namespace Machine

/-- Whichever way it is asked, the machine holds so many values: by a walk over them, by its counts of values
and of slots taken, and by the lines that print them all. -/
structure HasLength (m : Machine) (n : Int) : Prop where
  values : ∃ xs, m.values.chain.toList? = some xs ∧ (xs.length : Int) = n
  size : (m.values.size : Int) = n
  live : (m.values.live : Int) = n
  printed : (m.pall.lines.length : Int) = n

variable {m : Machine} {p : Plain.Machine}

theorem Represents.length_lines_pall (h : m.Represents p) :
    m.pall.lines.length = p.values.length := by
  have hpall : m.pall = Bytes.unlines (Interpreter.pieces p.values) := by
    rw [← Interpreter.encode_writtenLines, Plain.encode_writtenLines, Machine.pall, h.toList_eq]
  rw [hpall, Bytes.lines_unlines (Interpreter.newline_notMem_pieces p.values), Interpreter.pieces,
    List.length_map]

theorem Represents.hasLength (h : m.Represents p) : m.HasLength p.values.length where
  values := ⟨p.values, Chain.Represents.toList?_eq h.values, rfl⟩
  size := congrArg _ h.values.size_eq
  live := congrArg _ h.values.live_eq
  printed := congrArg _ h.length_lines_pall

end Machine

namespace Interpreter

variable {s t : Interpreter} {p : Plain.Machine} {lines : List Bytes} {line : Bytes}

theorem Represents.executeLine_passing (h : s.Represents p) {x : Text}
    (hline : s.executeLine x = (none, t)) :
    ∃ printed p', p.line x = .ok (printed, p') ∧ t.Represents p' := by
  cases hplain : p.line x with
  | error fault =>
    obtain ⟨s', hs', -⟩ := executeLine_of_error h hplain
    rw [hline] at hs'
    cases hs'
  | ok outcome =>
    obtain ⟨printed, p'⟩ := outcome
    obtain ⟨s', hs', hcounted⟩ := executeLine_of_ok h hplain
    rw [hline] at hs'
    obtain rfl : t = s' := congrArg Prod.snd hs'
    exact ⟨printed, p', rfl, hcounted.machine, hcounted.sink ▸ h.sink.write _⟩

/-- Each line adds to the number of values what its opcode says. -/
theorem Passes.accounts (h : s.Passes lines t) (hs : s.Represents p) :
    ∃ p', t.Represents p' ∧
      (p'.values.length : Int) = p.values.length + Opcode.balance (Bytes.opcodes lines) := by
  induction h generalizing p with
  | nil s => exact ⟨p, hs, by simp [Bytes.opcodes]⟩
  | cons first rest ih =>
    obtain ⟨printed, q, hline, hq⟩ := hs.executeLine_passing first
    obtain ⟨p', hp', hrest⟩ := ih hq
    have hfirst := (Plain.Machine.accounts_line hline).2
    exact ⟨p', hp', by rw [hrest, hfirst, Bytes.balance_opcodes_cons, Int.add_assoc]⟩

theorem Passes.balance_nonneg {before rest : List Bytes} (h : s.Passes (before ++ rest) t)
    (hs : s.Represents p) : 0 ≤ p.values.length + Opcode.balance (Bytes.opcodes before) := by
  obtain ⟨u, hbefore, -⟩ := passes_append_iff.mp h
  obtain ⟨q, -, hlength⟩ := hbefore.accounts hs
  omega

/-- A line passes only where its opcode finds enough values. -/
theorem Passes.needs_le {before rest : List Bytes} (h : s.Passes (before ++ line :: rest) t)
    (hs : s.Represents p) {op : Opcode} (hop : op ∈ Text.opcode? (decode line)) :
    (op.needs : Int) ≤ p.values.length + Opcode.balance (Bytes.opcodes before) := by
  obtain ⟨u, hbefore, hbehind⟩ := passes_append_iff.mp h
  obtain ⟨q, hq, hlength⟩ := hbefore.accounts hs
  cases hbehind with
  | cons first rest =>
    obtain ⟨printed, p', hline, -⟩ := hq.executeLine_passing first
    have hneeds := (Plain.Machine.accounts_line hline).1 op hop
    omega

/-- Behind the first `k` lines of a program, if they pass, the number of values held is the number of lines
that push, less that of the lines that pop and of those that name a binary operator. It was never negative
before, and each of the lines found as many values as its opcode needs. -/
theorem passes_hasLength (program : Bytes) (k : Nat) (limit : Option Sink.Limit)
    (flushFailure : Option Text) (journal : Journal)
    (h : ({ sink := { limit, flushFailure }, journal } : Interpreter).Passes
      (program.lines.take k) t) :
    let balance j := Opcode.balance (Bytes.opcodes (program.lines.take j))
    t.machine.HasLength (balance k) ∧ (∀ j ≤ k, 0 ≤ balance j) ∧
      ∀ j < k, ∀ line ∈ program.lines[j]?, ∀ op ∈ Text.opcode? (decode line),
        (op.needs : Int) ≤ balance j := by
  intro balance
  have hs := represents_new limit flushFailure journal
  have hempty : ∀ n : Int, (({} : Plain.Machine).values.length : Int) + n = n := Int.zero_add
  refine ⟨?_, fun j hj => ?_, fun j hj line hline op hop => ?_⟩
  · obtain ⟨p, hp, hlength⟩ := h.accounts hs
    have hall := hp.machine.hasLength
    rwa [hlength, hempty] at hall
  · obtain ⟨rest, hrest⟩ := List.take_prefix_take_left (l := program.lines) hj
    rw [← hrest] at h
    have hnonneg := h.balance_nonneg hs
    rwa [hempty] at hnonneg
  · have hbefore : (program.lines.take k).take j = program.lines.take j := by
      rw [List.take_take, Nat.min_eq_left hj.le]
    have hget : (program.lines.take k)[j]? = some line := by
      rw [List.getElem?_take_of_lt hj]
      exact hline
    obtain ⟨hlt, rfl⟩ := List.getElem?_eq_some_iff.mp hget
    rw [← List.take_append_drop j (program.lines.take k), hbefore,
      List.drop_eq_getElem_cons hlt] at h
    have hneeds := h.needs_le hs hop
    rwa [hempty] at hneeds

/-- Four values come in at both ends, and a sum and a pop leave two of them for the swap. -/
theorem passes_hasLength_both_ends :
    let program :=
      Utf8.encode "queue\npush 4\npush 5\nstack\npush 6\n# 7\npush 8\nadd\npop\nswap\npall".toList
    let s : Interpreter := {}
    let t := (s.executeLines (program.lines.take 10)).2
    s.Passes (program.lines.take 10) t ∧ t.machine.HasLength 2 := by
  intro program s t
  have herror : (s.executeLines (program.lines.take 10)).1 = none := by decide
  have hpasses : s.Passes (program.lines.take 10) t := passes_of_fst_eq_none herror
  have hbalance : Opcode.balance (Bytes.opcodes (program.lines.take 10)) = 2 := by decide
  have hlength := (passes_hasLength program 10 none none {} hpasses).1
  dsimp only at hlength
  rw [hbalance] at hlength
  exact ⟨hpasses, hlength⟩

end Interpreter

end DequeMachine
