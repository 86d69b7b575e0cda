import DequeMachine.Proofs.Chain.Rotation
import DequeMachine.Proofs.Plain.Deque

namespace DequeMachine.Chain

open Entry

/-- Sound links around the given values, front first, with room for any number of them. -/
def Represents (c : Chain) (xs : List Int32) : Prop := ∃ es, c.Holds es ∧ values es = xs ∧ c.limit = none

variable {c : Chain} {es : List Entry} {xs : List Int32}

theorem isFull_of_unlimited (h : c.limit = none) : c.isFull = false := by simp [isFull, hasRoom, h]

namespace Represents

theorem pushFront? (h : c.Represents xs) (v : Int32) :
    ∃ c', c.pushFront? v = some (true, c') ∧ c'.Represents (v :: xs) := by
  obtain ⟨es, h, rfl, hlimit⟩ := h
  obtain ⟨slot, d, hd, hheld, hkept⟩ := h.pushFront? (isFull_of_unlimited hlimit) v
  exact ⟨d, hd, _, hheld, rfl, hkept.trans hlimit⟩

theorem pushBack? (h : c.Represents xs) (v : Int32) :
    ∃ c', c.pushBack? v = some (true, c') ∧ c'.Represents (xs ++ [v]) := by
  obtain ⟨es, h, rfl, hlimit⟩ := h
  obtain ⟨slot, d, hd, hheld, hkept⟩ := h.pushBack? (isFull_of_unlimited hlimit) v
  exact ⟨d, hd, _, hheld, by simp, hkept.trans hlimit⟩

theorem popFront? (h : c.Represents xs) :
    ∃ c', c.popFront? = some (xs.head?, c') ∧ c'.Represents xs.tail := by
  obtain ⟨_ | ⟨e, es⟩, h, rfl, hlimit⟩ := h
  · exact ⟨c, h.popFront?_nil, [], h, rfl, hlimit⟩
  · obtain ⟨d, hd, hheld, hkept⟩ := h.popFront?_cons
    exact ⟨d, hd, es, hheld, rfl, hkept.trans hlimit⟩

theorem front? (h : c.Represents xs) : c.front? = some xs.head? := by
  obtain ⟨es, h, rfl, -⟩ := h
  exact h.front?_eq

theorem frontPair? (h : c.Represents xs) : c.frontPair? = some (Plain.frontPair? xs) := by
  obtain ⟨es, h, rfl, -⟩ := h
  match es with
  | [] => exact h.frontPair?_of_length_lt (by simp)
  | [e] => exact h.frontPair?_of_length_lt (by simp)
  | e :: f :: es => exact h.frontPair?_cons_cons

theorem setFront? (h : c.Represents xs) (v : Int32) :
    ∃ c', c.setFront? v = some (xs.head?, c') ∧ c'.Represents (Plain.setFront v xs) := by
  obtain ⟨_ | ⟨e, es⟩, h, rfl, hlimit⟩ := h
  · exact ⟨c, h.setFront?_nil v, [], h, rfl, hlimit⟩
  · obtain ⟨d, hd, hheld, hkept⟩ := h.setFront?_cons v
    exact ⟨d, hd, _, hheld, rfl, hkept.trans hlimit⟩

theorem swapFront? (h : c.Represents xs) :
    ∃ c', c.swapFront? = some ((Plain.swapFront xs).1, c') ∧
      c'.Represents (Plain.swapFront xs).2 := by
  obtain ⟨es, h, rfl, hlimit⟩ := h
  match es with
  | [] => exact ⟨c, h.swapFront?_of_length_lt (by simp), [], h, rfl, hlimit⟩
  | [e] => exact ⟨c, h.swapFront?_of_length_lt (by simp), [e], h, rfl, hlimit⟩
  | e :: f :: es =>
    obtain ⟨d, hd, hheld, hkept⟩ := h.swapFront?_cons_cons
    exact ⟨d, hd, _, hheld, rfl, hkept.trans hlimit⟩

theorem rotateLeft? (h : c.Represents xs) :
    ∃ c', c.rotateLeft? = some c' ∧ c'.Represents (Plain.rotateLeft xs) := by
  obtain ⟨es, h, rfl, hlimit⟩ := h
  obtain ⟨d, hd, hheld, hslots⟩ := h.rotateLeft?
  refine ⟨d, hd, _, hheld, ?_, hslots.limit.trans hlimit⟩
  rw [Plain.rotateLeft_eq, values, values, List.map_rotate]

theorem rotateRight? (h : c.Represents xs) :
    ∃ c', c.rotateRight? = some c' ∧ c'.Represents (Plain.rotateRight xs) := by
  obtain ⟨es, h, rfl, hlimit⟩ := h
  obtain ⟨d, hd, hheld, hslots⟩ := h.rotateRight?
  refine ⟨d, hd, _, hheld, ?_, hslots.limit.trans hlimit⟩
  rw [Plain.rotateRight_eq, length_values, values, values, List.map_rotate]

theorem clear (h : c.Represents xs) : c.clear.Represents [] := by
  obtain ⟨es, h, -, hlimit⟩ := h
  exact ⟨[], holds_within c.limit, rfl, hlimit⟩

theorem size_eq (h : c.Represents xs) : c.size = xs.length := by
  obtain ⟨es, h, rfl, -⟩ := h
  rw [h.size, length_values]

theorem isNone_first (h : c.Represents xs) : c.first.isNone = xs.isEmpty := by
  obtain ⟨es, h, rfl, -⟩ := h
  rw [h.first]
  cases es <;> rfl

end Represents

theorem live_eq_countP (c : Chain) :
    c.live = (List.range c.cells.size).countP fun s => (c.cell? s).isSome := by
  have hmap : c.cells.toList = (List.range c.cells.size).map c.cell? := by
    apply List.ext_getElem
    · simp
    · intro i hi _
      simp only [Array.length_toList] at hi
      simp [cell?, hi]
  rw [live, ← Array.countP_toList, hmap, List.countP_map]
  rfl

/-- Counted slot by slot, there is one live slot for each entry. -/
theorem Holds.live_eq (h : c.Holds es) : c.live = es.length := by
  have hs : ∀ s ∈ slots es, (c.cell? s).isSome := by
    intro s hs
    obtain ⟨cell, hcell⟩ := h.linked.exists_cell hs
    simp [hcell]
  have hspare : ∀ s ∈ c.spare, ¬(c.cell? s).isSome := by
    intro s hs
    simp [h.empty s hs]
  rw [live_eq_countP, ← h.shared.countP_eq, Option.toList_none, List.nil_append, List.countP_append,
    List.countP_eq_length.mpr hs, List.countP_eq_zero.mpr hspare, length_slots, Nat.add_zero]

/-- One reading of a walk that stands at a slot, or past the end: the value there, if any, and where
the walk goes on. -/
def read? (c : Chain) : Option Nat → Option (Option Int32 × Option Nat)
  | none => some (none, none)
  | some slot => (c.cell? slot).map fun cell => (some cell.value, cell.after)

/-- The first answers of a walk, read one by one. -/
def readings? (c : Chain) : Nat → Option Nat → Option (List (Option Int32))
  | 0, _ => some []
  | n + 1, slot => do
    let (value, next) ← c.read? slot
    let rest ← c.readings? n next
    some (value :: rest)

theorem readings?_none (n : Nat) : c.readings? n none = some (Plain.readings n []) := by
  induction n with
  | zero => rfl
  | succ n ih => simp [readings?, read?, ih, Plain.readings]

theorem readings?_eq {before : Option Nat} (h : Linked c.cell? before es none) (n : Nat) :
    c.readings? n (firstSlot es) = some (Plain.readings n (values es)) := by
  induction n generalizing before es with
  | zero => rfl
  | succ n ih =>
    cases es with
    | nil => exact readings?_none (n + 1)
    | cons e es =>
      obtain ⟨he, hrest⟩ := Linked.cons_iff.mp h
      simp [readings?, read?, he, ih hrest, Plain.readings]

namespace Represents

theorem live_eq (h : c.Represents xs) : c.live = xs.length := by
  obtain ⟨es, h, rfl, -⟩ := h
  rw [h.live_eq, length_values]

theorem toList?_eq (h : c.Represents xs) : c.toList? = some xs := by
  obtain ⟨es, h, rfl, -⟩ := h
  exact h.toList?_eq

theorem readings?_eq (h : c.Represents xs) (n : Nat) :
    c.readings? n c.first = some (Plain.readings n xs) := by
  obtain ⟨es, h, rfl, -⟩ := h
  rw [h.first, Chain.readings?_eq h.linked]

end Represents

end DequeMachine.Chain
