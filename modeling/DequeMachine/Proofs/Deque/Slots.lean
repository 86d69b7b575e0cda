import Mathlib.Order.Bounds.Basic
import DequeMachine.Proofs.Deque.History

/-!
# Slots of a deque

A value goes into a spare slot as long as there is one, and a new slot is made only when there is none. A value
that finds no room changes nothing. A value that leaves makes its slot spare, and no other call touches the slots
but a release, which gives all of them up. So there are exactly as many slots as there have been values at once
since the last release.
-/
namespace DequeMachine

open Entry
open Deque (Call Reply)

namespace Chain

variable {c c' d : Chain} {es : List Entry} {v : Int32} {slot : Nat} {call : Call} {reply : Reply}

/-- A slot is taken for a value: the latest spare one, or a new one if none is spare. -/
inductive Takes (c : Chain) (slot : Nat) (c' : Chain) : Prop
  | reused (spare : c.spare = slot :: c'.spare) (cells : c'.cells.size = c.cells.size)
  | grown (spare : c.spare = []) (slot_eq : slot = c.cells.size) (left : c'.spare = [])
    (cells : c'.cells.size = c.cells.size + 1)

theorem Takes.trans (h : c.Takes slot d) (hslots : d.SameSlots c') : c.Takes slot c' := by
  cases h with
  | reused spare cells => exact .reused (hslots.spare ▸ spare) (hslots.cells.trans cells)
  | grown spare slot_eq left cells =>
    exact .grown spare slot_eq (hslots.spare.trans left) (hslots.cells.trans cells)

theorem takes_store? (h : c.store? v = some (some slot, d)) : c.Takes slot d := by
  unfold store? at h
  split at h
  · rename_i spare hspare
    split at h
    · cases h
      exact .reused hspare (Array.size_setIfInBounds ..)
    · cases h
  · rename_i hspare
    split at h
    · split at h
      · cases h
        exact .grown hspare rfl hspare (Array.size_push ..)
      · cases h
    · cases h

/-- No chain holds anything in a slot that it takes. -/
theorem Takes.cell?_eq_none (ht : c.Takes slot c') (h : c.Holds es) : c.cell? slot = none := by
  cases ht with
  | reused spare cells => exact h.empty slot (by simp [spare])
  | grown spare slot_eq left cells => simp [cell?, slot_eq]

theorem slots_discard? {value : Int32} (h : c.discard? slot = some (value, d)) :
    d.cells.size = c.cells.size ∧ d.spare = slot :: c.spare := by
  unfold discard? at h
  split at h
  · cases h
    exact ⟨Array.size_setIfInBounds .., rfl⟩
  · cases h

theorem sameSlots_setFront? {old : Option Int32} (h : c.setFront? v = some (old, d)) :
    c.SameSlots d := by
  unfold setFront? at h
  split at h
  · cases h
    exact .refl c
  · simp only [Option.bind_eq_bind, Option.bind_eq_some_iff] at h
    obtain ⟨cell, -, c₁, hset, hd⟩ := h
    cases hd
    exact sameSlots_modify? hset

theorem sameSlots_swapFront? {swapped : Bool} (h : c.swapFront? = some (swapped, d)) :
    c.SameSlots d := by
  unfold swapFront? at h
  split at h
  · cases h
    exact .refl c
  · simp only [Option.bind_eq_bind, Option.bind_eq_some_iff] at h
    obtain ⟨front, -, h⟩ := h
    split at h
    · cases h
      exact .refl c
    · simp only [Option.bind_eq_some_iff] at h
      obtain ⟨second, -, c₁, hfront, c₂, hsecond, hd⟩ := h
      cases hd
      exact (sameSlots_modify? hfront).trans (sameSlots_modify? hsecond)

/-- Removing the front value makes its slot the latest spare one. -/
theorem Holds.slots_popFront? (h : c.Holds es) {popped : Option Int32} (hpop : c.popFront? = some (popped, c')) :
    c'.cells.size = c.cells.size ∧ c'.spare = c.first.toList ++ c.spare := by
  cases es with
  | nil =>
    have hfirst : c.first = none := h.first
    simp only [popFront?, h.unlinkFirst?_nil, Option.bind_eq_bind, Option.bind_some] at hpop
    cases hpop
    simp [hfirst]
  | cons e es =>
    have hfirst : c.first = some e.slot := h.first
    obtain ⟨d, hd, hloose, -⟩ := h.unlinkFirst?
    obtain ⟨d', hd', -⟩ := hloose.discard?
    simp only [popFront?, hd, hd', Option.bind_eq_bind, Option.bind_some] at hpop
    cases hpop
    have hunlinked := sameSlots_unlinkFirst? hd
    obtain ⟨hcells, hspare⟩ := slots_discard? hd'
    exact ⟨hcells.trans hunlinked.cells, by simp [hspare, hunlinked.spare, hfirst]⟩

/-- An inserted value gets a slot that was empty, and only without room for it nothing changes. -/
inductive Inserts (c : Chain) (v : Int32) (c' : Chain) : Prop
  | stored {slot : Nat} (room : c.isFull = false) (takes : c.Takes slot c') (vacant : c.cell? slot = none)
    (value : (c'.cell? slot).map Cell.value = some v)
  | full (full : c.isFull = true) (same : c' = c)

/-- What a call does to the slots: an inserted value gets one, a removed value makes its slot spare, a release
gives all slots up, and any other call leaves them as they are. -/
def SlotChange (c : Chain) (call : Call) (c' : Chain) : Prop :=
  match call with
  | .pushFront v | .pushBack v => c.Inserts v c'
  | .popFront => c'.cells.size = c.cells.size ∧ c'.spare = c.first.toList ++ c.spare
  | .release => c' = c.clear
  | _ => c.SameSlots c'

/-- A value that is linked has the slot that was taken to store it. -/
theorem Holds.inserts_of_mem (h : c.Holds es) (hroom : c.isFull = false)
    (hstored : c.store? v = some (some slot, d)) (hslots : d.SameSlots c') {fs : List Entry} (h' : c'.Holds fs)
    (hmem : ⟨slot, v⟩ ∈ fs) : c.Inserts v c' := by
  have htakes := (takes_store? hstored).trans hslots
  exact .stored hroom htakes (htakes.cell?_eq_none h) (h'.value?_eq_some_iff.mpr hmem)

theorem Holds.inserts_pushFront? (h : c.Holds es) {stored : Bool} (hpush : c.pushFront? v = some (stored, c')) :
    c.Inserts v c' := by
  cases hfull : c.isFull with
  | true =>
    rw [pushFront?_of_isFull hfull] at hpush
    cases hpush
    exact .full hfull rfl
  | false =>
    obtain ⟨slot, d, hd, hloose, -⟩ := h.store? hfull v
    obtain ⟨d', hd', hheld, -⟩ := hloose.linkFirst?
    simp only [Chain.pushFront?, hd, hd', Option.bind_eq_bind, Option.bind_some] at hpush
    cases hpush
    exact h.inserts_of_mem hfull hd (sameSlots_linkFirst? hd') hheld (by simp)

theorem Holds.inserts_pushBack? (h : c.Holds es) {stored : Bool} (hpush : c.pushBack? v = some (stored, c')) :
    c.Inserts v c' := by
  cases hfull : c.isFull with
  | true =>
    rw [pushBack?_of_isFull hfull] at hpush
    cases hpush
    exact .full hfull rfl
  | false =>
    obtain ⟨slot, d, hd, hloose, -⟩ := h.store? hfull v
    obtain ⟨d', hd', hheld, -⟩ := hloose.linkLast?
    simp only [Chain.pushBack?, hd, hd', Option.bind_eq_bind, Option.bind_some] at hpush
    cases hpush
    exact h.inserts_of_mem hfull hd (sameSlots_linkLast? hd') hheld (by simp)

theorem Holds.slotChange (h : c.Holds es) (hcall : c.perform? call = some (reply, c')) :
    c.SlotChange call c' := by
  cases call with
  | pushFront v =>
    obtain ⟨⟨stored, c₁⟩, hpush, heq⟩ := Option.map_eq_some_iff.mp hcall
    cases heq
    exact h.inserts_pushFront? hpush
  | pushBack v =>
    obtain ⟨⟨stored, c₁⟩, hpush, heq⟩ := Option.map_eq_some_iff.mp hcall
    cases heq
    exact h.inserts_pushBack? hpush
  | popFront =>
    obtain ⟨⟨popped, c₁⟩, hpop, heq⟩ := Option.map_eq_some_iff.mp hcall
    cases heq
    exact h.slots_popFront? hpop
  | swapFront =>
    obtain ⟨⟨swapped, c₁⟩, hswap, heq⟩ := Option.map_eq_some_iff.mp hcall
    cases heq
    exact sameSlots_swapFront? hswap
  | setFront v =>
    obtain ⟨⟨old, c₁⟩, hset, heq⟩ := Option.map_eq_some_iff.mp hcall
    cases heq
    exact sameSlots_setFront? hset
  | rotateLeft =>
    obtain ⟨d, hd, heq⟩ := Option.map_eq_some_iff.mp hcall
    cases heq
    exact sameSlots_rotateLeft? hd
  | rotateRight =>
    obtain ⟨d, hd, heq⟩ := Option.map_eq_some_iff.mp hcall
    cases heq
    exact sameSlots_rotateRight? hd
  | release =>
    cases hcall
    rfl
  | size | isEmpty | live =>
    cases hcall
    exact .refl c
  | front | frontPair | readings | inline | block =>
    obtain ⟨answer, -, heq⟩ := Option.map_eq_some_iff.mp hcall
    cases heq
    exact .refl c

/-- As many slots as before are enough for as many values as are held now, unless that is one more. -/
theorem SlotChange.cells_eq (h : c.SlotChange call c') (hcall : call ≠ .release)
    (hc' : c'.cells.size = c'.size + c'.spare.length) :
    c'.cells.size = max c'.size c.cells.size := by
  have hkept : c'.cells.size = c.cells.size → c'.cells.size = max c'.size c.cells.size := by
    omega
  have hinserts : ∀ v, c.Inserts v c' → c'.cells.size = max c'.size c.cells.size := by
    intro v hv
    cases hv with
    | full full same => exact hkept (same ▸ rfl)
    | stored room takes vacant value =>
      cases takes with
      | reused spare cells => exact hkept cells
      | grown spare slot_eq left cells =>
        rw [left, List.length_nil] at hc'
        omega
  cases call with
  | pushFront v | pushBack v => exact hinserts v h
  | popFront => exact hkept h.1
  | release => exact absurd rfl hcall
  | swapFront | setFront | rotateLeft | rotateRight | size | isEmpty | live | front | frontPair | readings
  | inline | block => exact hkept (SameSlots.cells h)

end Chain

namespace Deque

/-- The slots of a deque, whether they hold a value or are spare. -/
def slots (d : Deque) : Nat := d.chain.cells.size

/-- The sizes that a new deque with so much room has had in the course of the calls, since the last release or
from the start. -/
def sizesSinceRelease (room : Option Nat) (calls : List Call) : Set Nat :=
  {n | ∃ before recent, calls = before ++ recent ∧ .release ∉ recent ∧ ((within room).after before).size = n}

variable {room : Option Nat} {calls : List Call} {call : Call}

theorem slotChange (call : Call) (d : Deque) : d.chain.SlotChange call (d.perform call).2.chain := by
  obtain ⟨es, hheld⟩ := d.sound
  exact hheld.slotChange (d.perform?_eq call)

theorem size_le_slots (d : Deque) : d.size ≤ d.slots := by
  obtain ⟨es, hheld⟩ := d.sound
  have hcells := hheld.size_cells
  have hsize := hheld.size
  unfold size slots
  omega

/-- There are no more slots than before, unless the values need more. -/
def Stretched (later earlier : Deque) : Prop := later.slots = max later.size earlier.slots

theorem stretched_refl (d : Deque) : d.Stretched d := (max_eq_right d.size_le_slots).symm

theorem stretched_perform (call : Call) (hcall : call ≠ .release) (d : Deque) :
    (d.perform call).2.Stretched d := by
  obtain ⟨es, hheld⟩ := (d.perform call).2.sound
  exact (d.slotChange call).cells_eq hcall (by rw [hheld.size_cells, hheld.size])

theorem slots_popFront (d : Deque) : d.popFront.2.slots = d.slots := (d.slotChange .popFront).1

theorem stretched_collapse (v : Int32) (d : Deque) : (d.collapse v).Stretched d := by
  have hset : (d.collapse v).Stretched d.popFront.2 :=
    d.popFront.2.stretched_perform (.setFront v) nofun
  rwa [Stretched, slots_popFront] at hset

theorem after_concat (calls : List Call) (call : Call) (d : Deque) :
    d.after (calls ++ [call]) = ((d.after calls).perform call).2 := by
  induction calls generalizing d with
  | nil => rfl
  | cons first calls ih => exact ih (d.perform first).2

theorem sizesSinceRelease_nil : sizesSinceRelease room [] = {0} := by
  ext n
  constructor
  · rintro ⟨before, recent, hcalls, -, rfl⟩
    rw [(List.append_eq_nil_iff.mp hcalls.symm).1]
    rfl
  · rintro rfl
    exact ⟨[], [], rfl, List.not_mem_nil, rfl⟩

/-- One call later there is the size after it, and those before it count on unless it was a release. -/
theorem mem_sizesSinceRelease_concat {n : Nat} :
    n ∈ sizesSinceRelease room (calls ++ [call]) ↔
      n = ((within room).after (calls ++ [call])).size ∨
        call ≠ .release ∧ n ∈ sizesSinceRelease room calls := by
  constructor
  · rintro ⟨before, recent, hcalls, hrecent, rfl⟩
    rcases List.eq_nil_or_concat' recent with rfl | ⟨recent, last, rfl⟩
    · rw [hcalls, List.append_nil]
      exact .inl rfl
    · rw [← List.append_assoc] at hcalls
      obtain ⟨rfl, hlast⟩ := List.append_inj' hcalls rfl
      obtain rfl : call = last := List.singleton_inj.mp hlast
      simp only [List.mem_append, List.mem_singleton, not_or] at hrecent
      exact .inr ⟨Ne.symm hrecent.2, before, recent, rfl, hrecent.1, rfl⟩
  · rintro (rfl | ⟨hcall, before, recent, rfl, hrecent, rfl⟩)
    · exact ⟨calls ++ [call], [], (List.append_nil _).symm, List.not_mem_nil, rfl⟩
    · exact ⟨before, recent ++ [call], List.append_assoc .., by simp [hrecent, Ne.symm hcall], rfl⟩

theorem sizesSinceRelease_release (calls : List Call) :
    sizesSinceRelease room (calls ++ [.release]) = {0} := by
  ext n
  rw [mem_sizesSinceRelease_concat, after_concat]
  exact or_iff_left fun h => h.1 rfl

theorem sizesSinceRelease_concat (hcall : call ≠ .release) (calls : List Call) :
    sizesSinceRelease room (calls ++ [call]) =
      insert ((within room).after (calls ++ [call])).size (sizesSinceRelease room calls) := by
  ext n
  rw [mem_sizesSinceRelease_concat, Set.mem_insert_iff]
  exact or_congr_right (and_iff_right hcall)

/-- There are as many slots as the largest size since the last release. -/
theorem isGreatest_slots (room : Option Nat) (calls : List Call) :
    IsGreatest (sizesSinceRelease room calls) ((within room).after calls).slots := by
  -- A release makes the sizes before it count no more, so the calls are taken from the end.
  induction calls using List.reverseRecOn with
  | nil =>
    rw [sizesSinceRelease_nil]
    exact isGreatest_singleton
  | append_singleton calls call ih =>
    rw [after_concat]
    by_cases hcall : call = .release
    · subst hcall
      rw [sizesSinceRelease_release]
      exact isGreatest_singleton
    · have hstretched := ((within room).after calls).stretched_perform call hcall
      rw [sizesSinceRelease_concat hcall, after_concat, hstretched]
      exact ih.insert _

/-- Five values went in, but never more than three were there at once. -/
example : ((∅ : Deque).after [.pushFront 3, .pushFront 2, .pushFront 1, .popFront, .popFront, .pushBack 4,
    .pushFront 5]).slots = 3 := by
  decide

end Deque

end DequeMachine
