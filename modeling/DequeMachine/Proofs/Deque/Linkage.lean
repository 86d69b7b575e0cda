import DequeMachine.Proofs.Deque.Calls

/-!
# Links of a deque

The invariant of a chain in terms of what its links, sizes and lists of slots say, with no mention of
values: both walks meet the same slots in opposite orders, neighbours name each other, and every slot
is either met or spare. It holds after any calls on a new deque.
-/
namespace DequeMachine

open Entry

namespace Chain

/-- The slots met on following links to the end; `none` at a dead slot or after more steps than the
fuel allows. -/
def follow? (link : Cell → Option Nat) (c : Chain) : Nat → Option Nat → Option (List Nat)
  | _, none => some []
  | 0, some _ => none
  | fuel + 1, some slot => do
    let cell ← c.cell? slot
    let slots ← c.follow? link fuel (link cell)
    some (slot :: slots)

def forward? (c : Chain) : Option (List Nat) := c.follow? Cell.after c.cells.size c.first

def backward? (c : Chain) : Option (List Nat) := c.follow? Cell.before c.cells.size c.last

structure WellLinked (c : Chain) (slots : List Nat) : Prop where
  forward : c.forward? = some slots
  backward : c.backward? = some slots.reverse
  distinct : slots.Nodup
  first : c.first = slots.head?
  last : c.last = slots.getLast?
  before_first : ∀ s ∈ c.first, (c.cell? s).map Cell.before = some none
  after_last : ∀ s ∈ c.last, (c.cell? s).map Cell.after = some none
  neighbours : ∀ s t, [s, t] <:+: slots →
    (c.cell? s).map Cell.after = some (some t) ∧ (c.cell? t).map Cell.before = some (some s)
  first_eq_none : c.first = none ↔ c.size = 0
  last_eq_none : c.last = none ↔ c.size = 0
  size : c.size = slots.length
  occupied : ∀ s, (c.cell? s).isSome ↔ s ∈ slots
  live : c.live = c.size
  spare_distinct : c.spare.Nodup
  mem_spare : ∀ s, s ∈ c.spare ↔ s < c.cells.size ∧ c.cell? s = none
  size_cells : c.cells.size = c.size + c.spare.length

variable {c : Chain} {es : List Entry} {e : Entry}

theorem follow?_after {before : Option Nat} (h : Linked c.cell? before es none) {fuel : Nat}
    (hfuel : es.length ≤ fuel) : c.follow? Cell.after fuel (firstSlot es) = some (slots es) := by
  induction es generalizing before fuel with
  | nil => cases fuel <;> rfl
  | cons e es ih =>
    cases fuel with
    | zero => simp at hfuel
    | succ fuel =>
      obtain ⟨he, hrest⟩ := Linked.cons_iff.mp h
      have hlen : es.length ≤ fuel := by simpa using hfuel
      simp [follow?, he, ih hrest hlen]

theorem follow?_mirror (c : Chain) (fuel : Nat) (slot : Option Nat) :
    c.mirror.follow? Cell.after fuel slot = c.follow? Cell.before fuel slot := by
  induction fuel generalizing slot with
  | zero => cases slot <;> rfl
  | succ fuel ih =>
    cases slot with
    | none => rfl
    | some s =>
      simp only [follow?, cell?_mirror]
      cases c.cell? s with
      | none => rfl
      | some cell => exact congrArg (Option.bind · _) (ih cell.before)

namespace Holds

theorem forward?_eq (h : c.Holds es) : c.forward? = some (slots es) := by
  rw [forward?, h.first]
  exact follow?_after h.linked h.length_le

/-- The walk backwards is the walk forwards through the mirrored chain. -/
theorem backward?_eq (h : c.Holds es) : c.backward? = some (slots es).reverse := by
  have hm := h.mirror.forward?_eq
  rw [forward?, follow?_mirror] at hm
  rw [backward?, ← slots_reverse, ← hm]
  simp [Chain.mirror]

theorem mem_spare_iff (h : c.Holds es) (s : Nat) :
    s ∈ c.spare ↔ s < c.cells.size ∧ c.cell? s = none := by
  constructor
  · exact fun hs => ⟨h.lt_of_spare hs, h.empty s hs⟩
  · rintro ⟨hlt, hcell⟩
    have hmem := h.shared.mem_iff.mpr (List.mem_range.mpr hlt)
    rcases List.mem_append.mp hmem with hs | hs
    · obtain ⟨cell, hsome⟩ := h.linked.exists_cell hs
      simp [hsome] at hcell
    · exact hs

theorem occupied_iff (h : c.Holds es) (s : Nat) : (c.cell? s).isSome ↔ s ∈ slots es := by
  constructor
  · intro hs
    obtain ⟨cell, hcell⟩ := Option.isSome_iff_exists.mp hs
    have hmem := h.shared.mem_iff.mpr (List.mem_range.mpr (lt_of_cell? hcell))
    rcases List.mem_append.mp hmem with hs | hs
    · exact hs
    · simp [h.empty s hs] at hcell
  · intro hs
    obtain ⟨cell, hcell⟩ := h.linked.exists_cell hs
    simp [hcell]

theorem neighbours (h : c.Holds es) {s t : Nat} (hst : [s, t] <:+: slots es) :
    (c.cell? s).map Cell.after = some (some t) ∧ (c.cell? t).map Cell.before = some (some s) := by
  obtain ⟨front, back, hslots⟩ := hst
  rw [slots, List.append_assoc] at hslots
  obtain ⟨es, rest, rfl, rfl, hrest⟩ := List.map_eq_append_iff.mp hslots.symm
  obtain ⟨e, rest, rfl, rfl, hback⟩ := List.map_eq_cons_iff.mp hrest
  obtain ⟨f, rest, rfl, rfl, -⟩ := List.map_eq_cons_iff.mp hback
  obtain ⟨he, hf⟩ := h.linked.neighbours
  simp [he, hf]

theorem before_first (h : c.Holds es) : ∀ s ∈ c.first, (c.cell? s).map Cell.before = some none := by
  intro s hs
  rw [h.first] at hs
  cases es with
  | nil => simp at hs
  | cons e es =>
    obtain rfl : e.slot = s := by simpa using hs
    simp [h.linked.1]

theorem after_last (h : c.Holds es) : ∀ s ∈ c.last, (c.cell? s).map Cell.after = some none := by
  intro s hs
  have hm := h.mirror.before_first s hs
  rw [cell?_mirror, Option.map_map] at hm
  exact hm

theorem first_eq_none_iff (h : c.Holds es) : c.first = none ↔ c.size = 0 := by
  rw [h.first, h.size]
  cases es <;> simp

theorem last_eq_none_iff (h : c.Holds es) : c.last = none ↔ c.size = 0 :=
  h.mirror.first_eq_none_iff

theorem wellLinked (h : c.Holds es) : c.WellLinked (slots es) where
  forward := h.forward?_eq
  backward := h.backward?_eq
  distinct := h.nodup_slots
  first := h.first
  last := h.last
  before_first := h.before_first
  after_last := h.after_last
  neighbours _ _ := h.neighbours
  first_eq_none := h.first_eq_none_iff
  last_eq_none := h.last_eq_none_iff
  size := by rw [h.size, length_slots]
  occupied := h.occupied_iff
  live := by rw [h.live_eq, h.size]
  spare_distinct := h.nodup.of_append_right
  mem_spare := h.mem_spare_iff
  size_cells := by rw [h.size_cells, h.size]

end Holds

end Chain

/-- Any calls on a new deque, whatever room it has, run through and leave every link, size and list of slots in
order. -/
theorem Deque.wellLinked_after (room : Option Nat) (calls : List Deque.Call) :
    ∃ c slots, (Chain.within room).after? calls = some c ∧ ((Deque.within room).after calls).chain = c ∧
      c.WellLinked slots := by
  obtain ⟨es, hheld⟩ := ((within room).after calls).sound
  exact ⟨_, slots es, (within room).after?_eq calls, rfl, hheld.wellLinked⟩

end DequeMachine
