import Mathlib.Data.List.Rotate
import DequeMachine.Chain.Sound

/-!
# Rotated chains

A rotation unlinks the cell at one end and links it again at the other. No slot is taken or given up on the
way, and each cell keeps its slot and its value, so a chain is told apart from the rotated one by the order
of its entries alone: that order, the number of slots and the spare slots determine a chain.
-/
namespace DequeMachine.Chain

open Entry

/-- As many slots, the same ones spare in the same order, and room for as many. -/
structure SameSlots (c c' : Chain) : Prop where
  cells : c'.cells.size = c.cells.size
  spare : c'.spare = c.spare
  limit : c'.limit = c.limit

section SameSlots

variable {c d e : Chain} {s : Nat} {f : Cell → Cell}

theorem SameSlots.refl (c : Chain) : c.SameSlots c := ⟨rfl, rfl, rfl⟩

theorem SameSlots.trans (h : c.SameSlots d) (h' : d.SameSlots e) : c.SameSlots e :=
  ⟨h'.cells.trans h.cells, h'.spare.trans h.spare, h'.limit.trans h.limit⟩

theorem SameSlots.mirror (h : c.SameSlots d) : c.mirror.SameSlots d.mirror where
  cells := by simpa [Chain.mirror] using h.cells
  spare := h.spare
  limit := h.limit

theorem sameSlots_modify? (h : c.modify? s f = some d) : c.SameSlots d := by
  cases hcell : c.cell? s with
  | none => simp [modify?, hcell] at h
  | some cell =>
    obtain rfl : c.put s (some (f cell)) = d := by simpa [modify?_eq hcell] using h
    exact ⟨size_cells_put .., spare_put .., limit_put ..⟩

theorem sameSlots_shrink? (h : c.shrink? = some d) : c.SameSlots d := by
  unfold shrink? at h
  split at h
  · cases h
  · cases h
    exact ⟨rfl, rfl, rfl⟩

/-- Linking at the front changes cells, ends and size. -/
theorem sameSlots_linkFirst? (h : c.linkFirst? s = some d) : c.SameSlots d := by
  unfold linkFirst? at h
  cases hfirst : c.first with
  | none =>
    simp only [hfirst, Option.bind_eq_bind, Option.bind_eq_some_iff] at h
    obtain ⟨c₁, hstored, c₂, hc₂, hd⟩ := h
    have hslots := sameSlots_modify? hstored
    cases hc₂
    cases hd
    exact ⟨hslots.cells, hslots.spare, hslots.limit⟩
  | some next =>
    simp only [hfirst, Option.bind_eq_bind, Option.bind_eq_some_iff] at h
    obtain ⟨c₁, hstored, c₂, hnext, hd⟩ := h
    have hslots := (sameSlots_modify? hstored).trans (sameSlots_modify? hnext)
    cases hd
    exact ⟨hslots.cells, hslots.spare, hslots.limit⟩

theorem sameSlots_unlinkFirst? {slot : Option Nat} (h : c.unlinkFirst? = some (slot, d)) :
    c.SameSlots d := by
  unfold unlinkFirst? at h
  cases hfirst : c.first with
  | none =>
    rw [hfirst] at h
    cases h
    exact .refl c
  | some first =>
    simp only [hfirst, Option.bind_eq_bind, Option.bind_eq_some_iff] at h
    obtain ⟨cell, -, h⟩ := h
    cases hafter : cell.after with
    | none =>
      simp only [hafter, Option.bind_eq_some_iff] at h
      obtain ⟨c₁, hc₁, c₂, hshrunk, hd⟩ := h
      have hslots := sameSlots_shrink? hshrunk
      cases hc₁
      cases hd
      exact ⟨hslots.cells, hslots.spare, hslots.limit⟩
    | some next =>
      simp only [hafter, Option.bind_eq_some_iff] at h
      obtain ⟨c₁, hnext, c₂, hshrunk, hd⟩ := h
      have hmodified := sameSlots_modify? hnext
      have hslots := sameSlots_shrink? hshrunk
      cases hd
      exact hmodified.trans ⟨hslots.cells, hslots.spare, hslots.limit⟩

theorem sameSlots_linkLast? (h : c.linkLast? s = some d) : c.SameSlots d := by
  rw [← mirror_mirror c, linkLast?_mirror] at h
  obtain ⟨c₁, h₁, rfl⟩ := Option.map_eq_some_iff.mp h
  simpa using (sameSlots_linkFirst? h₁).mirror

theorem sameSlots_unlinkLast? {slot : Option Nat} (h : c.unlinkLast? = some (slot, d)) :
    c.SameSlots d := by
  rw [← mirror_mirror c, unlinkLast?_mirror] at h
  obtain ⟨⟨slot', c₁⟩, h₁, hd⟩ := Option.map_eq_some_iff.mp h
  obtain ⟨-, rfl⟩ := Prod.mk.inj hd
  simpa using (sameSlots_unlinkFirst? h₁).mirror

theorem sameSlots_rotateLeft? (h : c.rotateLeft? = some d) : c.SameSlots d := by
  unfold rotateLeft? at h
  split at h
  · cases h
    exact .refl c
  · obtain ⟨⟨slot | slot, c₁⟩, hunlinked, hlinked⟩ := Option.bind_eq_some_iff.mp h
    · cases hlinked
      exact sameSlots_unlinkFirst? hunlinked
    · exact (sameSlots_unlinkFirst? hunlinked).trans (sameSlots_linkLast? hlinked)

theorem sameSlots_rotateRight? (h : c.rotateRight? = some d) : c.SameSlots d := by
  unfold rotateRight? at h
  split at h
  · cases h
    exact .refl c
  · obtain ⟨⟨slot | slot, c₁⟩, hunlinked, hlinked⟩ := Option.bind_eq_some_iff.mp h
    · cases hlinked
      exact sameSlots_unlinkLast? hunlinked
    · exact (sameSlots_unlinkLast? hunlinked).trans (sameSlots_linkFirst? hlinked)

end SameSlots

variable {c c' : Chain} {es : List Entry}

theorem cell_eq_of_linked {m m' : Nat → Option Cell} {before after : Option Nat} {s : Nat}
    (h : Linked m before es after) (h' : Linked m' before es after) (hs : s ∈ slots es) : m s = m' s := by
  induction es generalizing before with
  | nil => simp at hs
  | cons e es ih =>
    obtain ⟨he, hes⟩ := Linked.cons_iff.mp h
    obtain ⟨he', hes'⟩ := Linked.cons_iff.mp h'
    rcases List.mem_cons.mp hs with rfl | hs
    · rw [he, he']
    · exact ih hes hes' hs

theorem Holds.mem_slots_or_spare (h : c.Holds es) {s : Nat} (hs : s < c.cells.size) :
    s ∈ slots es ∨ s ∈ c.spare :=
  List.mem_append.mp (h.shared.mem_iff.mpr (List.mem_range.mpr hs))

theorem Holds.cell?_eq (h : c.Holds es) (h' : c'.Holds es) (hslots : c.SameSlots c') (s : Nat) :
    c'.cell? s = c.cell? s := by
  by_cases hs : s < c.cells.size
  · rcases h.mem_slots_or_spare hs with hlinked | hspare
    · exact cell_eq_of_linked h'.linked h.linked hlinked
    · rw [h.empty s hspare, h'.empty s (hslots.spare ▸ hspare)]
  · have hs' : ¬s < c'.cells.size := by rwa [hslots.cells]
    simp [cell?, Array.getElem?_eq_none (not_lt.mp hs), Array.getElem?_eq_none (not_lt.mp hs')]

/-- The entries and the slots that are not theirs determine a chain. -/
theorem Holds.unique (h : c.Holds es) (h' : c'.Holds es) (hslots : c.SameSlots c') : c' = c := by
  have hcells : c'.cells = c.cells := by
    apply Array.ext hslots.cells
    intro s hs hs'
    have hcell := h.cell?_eq h' hslots s
    rwa [cell?, cell?, Array.getElem?_eq_getElem hs, Array.getElem?_eq_getElem hs', Option.join_some,
      Option.join_some] at hcell
  obtain ⟨cells, spare, first, last, size, limit⟩ := c
  obtain ⟨cells', spare', first', last', size', limit'⟩ := c'
  obtain rfl : limit' = limit := hslots.limit
  obtain rfl : spare' = spare := hslots.spare
  obtain rfl : first' = first := h'.first.trans h.first.symm
  obtain rfl : last' = last := h'.last.trans h.last.symm
  obtain rfl : size' = size := h'.size.trans h.size.symm
  obtain rfl : cells' = cells := hcells
  rfl

theorem value?_of_linked {m : Nat → Option Cell} {before after : Option Nat} {e : Entry}
    (h : Linked m before es after) (he : e ∈ es) : (m e.slot).map Cell.value = some e.value := by
  obtain ⟨front, back, rfl⟩ := List.append_of_mem he
  have hcell := (Linked.cons_iff.mp (Linked.append_iff.mp h).2).1
  rw [hcell, Option.map_some]

/-- The values lie in the slots of their entries. -/
theorem Holds.value?_eq_some_iff (h : c.Holds es) {s : Nat} {v : Int32} :
    (c.cell? s).map Cell.value = some v ↔ ⟨s, v⟩ ∈ es := by
  constructor
  · intro hv
    obtain ⟨cell, hcell, -⟩ := Option.map_eq_some_iff.mp hv
    rcases h.mem_slots_or_spare (lt_of_cell? hcell) with hlinked | hspare
    · obtain ⟨e, he, rfl⟩ := List.mem_map.mp hlinked
      rw [value?_of_linked h.linked he] at hv
      obtain rfl : e.value = v := Option.some.inj hv
      exact he
    · simp [h.empty s hspare] at hcell
  · exact fun he => value?_of_linked h.linked he

theorem rotate_of_length_lt {α : Type} {l : List α} (h : l.length < 2) (n : Nat) : l.rotate n = l := by
  match l, h with
  | [], _ => exact List.rotate_nil n
  | [x], _ => exact List.rotate_singleton x n

namespace Holds

/-- The front entry goes to the back. -/
theorem rotateLeft? (h : c.Holds es) :
    ∃ c', c.rotateLeft? = some c' ∧ c'.Holds (es.rotate 1) ∧ c.SameSlots c' := by
  cases es with
  | nil => exact ⟨c, h.rotateLeft?_of_length_lt (by simp), h, .refl c⟩
  | cons e es =>
    obtain ⟨d, hd, hheld, -⟩ := h.rotateLeft?_cons
    exact ⟨d, hd, by simpa using hheld, sameSlots_rotateLeft? hd⟩

/-- The back entry goes to the front: all but one rotation to the left. -/
theorem rotateRight? (h : c.Holds es) :
    ∃ c', c.rotateRight? = some c' ∧ c'.Holds (es.rotate (es.length - 1)) ∧ c.SameSlots c' := by
  rcases List.eq_nil_or_concat' es with rfl | ⟨es, e, rfl⟩
  · exact ⟨c, h.rotateRight?_of_length_lt (by simp), h, .refl c⟩
  · obtain ⟨d, hd, hheld, -⟩ := h.rotateRight?_concat
    have hrotate : (es ++ [e]).rotate ((es ++ [e]).length - 1) = e :: es := by
      simp [List.rotate_append_length_eq]
    exact ⟨d, hd, hrotate ▸ hheld, sameSlots_rotateRight? hd⟩

end Holds

end DequeMachine.Chain
