import DequeMachine.Chain.Links

/-!
# What a chain holds

A chain holds entries from front to back, and between two halves of an operation one cell more that
is stored but not linked. Its slots are then shared out: each one is linked, loose or spare, and none
is two of these. The six primitives never follow a dead slot here, and each changes what is held in
the way it says.
-/
namespace DequeMachine

namespace Chain

open Entry Store

/-- Puts a cell, or nothing, into a slot. -/
def put (slot : Nat) (x : Option Cell) (c : Chain) : Chain :=
  { c with cells := c.cells.setIfInBounds slot x }

section put

variable (slot : Nat) (x : Option Cell) (c : Chain)

@[simp] theorem spare_put : (c.put slot x).spare = c.spare := rfl

@[simp] theorem first_put : (c.put slot x).first = c.first := rfl

@[simp] theorem last_put : (c.put slot x).last = c.last := rfl

@[simp] theorem size_put : (c.put slot x).size = c.size := rfl

@[simp] theorem limit_put : (c.put slot x).limit = c.limit := rfl

@[simp] theorem size_cells_put : (c.put slot x).cells.size = c.cells.size := by simp [put]

end put

variable {c : Chain} {es : List Entry} {e : Entry}

theorem lt_of_cell? {s : Nat} {cell : Cell} (h : c.cell? s = some cell) : s < c.cells.size := by
  refine Nat.lt_of_not_le fun hs => ?_
  simp [cell?, Array.getElem?_eq_none hs] at h

theorem cell?_put {s : Nat} (hs : s < c.cells.size) (x : Option Cell) :
    (c.put s x).cell? = Store.set c.cell? s x := by
  funext t
  by_cases ht : t = s
  · subst t
    simp [cell?, put, hs]
  · rw [set_of_ne ht, cell?, put, Array.getElem?_setIfInBounds_ne (Ne.symm ht), cell?]

theorem cell?_push (x : Option Cell) :
    ({ c with cells := c.cells.push x } : Chain).cell? = Store.set c.cell? c.cells.size x := by
  funext t
  by_cases ht : t = c.cells.size
  · subst t
    simp [cell?]
  · rw [set_of_ne ht, cell?, Array.getElem?_push, if_neg ht, cell?]

theorem modify?_eq {s : Nat} {cell : Cell} (h : c.cell? s = some cell) (f : Cell → Cell) :
    c.modify? s f = some (c.put s (some (f cell))) := by
  simp [modify?, h, put]

/-- A chain holds entries from front to back, besides a loose one. -/
structure Holds (c : Chain) (es : List Entry) (loose : Option Entry := none) : Prop where
  linked : Linked c.cell? none es none
  stored : ∀ e ∈ loose, ∃ before after, c.cell? e.slot = some ⟨e.value, before, after⟩
  first : c.first = firstSlot es
  last : c.last = lastSlot es
  size : c.size = es.length
  empty : ∀ s ∈ c.spare, c.cell? s = none
  shared : (slots (loose.toList ++ es) ++ c.spare).Perm (List.range c.cells.size)

namespace Holds

theorem nodup {loose : Option Entry} (h : c.Holds es loose) :
    (slots (loose.toList ++ es) ++ c.spare).Nodup :=
  h.shared.nodup_iff.mpr List.nodup_range

theorem lt_of_spare {loose : Option Entry} (h : c.Holds es loose) {s : Nat} (hs : s ∈ c.spare) :
    s < c.cells.size :=
  List.mem_range.mp (h.shared.mem_iff.mp (by simp [hs]))

theorem nodup_slots {loose : Option Entry} (h : c.Holds es loose) : (slots es).Nodup := by
  have := h.nodup
  simp only [slots_append, List.append_assoc] at this
  exact (List.nodup_append.mp (List.nodup_append.mp this).2.1).1

theorem loose_notMem (h : c.Holds es (some e)) : e.slot ∉ slots es := by
  have := h.nodup
  simp only [Option.toList_some, List.cons_append, List.nil_append, slots_cons, List.nodup_cons,
    List.mem_append, not_or] at this
  exact this.1.1

theorem front_notMem {loose : Option Entry} (h : c.Holds (e :: es) loose) : e.slot ∉ slots es :=
  (List.nodup_cons.mp h.nodup_slots).1

/-- No chain holds more entries than it has slots. -/
theorem length_le (h : c.Holds es) : es.length ≤ c.cells.size := by
  have := h.shared.length_eq
  simp at this
  omega

theorem size_cells (h : c.Holds es) : c.cells.size = es.length + c.spare.length := by
  have := h.shared.length_eq
  simp at this
  omega

end Holds

theorem holds_within (limit : Option Nat) : (within limit).Holds [] where
  linked := trivial
  stored := by simp
  first := rfl
  last := rfl
  size := rfl
  empty := by intro s hs; cases hs
  shared := List.Perm.refl _

/-- Storing a value makes one slot loose, a spare one if there is any. -/
theorem Holds.store? (h : c.Holds es) (hroom : c.isFull = false) (v : Int32) :
    ∃ slot c', c.store? v = some (some slot, c') ∧ c'.Holds es (some ⟨slot, v⟩) ∧
      c'.limit = c.limit := by
  have hn := h.nodup
  cases hs : c.spare with
  | nil =>
    have hroom : c.hasRoom = true := by simpa [isFull, hs] using hroom
    have hsize : c.cells.size ∉ slots es := by
      intro hm
      have := h.shared.mem_iff.mp (List.mem_append_left _ hm)
      simp at this
    refine ⟨c.cells.size, { c with cells := c.cells.push (some { value := v }) }, ?_, ?_, rfl⟩
    · simp [Chain.store?, hs, lacking?, hroom]
    · exact
        { linked := by rw [cell?_push, Linked.set_iff hsize]; exact h.linked
          stored := by
            rintro e ⟨⟩
            exact ⟨none, none, by simp [cell?_push]⟩
          first := h.first
          last := h.last
          size := h.size
          empty := by simp [hs]
          shared := by
            have := h.shared
            simp only [hs, List.append_nil, Option.toList_none, List.nil_append] at this
            simp only [Array.size_push, List.range_succ, hs, List.append_nil, Option.toList_some,
              List.singleton_append, slots_cons]
            exact (this.cons c.cells.size).trans (List.perm_append_singleton _ _).symm }
  | cons s spare =>
    have hlt : s < c.cells.size := h.lt_of_spare (by simp [hs])
    simp only [hs, Option.toList_none, List.nil_append] at hn
    obtain ⟨-, hspare, hapart⟩ := List.nodup_append.mp hn
    have hfree : s ∉ slots es := fun hm => hapart s hm s (by simp) rfl
    refine ⟨s, { c.put s (some { value := v }) with spare }, ?_, ?_, rfl⟩
    · simp [Chain.store?, hs, hlt, put]
    · have hcell : ({ c.put s (some { value := v }) with spare } : Chain).cell? =
          Store.set c.cell? s (some { value := v }) := cell?_put hlt _
      exact
        { linked := by rw [hcell, Linked.set_iff hfree]; exact h.linked
          stored := by
            rintro e ⟨⟩
            exact ⟨none, none, by rw [hcell, set_self]⟩
          first := h.first
          last := h.last
          size := h.size
          empty := by
            intro t ht
            have hts : t ≠ s := fun he => (List.nodup_cons.mp hspare).1 (he ▸ ht)
            rw [hcell, set_of_ne hts]
            exact h.empty t (by simp [hs, ht])
          shared := by
            have := h.shared
            simp only [hs, Option.toList_none, List.nil_append] at this
            simp only [size_cells_put, Option.toList_some, slots_cons, List.cons_append,
              List.nil_append]
            exact List.perm_middle.symm.trans this }

/-- A full chain stores nothing and stays as it is. -/
theorem store?_of_isFull (h : c.isFull = true) (v : Int32) : c.store? v = some (none, c) := by
  simp only [isFull, Bool.and_eq_true, List.isEmpty_iff, Bool.not_eq_true'] at h
  simp [store?, h.1, lacking?, h.2]

/-- Discarding the loose cell gives its value and makes its slot spare. -/
theorem Holds.discard? (h : c.Holds es (some e)) :
    ∃ c', c.discard? e.slot = some (e.value, c') ∧ c'.Holds es ∧ c'.limit = c.limit := by
  obtain ⟨before, after, hcell⟩ := h.stored e rfl
  have hlt := lt_of_cell? hcell
  refine ⟨{ c.put e.slot none with spare := e.slot :: c.spare }, ?_, ?_, rfl⟩
  · simp [Chain.discard?, hcell, put]
  · have hput : ({ c.put e.slot none with spare := e.slot :: c.spare } : Chain).cell? =
        Store.set c.cell? e.slot none := cell?_put hlt _
    exact
      { linked := by rw [hput, Linked.set_iff h.loose_notMem]; exact h.linked
        stored := by simp
        first := h.first
        last := h.last
        size := h.size
        empty := by
          intro t ht
          rw [hput]
          rcases List.mem_cons.mp ht with rfl | ht
          · simp
          · by_cases hte : t = e.slot
            · simp [hte]
            · rw [set_of_ne hte]
              exact h.empty t ht
        shared := by
          simp only [size_cells_put, Option.toList_none, List.nil_append]
          exact List.perm_middle.trans h.shared }

namespace Holds

variable {c' : Chain} {loose loose' : Option Entry} {es' : List Entry}

theorem spare_ne (h : c.Holds es loose) {s t : Nat} {cell : Cell} (hs : s ∈ c.spare)
    (ht : c.cell? t = some cell) : s ≠ t := by
  rintro rfl
  simp [h.empty s hs] at ht

/-- Linking anew what lies in the occupied slots leaves the spare ones as they are. -/
theorem relink (h : c.Holds es loose) {m : Store} (hm : c'.cell? = m)
    (hsize : c'.cells.size = c.cells.size) (hspare : c'.spare = c.spare)
    (hempty : ∀ s ∈ c.spare, m s = c.cell? s)
    (hslots : (slots (loose'.toList ++ es')).Perm (slots (loose.toList ++ es)))
    (linked : Linked m none es' none)
    (stored : ∀ e ∈ loose', ∃ before after, m e.slot = some ⟨e.value, before, after⟩)
    (first : c'.first = firstSlot es') (last : c'.last = lastSlot es')
    (size : c'.size = es'.length) : c'.Holds es' loose' := by
  subst m
  refine ⟨linked, stored, first, last, size, ?_, ?_⟩
  · intro s hs
    rw [hspare] at hs
    rw [hempty s hs, h.empty s hs]
  · rw [hspare, hsize]
    exact (hslots.append_right c.spare).trans h.shared

/-- Overwriting the value in a cell overwrites that of its entry and no other. -/
theorem overwrite (before : List Entry) (h : c.Holds (before ++ e :: es)) (v : Int32) :
    ∃ c', c.modify? e.slot (fun cell => { cell with value := v }) = some c' ∧
      c'.Holds (before ++ { e with value := v } :: es) ∧ c'.limit = c.limit := by
  obtain ⟨cell, hcell, -, hlinked⟩ := h.linked.overwrite h.nodup_slots v
  have hslots : slots (before ++ { e with value := v } :: es) = slots (before ++ e :: es) := by
    simp
  refine ⟨_, modify?_eq hcell _, ?_, limit_put ..⟩
  refine h.relink (cell?_put (lt_of_cell? hcell) _) (by simp) rfl ?_ ?_ hlinked (by simp) ?_ ?_ ?_
  · intro s hs
    rw [set_of_ne (h.spare_ne hs hcell)]
  · simp
  · rw [first_put, h.first, firstSlot, firstSlot, hslots]
  · rw [last_put, h.last, lastSlot, lastSlot, hslots]
  · simp [h.size]

/-- Linking the loose cell first puts its entry in front. -/
theorem linkFirst? (h : c.Holds es (some e)) :
    ∃ c', c.linkFirst? e.slot = some c' ∧ c'.Holds (e :: es) ∧ c'.limit = c.limit := by
  obtain ⟨before, after, hcell⟩ := h.stored e rfl
  have hlt := lt_of_cell? hcell
  have hloose := h.loose_notMem
  cases es with
  | nil =>
    have hfirst : c.first = none := h.first
    let cell : Cell := ⟨e.value, none, none⟩
    have hput : (c.put e.slot (some cell)).cell? = Store.set c.cell? e.slot (some cell) :=
      cell?_put hlt _
    refine ⟨{ c.put e.slot (some cell) with
      first := some e.slot, last := some e.slot, size := c.size + 1 }, ?_, ?_, rfl⟩
    · simp [Chain.linkFirst?, hfirst, modify?_eq hcell, grow, cell]
    · refine h.relink hput (by simp) rfl ?_ (List.Perm.refl _) ?_ (by simp) rfl rfl ?_
      · intro s hs
        rw [set_of_ne (h.spare_ne hs hcell)]
      · rw [Linked.singleton_iff, set_self]
      · simp [h.size]
  | cons f es =>
    have hfirst : c.first = some f.slot := h.first
    obtain ⟨hf, hrest⟩ := Linked.cons_iff.mp h.linked
    simp only [slots_cons, List.mem_cons, not_or] at hloose
    let cell : Cell := ⟨e.value, none, some f.slot⟩
    let next : Cell := ⟨f.value, some e.slot, (firstSlot es).or none⟩
    let d := c.put e.slot (some cell)
    have hd : d.cell? = Store.set c.cell? e.slot (some cell) := cell?_put hlt _
    have hdf : d.cell? f.slot = some ⟨f.value, none, (firstSlot es).or none⟩ := by
      rw [hd, set_of_ne (Ne.symm hloose.1), hf]
    have hput : (d.put f.slot (some next)).cell? =
        Store.set (Store.set c.cell? e.slot (some cell)) f.slot (some next) := by
      rw [cell?_put (lt_of_cell? hdf), hd]
    refine ⟨{ d.put f.slot (some next) with first := some e.slot, size := c.size + 1 }, ?_, ?_, rfl⟩
    · simp [Chain.linkFirst?, hfirst, modify?_eq hcell, modify?_eq hdf, grow, cell, next, d]
    · refine h.relink hput (by simp [d]) rfl ?_ (List.Perm.refl _) ?_ (by simp) rfl ?_ ?_
      · intro s hs
        rw [set_of_ne (h.spare_ne hs hf), set_of_ne (h.spare_ne hs hcell)]
      · refine ⟨?_, set_self, ?_⟩
        · rw [set_of_ne hloose.1, set_self]
          rfl
        · rw [Linked.set_iff h.front_notMem, Linked.set_iff hloose.2]
          exact hrest
      · simp [d, h.last, lastSlot_cons]
      · simp [h.size]

/-- Unlinking the first cell makes the front entry loose. -/
theorem unlinkFirst? (h : c.Holds (e :: es)) :
    ∃ c', c.unlinkFirst? = some (some e.slot, c') ∧ c'.Holds es (some e) ∧ c'.limit = c.limit := by
  have hfirst : c.first = some e.slot := h.first
  obtain ⟨he, hrest⟩ := Linked.cons_iff.mp h.linked
  have hnot := h.front_notMem
  have hsize : c.size = es.length + 1 := h.size
  cases es with
  | nil =>
    refine ⟨{ c with first := none, last := none, size := c.size - 1 }, ?_, ?_, rfl⟩
    · simp [Chain.unlinkFirst?, hfirst, he, shrink?, hsize]
    · refine h.relink (m := c.cell?) rfl rfl rfl (fun _ _ => rfl) (List.Perm.refl _) trivial ?_ rfl
        rfl ?_
      · rintro _ ⟨⟩
        exact ⟨_, _, he⟩
      · simp [hsize]
  | cons f es =>
    obtain ⟨hf, hrest⟩ := Linked.cons_iff.mp hrest
    simp only [slots_cons, List.mem_cons, not_or] at hnot
    let next : Cell := ⟨f.value, none, (firstSlot es).or none⟩
    have hput : (c.put f.slot (some next)).cell? = Store.set c.cell? f.slot (some next) :=
      cell?_put (lt_of_cell? hf) _
    refine ⟨{ c.put f.slot (some next) with first := some f.slot, size := c.size - 1 }, ?_, ?_, rfl⟩
    · simp [Chain.unlinkFirst?, hfirst, he, modify?_eq hf, shrink?, hsize, next]
    · refine h.relink hput (by simp) rfl ?_ (List.Perm.refl _) ?_ ?_ rfl ?_ ?_
      · intro s hs
        rw [set_of_ne (h.spare_ne hs hf)]
      · refine ⟨set_self, ?_⟩
        rw [Linked.set_iff (List.nodup_cons.mp (List.nodup_cons.mp h.nodup_slots).2).1]
        exact hrest
      · rintro _ ⟨⟩
        exact ⟨_, _, (set_of_ne hnot.1).trans he⟩
      · simp [h.last, lastSlot_cons]
      · simp [hsize]

theorem unlinkFirst?_nil (h : c.Holds []) : c.unlinkFirst? = some (none, c) := by
  have hfirst : c.first = none := h.first
  simp [Chain.unlinkFirst?, hfirst]

end Holds

end Chain

end DequeMachine
