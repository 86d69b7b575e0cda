import DequeMachine.Chain.Holds

/-!
# A chain seen from its back

A chain turned around holds its entries in reverse, and what an operation does at one end of it, the
mirrored operation does at the other end of the chain itself. So the two operations at the back need
no argument of their own.
-/
namespace DequeMachine.Chain

open Entry

/-- The chain with its ends exchanged, in the same slots. -/
def mirror (c : Chain) : Chain :=
  { cells := c.cells.map (Option.map Cell.mirror), spare := c.spare, first := c.last,
    last := c.first, size := c.size, limit := c.limit }

variable {c : Chain} {es : List Entry} {e : Entry}

@[simp] theorem mirror_mirror (c : Chain) : c.mirror.mirror = c := by
  have : Option.map Cell.mirror ∘ Option.map Cell.mirror = id := by
    funext x
    cases x <;> simp
  simp [mirror, this]

theorem cell?_mirror (c : Chain) (s : Nat) : c.mirror.cell? s = (c.cell? s).map Cell.mirror := by
  by_cases hs : s < c.cells.size
  · simp [cell?, mirror, hs]
  · simp [cell?, mirror, Array.getElem?_eq_none (Nat.not_lt.mp hs)]

theorem Holds.mirror {loose : Option Entry} (h : c.Holds es loose) :
    c.mirror.Holds es.reverse loose where
  linked := by
    rw [show c.mirror.cell? = fun s => (c.cell? s).map Cell.mirror from funext (cell?_mirror c)]
    exact h.linked.mirror
  stored := by
    intro e he
    obtain ⟨before, after, hcell⟩ := h.stored e he
    exact ⟨after, before, by simp [cell?_mirror, hcell, Cell.mirror]⟩
  first := by rw [firstSlot_reverse]; exact h.last
  last := by rw [lastSlot_reverse]; exact h.first
  size := by rw [List.length_reverse]; exact h.size
  empty := by
    intro s hs
    simp [cell?_mirror, h.empty s hs]
  shared := by
    have hp : (slots (loose.toList ++ es.reverse)).Perm (slots (loose.toList ++ es)) :=
      ((List.reverse_perm es).append_left _).map _
    simpa [Chain.mirror] using (hp.append_right c.spare).trans h.shared

theorem put_mirror (c : Chain) (s : Nat) (x : Option Cell) :
    c.mirror.put s (x.map Cell.mirror) = (c.put s x).mirror := by
  simp [put, mirror, Array.map_setIfInBounds]

theorem modify?_mirror (c : Chain) (s : Nat) (f : Cell → Cell) :
    c.mirror.modify? s f = (c.modify? s fun cell => (f cell.mirror).mirror).map mirror := by
  cases h : c.cell? s with
  | none => simp [modify?, cell?_mirror, h]
  | some cell =>
    have hm : c.mirror.cell? s = some cell.mirror := by simp [cell?_mirror, h]
    rw [modify?_eq hm, modify?_eq h, Option.map_some, ← put_mirror]
    simp

theorem linkLast?_mirror (c : Chain) (s : Nat) :
    c.mirror.linkLast? s = (c.linkFirst? s).map mirror := by
  have hlast : c.mirror.last = c.first := rfl
  have hs : c.mirror.modify? s (fun cell => { cell with before := c.first, after := none }) =
      (c.modify? s fun cell => { cell with before := none, after := c.first }).map mirror :=
    modify?_mirror ..
  simp only [linkLast?, linkFirst?, hlast, hs]
  cases c.modify? s fun cell => { cell with before := none, after := c.first } with
  | none => rfl
  | some d =>
    cases c.first with
    | none => rfl
    | some next =>
      have hnext : d.mirror.modify? next (fun cell => { cell with after := some s }) =
          (d.modify? next fun cell => { cell with before := some s }).map mirror :=
        modify?_mirror ..
      simp only [Option.map_some, Option.bind_eq_bind, Option.bind_some, hnext]
      cases d.modify? next fun cell => { cell with before := some s } <;> rfl

theorem shrink?_mirror (c : Chain) : c.mirror.shrink? = c.shrink?.map mirror := by
  unfold shrink? mirror
  split <;> rfl

theorem unlinkLast?_mirror (c : Chain) :
    c.mirror.unlinkLast? = c.unlinkFirst?.map fun (slot, c) => (slot, c.mirror) := by
  have hlast : c.mirror.last = c.first := rfl
  unfold unlinkLast? unlinkFirst?
  rw [hlast]
  cases c.first with
  | none => rfl
  | some s =>
    dsimp only
    rw [cell?_mirror]
    cases c.cell? s with
    | none => rfl
    | some cell =>
      simp only [Option.map_some, Option.bind_eq_bind, Option.bind_some, Cell.mirror]
      cases cell.after with
      | none =>
        let d : Chain := { c with first := none, last := none }
        change Option.bind d.mirror.shrink? _ = Option.map _ (Option.bind d.shrink? _)
        rw [shrink?_mirror]
        cases d.shrink? <;> rfl
      | some next =>
        have hnext : c.mirror.modify? next (fun cell => { cell with after := none }) =
            (c.modify? next fun cell => { cell with before := none }).map mirror :=
          modify?_mirror ..
        simp only [hnext]
        cases c.modify? next fun cell => { cell with before := none } with
        | none => rfl
        | some d =>
          let d : Chain := { d with first := some next }
          change Option.bind d.mirror.shrink? _ = Option.map _ (Option.bind d.shrink? _)
          rw [shrink?_mirror]
          cases d.shrink? <;> rfl

/-- Linking the loose cell last puts its entry at the back. -/
theorem Holds.linkLast? (h : c.Holds es (some e)) :
    ∃ c', c.linkLast? e.slot = some c' ∧ c'.Holds (es ++ [e]) ∧ c'.limit = c.limit := by
  obtain ⟨d, hd, hheld, hlimit⟩ := h.mirror.linkFirst?
  refine ⟨d.mirror, ?_, by simpa using hheld.mirror, hlimit⟩
  rw [← mirror_mirror c, linkLast?_mirror, hd, Option.map_some]

/-- Unlinking the last cell makes the back entry loose. -/
theorem Holds.unlinkLast? (h : c.Holds (es ++ [e])) :
    ∃ c', c.unlinkLast? = some (some e.slot, c') ∧ c'.Holds es (some e) ∧ c'.limit = c.limit := by
  have hm := h.mirror
  rw [List.reverse_append, List.reverse_singleton, List.singleton_append] at hm
  obtain ⟨d, hd, hheld, hlimit⟩ := hm.unlinkFirst?
  refine ⟨d.mirror, ?_, by simpa using hheld.mirror, hlimit⟩
  rw [← mirror_mirror c, unlinkLast?_mirror, hd, Option.map_some]

end DequeMachine.Chain
