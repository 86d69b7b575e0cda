import DequeMachine.Chain.Mirror

/-!
# Sound chains

A chain is sound when it holds entries. Every checked operation on a sound chain completes: it meets no dead
slot and no negative difference, and the chain that it leaves is sound again.
-/
namespace DequeMachine.Chain

open Entry

variable {c : Chain} {es : List Entry} {e f : Entry}

/-- A value that goes in at the front has a slot of its own there. -/
theorem Holds.pushFront? (h : c.Holds es) (hroom : c.isFull = false) (v : Int32) :
    ∃ slot c', c.pushFront? v = some (true, c') ∧ c'.Holds (⟨slot, v⟩ :: es) ∧ c'.limit = c.limit := by
  obtain ⟨slot, d, hd, hloose, hlimit⟩ := h.store? hroom v
  obtain ⟨d', hd', hheld, hlimit'⟩ := hloose.linkFirst?
  exact ⟨slot, d', by simp [Chain.pushFront?, hd, hd'], hheld, hlimit'.trans hlimit⟩

theorem Holds.pushBack? (h : c.Holds es) (hroom : c.isFull = false) (v : Int32) :
    ∃ slot c', c.pushBack? v = some (true, c') ∧ c'.Holds (es ++ [⟨slot, v⟩]) ∧ c'.limit = c.limit := by
  obtain ⟨slot, d, hd, hloose, hlimit⟩ := h.store? hroom v
  obtain ⟨d', hd', hheld, hlimit'⟩ := hloose.linkLast?
  exact ⟨slot, d', by simp [Chain.pushBack?, hd, hd'], hheld, hlimit'.trans hlimit⟩

theorem pushFront?_of_isFull (h : c.isFull = true) (v : Int32) : c.pushFront? v = some (false, c) := by
  simp [Chain.pushFront?, store?_of_isFull h]

theorem pushBack?_of_isFull (h : c.isFull = true) (v : Int32) : c.pushBack? v = some (false, c) := by
  simp [Chain.pushBack?, store?_of_isFull h]

namespace Holds

theorem popFront?_nil (h : c.Holds []) : c.popFront? = some (none, c) := by
  simp [Chain.popFront?, h.unlinkFirst?_nil]

theorem popFront?_cons (h : c.Holds (e :: es)) :
    ∃ c', c.popFront? = some (some e.value, c') ∧ c'.Holds es ∧ c'.limit = c.limit := by
  obtain ⟨d, hd, hloose, hlimit⟩ := h.unlinkFirst?
  obtain ⟨d', hd', hheld, hlimit'⟩ := hloose.discard?
  exact ⟨d', by simp [Chain.popFront?, hd, hd'], hheld, hlimit'.trans hlimit⟩

theorem front?_eq (h : c.Holds es) : c.front? = some (values es).head? := by
  have hfirst := h.first
  cases es with
  | nil => simp [Chain.front?, hfirst]
  | cons e es => simp [Chain.front?, hfirst, h.linked.1]

theorem frontPair?_of_length_lt (h : c.Holds es) (hes : es.length < 2) : c.frontPair? = some none := by
  have hfirst := h.first
  match es, hes with
  | [], _ => simp [Chain.frontPair?, hfirst]
  | [e], _ => simp [Chain.frontPair?, hfirst, h.linked.1]

theorem frontPair?_cons_cons (h : c.Holds (e :: f :: es)) : c.frontPair? = some (some (e.value, f.value)) := by
  have hfirst := h.first
  simp [Chain.frontPair?, hfirst, h.linked.1, h.linked.2.1]

theorem setFront?_nil (h : c.Holds []) (v : Int32) : c.setFront? v = some (none, c) := by
  have hfirst := h.first
  simp [Chain.setFront?, hfirst]

theorem setFront?_cons (h : c.Holds (e :: es)) (v : Int32) :
    ∃ c', c.setFront? v = some (some e.value, c') ∧ c'.Holds ({ e with value := v } :: es) ∧
      c'.limit = c.limit := by
  have hfirst := h.first
  obtain ⟨d, hd, hheld, hlimit⟩ := h.overwrite [] v
  exact ⟨d, by simp [Chain.setFront?, hfirst, h.linked.1, hd], hheld, hlimit⟩

theorem swapFront?_of_length_lt (h : c.Holds es) (hes : es.length < 2) : c.swapFront? = some (false, c) := by
  have hfirst := h.first
  match es, hes with
  | [], _ => simp [Chain.swapFront?, hfirst]
  | [e], _ => simp [Chain.swapFront?, hfirst, h.linked.1]

/-- The two front values change places and their slots do not. -/
theorem swapFront?_cons_cons (h : c.Holds (e :: f :: es)) :
    ∃ c', c.swapFront? = some (true, c') ∧
      c'.Holds ({ e with value := f.value } :: { f with value := e.value } :: es) ∧ c'.limit = c.limit := by
  have hfirst := h.first
  obtain ⟨d, hd, hheld, hlimit⟩ := h.overwrite [] f.value
  obtain ⟨d', hd', hheld', hlimit'⟩ := hheld.overwrite [{ e with value := f.value }] e.value
  refine ⟨d', ?_, hheld', hlimit'.trans hlimit⟩
  simp [Chain.swapFront?, hfirst, h.linked.1, h.linked.2.1, hd, hd']

theorem rotateLeft?_of_length_lt (h : c.Holds es) (hes : es.length < 2) : c.rotateLeft? = some c := by
  simp [Chain.rotateLeft?, h.size, hes]

theorem rotateRight?_of_length_lt (h : c.Holds es) (hes : es.length < 2) : c.rotateRight? = some c := by
  simp [Chain.rotateRight?, h.size, hes]

/-- The front entry goes to the back. -/
theorem rotateLeft?_cons (h : c.Holds (e :: es)) :
    ∃ c', c.rotateLeft? = some c' ∧ c'.Holds (es ++ [e]) ∧ c'.limit = c.limit := by
  by_cases hes : (e :: es).length < 2
  · obtain rfl : es = [] := List.eq_nil_of_length_eq_zero (Nat.lt_one_iff.mp (Nat.lt_of_succ_lt_succ hes))
    exact ⟨c, h.rotateLeft?_of_length_lt hes, h, rfl⟩
  · obtain ⟨d, hd, hloose, hlimit⟩ := h.unlinkFirst?
    obtain ⟨d', hd', hheld, hlimit'⟩ := hloose.linkLast?
    refine ⟨d', ?_, hheld, hlimit'.trans hlimit⟩
    rw [Chain.rotateLeft?, h.size, if_neg hes, hd]
    exact hd'

/-- The back entry goes to the front. -/
theorem rotateRight?_concat (h : c.Holds (es ++ [e])) :
    ∃ c', c.rotateRight? = some c' ∧ c'.Holds (e :: es) ∧ c'.limit = c.limit := by
  by_cases hes : (es ++ [e]).length < 2
  · obtain rfl : es = [] := by
      rw [List.length_append, List.length_singleton] at hes
      exact List.eq_nil_of_length_eq_zero (Nat.lt_one_iff.mp (Nat.lt_of_succ_lt_succ hes))
    exact ⟨c, h.rotateRight?_of_length_lt hes, h, rfl⟩
  · obtain ⟨d, hd, hloose, hlimit⟩ := h.unlinkLast?
    obtain ⟨d', hd', hheld, hlimit'⟩ := hloose.linkFirst?
    refine ⟨d', ?_, hheld, hlimit'.trans hlimit⟩
    rw [Chain.rotateRight?, h.size, if_neg hes, hd]
    exact hd'

end Holds

/-- A walk along linked entries visits their values and needs one unit of fuel for each. -/
theorem walk?_eq {before : Option Nat} (h : Linked c.cell? before es none) {fuel : Nat}
    (hfuel : es.length ≤ fuel) (visited : List Int32) :
    c.walk? fuel (firstSlot es) visited = some (visited.reverse ++ values es) := by
  induction es generalizing before fuel visited with
  | nil => cases fuel <;> simp [walk?]
  | cons e es ih =>
    cases fuel with
    | zero => simp at hfuel
    | succ fuel =>
      obtain ⟨he, hrest⟩ := Linked.cons_iff.mp h
      have hlen : es.length ≤ fuel := by simpa using hfuel
      simp [walk?, he, ih hrest hlen]

theorem Holds.toList?_eq (h : c.Holds es) : c.toList? = some (values es) := by
  rw [toList?, h.first, walk?_eq h.linked h.length_le]
  rfl

def Sound (c : Chain) : Prop := ∃ es, c.Holds es

/-- A checked operation answers something and leaves a sound chain. -/
def Completes {α : Type} (result : Option (α × Chain)) : Prop :=
  ∃ answer c', result = some (answer, c') ∧ c'.Sound

namespace Completes

variable {α : Type} {answer : α}

theorem sound (h : Completes (some (answer, c))) : c.Sound := by
  obtain ⟨answer, c, ⟨⟩, hsound⟩ := h
  exact hsound

theorem not_none : ¬Completes (none : Option (α × Chain)) := nofun

end Completes

namespace Sound

theorem within (limit : Option Nat) : (Chain.within limit).Sound := ⟨[], holds_within limit⟩

theorem pushFront? (h : c.Sound) (v : Int32) : Completes (c.pushFront? v) := by
  obtain ⟨es, h⟩ := h
  cases hfull : c.isFull with
  | false =>
    obtain ⟨slot, c', hc', hheld, -⟩ := h.pushFront? hfull v
    exact ⟨true, c', hc', _, hheld⟩
  | true => exact ⟨false, c, pushFront?_of_isFull hfull v, es, h⟩

theorem pushBack? (h : c.Sound) (v : Int32) : Completes (c.pushBack? v) := by
  obtain ⟨es, h⟩ := h
  cases hfull : c.isFull with
  | false =>
    obtain ⟨slot, c', hc', hheld, -⟩ := h.pushBack? hfull v
    exact ⟨true, c', hc', _, hheld⟩
  | true => exact ⟨false, c, pushBack?_of_isFull hfull v, es, h⟩

theorem popFront? (h : c.Sound) : Completes c.popFront? := by
  obtain ⟨_ | ⟨e, es⟩, h⟩ := h
  · exact ⟨none, c, h.popFront?_nil, [], h⟩
  · obtain ⟨c', hc', hheld, -⟩ := h.popFront?_cons
    exact ⟨some e.value, c', hc', es, hheld⟩

theorem setFront? (h : c.Sound) (v : Int32) : Completes (c.setFront? v) := by
  obtain ⟨_ | ⟨e, es⟩, h⟩ := h
  · exact ⟨none, c, h.setFront?_nil v, [], h⟩
  · obtain ⟨c', hc', hheld, -⟩ := h.setFront?_cons v
    exact ⟨some e.value, c', hc', _, hheld⟩

theorem swapFront? (h : c.Sound) : Completes c.swapFront? := by
  obtain ⟨es, h⟩ := h
  match es with
  | [] => exact ⟨false, c, h.swapFront?_of_length_lt (by simp), _, h⟩
  | [e] => exact ⟨false, c, h.swapFront?_of_length_lt (by simp), _, h⟩
  | e :: f :: es =>
    obtain ⟨c', hc', hheld, -⟩ := h.swapFront?_cons_cons
    exact ⟨true, c', hc', _, hheld⟩

theorem rotateLeft? (h : c.Sound) : Completes (c.rotateLeft?.map ((), ·)) := by
  obtain ⟨_ | ⟨e, es⟩, h⟩ := h
  · exact ⟨(), c, by rw [h.rotateLeft?_of_length_lt (by simp), Option.map_some], [], h⟩
  · obtain ⟨c', hc', hheld, -⟩ := h.rotateLeft?_cons
    exact ⟨(), c', by rw [hc', Option.map_some], _, hheld⟩

theorem rotateRight? (h : c.Sound) : Completes (c.rotateRight?.map ((), ·)) := by
  obtain ⟨es, h⟩ := h
  by_cases hes : es = []
  · subst hes
    exact ⟨(), c, by rw [h.rotateRight?_of_length_lt (by simp), Option.map_some], [], h⟩
  · rw [← List.dropLast_concat_getLast hes] at h
    obtain ⟨c', hc', hheld, -⟩ := h.rotateRight?_concat
    exact ⟨(), c', by rw [hc', Option.map_some], _, hheld⟩

theorem isSome_front? (h : c.Sound) : c.front?.isSome := by
  obtain ⟨es, h⟩ := h
  rw [h.front?_eq, Option.isSome_some]

theorem isSome_frontPair? (h : c.Sound) : c.frontPair?.isSome := by
  obtain ⟨es, h⟩ := h
  match es with
  | [] => rw [h.frontPair?_of_length_lt (by simp), Option.isSome_some]
  | [e] => rw [h.frontPair?_of_length_lt (by simp), Option.isSome_some]
  | e :: f :: es => rw [h.frontPair?_cons_cons, Option.isSome_some]

theorem isSome_toList? (h : c.Sound) : c.toList?.isSome := by
  obtain ⟨es, h⟩ := h
  rw [h.toList?_eq, Option.isSome_some]

end Sound

end DequeMachine.Chain
