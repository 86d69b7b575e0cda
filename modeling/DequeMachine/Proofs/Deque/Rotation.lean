import Mathlib.Data.Int.ModEq
import Mathlib.Tactic.Ring
import DequeMachine.Proofs.Deque.Linkage

namespace DequeMachine

open Entry
open Deque (Call)

/-- A rotation one way or the other. -/
inductive Turn
  | left
  | right
  deriving DecidableEq, Repr

namespace Turn

def call : Turn → Call
  | left => .rotateLeft
  | right => .rotateRight

/-- How many places to the left the turns rotate `n` values in all. -/
def places (turns : List Turn) (n : Nat) : Nat :=
  ((turns.count left - turns.count right : Int) % n).toNat

/-- How many places to the left one turn rotates `n` values: to the right is all the way around but one. -/
def lefts (n : Nat) : Turn → Nat
  | left => 1
  | right => n - 1

theorem sum_lefts_modEq {n : Nat} (hn : 0 < n) (turns : List Turn) :
    ((turns.map (lefts n)).sum : Int) ≡ turns.count left - turns.count right [ZMOD n] := by
  induction turns with
  | nil => rfl
  | cons turn turns ih =>
    rw [List.map_cons, List.sum_cons, Nat.cast_add]
    cases turn with
    | left =>
      have hcount : (((left :: turns).count left : Nat) - (left :: turns).count right : Int) =
          1 + (turns.count left - turns.count right) := by
        rw [List.count_cons_self, List.count_cons_of_ne (by decide), Nat.cast_succ]
        ring
      rw [hcount]
      exact (Int.ModEq.refl _).add ih
    | right =>
      have hcount : (((right :: turns).count left : Nat) - (right :: turns).count right : Int) =
          -1 + (turns.count left - turns.count right) := by
        rw [List.count_cons_self, List.count_cons_of_ne (by decide), Nat.cast_succ]
        ring
      have haround : ((n - 1 : Nat) : Int) ≡ -1 [ZMOD n] := by
        rw [Nat.cast_sub hn, Int.modEq_iff_dvd]
        exact ⟨-1, by ring⟩
      rw [hcount]
      exact haround.add ih

theorem sum_lefts_mod {n : Nat} (hn : 0 < n) (turns : List Turn) :
    (turns.map (lefts n)).sum % n = places turns n := by
  rw [places, ← sum_lefts_modEq hn turns, ← Int.natCast_mod, Int.toNat_natCast]

theorem rotate_sum_lefts {α : Type} (l : List α) (turns : List Turn) :
    l.rotate (turns.map (lefts l.length)).sum = l.rotate (places turns l.length) := by
  cases l with
  | nil => rw [List.rotate_nil, List.rotate_nil]
  | cons a l => rw [← sum_lefts_mod (by simp), List.rotate_mod]

theorem places_nil (n : Nat) : places [] n = 0 := by simp [places]

theorem places_left_right (n : Nat) : places [left, right] n = 0 := by simp [places]

theorem places_right_left (n : Nat) : places [right, left] n = 0 := by simp [places]

theorem places_replicate_left (k n : Nat) : places (List.replicate k left) n = k % n := by
  have hright : (List.replicate k left).count right = 0 := by simp [List.count_replicate]
  rw [places, List.count_replicate_self, hright, Nat.cast_zero, sub_zero, ← Int.natCast_mod,
    Int.toNat_natCast]

theorem places_right (n : Nat) : places [right] n = (n - 1) % n := by
  cases n with
  | zero => rfl
  | succ n => exact (sum_lefts_mod n.succ_pos [right]).symm

end Turn

namespace Chain

open Turn (places lefts)

variable {c c' : Chain} {es : List Entry}

theorem Holds.turn? (h : c.Holds es) (turn : Turn) :
    ∃ c', c.perform? turn.call = some (.done, c') ∧ c'.Holds (es.rotate (lefts es.length turn)) ∧
      c.SameSlots c' := by
  cases turn with
  | left =>
    obtain ⟨d, hd, hheld, hslots⟩ := h.rotateLeft?
    exact ⟨d, by simp [Turn.call, perform?, hd], hheld, hslots⟩
  | right =>
    obtain ⟨d, hd, hheld, hslots⟩ := h.rotateRight?
    exact ⟨d, by simp [Turn.call, perform?, hd], hheld, hslots⟩

theorem Holds.turns? (h : c.Holds es) (turns : List Turn) :
    ∃ c', c.after? (turns.map Turn.call) = some c' ∧
      c'.Holds (es.rotate (turns.map (lefts es.length)).sum) ∧ c.SameSlots c' := by
  induction turns generalizing c es with
  | nil => exact ⟨c, rfl, by simpa using h, .refl c⟩
  | cons turn turns ih =>
    obtain ⟨d, hd, hheld, hslots⟩ := h.turn? turn
    obtain ⟨d', hd', hheld', hslots'⟩ := ih hheld
    rw [List.length_rotate, List.rotate_rotate, ← List.sum_cons, ← List.map_cons] at hheld'
    exact ⟨d', by simpa [after?, hd] using hd', hheld', hslots.trans hslots'⟩

/-- Turns that come to the same number of places leave the same chain. -/
theorem Holds.after?_eq (h : c.Holds es) (turns turns' : List Turn)
    (hplaces : places turns es.length = places turns' es.length) :
    c.after? (turns.map Turn.call) = c.after? (turns'.map Turn.call) := by
  obtain ⟨d, hd, hheld, hslots⟩ := h.turns? turns
  obtain ⟨d', hd', hheld', hslots'⟩ := h.turns? turns'
  rw [Turn.rotate_sum_lefts, hplaces, ← Turn.rotate_sum_lefts] at hheld
  have hsame : d.SameSlots d' :=
    ⟨hslots'.cells.trans hslots.cells.symm, hslots'.spare.trans hslots.spare.symm,
      hslots'.limit.trans hslots.limit.symm⟩
  rw [hd, hd', hheld.unique hheld' hsame]

/-- What rotating to the left by so many places does: both walks meet the slots rotated, and the values in
them; no slot is taken or given up, and each keeps its value. -/
structure Rotated (c : Chain) (k : Nat) (c' : Chain) : Prop where
  values : ∀ xs, c.toList? = some xs → c'.toList? = some (xs.rotate k)
  linked : ∀ slots, c.WellLinked slots → c'.WellLinked (slots.rotate k)
  size : c'.size = c.size
  live : c'.live = c.live
  cells : c'.cells.size = c.cells.size
  spare : c'.spare = c.spare
  inPlace : ∀ s, (c'.cell? s).map Cell.value = (c.cell? s).map Cell.value
  short : c.size < 2 → c' = c

theorem Holds.rotated {k : Nat} (h : c.Holds es) (h' : c'.Holds (es.rotate k))
    (hslots : c.SameSlots c') : c.Rotated k c' where
  values xs hxs := by
    rw [h.toList?_eq] at hxs
    obtain rfl : values es = xs := Option.some.inj hxs
    rw [h'.toList?_eq, Entry.values, Entry.values, List.map_rotate]
  linked ss hss := by
    have hforward := hss.forward
    rw [h.forward?_eq] at hforward
    obtain rfl : slots es = ss := Option.some.inj hforward
    have hlinked := h'.wellLinked
    rwa [slots, List.map_rotate] at hlinked
  size := by rw [h'.size, h.size, List.length_rotate]
  live := by rw [h'.live_eq, h.live_eq, List.length_rotate]
  cells := hslots.cells
  spare := hslots.spare
  inPlace s := by
    ext v
    rw [h'.value?_eq_some_iff, h.value?_eq_some_iff, List.mem_rotate]
  short hs := by
    rw [rotate_of_length_lt (h.size ▸ hs)] at h'
    exact h.unique h' hslots

end Chain

/-- After any calls on a new deque, whatever room it has, turns to the left and to the right rotate its values
and its slots by the places they come to, in place. A turn undoes one the other way, as many turns as there are
values lead back to the same chain, and a turn to the right is all but one of these to the left. -/
theorem Deque.rotated_after (room : Option Nat) (calls : List Call) :
    ∃ c xs slots, (Chain.within room).after? calls = some c ∧
      ((Deque.within room).after calls).chain = c ∧ c.toList? = some xs ∧ c.WellLinked slots ∧
      (∀ turns : List Turn, ∃ c', c.after? (turns.map Turn.call) = some c' ∧
        (((Deque.within room).after calls).after (turns.map Turn.call)).chain = c' ∧
        c.Rotated (Turn.places turns xs.length) c') ∧
      c.after? [.rotateLeft, .rotateRight] = some c ∧
      c.after? [.rotateRight, .rotateLeft] = some c ∧
      c.after? (List.replicate xs.length .rotateLeft) = some c ∧
      c.after? [.rotateRight] = c.after? (List.replicate (xs.length - 1) .rotateLeft) := by
  generalize hd : (within room).after calls = d
  obtain ⟨es, h⟩ := d.sound
  have hlength : es.length = (values es).length := (length_values es).symm
  have hreplicate : ∀ k, List.replicate k Call.rotateLeft = (List.replicate k Turn.left).map Turn.call := by
    intro k
    rw [List.map_replicate, Turn.call]
  refine ⟨d.chain, values es, slots es, hd ▸ (within room).after?_eq calls, rfl, h.toList?_eq, h.wellLinked,
    fun turns => ?_, ?_, ?_, ?_, ?_⟩
  · obtain ⟨c', hc', hheld, hslots⟩ := h.turns? turns
    obtain rfl : (d.after (turns.map Turn.call)).chain = c' :=
      Option.some.inj ((d.after?_eq _).symm.trans hc')
    rw [Turn.rotate_sum_lefts, hlength] at hheld
    exact ⟨_, hc', rfl, h.rotated hheld hslots⟩
  · exact h.after?_eq [.left, .right] []
      ((Turn.places_left_right _).trans (Turn.places_nil _).symm)
  · exact h.after?_eq [.right, .left] []
      ((Turn.places_right_left _).trans (Turn.places_nil _).symm)
  · rw [hreplicate, ← hlength]
    apply h.after?_eq _ []
    rw [Turn.places_replicate_left, Nat.mod_self, Turn.places_nil]
  · rw [hreplicate, ← hlength]
    apply h.after?_eq [.right]
    rw [Turn.places_replicate_left, Turn.places_right]

end DequeMachine
