import DequeMachine.Proofs.Chain.Operations

namespace DequeMachine

open Deque (Call Reply)

namespace Chain

/-- A call on a chain; `none` when it breaks off. -/
def perform? (call : Call) (c : Chain) : Option (Reply × Chain) :=
  match call with
  | .pushFront v => (c.pushFront? v).map fun (stored, c) => (.flag stored, c)
  | .pushBack v => (c.pushBack? v).map fun (stored, c) => (.flag stored, c)
  | .popFront => c.popFront?.map fun (v, c) => (.value v, c)
  | .front => c.front?.map fun v => (.value v, c)
  | .frontPair => c.frontPair?.map fun p => (.pair p, c)
  | .swapFront => c.swapFront?.map fun (b, c) => (.flag b, c)
  | .setFront v => (c.setFront? v).map fun (old, c) => (.value old, c)
  | .rotateLeft => c.rotateLeft?.map fun c => (.done, c)
  | .rotateRight => c.rotateRight?.map fun c => (.done, c)
  | .release => some (.done, c.clear)
  | .size => some (.count c.size, c)
  | .isEmpty => some (.flag c.first.isNone, c)
  | .live => some (.count c.live, c)
  | .readings n => (c.readings? n c.first).map fun vs => (.readings vs, c)
  | .inline => c.toList?.map fun vs => (.text (Deque.inlineText vs), c)
  | .block => c.toList?.map fun vs => (.text (Deque.blockText vs), c)

def after? : List Call → Chain → Option Chain
  | [], c => some c
  | call :: calls, c => do
    let (_, c) ← c.perform? call
    c.after? calls

end Chain

def Deque.after : List Call → Deque → Deque
  | [], d => d
  | call :: calls, d => (d.perform call).2.after calls

def Plain.after : List Call → List Int32 → List Int32
  | [], xs => xs
  | call :: calls, xs => after calls (perform call xs).2

namespace Deque

variable {d : Deque} {xs : List Int32}

theorem pushFront?_eq (v : Int32) (d : Deque) :
    d.chain.pushFront? v = some ((d.pushFront v).1, (d.pushFront v).2.chain) :=
  eq_some_complete _

theorem pushBack?_eq (v : Int32) (d : Deque) :
    d.chain.pushBack? v = some ((d.pushBack v).1, (d.pushBack v).2.chain) :=
  eq_some_complete _

theorem popFront?_eq (d : Deque) : d.chain.popFront? = some (d.popFront.1, d.popFront.2.chain) :=
  eq_some_complete _

theorem setFront?_eq (v : Int32) (d : Deque) :
    d.chain.setFront? v = some ((d.setFront v).1, (d.setFront v).2.chain) :=
  eq_some_complete _

theorem swapFront?_eq (d : Deque) : d.chain.swapFront? = some (d.swapFront.1, d.swapFront.2.chain) :=
  eq_some_complete _

theorem rotateLeft?_eq (d : Deque) : d.chain.rotateLeft? = some d.rotateLeft.chain := by
  obtain ⟨c, hc, heq⟩ := Option.map_eq_some_iff.mp (eq_some_complete d.sound.rotateLeft?)
  rw [hc]
  exact congrArg (some ·.2) heq

theorem rotateRight?_eq (d : Deque) : d.chain.rotateRight? = some d.rotateRight.chain := by
  obtain ⟨c, hc, heq⟩ := Option.map_eq_some_iff.mp (eq_some_complete d.sound.rotateRight?)
  rw [hc]
  exact congrArg (some ·.2) heq

theorem front?_eq (d : Deque) : d.chain.front? = some d.front? := (Option.some_get _).symm

theorem frontPair?_eq (d : Deque) : d.chain.frontPair? = some d.frontPair? := (Option.some_get _).symm

theorem toList?_eq (d : Deque) : d.chain.toList? = some d.toList := (Option.some_get _).symm

theorem readings?_eq (n : Nat) (d : Deque) : d.chain.readings? n d.chain.first = some (d.readings n) := by
  obtain ⟨es, h⟩ := d.sound
  have hvalues : d.toList = Entry.values es := Option.some.inj (d.toList?_eq.symm.trans h.toList?_eq)
  rw [h.first, Chain.readings?_eq h.linked, Plain.readings_eq, readings, hvalues]

/-- No call on a deque breaks off, and it does what it does on the chain. -/
theorem perform?_eq (call : Call) (d : Deque) :
    d.chain.perform? call = some ((d.perform call).1, (d.perform call).2.chain) := by
  cases call with
  | pushFront v => rw [Chain.perform?, d.pushFront?_eq, Option.map_some]; rfl
  | pushBack v => rw [Chain.perform?, d.pushBack?_eq, Option.map_some]; rfl
  | popFront => rw [Chain.perform?, d.popFront?_eq, Option.map_some]; rfl
  | front => rw [Chain.perform?, d.front?_eq, Option.map_some]; rfl
  | frontPair => rw [Chain.perform?, d.frontPair?_eq, Option.map_some]; rfl
  | swapFront => rw [Chain.perform?, d.swapFront?_eq, Option.map_some]; rfl
  | setFront v => rw [Chain.perform?, d.setFront?_eq, Option.map_some]; rfl
  | rotateLeft => rw [Chain.perform?, d.rotateLeft?_eq, Option.map_some]; rfl
  | rotateRight => rw [Chain.perform?, d.rotateRight?_eq, Option.map_some]; rfl
  | readings n => rw [Chain.perform?, d.readings?_eq, Option.map_some]; rfl
  | inline => rw [Chain.perform?, d.toList?_eq, Option.map_some]; rfl
  | block => rw [Chain.perform?, d.toList?_eq, Option.map_some]; rfl
  | release | size | isEmpty | live => rfl

theorem after?_eq (calls : List Call) (d : Deque) : d.chain.after? calls = some (d.after calls).chain := by
  induction calls generalizing d with
  | nil => rfl
  | cons call calls ih =>
    rw [Chain.after?, d.perform?_eq call]
    exact ih (d.perform call).2

end Deque

namespace Chain.Represents

variable {c : Chain} {xs : List Int32}

theorem empty : (∅ : Chain).Represents [] := ⟨[], holds_within none, rfl, rfl⟩

/-- One call does on a chain what it does on the list that the chain represents. -/
theorem perform? (h : c.Represents xs) (call : Call) :
    ∃ c', c.perform? call = some ((Plain.perform call xs).1, c') ∧
      c'.Represents (Plain.perform call xs).2 := by
  cases call with
  | pushFront v =>
    obtain ⟨d, hd, hrep⟩ := h.pushFront? v
    exact ⟨d, by simp [Chain.perform?, hd, Plain.perform], hrep⟩
  | pushBack v =>
    obtain ⟨d, hd, hrep⟩ := h.pushBack? v
    exact ⟨d, by simp [Chain.perform?, hd, Plain.perform], hrep⟩
  | popFront =>
    obtain ⟨d, hd, hrep⟩ := h.popFront?
    exact ⟨d, by simp [Chain.perform?, hd, Plain.perform], hrep⟩
  | front => exact ⟨c, by simp [Chain.perform?, h.front?, Plain.perform], h⟩
  | frontPair => exact ⟨c, by simp [Chain.perform?, h.frontPair?, Plain.perform], h⟩
  | swapFront =>
    obtain ⟨d, hd, hrep⟩ := h.swapFront?
    exact ⟨d, by simp [Chain.perform?, hd, Plain.perform], hrep⟩
  | setFront v =>
    obtain ⟨d, hd, hrep⟩ := h.setFront? v
    exact ⟨d, by simp [Chain.perform?, hd, Plain.perform], hrep⟩
  | rotateLeft =>
    obtain ⟨d, hd, hrep⟩ := h.rotateLeft?
    exact ⟨d, by simp [Chain.perform?, hd, Plain.perform], hrep⟩
  | rotateRight =>
    obtain ⟨d, hd, hrep⟩ := h.rotateRight?
    exact ⟨d, by simp [Chain.perform?, hd, Plain.perform], hrep⟩
  | release => exact ⟨c.clear, rfl, h.clear⟩
  | size => exact ⟨c, by simp [Chain.perform?, h.size_eq, Plain.perform], h⟩
  | isEmpty => exact ⟨c, by simp [Chain.perform?, h.isNone_first, Plain.perform], h⟩
  | live => exact ⟨c, by simp [Chain.perform?, h.live_eq, Plain.perform], h⟩
  | readings n => exact ⟨c, by simp [Chain.perform?, h.readings?_eq, Plain.perform], h⟩
  | inline | block => exact ⟨c, by simp [Chain.perform?, h.toList?_eq, Plain.perform], h⟩

end Chain.Represents

/-- A deque represents a list when its chain does. -/
def Deque.Represents (d : Deque) (xs : List Int32) : Prop := d.chain.Represents xs

namespace Deque.Represents

variable {d : Deque} {xs : List Int32}

theorem empty : (∅ : Deque).Represents [] := Chain.Represents.empty

theorem perform (h : d.Represents xs) (call : Call) :
    (d.perform call).1 = (Plain.perform call xs).1 ∧
      (d.perform call).2.Represents (Plain.perform call xs).2 := by
  obtain ⟨c, hc, hrep⟩ := Chain.Represents.perform? h call
  obtain ⟨hreply, rfl⟩ := Prod.mk.inj (Option.some.inj ((d.perform?_eq call).symm.trans hc))
  exact ⟨hreply, hrep⟩

theorem toList_eq (h : d.Represents xs) : d.toList = xs :=
  Option.some.inj (d.toList?_eq.symm.trans (Chain.Represents.toList?_eq h))

theorem size_eq (h : d.Represents xs) : d.size = xs.length := Chain.Represents.size_eq h

theorem isEmpty_eq (h : d.Represents xs) : d.isEmpty = xs.isEmpty := Chain.Represents.isNone_first h

theorem live_eq (h : d.Represents xs) : d.live = xs.length := Chain.Represents.live_eq h

theorem isFull_eq (h : d.Represents xs) : d.chain.isFull = false := by
  obtain ⟨es, -, -, hlimit⟩ := h
  exact Chain.isFull_of_unlimited hlimit

theorem pushFront (h : d.Represents xs) (v : Int32) :
    (d.pushFront v).1 = true ∧ (d.pushFront v).2.Represents (v :: xs) := by
  obtain ⟨hreply, hrep⟩ := h.perform (.pushFront v)
  exact ⟨Reply.flag.inj hreply, hrep⟩

theorem pushBack (h : d.Represents xs) (v : Int32) :
    (d.pushBack v).1 = true ∧ (d.pushBack v).2.Represents (xs ++ [v]) := by
  obtain ⟨hreply, hrep⟩ := h.perform (.pushBack v)
  exact ⟨Reply.flag.inj hreply, hrep⟩

theorem popFront (h : d.Represents xs) :
    d.popFront.1 = xs.head? ∧ d.popFront.2.Represents xs.tail := by
  obtain ⟨hreply, hrep⟩ := h.perform .popFront
  exact ⟨Reply.value.inj hreply, hrep⟩

theorem front?_eq (h : d.Represents xs) : d.front? = xs.head? :=
  Reply.value.inj (h.perform .front).1

theorem frontPair?_eq (h : d.Represents xs) : d.frontPair? = Plain.frontPair? xs :=
  Reply.pair.inj (h.perform .frontPair).1

theorem swapFront (h : d.Represents xs) :
    d.swapFront.1 = (Plain.swapFront xs).1 ∧ d.swapFront.2.Represents (Plain.swapFront xs).2 := by
  obtain ⟨hreply, hrep⟩ := h.perform .swapFront
  exact ⟨Reply.flag.inj hreply, hrep⟩

theorem setFront (h : d.Represents xs) (v : Int32) :
    (d.setFront v).2.Represents (Plain.setFront v xs) :=
  (h.perform (.setFront v)).2

theorem rotateLeft (h : d.Represents xs) : d.rotateLeft.Represents (Plain.rotateLeft xs) :=
  (h.perform .rotateLeft).2

theorem rotateRight (h : d.Represents xs) : d.rotateRight.Represents (Plain.rotateRight xs) :=
  (h.perform .rotateRight).2

/-- The two front values become one. -/
theorem collapse {a b : Int32} (h : d.Represents (a :: b :: xs)) (v : Int32) :
    (d.collapse v).Represents (v :: xs) :=
  h.popFront.2.setFront v

end Deque.Represents

namespace Deque

variable {d d' : Deque}

theorem ext (h : d'.chain = d.chain) : d' = d := by
  obtain ⟨c, hc⟩ := d
  obtain ⟨c', hc'⟩ := d'
  obtain rfl : c' = c := h
  rfl

theorem eq_of_some_eq {α : Type} {answer answer' : α}
    (h : some (answer, d.chain) = some (answer', d'.chain)) : d' = d :=
  ext (Prod.mk.inj (Option.some.inj h)).2.symm

/-- A deque has no room for a value only if it is full, and then stays as it is. -/
theorem pushFront_of_refused {v : Int32} (h : d.pushFront v = (false, d')) :
    d.chain.isFull = true ∧ d' = d := by
  have hpush := d.pushFront?_eq v
  rw [h] at hpush
  cases hfull : d.chain.isFull with
  | true =>
    rw [Chain.pushFront?_of_isFull hfull] at hpush
    exact ⟨rfl, eq_of_some_eq hpush⟩
  | false =>
    obtain ⟨es, hheld⟩ := d.sound
    obtain ⟨slot, c, hc, -⟩ := hheld.pushFront? hfull v
    rw [hc] at hpush
    cases hpush

theorem pushBack_of_refused {v : Int32} (h : d.pushBack v = (false, d')) :
    d.chain.isFull = true ∧ d' = d := by
  have hpush := d.pushBack?_eq v
  rw [h] at hpush
  cases hfull : d.chain.isFull with
  | true =>
    rw [Chain.pushBack?_of_isFull hfull] at hpush
    exact ⟨rfl, eq_of_some_eq hpush⟩
  | false =>
    obtain ⟨es, hheld⟩ := d.sound
    obtain ⟨slot, c, hc, -⟩ := hheld.pushBack? hfull v
    rw [hc] at hpush
    cases hpush

/-- A deque without a value gives none up and stays as it is. -/
theorem popFront_of_refused (h : d.popFront = (none, d')) : d' = d := by
  have hpop := d.popFront?_eq
  rw [h] at hpop
  obtain ⟨_ | ⟨e, es⟩, hheld⟩ := d.sound
  · rw [hheld.popFront?_nil] at hpop
    exact eq_of_some_eq hpop
  · obtain ⟨c, hc, -⟩ := hheld.popFront?_cons
    rw [hc] at hpop
    cases hpop

/-- A deque with less than two values exchanges none and stays as it is. -/
theorem swapFront_of_refused (h : d.swapFront = (false, d')) : d' = d := by
  have hswap := d.swapFront?_eq
  rw [h] at hswap
  obtain ⟨es, hheld⟩ := d.sound
  match es with
  | [] =>
    rw [hheld.swapFront?_of_length_lt (by simp)] at hswap
    exact eq_of_some_eq hswap
  | [e] =>
    rw [hheld.swapFront?_of_length_lt (by simp)] at hswap
    exact eq_of_some_eq hswap
  | e :: f :: es =>
    obtain ⟨c, hc, -⟩ := hheld.swapFront?_cons_cons
    rw [hc] at hswap
    cases hswap

end Deque

end DequeMachine
