import DequeMachine.Chain.Basic

namespace DequeMachine

/-- A slot with the value in it. -/
structure Entry where
  slot : Nat
  value : Int32
  deriving DecidableEq, Repr

namespace Entry

def slots (es : List Entry) : List Nat := es.map slot

def values (es : List Entry) : List Int32 := es.map value

def firstSlot (es : List Entry) : Option Nat := (slots es).head?

def lastSlot (es : List Entry) : Option Nat := (slots es).getLast?

@[simp] theorem slots_nil : slots [] = [] := rfl

@[simp] theorem slots_cons (e : Entry) (es : List Entry) : slots (e :: es) = e.slot :: slots es := rfl

@[simp] theorem slots_append (es fs : List Entry) : slots (es ++ fs) = slots es ++ slots fs := by
  simp [slots]

theorem slots_reverse (es : List Entry) : slots es.reverse = (slots es).reverse := List.map_reverse

@[simp] theorem length_slots (es : List Entry) : (slots es).length = es.length := by simp [slots]

@[simp] theorem values_nil : values [] = [] := rfl

@[simp] theorem values_cons (e : Entry) (es : List Entry) :
    values (e :: es) = e.value :: values es := rfl

@[simp] theorem values_append (es fs : List Entry) : values (es ++ fs) = values es ++ values fs := by
  simp [values]

@[simp] theorem length_values (es : List Entry) : (values es).length = es.length := by simp [values]

@[simp] theorem firstSlot_nil : firstSlot [] = none := rfl

@[simp] theorem firstSlot_cons (e : Entry) (es : List Entry) : firstSlot (e :: es) = some e.slot := rfl

theorem firstSlot_append (es fs : List Entry) :
    firstSlot (es ++ fs) = (firstSlot es).or (firstSlot fs) := by
  simp [firstSlot]

@[simp] theorem lastSlot_nil : lastSlot [] = none := rfl

@[simp] theorem lastSlot_concat (es : List Entry) (e : Entry) :
    lastSlot (es ++ [e]) = some e.slot := by
  simp [lastSlot]

theorem firstSlot_reverse (es : List Entry) : firstSlot es.reverse = lastSlot es := by
  simp [firstSlot, lastSlot, slots]

theorem lastSlot_reverse (es : List Entry) : lastSlot es.reverse = firstSlot es := by
  simp [firstSlot, lastSlot, slots]

theorem lastSlot_cons (e : Entry) (es : List Entry) :
    lastSlot (e :: es) = (lastSlot es).or (some e.slot) := by
  cases h : (slots es).getLast? <;> simp [lastSlot, List.getLast?_cons, h]

end Entry

/-- What each slot holds. -/
abbrev Store := Nat → Option Cell

namespace Store

/-- Puts a cell, or nothing, into a slot. -/
def set (m : Store) (s : Nat) (x : Option Cell) : Store := fun t => if t = s then x else m t

variable {m : Store} {s t : Nat} {x : Option Cell}

@[simp] theorem set_self : m.set s x s = x := if_pos rfl

theorem set_of_ne (h : t ≠ s) : m.set s x t = m t := if_neg h

end Store

open Entry Store

/-- The cells of a store hold entries in order, between a cell before them and a cell after them. -/
def Linked (m : Store) : Option Nat → List Entry → Option Nat → Prop
  | _, [], _ => True
  | before, e :: es, after =>
    m e.slot = some ⟨e.value, before, (firstSlot es).or after⟩ ∧ Linked m (some e.slot) es after

namespace Linked

variable {m : Store} {before after : Option Nat}

theorem cons_iff {e : Entry} {es : List Entry} :
    Linked m before (e :: es) after ↔
      m e.slot = some ⟨e.value, before, (firstSlot es).or after⟩ ∧
        Linked m (some e.slot) es after := Iff.rfl

theorem singleton_iff {e : Entry} :
    Linked m before [e] after ↔ m e.slot = some ⟨e.value, before, after⟩ := by
  simp [Linked]

theorem append_iff {es fs : List Entry} :
    Linked m before (es ++ fs) after ↔
      Linked m before es ((firstSlot fs).or after) ∧ Linked m ((lastSlot es).or before) fs after := by
  induction es generalizing before with
  | nil => simp [Linked]
  | cons e es ih =>
    simp only [List.cons_append, cons_iff, ih, firstSlot_append, lastSlot_cons, Option.or_assoc,
      Option.some_or, and_assoc]

theorem concat_iff {es : List Entry} {e : Entry} :
    Linked m before (es ++ [e]) after ↔
      Linked m before es (some e.slot) ∧
        m e.slot = some ⟨e.value, (lastSlot es).or before, after⟩ := by
  rw [append_iff, singleton_iff]
  simp

theorem neighbours {es fs : List Entry} {e f : Entry}
    (h : Linked m before (es ++ e :: f :: fs) after) :
    m e.slot = some ⟨e.value, (lastSlot es).or before, some f.slot⟩ ∧
      m f.slot = some ⟨f.value, some e.slot, (firstSlot fs).or after⟩ := by
  obtain ⟨-, hrest⟩ := append_iff.mp h
  obtain ⟨he, hrest⟩ := cons_iff.mp hrest
  exact ⟨he, (cons_iff.mp hrest).1⟩

/-- A change in a slot that no entry occupies is not seen. -/
theorem set_iff {es : List Entry} {s : Nat} {x : Option Cell} (hs : s ∉ slots es) :
    Linked (m.set s x) before es after ↔ Linked m before es after := by
  induction es generalizing before with
  | nil => simp [Linked]
  | cons e es ih =>
    simp only [slots_cons, List.mem_cons, not_or] at hs
    rw [cons_iff, cons_iff, ih hs.2, set_of_ne (Ne.symm hs.1)]

/-- Every entry has its cell, whatever its neighbours. -/
theorem exists_cell {es : List Entry} (h : Linked m before es after) {s : Nat} (hs : s ∈ slots es) :
    ∃ cell, m s = some cell := by
  induction es generalizing before with
  | nil => simp at hs
  | cons e es ih =>
    rcases List.mem_cons.mp hs with rfl | hs
    · exact ⟨_, h.1⟩
    · exact ih h.2 hs

/-- Overwriting the value in one cell overwrites the value of one entry. -/
theorem overwrite {es fs : List Entry} {e : Entry} (h : Linked m before (es ++ e :: fs) after)
    (hn : (slots (es ++ e :: fs)).Nodup) (v : Int32) :
    ∃ cell, m e.slot = some cell ∧ cell.value = e.value ∧
      Linked (m.set e.slot (some { cell with value := v })) before
        (es ++ { e with value := v } :: fs) after := by
  obtain ⟨hes, hrest⟩ := append_iff.mp h
  obtain ⟨he, hfs⟩ := cons_iff.mp hrest
  simp only [slots_append, slots_cons, List.nodup_append, List.nodup_cons] at hn
  obtain ⟨-, ⟨hfree, -⟩, hapart⟩ := hn
  have hbefore : e.slot ∉ slots es := fun hs => hapart _ hs _ (by simp) rfl
  refine ⟨_, he, rfl, append_iff.mpr ⟨?_, cons_iff.mpr ⟨?_, ?_⟩⟩⟩
  · exact (set_iff hbefore).mpr hes
  · exact set_self
  · exact (set_iff hfree).mpr hfs

end Linked

/-- A cell seen from the other end. -/
def Cell.mirror (cell : Cell) : Cell := ⟨cell.value, cell.after, cell.before⟩

@[simp] theorem Cell.mirror_mirror (cell : Cell) : cell.mirror.mirror = cell := rfl

/-- Linked entries are linked in reverse when every cell is seen from the other end. -/
theorem Linked.mirror {m : Store} {before after : Option Nat} {es : List Entry}
    (h : Linked m before es after) :
    Linked (fun s => (m s).map Cell.mirror) after es.reverse before := by
  induction es generalizing before with
  | nil => trivial
  | cons e es ih =>
    obtain ⟨he, hrest⟩ := cons_iff.mp h
    rw [List.reverse_cons, concat_iff]
    refine ⟨ih hrest, ?_⟩
    simp [he, Cell.mirror, lastSlot_reverse]

end DequeMachine
