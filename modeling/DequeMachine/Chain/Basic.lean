/-!
# Chains of cells

Values live in numbered slots and are linked both ways by slot number. A slot whose cell was taken
out goes onto the list of spare slots, and the latest spare slot is the first to be used again.

Every operation checks each slot it follows and each difference it takes. It answers `none` when that
slot holds no cell or the difference is negative, so `none` means that the chain was broken before,
never that it is short or has no room: then the answer itself is `none` or `false`.
-/
namespace DequeMachine

structure Cell where
  value : Int32
  before : Option Nat := none
  after : Option Nat := none
  deriving DecidableEq, Repr

structure Chain where
  cells : Array (Option Cell) := #[]
  spare : List Nat := []
  first : Option Nat := none
  last : Option Nat := none
  size : Nat := 0
  /-- How many slots there is room for, if that is known. -/
  limit : Option Nat := none
  deriving DecidableEq, Repr

namespace Chain

/-- An empty chain with room for so many slots. -/
def within (limit : Option Nat) : Chain := { limit }

instance : EmptyCollection Chain := ⟨within none⟩

/-- The cell that a slot holds. -/
def cell? (c : Chain) (slot : Nat) : Option Cell := c.cells[slot]?.join

/-- The slots that hold a cell, counted in the slots themselves. -/
def live (c : Chain) : Nat := c.cells.countP Option.isSome

def modify? (slot : Nat) (f : Cell → Cell) (c : Chain) : Option Chain :=
  match c.cell? slot with
  | some cell => some { c with cells := c.cells.setIfInBounds slot (some (f cell)) }
  | none => none

/-- How much room the list of spare slots lacks to take in every slot and one more. There are never
more spare slots than that. -/
def lacking? (c : Chain) : Option Nat :=
  if c.spare.length ≤ c.cells.size + 1 then some (c.cells.size + 1 - c.spare.length) else none

/-- Whether there is room for one more slot and for making it spare. -/
def hasRoom (c : Chain) : Bool := c.limit.all fun limit => c.cells.size < limit

/-- Whether no slot is spare and there is no room for another. -/
def isFull (c : Chain) : Bool := c.spare.isEmpty && !c.hasRoom

/-- Puts an unlinked cell into the latest spare slot, or into a new one if none is spare, and answers
the slot; without room for a new one it answers `none` and nothing changes. A new slot comes with
room to make it spare later, so that taking cells out needs none. -/
def store? (value : Int32) (c : Chain) : Option (Option Nat × Chain) :=
  match c.spare with
  | slot :: spare =>
    if slot < c.cells.size then
      some (some slot, { c with cells := c.cells.setIfInBounds slot (some { value }), spare })
    else none
  | [] =>
    match c.lacking? with
    | some _ =>
      if c.hasRoom then
        some (some c.cells.size, { c with cells := c.cells.push (some { value }) })
      else some (none, c)
    | none => none

/-- Takes the cell out of a slot and makes the slot spare. -/
def discard? (slot : Nat) (c : Chain) : Option (Int32 × Chain) :=
  match c.cell? slot with
  | some cell =>
    some (cell.value, { c with cells := c.cells.setIfInBounds slot none, spare := slot :: c.spare })
  | none => none

def grow (c : Chain) : Chain := { c with size := c.size + 1 }

/-- A chain of no size does not shrink. -/
def shrink? (c : Chain) : Option Chain :=
  if c.size = 0 then none else some { c with size := c.size - 1 }

/-- Links an unlinked cell in front of the first one. -/
def linkFirst? (slot : Nat) (c : Chain) : Option Chain := do
  let old := c.first
  let c ← c.modify? slot fun cell => { cell with before := none, after := old }
  let c ← match old with
    | some next => c.modify? next fun cell => { cell with before := some slot }
    | none => some { c with last := some slot }
  some { c with first := some slot }.grow

/-- Links an unlinked cell behind the last one. -/
def linkLast? (slot : Nat) (c : Chain) : Option Chain := do
  let old := c.last
  let c ← c.modify? slot fun cell => { cell with before := old, after := none }
  let c ← match old with
    | some previous => c.modify? previous fun cell => { cell with after := some slot }
    | none => some { c with first := some slot }
  some { c with last := some slot }.grow

/-- Unlinks the first cell and leaves it in its slot, which is the answer. -/
def unlinkFirst? (c : Chain) : Option (Option Nat × Chain) :=
  match c.first with
  | none => some (none, c)
  | some slot => do
    let next := (← c.cell? slot).after
    let c ← match next with
      | some next => c.modify? next fun cell => { cell with before := none }
      | none => some { c with last := none }
    let c ← { c with first := next }.shrink?
    some (some slot, c)

/-- Unlinks the last cell and leaves it in its slot, which is the answer. -/
def unlinkLast? (c : Chain) : Option (Option Nat × Chain) :=
  match c.last with
  | none => some (none, c)
  | some slot => do
    let previous := (← c.cell? slot).before
    let c ← match previous with
      | some previous => c.modify? previous fun cell => { cell with after := none }
      | none => some { c with first := none }
    let c ← { c with last := previous }.shrink?
    some (some slot, c)

/-- Answers whether there was room for the value. -/
def pushFront? (value : Int32) (c : Chain) : Option (Bool × Chain) := do
  match ← c.store? value with
  | (none, c) => some (false, c)
  | (some slot, c) =>
    let c ← c.linkFirst? slot
    some (true, c)

/-- Answers whether there was room for the value. -/
def pushBack? (value : Int32) (c : Chain) : Option (Bool × Chain) := do
  match ← c.store? value with
  | (none, c) => some (false, c)
  | (some slot, c) =>
    let c ← c.linkLast? slot
    some (true, c)

def popFront? (c : Chain) : Option (Option Int32 × Chain) := do
  match ← c.unlinkFirst? with
  | (none, c) => some (none, c)
  | (some slot, c) =>
    let (value, c) ← c.discard? slot
    some (some value, c)

def front? (c : Chain) : Option (Option Int32) :=
  match c.first with
  | none => some none
  | some slot => (c.cell? slot).map fun cell => some cell.value

def frontPair? (c : Chain) : Option (Option (Int32 × Int32)) :=
  match c.first with
  | none => some none
  | some slot => do
    let front ← c.cell? slot
    match front.after with
    | none => some none
    | some next =>
      let second ← c.cell? next
      some (some (front.value, second.value))

/-- Overwrites the front value and answers the value it had. -/
def setFront? (value : Int32) (c : Chain) : Option (Option Int32 × Chain) :=
  match c.first with
  | none => some (none, c)
  | some slot => do
    let old := (← c.cell? slot).value
    let c ← c.modify? slot fun cell => { cell with value }
    some (some old, c)

/-- Exchanges the two front values, in their cells; `false` if there are fewer. -/
def swapFront? (c : Chain) : Option (Bool × Chain) :=
  match c.first with
  | none => some (false, c)
  | some slot => do
    let front ← c.cell? slot
    match front.after with
    | none => some (false, c)
    | some next =>
      let second ← c.cell? next
      let c ← c.modify? slot fun cell => { cell with value := second.value }
      let c ← c.modify? next fun cell => { cell with value := front.value }
      some (true, c)

/-- Relinks the first cell behind the last one, if there are two. -/
def rotateLeft? (c : Chain) : Option Chain :=
  if c.size < 2 then some c else do
    match ← c.unlinkFirst? with
    | (none, c) => some c
    | (some slot, c) => c.linkLast? slot

/-- Relinks the last cell in front of the first one, if there are two. -/
def rotateRight? (c : Chain) : Option Chain :=
  if c.size < 2 then some c else do
    match ← c.unlinkLast? with
    | (none, c) => some c
    | (some slot, c) => c.linkFirst? slot

/-- Follows the links from a slot to the end. The fuel bounds the cells that are visited, and a
chain that runs out of it is broken. -/
def walk? (c : Chain) : Nat → Option Nat → List Int32 → Option (List Int32)
  | _, none, visited => some visited.reverse
  | 0, some _, _ => none
  | fuel + 1, some slot, visited =>
    match c.cell? slot with
    | some cell => c.walk? fuel cell.after (cell.value :: visited)
    | none => none

/-- Gives up all slots. -/
def clear (c : Chain) : Chain := within c.limit

/-- The values from front to back. No chain visits a slot twice, so the slots bound the walk. -/
def toList? (c : Chain) : Option (List Int32) := c.walk? c.cells.size c.first []

end Chain

end DequeMachine
