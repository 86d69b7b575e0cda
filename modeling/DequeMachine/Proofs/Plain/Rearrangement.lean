import DequeMachine.Proofs.Plain.Balance

namespace DequeMachine

namespace Opcode

/-- The opcodes that bring no value in, take none out and change none. -/
def rearranging : List Opcode := [swap, rotl, rotr, nop, pall, pint, pchar, pstr, stack, queue]

/-- The opcode that undoes it, for one that changes the order. -/
def inverse? : Opcode → Option Opcode
  | swap => some swap
  | rotl => some rotr
  | rotr => some rotl
  | _ => none

/-- The opcodes that undo the others, the last of them first. -/
def undoing (ops : List Opcode) : List Opcode := (ops.filterMap inverse?).reverse

theorem undoing_append (ops more : List Opcode) :
    undoing (ops ++ more) = undoing more ++ undoing ops := by
  rw [undoing, List.filterMap_append, List.reverse_append, undoing, undoing]

theorem undoing_singleton (op : Opcode) : undoing [op] = op.inverse?.toList := by
  cases hinverse : op.inverse? <;> simp [undoing, hinverse]

end Opcode

namespace Text

/-- Each line names the opcode at its place. -/
def Spells (ts : List Text) (ops : List Opcode) : Prop := ts.map opcode? = ops.map some

instance (ts : List Text) (ops : List Opcode) : Decidable (Spells ts ops) :=
  inferInstanceAs (Decidable (_ = _))

variable {t : Text} {ts : List Text} {op : Opcode} {ops more : List Opcode}

theorem Spells.nil_iff : Spells ts [] ↔ ts = [] := List.map_eq_nil_iff

theorem Spells.exists_append (h : Spells ts (ops ++ more)) :
    ∃ first rest, ts = first ++ rest ∧ Spells first ops ∧ Spells rest more := by
  rw [Spells, List.map_append] at h
  exact List.map_eq_append_iff.mp h

theorem Spells.exists_singleton (h : Spells ts [op]) : ∃ t, ts = [t] ∧ t.opcode? = some op := by
  obtain ⟨t, rest, rfl, ht, hrest⟩ := List.map_eq_cons_iff.mp h
  obtain rfl := List.map_eq_nil_iff.mp hrest
  exact ⟨t, rfl, ht⟩

end Text

namespace Plain

namespace Machine

/-- A step of the opcode is refused, or leaves the values alone, or moves them and can be undone. -/
inductive Rearranges (op : Opcode) (m : Machine) : Outcome → Prop
  | refused (fault : Fault) : Rearranges op m (.error fault)
  | kept (hop : op.inverse? = none) (printed : Text) {m' : Machine} (h : m'.values = m.values) :
    Rearranges op m (.ok (printed, m'))
  | moved {inverse : Opcode} (hop : op.inverse? = some inverse) {xs : List Int32} (perm : xs.Perm m.values)
    (undo : ∀ (i : Instruction) (mode : Mode), i.op = inverse →
      step ⟨xs, mode⟩ i = .ok ([], ⟨m.values, mode⟩)) : Rearranges op m (m.leave xs)

variable {m : Machine}

theorem rearranges_swap (m : Machine) : Rearranges .swap m m.swap := by
  unfold swap
  split
  · rename_i a b xs hvalues
    refine .moved rfl (hvalues ▸ List.Perm.swap a b xs) fun i mode hi => ?_
    simp only [step, hi, swap, leave, hvalues]
  · exact .refused _

theorem rearranges_rotl (m : Machine) : Rearranges .rotl m (m.leave (rotateLeft m.values)) := by
  refine .moved rfl ?_ fun i mode hi => ?_
  · rw [rotateLeft_eq]
    exact List.rotate_perm _ 1
  · simp only [step, hi, leave, rotateRight_rotateLeft]

theorem rearranges_rotr (m : Machine) : Rearranges .rotr m (m.leave (rotateRight m.values)) := by
  refine .moved rfl ?_ fun i mode hi => ?_
  · rw [rotateRight_eq]
    exact List.rotate_perm _ _
  · simp only [step, hi, leave, rotateLeft_rotateRight]

theorem rearranges_pint (m : Machine) : Rearranges .pint m m.pint := by
  unfold pint
  split
  · exact .refused _
  · exact .kept rfl _ rfl

theorem rearranges_pchar (m : Machine) : Rearranges .pchar m m.pchar := by
  unfold pchar
  split
  · exact .refused _
  · split
    · exact .kept rfl _ rfl
    · exact .refused _

theorem rearranges_step {i : Instruction} (hop : i.op ∈ Opcode.rearranging) (m : Machine) :
    Rearranges i.op m (m.step i) := by
  unfold step
  cases hi : i.op with
  | swap => exact rearranges_swap m
  | rotl => exact rearranges_rotl m
  | rotr => exact rearranges_rotr m
  | pint => exact rearranges_pint m
  | pchar => exact rearranges_pchar m
  | pall | pstr | stack | queue | nop => exact .kept rfl _ rfl
  | push | pop | add | sub | mul | div | mod => simp [hi, Opcode.rearranging] at hop

end Machine

/-- Lines that name the opcodes pass on the values `xs` in any mode, print nothing and leave `ys`. -/
def Restores (ops : List Opcode) (xs ys : List Int32) : Prop :=
  ∀ ts, Text.Spells ts ops → ∀ s : Interpreter, s.machine.values = xs →
    s.executeLines ts = (none, { s with
      machine := { s.machine with values := ys }, lines := s.lines + ts.length })

variable {ops more : List Opcode} {xs ys zs : List Int32}

theorem Restores.nil (xs : List Int32) : Restores [] xs xs := by
  intro ts hts s hs
  obtain rfl := Text.Spells.nil_iff.mp hts
  subst hs
  rfl

theorem Restores.append (h : Restores ops xs ys) (h' : Restores more ys zs) :
    Restores (ops ++ more) xs zs := by
  intro ts hts s hs
  obtain ⟨first, rest, rfl, hfirst, hrest⟩ := hts.exists_append
  rw [Interpreter.executeLines_append, h first hfirst s hs]
  dsimp only
  rw [h' rest hrest _ rfl, List.length_append, Nat.add_assoc]

theorem Restores.singleton {op : Opcode}
    (h : ∀ (i : Instruction) (mode : Mode), i.op = op →
      Machine.step ⟨xs, mode⟩ i = .ok ([], ⟨ys, mode⟩)) : Restores [op] xs ys := by
  intro ts hts s hs
  obtain ⟨t, rfl, ht⟩ := hts.exists_singleton
  obtain ⟨i, hop, htaken⟩ := Machine.line_of_opcode? ht
  subst hs
  have hline : s.machine.line t = .ok ([], { s.machine with values := ys }) := by
    rw [htaken]
    exact h i s.machine.mode hop
  simp only [Interpreter.executeLines, Interpreter.executeLine, hline, List.append_nil,
    List.length_singleton]

variable {m m' : Machine} {t : Text} {printed : Text}

/-- The values behind a line of such an opcode, or of none, and how they are put back. -/
theorem Machine.rearranges_line (hop : ∀ op ∈ t.opcode?, op ∈ Opcode.rearranging)
    (h : m.line t = .ok (printed, m')) :
    m'.values.Perm m.values ∧ Restores (Opcode.undoing t.opcode?.toList) m'.values m.values := by
  cases line_cases t with
  | refused _ fault hline =>
    rw [hline] at h
    cases h
  | skipped hnone hline =>
    rw [hline] at h
    cases h
    rw [hnone]
    exact ⟨.refl _, .nil _⟩
  | taken i hsome hline =>
    have hstep := rearranges_step (hop i.op hsome) m
    rw [← hline, h] at hstep
    rw [hsome, Option.toList_some, Opcode.undoing_singleton]
    cases hstep with
    | kept hinverse _ hvalues =>
      rw [hinverse, hvalues]
      exact ⟨.refl _, .nil _⟩
    | moved hinverse perm undo =>
      rw [hinverse]
      exact ⟨perm, .singleton undo⟩

/-- Lines of these opcodes keep the values in some order, and the lines that undo them put them back. -/
theorem Interpreter.executeLines_rearranging {ts : List Text}
    (hops : ∀ op ∈ ts.filterMap Text.opcode?, op ∈ Opcode.rearranging) {p q : Interpreter}
    (h : p.executeLines ts = (none, q)) :
    q.machine.values.Perm p.machine.values ∧
      Restores (Opcode.undoing (ts.filterMap Text.opcode?)) q.machine.values p.machine.values := by
  induction ts generalizing p with
  | nil =>
    cases h
    exact ⟨.refl _, .nil _⟩
  | cons t ts ih =>
    rw [Text.filterMap_opcode?_cons, List.forall_mem_append] at hops
    rw [executeLines, executeLine] at h
    cases hline : p.machine.line t with
    | error fault =>
      rw [hline] at h
      cases h
    | ok outcome =>
      rw [hline] at h
      obtain ⟨hperm, hback⟩ := ih hops.2 h
      obtain ⟨hperm', hback'⟩ := Machine.rearranges_line (by simpa using hops.1) hline
      rw [Text.filterMap_opcode?_cons, Opcode.undoing_append]
      exact ⟨hperm.trans hperm', hback.append hback'⟩

end Plain

end DequeMachine
