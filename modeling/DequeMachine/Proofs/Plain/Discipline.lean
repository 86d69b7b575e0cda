import DequeMachine.Proofs.Plain.Interpreter
import DequeMachine.Proofs.Plain.Transfer

namespace DequeMachine.Plain

namespace Transfer

/-- What a line does that pushes a value or pops one. -/
def ofText? (t : Text) : Option Transfer :=
  match t.words with
  | [] => none
  | w :: ws =>
    match Opcode.ofWord? w with
    | some .push => (ws.head?.bind integer?).map enter
    | some .pop => some leave
    | _ => none

/-- With `n` values at first, there is one left whenever one is to leave. -/
def Supplied (n : Nat) (ts : List Transfer) : Prop := ∀ j, ts[j]? = some leave → 0 < n + depth (ts.take j)

instance (n : Nat) (ts : List Transfer) : Decidable (Supplied n ts) :=
  decidable_of_iff (∀ j < ts.length, ts[j]? = some leave → 0 < n + depth (ts.take j))
    ⟨fun h j hj => h j (List.getElem?_eq_some_iff.mp hj).1 hj, fun h j _ => h j⟩

/-- A value enters a stack at the front and a queue at the back. -/
def join (mode : Mode) (v : Int32) (xs : List Int32) : List Int32 :=
  match mode with
  | .stack => v :: xs
  | .queue => xs ++ [v]

def step (m : Machine) : Transfer → Outcome
  | enter v => m.leave (join m.mode v m.values)
  | leave => m.pop

/-- The values `xs` become `ys` as values enter and leave at the front. -/
inductive Carries (mode : Mode) (xs : List Int32) : List Transfer → List Int32 → Prop
  | nil : Carries mode xs [] xs
  | enter {ts : List Transfer} {ys : List Int32} (h : Carries mode xs ts ys) (v : Int32) :
    Carries mode xs (ts ++ [enter v]) (join mode v ys)
  | leave {ts : List Transfer} {y : Int32} {ys : List Int32} (h : Carries mode xs ts (y :: ys)) :
    Carries mode xs (ts ++ [leave]) ys

variable {ts us : List Transfer} {n j : Nat} {v : Int32} {xs ys : List Int32} {mode : Mode}

theorem Supplied.take (h : Supplied n ts) (k : Nat) : Supplied n (ts.take k) := by
  intro j hj
  rw [List.getElem?_take] at hj
  split at hj
  · rename_i hjk
    rw [List.take_take, Nat.min_eq_left (Nat.le_of_lt hjk)]
    exact h j hj
  · cases hj

theorem Supplied.of_append (h : Supplied n (ts ++ us)) : Supplied n ts := by
  have htake := h.take ts.length
  rwa [List.take_left] at htake

theorem Carries.depth (h : Carries mode xs ts ys) : (ys.length : Int) = xs.length + depth ts := by
  induction h with
  | nil => simp
  | @enter ts ys _ v ih =>
    have hlength : (join mode v ys).length = ys.length + 1 := by cases mode <;> simp [join]
    rw [hlength, depth_append, depth_singleton_enter]
    omega
  | leave h ih =>
    rw [List.length_cons] at ih
    rw [depth_append, depth_singleton_leave]
    omega

/-- Where a value is to leave, there is one. -/
theorem Carries.exists_cons (h : Carries mode xs (ts.take j) ys) (hsupplied : Supplied xs.length ts)
    (hj : ts[j]? = some .leave) : ∃ y zs, ys = y :: zs := by
  have hdepth := hsupplied j hj
  rw [← h.depth] at hdepth
  exact List.exists_cons_of_length_pos (Int.natCast_pos.mp hdepth)

theorem Carries.queue (h : Carries .queue xs ts ys) : ys = (xs ++ entered ts).drop (left ts) := by
  induction h with
  | nil => simp [entered, left]
  | @enter ts ys h v ih =>
    have hlength : left ts ≤ (xs ++ entered ts).length := by
      have hdepth := h.depth
      rw [Transfer.depth] at hdepth
      rw [List.length_append]
      omega
    have hentered : entered (ts ++ [.enter v]) = entered ts ++ [v] := List.filterMap_append
    have hleft : left (ts ++ [.enter v]) = left ts := List.count_append
    rw [join, ih, hentered, hleft, ← List.append_assoc, List.drop_append_of_le_length hlength]
  | @leave ts y ys h ih =>
    have hentered : entered (ts ++ [.leave]) = entered ts := by simp [entered, value?]
    have hleft : left (ts ++ [.leave]) = left ts + 1 := List.count_append
    rw [hentered, hleft, ← List.tail_drop, ← ih, List.tail_cons]

theorem Carries.queue_leave (h : Carries .queue xs (ts.take j) ys) (hsupplied : Supplied xs.length ts)
    (hj : ts[j]? = some .leave) :
    ∃ v, ys.head? = some v ∧ (xs ++ entered ts)[left (ts.take j)]? = some v := by
  obtain ⟨v, zs, rfl⟩ := h.exists_cons hsupplied hj
  have hentered : entered ts = entered (ts.take j) ++ entered (ts.drop j) := by
    rw [entered, entered, entered, ← List.filterMap_append, List.take_append_drop]
  have hv : (xs ++ entered (ts.take j))[left (ts.take j)]? = some v := by
    rw [← List.head?_drop, ← h.queue, List.head?_cons]
  refine ⟨v, rfl, ?_⟩
  rw [hentered, ← List.append_assoc, List.getElem?_append_left (List.getElem?_eq_some_iff.mp hv).1, hv]

theorem Carries.stack (h : Carries .stack [] ts ys) : ∃ is, Open ts is ys := by
  induction h with
  | nil => exact ⟨[], open_nil⟩
  | enter _ v ih =>
    obtain ⟨is, his⟩ := ih
    exact ⟨_, his.enter v⟩
  | leave _ ih =>
    obtain ⟨is, his⟩ := ih
    obtain ⟨_, rest, -, -, -, hrest⟩ := his.leave
    exact ⟨rest, hrest⟩

theorem Carries.stack_leave (h : Carries .stack [] (ts.take j) ys) (hsupplied : Supplied 0 ts)
    (hj : ts[j]? = some .leave) :
    ∃ i v, ys.head? = some v ∧ ts[i]? = some (.enter v) ∧ Matched ts i j ∧
      IsGreatest {k | Unmatched (ts.take j) k} i := by
  obtain ⟨v, zs, rfl⟩ := h.exists_cons hsupplied hj
  obtain ⟨is, his⟩ := h.stack
  obtain ⟨i, -, hi, hbehind, hgreatest, -⟩ := his.leave
  rw [List.getElem?_take] at hi
  split at hi
  · rename_i hij
    exact ⟨i, v, rfl, hi, ⟨hij, ⟨v, hi⟩, hj, hbehind⟩, hgreatest⟩
  · cases hi

variable {t : Text} {a : Transfer}

theorem line_eq_step (h : ofText? t = some a) (m : Machine) : m.line t = step m a := by
  rw [ofText?] at h
  cases hwords : t.words with
  | nil =>
    rw [hwords] at h
    cases h
  | cons w ws =>
    rw [hwords] at h
    dsimp only at h
    split at h
    · rename_i hop
      obtain ⟨v, hv, rfl⟩ := Option.map_eq_some_iff.mp h
      rw [Machine.line, hwords, Instruction.ofWords_of_opcode hop]
      simp only [Machine.step, Machine.push, hv, step, join]
      cases m.mode <;> rfl
    · rename_i hop
      obtain rfl : leave = a := Option.some.inj h
      rw [Machine.line, hwords, Instruction.ofWords_of_opcode hop]
      rfl
    · cases h

/-- A line passes when there is a value for it to take, and prints nothing. -/
theorem Carries.line (h : Carries mode xs ts ys) (ht : ofText? t = some a)
    (hsupplied : Supplied xs.length (ts ++ [a])) :
    ∃ zs, Carries mode xs (ts ++ [a]) zs ∧
      Machine.line t ⟨ys, mode⟩ = .ok ([], ⟨zs, mode⟩) := by
  rw [line_eq_step ht]
  cases a with
  | enter v => exact ⟨_, h.enter v, rfl⟩
  | leave =>
    have htake : Carries mode xs ((ts ++ [Transfer.leave]).take ts.length) ys := by rwa [List.take_left]
    obtain ⟨y, zs, rfl⟩ := htake.exists_cons hsupplied List.getElem?_concat_length
    exact ⟨zs, h.leave, rfl⟩

end Transfer

theorem Interpreter.executeLines_carries {texts : List Text} {ts : List Transfer} {s : Interpreter}
    (htexts : texts.map Transfer.ofText? = ts.map some)
    (hsupplied : Transfer.Supplied s.machine.values.length ts) :
    ∃ ys, Transfer.Carries s.machine.mode s.machine.values ts ys ∧
      s.executeLines texts = (none, { s with
        machine := { s.machine with values := ys }, lines := s.lines + texts.length }) := by
  -- The last line is split off, for it is there that what has been carried grows.
  induction ts using List.reverseRecOn generalizing texts with
  | nil =>
    obtain rfl := List.map_eq_nil_iff.mp htexts
    exact ⟨_, .nil, rfl⟩
  | append_singleton ts a ih =>
    rw [List.map_append] at htexts
    obtain ⟨first, rest, rfl, hfirst, hrest⟩ := List.map_eq_append_iff.mp htexts
    obtain ⟨t, last, rfl, ht, hlast⟩ := List.map_eq_cons_iff.mp hrest
    obtain rfl := List.map_eq_nil_iff.mp hlast
    obtain ⟨ys, hys, hrun⟩ := ih hfirst hsupplied.of_append
    obtain ⟨zs, hzs, hline⟩ := hys.line ht hsupplied
    refine ⟨zs, hzs, ?_⟩
    rw [executeLines_append, hrun]
    simp only [executeLines, executeLine, hline, List.append_nil, List.length_append,
      List.length_singleton, Nat.add_assoc]

end DequeMachine.Plain
