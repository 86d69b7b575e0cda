import Mathlib
import DequeMachine.Command.Arguments

namespace DequeMachine.Arguments

/-- How many flags of one argument ask for a louder journal. -/
def louderFlags : Text → Nat
  | '-' :: '-' :: name => if name = "verbose".toList then 1 else 0
  | '-' :: flags => flags.count 'v'
  | _ => 0

/-- How many flags do so before the flags have ended. -/
def louderCount : List Text → Nat
  | [] => 0
  | a :: rest => if a = endOfFlags then 0 else louderFlags a + louderCount rest

variable {p q r : Progress} {m n : Nat} {a : Arguments}

namespace Progress

/-- What was read in between asked so many times for more, and named no file by an empty name. -/
structure After (later : Progress) (n : Nat) (earlier : Progress) : Prop where
  verbosity : later.verbosity = min maxVerbosity (earlier.verbosity + n)
  named : [] ∉ earlier.file → [] ∉ later.file

theorem After.trans (hr : r.After n q) (hq : q.After m p) : r.After (m + n) p where
  verbosity := by
    have hfirst := hq.verbosity
    have hsecond := hr.verbosity
    omega
  named := hr.named ∘ hq.named

theorem After.refl (h : p.verbosity ≤ maxVerbosity) : p.After 0 p where
  verbosity := by omega
  named := id

theorem After.le (h : q.After n p) : q.verbosity ≤ maxVerbosity := by
  have hverbosity := h.verbosity
  omega

theorem after_louder (p : Progress) : p.louder.After 1 p := ⟨rfl, id⟩

theorem after_takeFile (hp : p.verbosity ≤ maxVerbosity) {name : Text}
    (h : p.takeFile name = .ok q) : q.After 0 p := by
  unfold takeFile at h
  split at h
  · cases h
  · rename_i hname
    cases h
    refine ⟨(After.refl hp).verbosity, fun _ hmem => ?_⟩
    cases Option.mem_some_iff.mp hmem
    simp at hname

end Progress

open Progress

theorem exists_ok_of_bind {α β : Type} {x : Except Stop α} {f : α → Except Stop β} {b : β}
    (h : x >>= f = .ok b) : ∃ a, x = .ok a ∧ f a = .ok b := by
  cases x with
  | error stop => cases h
  | ok a => exact ⟨a, rfl, h⟩

/-- What each step of a reading adds makes a sum. -/
theorem after_foldlM {α : Type} {step : Progress → α → Except Stop Progress} (count : α → Nat)
    (hstep : ∀ p x q, p.verbosity ≤ maxVerbosity → step p x = .ok q → q.After (count x) p)
    {xs : List α} (hp : p.verbosity ≤ maxVerbosity) (h : xs.foldlM step p = .ok q) :
    q.After (xs.map count).sum p := by
  induction xs generalizing p with
  | nil =>
    cases h
    exact .refl hp
  | cons x xs ih =>
    rw [List.foldlM_cons] at h
    obtain ⟨p', hx, hrest⟩ := exists_ok_of_bind h
    have hfirst := hstep p x p' hp hx
    rw [List.map_cons, List.sum_cons]
    exact (ih hfirst.le hrest).trans hfirst

theorem after_shortFlag {flag : Char} (h : shortFlag p flag = .ok q) :
    q.After (if flag = 'v' then 1 else 0) p := by
  unfold shortFlag at h
  split at h
  · cases h
    exact after_louder p
  · cases h
  · cases h
  · cases h

theorem sum_shortFlags (flags : Text) :
    (flags.map fun flag => if flag = 'v' then 1 else 0).sum = flags.count 'v' := by
  induction flags with
  | nil => rfl
  | cons flag flags ih =>
    rw [List.map_cons, List.sum_cons, ih, List.count_cons, Nat.add_comm]
    simp only [beq_iff_eq]

theorem after_shortFlags (hp : p.verbosity ≤ maxVerbosity) {flags : Text}
    (h : flags.foldlM shortFlag p = .ok q) : q.After (flags.count 'v') p := by
  rw [← sum_shortFlags]
  exact after_foldlM _ (fun p flag q _ h => after_shortFlag h) hp h

theorem after_longFlag {name : Text} (h : longFlag name p = .ok q) :
    q.After (if name = "verbose".toList then 1 else 0) p := by
  unfold longFlag at h
  split at h
  · rename_i hname
    cases h
    rw [if_pos hname]
    exact after_louder p
  · split at h
    · cases h
    · split at h
      · cases h
      · cases h

theorem after_takeArgument (hp : p.verbosity ≤ maxVerbosity) {t : Text}
    (h : takeArgument p t = .ok q) : q.After (louderFlags t) p := by
  unfold takeArgument at h
  unfold louderFlags
  split at h
  · exact after_longFlag h
  · rename_i flag flags hdash
    split
    · rename_i heq
      exact absurd (List.cons.inj (List.cons.inj heq).2).1 hdash
    · rename_i heq
      obtain rfl := (List.cons.inj heq).2
      exact after_shortFlags hp h
    · rename_i hshort
      exact absurd rfl (hshort _)
  · rename_i hlong hshort
    split
    · exact absurd rfl (hlong _)
    · rename_i flags _
      cases flags with
      | nil => exact after_takeFile hp h
      | cons flag flags => exact absurd rfl (hshort flag flags)
    · exact after_takeFile hp h

theorem after_takeFiles (hp : p.verbosity ≤ maxVerbosity) {names : List Text}
    (h : names.foldlM (fun p name => p.takeFile name) p = .ok q) : q.After 0 p := by
  have hfiles := after_foldlM (fun _ => 0) (fun p name q hp h => after_takeFile hp h) hp h
  rwa [List.map_const', List.sum_replicate_nat, Nat.mul_zero] at hfiles

theorem after_read (hp : p.verbosity ≤ maxVerbosity) {args : List Text}
    (h : read p args = .ok q) : q.After (louderCount args) p := by
  induction args generalizing p with
  | nil =>
    cases h
    exact .refl hp
  | cons t args ih =>
    rw [read] at h
    rw [louderCount]
    by_cases hend : t = endOfFlags
    · rw [if_pos hend] at h ⊢
      exact after_takeFiles hp h
    · rw [if_neg hend] at h ⊢
      obtain ⟨p', ht, hrest⟩ := exists_ok_of_bind h
      have hfirst := after_takeArgument hp ht
      exact (ih hfirst.le hrest).trans hfirst

theorem exists_read {args : List Text} (h : parse args = .ok a) :
    ∃ p : Progress, read {} args = .ok p ∧ p.file = some a.file ∧ p.verbosity = a.verbosity := by
  obtain ⟨p, hread, hfinish⟩ := exists_ok_of_bind h
  obtain ⟨_ | file, verbosity⟩ := p
  · cases hfinish
  · cases hfinish
    exact ⟨_, hread, rfl, rfl⟩

/-- The verbosity of arguments is the number of flags that ask for it, up to a bound. -/
theorem verbosity_eq {args : List Text} (h : parse args = .ok a) :
    a.verbosity = min maxVerbosity (louderCount args) := by
  obtain ⟨p, hread, -, hverbosity⟩ := exists_read h
  have hafter := after_read (Nat.zero_le maxVerbosity) hread
  rw [← hverbosity, hafter.verbosity, Nat.zero_add]

theorem file_ne_nil {args : List Text} (h : parse args = .ok a) : a.file ≠ [] := by
  obtain ⟨p, hread, hfile, -⟩ := exists_read h
  have hafter := after_read (Nat.zero_le maxVerbosity) hread
  have hnamed : [] ∉ p.file := hafter.named (by simp)
  rintro hempty
  simp [hfile, hempty] at hnamed

/-- A file can be asked for by its name alone. -/
theorem parse_file {file : Text} (h : file ≠ []) : parse [endOfFlags, file] = .ok ⟨file, 0⟩ := by
  have htake : ({} : Progress).takeFile file = .ok { file := some file } := by
    simp [Progress.takeFile, h]
  rw [parse, read, if_pos rfl, List.foldlM_cons, htake]
  rfl

end DequeMachine.Arguments
