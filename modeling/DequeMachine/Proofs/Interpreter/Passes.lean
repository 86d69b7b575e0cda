import DequeMachine.Interpreter

namespace DequeMachine.Interpreter

/-- The lines pass, the first from `s`, the last to the interpreter named after them. -/
inductive Passes : Interpreter → List Bytes → Interpreter → Prop
  | nil (s : Interpreter) : Passes s [] s
  | cons {s t u : Interpreter} {line : Bytes} {lines : List Bytes}
    (first : s.executeLine (Utf8.decode line) = (none, t)) (rest : Passes t lines u) :
    Passes s (line :: lines) u

/-- The interpreter after so many of the lines, or after the first of them that fails. -/
def after (lines : List Bytes) (k : Nat) (s : Interpreter) : Interpreter :=
  (s.executeLines (lines.take k)).2

variable {s t u : Interpreter} {line : Bytes} {lines : List Bytes} {e : Error}

theorem executeLines_of_failing (h : s.executeLine (Utf8.decode line) = (some e, t))
    (lines : List Bytes) : s.executeLines (line :: lines) = (some e, t) := by
  simp only [executeLines, h]

theorem executeLines_of_passing (h : s.executeLine (Utf8.decode line) = (none, t))
    (lines : List Bytes) : s.executeLines (line :: lines) = t.executeLines lines := by
  simp only [executeLines, h]

theorem executeLines_singleton (line : Bytes) (s : Interpreter) :
    s.executeLines [line] = s.executeLine (Utf8.decode line) := by
  rcases h : s.executeLine (Utf8.decode line) with ⟨_ | e, t⟩
  · exact executeLines_of_passing h []
  · exact executeLines_of_failing h []

theorem Passes.executeLines_append (h : s.Passes lines t) (more : List Bytes) :
    s.executeLines (lines ++ more) = t.executeLines more := by
  induction h with
  | nil s => rfl
  | cons first rest ih =>
    rw [List.cons_append, executeLines_of_passing first]
    exact ih

theorem executeLines_eq_none_iff : s.executeLines lines = (none, t) ↔ s.Passes lines t := by
  constructor
  · intro h
    induction lines generalizing s with
    | nil =>
      obtain rfl : s = t := congrArg Prod.snd h
      exact .nil s
    | cons line lines ih =>
      rcases hline : s.executeLine (Utf8.decode line) with ⟨_ | e, u⟩
      · rw [executeLines_of_passing hline] at h
        exact .cons hline (ih h)
      · rw [executeLines_of_failing hline] at h
        cases h
  · intro h
    have hall := h.executeLines_append []
    rwa [List.append_nil] at hall

theorem passes_of_fst_eq_none (h : (s.executeLines lines).1 = none) :
    s.Passes lines (s.executeLines lines).2 :=
  executeLines_eq_none_iff.mp (Prod.ext h rfl)

theorem executeLines_eq_some_iff :
    s.executeLines lines = (some e, u) ↔
      ∃ before line after t, lines = before ++ line :: after ∧ s.Passes before t ∧
        t.executeLine (Utf8.decode line) = (some e, u) := by
  constructor
  · intro h
    induction lines generalizing s with
    | nil => cases h
    | cons line lines ih =>
      rcases hline : s.executeLine (Utf8.decode line) with ⟨_ | e', t⟩
      · rw [executeLines_of_passing hline] at h
        obtain ⟨before, failing, after, t', rfl, hbefore, hfailing⟩ := ih h
        exact ⟨line :: before, failing, after, t', rfl, .cons hline hbefore, hfailing⟩
      · rw [executeLines_of_failing hline] at h
        exact ⟨[], line, lines, s, rfl, .nil s, hline.trans h⟩
  · rintro ⟨before, line, after, t, rfl, hbefore, hfailing⟩
    rw [hbefore.executeLines_append, executeLines_of_failing hfailing]

/-- Lines in two parts pass when the first part does and the second goes on from there. -/
theorem passes_append_iff {more : List Bytes} :
    s.Passes (lines ++ more) u ↔ ∃ t, s.Passes lines t ∧ t.Passes more u := by
  constructor
  · intro h
    rw [← executeLines_eq_none_iff, Interpreter.executeLines_append] at h
    rcases hlines : s.executeLines lines with ⟨_ | e, t⟩
    · rw [hlines] at h
      exact ⟨t, executeLines_eq_none_iff.mp hlines, executeLines_eq_none_iff.mp h⟩
    · rw [hlines] at h
      cases h
  · rintro ⟨t, hlines, hmore⟩
    rw [← executeLines_eq_none_iff, hlines.executeLines_append, executeLines_eq_none_iff.mpr hmore]

theorem Passes.after_length (h : s.Passes lines t) (more : List Bytes) :
    s.after (lines ++ more) lines.length = t := by
  rw [after, List.take_left, executeLines_eq_none_iff.mpr h]

theorem Passes.after_succ_length (h : s.Passes lines t) (line : Bytes) (more : List Bytes) :
    s.after (lines ++ line :: more) (lines.length + 1) = (t.executeLine (Utf8.decode line)).2 := by
  have htake : (lines ++ line :: more).take (lines.length + 1) = lines ++ [line] := by
    rw [List.take_length_add_append, List.take_succ_cons, List.take_zero]
  rw [after, htake, h.executeLines_append, executeLines_singleton]

end DequeMachine.Interpreter
