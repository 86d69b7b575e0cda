import Mathlib
import DequeMachine.Text.Basic

namespace DequeMachine.Bytes

/-- Empty, or ended by a newline. -/
def Whole (b : Bytes) : Prop := b = [] ∨ b.getLast? = some newline

instance (b : Bytes) : Decidable b.Whole := inferInstanceAs (Decidable (_ ∨ _))

/-- The longest beginning that is whole. -/
structure IsWholePart (part b : Bytes) : Prop where
  begins : part <+: b
  whole : part.Whole
  longest : ∀ other : Bytes, other <+: b → other.Whole → other.length ≤ part.length

variable {b p part tail : Bytes}

theorem whole_iff : b.Whole ↔ b = [] ∨ ∃ a, b = a ++ [newline] := by
  rw [Whole, List.getLast?_eq_some_iff]

theorem whole_append_newline (a : Bytes) : (a ++ [newline]).Whole := whole_iff.mpr (.inr ⟨a, rfl⟩)

theorem lines_append (h : p.Whole) (q : Bytes) : lines (p ++ q) = lines p ++ lines q := by
  obtain rfl | ⟨a, rfl⟩ := whole_iff.mp h
  · rfl
  · rw [List.append_assoc, List.singleton_append, lines_append_newline, lines_append_newline,
      lines_nil, List.append_nil]

theorem finishedLines_append (h : p.Whole) (q : Bytes) :
    finishedLines (p ++ q) = lines p ++ finishedLines q := by
  obtain rfl | ⟨a, rfl⟩ := whole_iff.mp h
  · rfl
  · rw [List.append_assoc, List.singleton_append, finishedLines_append_newline,
      lines_append_newline, lines_nil, List.append_nil]

theorem finishedLines_of_notMem (h : newline ∉ tail) : finishedLines tail = [] := by
  rw [finishedLines, List.splitOn_eq_singleton h]
  rfl

/-- Without a newline the bytes are one line, unless there are none. -/
theorem lines_of_notMem (h : newline ∉ tail) : lines tail = if tail = [] then [] else [tail] := by
  have hlast : unfinishedLine tail = tail := by
    rw [unfinishedLine, List.splitOn_eq_singleton h]
    rfl
  simp only [lines, hlast, finishedLines_of_notMem h, List.isEmpty_iff, List.nil_append]

/-- The lines one after the other, each ended by a newline. -/
def unlines (ls : List Bytes) : Bytes := ls.flatMap fun l => l ++ [newline]

theorem unlines_cons (l : Bytes) (ls : List Bytes) : unlines (l :: ls) = l ++ newline :: unlines ls := by
  simp [unlines]

theorem unlines_singleton (l : Bytes) : unlines [l] = l ++ [newline] := List.flatMap_singleton ..

theorem unlines_append (ls ms : List Bytes) : unlines (ls ++ ms) = unlines ls ++ unlines ms :=
  List.flatMap_append

variable {ls : List Bytes}

/-- Behind the last newline there is one more piece, which is empty. -/
theorem splitOn_unlines (h : ∀ l ∈ ls, newline ∉ l) :
    (unlines ls).splitOn newline = ls ++ [[]] := by
  induction ls with
  | nil => rfl
  | cons l ls ih =>
    obtain ⟨hl, hls⟩ := List.forall_mem_cons.mp h
    rw [unlines_cons, List.splitOn_append_cons_self_of_not_mem hl, ih hls, List.cons_append]

theorem finishedLines_unlines (h : ∀ l ∈ ls, newline ∉ l) : finishedLines (unlines ls) = ls := by
  rw [finishedLines, splitOn_unlines h, List.dropLast_concat]

theorem lines_unlines (h : ∀ l ∈ ls, newline ∉ l) : lines (unlines ls) = ls := by
  have hlast : unfinishedLine (unlines ls) = [] := by
    rw [unfinishedLine, splitOn_unlines h, List.getLastD_concat]
  rw [lines, hlast]
  exact finishedLines_unlines h

theorem whole_unlines (ls : List Bytes) : (unlines ls).Whole := by
  induction ls using List.reverseRecOn with
  | nil => exact .inl rfl
  | append_singleton ls l _ =>
    rw [unlines_append, unlines_singleton, ← List.append_assoc]
    exact whole_append_newline _

theorem count_unlines (h : ∀ l ∈ ls, newline ∉ l) : (unlines ls).count newline = ls.length := by
  induction ls with
  | nil => rfl
  | cons l ls ih =>
    obtain ⟨hl, hls⟩ := List.forall_mem_cons.mp h
    rw [unlines_cons, List.count_append, List.count_cons_self, List.count_eq_zero_of_not_mem hl,
      ih hls, List.length_cons, Nat.zero_add]

/-- Any bytes are lines put together and a last piece without a newline, which may be empty. -/
theorem exists_unlines_append (b : Bytes) :
    ∃ ls tail, b = unlines ls ++ tail ∧ (∀ l ∈ ls, newline ∉ l) ∧ newline ∉ tail := by
  induction hn : b.length using Nat.strong_induction_on generalizing b with
  | _ n ih =>
    by_cases hmem : newline ∈ b
    · obtain ⟨l, rest, rfl, hl⟩ := List.eq_append_cons_of_mem hmem
      obtain ⟨ls, tail, rfl, hls, htail⟩ := ih rest.length (by simp at hn; omega) rest rfl
      refine ⟨l :: ls, tail, ?_, List.forall_mem_cons.mpr ⟨hl, hls⟩, htail⟩
      rw [unlines_cons, List.append_assoc, List.cons_append]
    · exact ⟨[], b, rfl, fun l hl => absurd hl List.not_mem_nil, hmem⟩

theorem lines_unlines_append (h : ∀ l ∈ ls, newline ∉ l) (htail : newline ∉ tail) :
    lines (unlines ls ++ tail) = ls ++ if tail = [] then [] else [tail] := by
  rw [lines_append (whole_unlines ls), lines_unlines h, lines_of_notMem htail]

theorem newline_mem_of_whole {a rest : Bytes} (h : (a ++ rest).Whole) (hrest : rest ≠ []) :
    newline ∈ rest := by
  obtain hnil | hlast := h
  · exact absurd (List.append_eq_nil_iff.mp hnil).2 hrest
  · rw [List.getLast?_append_of_ne_nil a hrest] at hlast
    exact List.mem_of_getLast? hlast

theorem whole_unlines_append_iff (htail : newline ∉ tail) :
    (unlines ls ++ tail).Whole ↔ tail = [] := by
  constructor
  · intro h
    by_contra hne
    exact htail (newline_mem_of_whole h hne)
  · rintro rfl
    rw [List.append_nil]
    exact whole_unlines ls

/-- A newline behind an unfinished line only ends it. -/
theorem lines_append_newline_of_not_whole (h : ¬b.Whole) : lines (b ++ [newline]) = lines b := by
  obtain ⟨ls, tail, rfl, hls, htail⟩ := exists_unlines_append b
  rw [whole_unlines_append_iff htail] at h
  have hended : unlines ls ++ tail ++ [newline] = unlines (ls ++ [tail]) := by
    rw [unlines_append, unlines_singleton, List.append_assoc]
  have hall : ∀ l ∈ ls ++ [tail], newline ∉ l := by
    intro l hl
    rcases List.mem_append.mp hl with hl | hl
    · exact hls l hl
    · rwa [List.mem_singleton.mp hl]
  rw [hended, lines_unlines hall, lines_unlines_append hls htail, if_neg h]

/-- A line of `b` between what stands before it and what stands after it. -/
structure IsLine (before line after b : Bytes) : Prop where
  eq : b = before ++ line ++ after
  begins : before.Whole
  inside : newline ∉ line
  ends : ∀ c ∈ after.head?, c = newline

theorem isLine_unlines {l : Bytes} (hl : newline ∉ l) (ms : List Bytes) :
    IsLine (unlines ls) l (newline :: unlines ms ++ tail) (unlines (ls ++ l :: ms) ++ tail) where
  eq := by simp only [unlines_append, unlines_cons, List.append_assoc, List.cons_append]
  begins := whole_unlines ls
  inside := hl
  ends := by
    rintro c ⟨⟩
    rfl

/-- A line stands behind those before it, each of which a newline ends. -/
theorem exists_isLine {l : Bytes} {more : List Bytes} (h : b.lines = ls ++ l :: more) :
    (∀ l ∈ ls, newline ∉ l) ∧ ∃ after, IsLine (unlines ls) l after b := by
  obtain ⟨ms, tail, rfl, hms, htail⟩ := exists_unlines_append b
  rw [lines_unlines_append hms htail] at h
  -- The line is one that a newline ends, or the last piece.
  have hplace : (∃ rest, ms = ls ++ l :: rest) ∨ ms = ls ∧ tail = l := by
    split at h
    · rw [List.append_nil] at h
      exact .inl ⟨more, h⟩
    · rcases more.eq_nil_or_concat with rfl | ⟨rest, last, rfl⟩
      · obtain ⟨hls, hl⟩ := List.append_inj' h rfl
        exact .inr ⟨hls, List.singleton_inj.mp hl⟩
      · rw [List.concat_eq_append, ← List.cons_append, ← List.append_assoc] at h
        exact .inl ⟨rest, (List.append_inj' h rfl).1⟩
  rcases hplace with ⟨rest, rfl⟩ | ⟨rfl, rfl⟩
  · obtain ⟨hls, hmore⟩ := List.forall_mem_append.mp hms
    exact ⟨hls, _, isLine_unlines (hmore l List.mem_cons_self) rest⟩
  · refine ⟨hms, [], ?_, whole_unlines ms, htail, ?_⟩
    · rw [List.append_nil]
    · rintro c ⟨⟩

theorem length_lines (b : Bytes) :
    b.lines.length = b.count newline + if b.Whole then 0 else 1 := by
  obtain ⟨ls, tail, rfl, hls, htail⟩ := exists_unlines_append b
  rw [lines_unlines_append hls htail, List.length_append, List.count_append, count_unlines hls,
    List.count_eq_zero_of_not_mem htail, if_congr (whole_unlines_append_iff htail) rfl rfl]
  split <;> rfl

theorem IsWholePart.unique {part' : Bytes} (h : IsWholePart part b) (h' : IsWholePart part' b) :
    part = part' := by
  have hle := h'.longest part h.begins h.whole
  have hge := h.longest part' h'.begins h'.whole
  exact (List.prefix_of_prefix_length_le h.begins h'.begins hle).eq_of_length (hle.antisymm hge)

/-- What a whole part leaves over is a piece of one line. -/
theorem IsWholePart.exists_tail (h : IsWholePart part b) :
    ∃ tail, b = part ++ tail ∧ newline ∉ tail := by
  obtain ⟨tail, rfl⟩ := h.begins
  refine ⟨tail, rfl, fun hmem => ?_⟩
  obtain ⟨u, v, rfl⟩ := List.append_of_mem hmem
  have hlength := h.longest (part ++ u ++ [newline]) ⟨v, by simp⟩ (whole_append_newline _)
  simp only [List.length_append, List.length_singleton] at hlength
  omega

theorem isWholePart_append (h : part.Whole) (htail : newline ∉ tail) :
    IsWholePart part (part ++ tail) where
  begins := List.prefix_append part tail
  whole := h
  longest := by
    intro other hbegins hwhole
    by_contra hlength
    obtain ⟨rest, rfl⟩ := List.prefix_of_prefix_length_le (List.prefix_append part tail) hbegins
      (Nat.le_of_not_le hlength)
    -- A longer beginning that is whole would end in a newline of the tail.
    have hrest : rest ≠ [] := by
      rintro rfl
      simp at hlength
    have hsub : rest <+: tail := (List.prefix_append_right_inj part).mp hbegins
    exact htail (hsub.subset (newline_mem_of_whole hwhole hrest))

theorem exists_isWholePart (b : Bytes) : ∃ part, IsWholePart part b := by
  induction b using List.reverseRecOn with
  | nil => exact ⟨[], isWholePart_append (.inl rfl) List.not_mem_nil⟩
  | append_singleton b c ih =>
    obtain rfl | hc := eq_or_ne newline c
    · have hpart := isWholePart_append (whole_append_newline b) List.not_mem_nil
      rw [List.append_nil] at hpart
      exact ⟨_, hpart⟩
    · obtain ⟨part, hpart⟩ := ih
      obtain ⟨tail, rfl, htail⟩ := hpart.exists_tail
      have hmore : newline ∉ tail ++ [c] := by
        simp [htail, hc]
      rw [List.append_assoc]
      exact ⟨part, isWholePart_append hpart.whole hmore⟩

/-- The lines that newlines end are the lines of the whole part. -/
theorem IsWholePart.finishedLines_eq (h : IsWholePart part b) :
    finishedLines b = lines part := by
  obtain ⟨tail, rfl, htail⟩ := h.exists_tail
  rw [finishedLines_append h.whole, finishedLines_of_notMem htail, List.append_nil]

end DequeMachine.Bytes
