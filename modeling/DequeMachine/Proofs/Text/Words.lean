import Mathlib
import DequeMachine.LineReader

namespace DequeMachine

namespace Text

/-- The maximal runs of characters that are no blanks. -/
def words (t : Text) : List Text := (t.splitOnP isBlank).filter fun w => !w.isEmpty

@[simp] theorem words_nil : words [] = [] := by simp [words]

theorem words_append_blank {c : Char} (hc : isBlank c) (t u : Text) :
    words (t ++ c :: u) = words t ++ words u := by
  rw [words, List.splitOnP_append_cons t u hc, List.filter_append]
  rfl

theorem words_cons_blank {c : Char} (hc : isBlank c) (t : Text) : words (c :: t) = words t := by
  simpa using words_append_blank hc [] t

theorem words_singleton {w : Text} (hw : w ≠ []) (h : ∀ c ∈ w, isBlank c = false) :
    words w = [w] := by
  rw [words, List.splitOnP_eq_singleton h]
  simp [hw]

theorem words_trimStart (t : Text) : words (trimStart t) = words t := by
  induction t with
  | nil => rfl
  | cons c t ih =>
    by_cases hc : isBlank c
    · rw [words_cons_blank hc, ← ih, trimStart, List.dropWhile_cons_of_pos hc, trimStart]
    · rw [trimStart, List.dropWhile_cons_of_neg hc]

theorem words_append {w : Text} (hw : w ≠ []) (h : ∀ c ∈ w, isBlank c = false) {rest : Text}
    (hrest : ∀ c ∈ rest.head?, isBlank c) : words (w ++ rest) = w :: words rest := by
  cases rest with
  | nil => rw [List.append_nil, words_singleton hw h, words_nil]
  | cons b rest =>
    have hb : isBlank b := hrest b rfl
    rw [words_append_blank hb, words_singleton hw h, words_cons_blank hb]
    rfl

def isWordChar (c : Char) : Bool := !isBlank c

theorem isBlank_of_mem_takeWhile {t : Text} {c : Char} (hc : c ∈ t.takeWhile isWordChar) :
    isBlank c = false := by
  simpa [isWordChar] using List.mem_takeWhile_imp hc

theorem isBlank_of_head?_dropWhile {t : Text} {c : Char} (hc : c ∈ (t.dropWhile isWordChar).head?) :
    isBlank c = true := by
  have hnot := List.head?_dropWhile_not isWordChar t
  rw [hc] at hnot
  simpa [isWordChar] using hnot

theorem takeWhile_ne_nil {c : Char} (hc : isBlank c = false) (t : Text) :
    (c :: t).takeWhile isWordChar ≠ [] := by
  simp [isWordChar, hc]

/-- A text that begins with no blank begins with its first word. -/
theorem words_cons {c : Char} (hc : isBlank c = false) (t : Text) :
    words (c :: t) = (c :: t).takeWhile isWordChar :: words ((c :: t).dropWhile isWordChar) := by
  have hrest : ∀ a ∈ ((c :: t).dropWhile isWordChar).head?, isBlank a :=
    fun _ => isBlank_of_head?_dropWhile
  have hsplit := words_append (takeWhile_ne_nil hc t) (fun _ => isBlank_of_mem_takeWhile) hrest
  rwa [List.takeWhile_append_dropWhile] at hsplit

theorem trimStart_append {t : Text} (ht : ∀ c ∈ t, isBlank c) {c : Char} (hc : isBlank c = false)
    (u : Text) : trimStart (t ++ c :: u) = c :: u := by
  rw [trimStart, List.dropWhile_append_of_pos ht, List.dropWhile_cons_of_neg (by simp [hc])]

theorem trimStart_prefix {t u : Text} (h : t <+: u) : trimStart t <+: trimStart u := by
  obtain ⟨rest, rfl⟩ := h
  simp only [trimStart, List.dropWhile_append]
  split
  · rename_i hnil
    rw [List.isEmpty_iff.mp hnil]
    exact List.nil_prefix
  · exact List.prefix_append _ rest

theorem takeWhile_trimStart_eq_nil_iff {t : Text} :
    (trimStart t).takeWhile isWordChar = [] ↔ trimStart t = [] := by
  cases h : trimStart t with
  | nil => simp
  | cons c left =>
    have hc : isWordChar c = true := by rw [isWordChar, head_trimStart h, Bool.not_false]
    simp [hc]

/-- What is left of a text without the blanks in front is nothing, or its first word and what follows. -/
theorem words_eq (t : Text) : words t = if trimStart t = [] then [] else
    (trimStart t).takeWhile isWordChar :: words ((trimStart t).dropWhile isWordChar) := by
  rw [← words_trimStart]
  cases h : trimStart t with
  | nil => simp
  | cons c left =>
    rw [if_neg (List.cons_ne_nil c left), words_cons (head_trimStart h)]

theorem words_eq_nil_iff {t : Text} : words t = [] ↔ ∀ c ∈ t, isBlank c := by
  rw [words_eq]
  split
  · rename_i hnil
    simpa [trimStart, List.dropWhile_eq_nil_iff] using hnil
  · rename_i hleft
    simp only [reduceCtorEq, false_iff]
    intro hall
    exact hleft (List.dropWhile_eq_nil_iff.mpr hall)

theorem words_eq_nil_of_suffix {t u : Text} (h : words t = []) (hu : u <:+ t) : words u = [] := by
  rw [words_eq_nil_iff] at h ⊢
  exact fun c hc => h c (hu.subset hc)

/-- Without the blanks in front a text begins as its first word does. -/
theorem head?_trimStart (t : Text) : (trimStart t).head? = (words t).head?.bind List.head? := by
  rw [words_eq]
  cases h : trimStart t with
  | nil => rfl
  | cons c left =>
    have hc : isWordChar c = true := by rw [isWordChar, head_trimStart h, Bool.not_false]
    simp [hc]

def separators : List Char := [' ', '\t', '\n', '\r', '\x0b', '\x0c']

theorem isBlank_iff {c : Char} : isBlank c = true ↔ c ∈ separators := by
  simp only [isBlank, separators, Bool.or_eq_true, beq_iff_eq, List.mem_cons, List.not_mem_nil]
  tauto

/-- The maximal runs of a text without separators, from left to right. -/
inductive IsWords : Text → List Text → Prop
  | nil : IsWords [] []
  | separator {c : Char} {t : Text} {ws : List Text} (hc : c ∈ separators) (rest : IsWords t ws) :
    IsWords (c :: t) ws
  | word {w t : Text} {ws : List Text} (nonempty : w ≠ []) (inside : ∀ c ∈ w, c ∉ separators)
    (maximal : ∀ c ∈ t.head?, c ∈ separators) (rest : IsWords t ws) : IsWords (w ++ t) (w :: ws)

theorem IsWords.eq_words {t : Text} {ws : List Text} (h : IsWords t ws) : ws = words t := by
  induction h with
  | nil => exact words_nil.symm
  | separator hc _ ih => rw [words_cons_blank (isBlank_iff.mpr hc), ih]
  | word nonempty inside maximal _ ih =>
    rw [ih, words_append nonempty]
    · intro c hc
      simpa [← isBlank_iff] using inside c hc
    · exact fun c hc => isBlank_iff.mpr (maximal c hc)

theorem IsWords.of_trimStart {t : Text} {ws : List Text} (h : IsWords (trimStart t) ws) :
    IsWords t ws := by
  induction t with
  | nil => exact h
  | cons c t ih =>
    by_cases hc : isBlank c
    · rw [trimStart, List.dropWhile_cons_of_pos hc] at h
      exact .separator (isBlank_iff.mp hc) (ih h)
    · rwa [trimStart, List.dropWhile_cons_of_neg hc] at h

theorem isWords_words (t : Text) : IsWords t (words t) := by
  -- A whole word is taken off at a time, so the induction is on the length.
  induction hn : t.length using Nat.strong_induction_on generalizing t with
  | _ n ih =>
    apply IsWords.of_trimStart
    rw [← words_trimStart]
    have hlength : (trimStart t).length ≤ t.length := (List.dropWhile_suffix _).length_le
    cases hleft : trimStart t with
    | nil => exact .nil
    | cons c left =>
      have hc := head_trimStart hleft
      rw [hleft, List.length_cons] at hlength
      have hshorter : ((c :: left).dropWhile isWordChar).length < n := by
        rw [List.dropWhile_cons_of_pos (by simp [isWordChar, hc])]
        have hdrop := (List.dropWhile_suffix (l := left) isWordChar).length_le
        omega
      have hwords : IsWords ((c :: left).takeWhile isWordChar ++ (c :: left).dropWhile isWordChar)
          ((c :: left).takeWhile isWordChar :: words ((c :: left).dropWhile isWordChar)) := by
        refine .word (takeWhile_ne_nil hc left) ?_ ?_ (ih _ hshorter _ rfl)
        · intro a ha
          simp [← isBlank_iff, isBlank_of_mem_takeWhile ha]
        · exact fun a ha => isBlank_iff.mp (isBlank_of_head?_dropWhile ha)
      rwa [List.takeWhile_append_dropWhile, ← words_cons hc] at hwords

theorem isWords_iff {t : Text} {ws : List Text} : IsWords t ws ↔ ws = words t :=
  ⟨IsWords.eq_words, fun h => h ▸ isWords_words t⟩

/-- A text that is a word of its own. -/
structure IsWord (w : Text) : Prop where
  nonempty : w ≠ []
  inside : ∀ c ∈ w, isBlank c = false

theorem isWord_of_mem_words {t w : Text} (h : w ∈ words t) : IsWord w := by
  have hwords := isWords_words t
  generalize words t = ws at h hwords
  induction hwords with
  | nil => cases h
  | separator _ _ ih => exact ih h
  | word nonempty inside _ _ ih =>
    rcases List.mem_cons.mp h with rfl | h
    · refine ⟨nonempty, fun c hc => ?_⟩
      simpa [← isBlank_iff] using inside c hc
    · exact ih h

/-- With a space between them words are read back. -/
theorem words_intercalate {ws : List Text} (h : ∀ w ∈ ws, IsWord w) :
    words (List.intercalate [' '] ws) = ws := by
  induction ws with
  | nil => exact words_nil
  | cons w ws ih =>
    obtain ⟨hw, hws⟩ := List.forall_mem_cons.mp h
    cases ws with
    | nil => rw [List.intercalate_singleton, words_singleton hw.nonempty hw.inside]
    | cons v ws =>
      rw [List.intercalate_cons_cons, List.append_assoc, List.singleton_append,
        words_append_blank rfl, words_singleton hw.nonempty hw.inside, ih hws]
      rfl

theorem IsWord.newline_notMem {w : Text} (h : IsWord w) : '\n' ∉ w := by
  intro hmem
  exact absurd (h.inside _ hmem) (by decide)

theorem newline_notMem_intercalate {ws : List Text} (h : ∀ w ∈ ws, IsWord w) :
    '\n' ∉ List.intercalate [' '] ws := by
  induction ws with
  | nil => exact List.not_mem_nil
  | cons w ws ih =>
    obtain ⟨hw, hws⟩ := List.forall_mem_cons.mp h
    cases ws with
    | nil =>
      rw [List.intercalate_singleton]
      exact hw.newline_notMem
    | cons v ws =>
      rw [List.intercalate_cons_cons]
      refine List.not_mem_append (List.not_mem_append hw.newline_notMem ?_) (ih hws)
      decide

end Text

namespace Instruction

/-- What a line with the given words holds. -/
def ofWords : List Text → Except Fault (Option Instruction)
  | [] => .ok none
  | w :: ws =>
    if w.head? = some Token.commentMark then .ok none
    else match Opcode.ofWord? w with
      | some op => .ok (some ⟨w, op, ws.head?⟩)
      | none => .error (.unknownInstruction w)

end Instruction

theorem Opcode.isBlank_of_mem {w : Text} {op : Opcode} (h : ofWord? w = some op) :
    ∀ c ∈ w, Text.isBlank c = false := by
  have hall : w.all fun c => !Text.isBlank c := by
    rcases ofWord?_eq_some_iff.mp h with rfl | ⟨rfl, rfl⟩
    · cases op <;> decide
    · decide
  intro c hc
  simpa using List.all_eq_true.mp hall c hc

theorem Opcode.head?_ne_mark {w : Text} {op : Opcode} (h : ofWord? w = some op) :
    w.head? ≠ some Token.commentMark := by
  rcases ofWord?_eq_some_iff.mp h with rfl | ⟨rfl, rfl⟩
  · cases op <;> decide
  · decide

theorem Opcode.ofWord?_eq_none_iff {w : Text} :
    ofWord? w = none ↔ (∀ op : Opcode, w ≠ op.word) ∧ w ≠ divAlias := by
  simp only [Option.eq_none_iff_forall_ne_some, ne_eq, ofWord?_eq_some_iff, not_or, not_and]
  constructor
  · intro h
    exact ⟨fun op => (h op).1, fun halias => (h .div).2 halias rfl⟩
  · rintro ⟨hword, halias⟩ op
    exact ⟨hword op, fun h => absurd h halias⟩

theorem Opcode.ne_nil {w : Text} {op : Opcode} (h : ofWord? w = some op) : w ≠ [] := by
  rcases ofWord?_eq_some_iff.mp h with rfl | ⟨rfl, rfl⟩
  · cases op <;> decide
  · decide

theorem Opcode.isWord {w : Text} {op : Opcode} (h : ofWord? w = some op) : w.IsWord :=
  ⟨ne_nil h, isBlank_of_mem h⟩

theorem Instruction.ofWords_of_opcode {w : Text} {op : Opcode} (h : Opcode.ofWord? w = some op)
    (ws : List Text) : ofWords (w :: ws) = .ok (some ⟨w, op, ws.head?⟩) := by
  rw [ofWords, if_neg (Opcode.head?_ne_mark h), h]

theorem Decimal.isBlank_of_mem_digits {n : Nat} {c : Char} (h : c ∈ digits n) :
    Text.isBlank c = false := by
  have hc : c.isDigit := isDigit_of_mem_digits h
  by_contra hblank
  simp only [Text.isBlank, Bool.not_eq_false, Bool.or_eq_true, beq_iff_eq] at hblank
  rcases hblank with ((((rfl | rfl) | rfl) | rfl) | rfl) | rfl <;> simp at hc

theorem Decimal.isWord_digits (n : Nat) : (digits n).IsWord :=
  ⟨digits_ne_nil n, fun _ => isBlank_of_mem_digits⟩

theorem Decimal.isBlank_of_mem_write {v : Int32} {c : Char} (h : c ∈ write v) :
    Text.isBlank c = false := by
  unfold write at h
  split at h
  · rcases List.mem_cons.mp h with rfl | h
    · decide
    · exact isBlank_of_mem_digits h
  · exact isBlank_of_mem_digits h

theorem Decimal.write_ne_nil (v : Int32) : write v ≠ [] := by
  unfold write
  split
  · exact List.cons_ne_nil _ _
  · exact digits_ne_nil _

theorem Decimal.isWord_write (v : Int32) : (write v).IsWord :=
  ⟨write_ne_nil v, fun _ => isBlank_of_mem_write⟩

theorem Decimal.newline_notMem_write (v : Int32) : '\n' ∉ write v := (isWord_write v).newline_notMem

end DequeMachine
