import DequeMachine.Proofs.LineReader.Places

/-!
# Plain readers

A plain reader is a line and the suffix of it that is unread; it knows no bytes and no places. A reader
that stands in front of the suffix gives the same answers, refuses none, and stands in front of the
suffix that is left.
-/
namespace DequeMachine

namespace Plain

structure Reader where
  line : Text
  unread : Text
  deriving DecidableEq, Repr

namespace Reader

variable (r : Reader)

/-- The longest beginning without blanks of what is left when the blanks in front are dropped. -/
def nextWord : Option Text × Reader :=
  let left := Text.trimStart r.unread
  (if left = [] then none else some (left.takeWhile Text.isWordChar),
    { r with unread := left.dropWhile Text.isWordChar })

/-- The next word classified, or a comment up to the end of the line. -/
def nextToken : Option Token × Reader :=
  if (Text.trimStart r.unread).head? = some Token.commentMark then
    (some .comment, { r with unread := [] })
  else (r.nextWord.1.map Token.ofWord, r.nextWord.2)

/-- The line without its unread suffix and without the blanks in front. -/
def consumed : Text := Text.trimStart (r.line.take (r.line.length - r.unread.length))

theorem consumed_append (passed unread : Text) :
    consumed ⟨passed ++ unread, unread⟩ = Text.trimStart passed := by
  simp [consumed]

theorem nextWord_fst : r.nextWord.1 = (Text.words r.unread).head? := by
  rw [nextWord, Text.words_eq]
  dsimp only
  split <;> rfl

theorem words_nextWord : Text.words r.nextWord.2.unread = (Text.words r.unread).tail := by
  rw [nextWord, Text.words_eq r.unread]
  dsimp only
  split
  · rename_i hleft
    rw [hleft]
    rfl
  · rfl

variable {r} {w : Text} {ws : List Text}

theorem nextToken_of_nil (h : Text.words r.unread = []) : r.nextToken = (none, r.nextWord.2) := by
  have hleft := Text.head?_trimStart r.unread
  rw [h] at hleft
  rw [nextToken, hleft, nextWord_fst, h]
  rfl

theorem nextToken_of_word (h : Text.words r.unread = w :: ws) (hw : w.head? ≠ some Token.commentMark) :
    r.nextToken = (some (Token.ofWord w), r.nextWord.2) := by
  have hleft := Text.head?_trimStart r.unread
  rw [h, List.head?_cons, Option.bind_some] at hleft
  rw [nextToken, hleft, if_neg hw, nextWord_fst, h]
  rfl

theorem nextToken_of_comment (h : Text.words r.unread = w :: ws)
    (hw : w.head? = some Token.commentMark) :
    r.nextToken = (some .comment, { r with unread := [] }) := by
  have hleft := Text.head?_trimStart r.unread
  rw [h, List.head?_cons, Option.bind_some] at hleft
  rw [nextToken, hleft, if_pos hw]

end Reader

end Plain

namespace LineReader

/-- The reader stands in front of the unread suffix. -/
inductive Represents : LineReader → Plain.Reader → Prop
  | intro (passed unread : Text) :
    Represents (standing passed unread) ⟨passed ++ unread, unread⟩

theorem Represents.of_eq {line passed unread : Text} (h : passed ++ unread = line) :
    (standing passed unread).Represents ⟨line, unread⟩ := h ▸ .intro passed unread

theorem Represents.exists_standing {r : LineReader} {p : Plain.Reader} (h : r.Represents p) :
    ∃ passed, passed ++ p.unread = p.line ∧ r = standing passed p.unread := by
  obtain ⟨passed, unread⟩ := h
  exact ⟨passed, rfl, rfl⟩

theorem represents_ofLine (line : Text) : (ofLine line).Represents ⟨line, line⟩ :=
  .intro [] line

theorem skipBlanks_standing (passed unread : Text) : (standing passed unread).skipBlanks =
    standing (passed ++ unread.takeWhile Text.isBlank) (Text.trimStart unread) :=
  advance_standing classifies_blank passed unread

theorem readWord?_standing (passed unread : Text) : (standing passed unread).readWord? =
    some (if unread.takeWhile Text.isWordChar = [] then none
        else some (unread.takeWhile Text.isWordChar),
      standing (passed ++ unread.takeWhile Text.isWordChar) (unread.dropWhile Text.isWordChar)) := by
  have hword : (standing passed unread).rest.takeWhile isWordByte =
      Utf8.encode (unread.takeWhile Text.isWordChar) := classifies_word.takeWhile_encode unread
  rw [readWord?, hword, advance_standing classifies_word]
  simp only [List.isEmpty_iff, Utf8.encode_eq_nil_iff]
  split
  · rfl
  · rw [standing, cut?_encode, Option.map_some]

variable {r : LineReader} {p : Plain.Reader}

namespace Represents

theorem nextWord? (h : r.Represents p) :
    ∃ r', r.nextWord? = some (p.nextWord.1, r') ∧ r'.Represents p.nextWord.2 := by
  obtain ⟨passed, unread⟩ := h
  rw [LineReader.nextWord?, skipBlanks_standing, readWord?_standing]
  simp only [Text.takeWhile_trimStart_eq_nil_iff]
  refine ⟨_, rfl, .of_eq ?_⟩
  rw [List.append_assoc, List.append_assoc, List.takeWhile_append_dropWhile, Text.trimStart,
    List.takeWhile_append_dropWhile]

theorem nextToken? (h : r.Represents p) :
    ∃ r', r.nextToken? = some (p.nextToken.1, r') ∧ r'.Represents p.nextToken.2 := by
  have hword := h.nextWord?
  obtain ⟨passed, unread⟩ := h
  have hall : passed ++ unread.takeWhile Text.isBlank ++ Text.trimStart unread = passed ++ unread := by
    rw [List.append_assoc, Text.trimStart, List.takeWhile_append_dropWhile]
  rw [LineReader.nextWord?, skipBlanks_standing] at hword
  rw [LineReader.nextToken?, skipBlanks_standing, Plain.Reader.nextToken]
  simp only [rest_standing]
  generalize passed ++ unread.takeWhile Text.isBlank = before at hall hword ⊢
  cases hleft : Text.trimStart unread with
  | nil =>
    rw [hleft] at hall
    simp only [Plain.Reader.nextWord, hleft]
    exact ⟨_, rfl, .of_eq hall⟩
  | cons c left =>
    -- The reader looks at the first byte only, which is the comment mark if and only if `c` is.
    obtain ⟨b, bs, hencode, -⟩ := Utf8.exists_head c
    have hhead : (Utf8.encode (c :: left)).head? = some b := by simp [Utf8.encode, hencode]
    rw [hleft] at hall hword
    simp only [hhead, List.head?_cons, Option.some.injEq, eq_commentByte_iff hencode]
    by_cases hmark : c = Token.commentMark
    · rw [if_pos hmark, if_pos hmark, advance_all_standing]
      exact ⟨_, rfl, .of_eq (by rw [List.append_nil, hall])⟩
    · obtain ⟨r', hr', hrep⟩ := hword
      rw [if_neg hmark, if_neg hmark, hr']
      exact ⟨r', rfl, hrep⟩

theorem consumed? (h : r.Represents p) : r.consumed? = some p.consumed := by
  obtain ⟨passed, unread⟩ := h
  rw [LineReader.consumed?, standing, cut?_encode, Plain.Reader.consumed_append,
    Option.map_some]

/-! The same without the checks. -/

theorem nextWord (h : r.Represents p) :
    r.nextWord.1 = p.nextWord.1 ∧ r.nextWord.2.Represents p.nextWord.2 := by
  obtain ⟨r', hr', hrep⟩ := h.nextWord?
  rw [LineReader.nextWord, hr']
  exact ⟨rfl, hrep⟩

theorem nextToken (h : r.Represents p) :
    r.nextToken.1 = p.nextToken.1 ∧ r.nextToken.2.Represents p.nextToken.2 := by
  obtain ⟨r', hr', hrep⟩ := h.nextToken?
  rw [LineReader.nextToken, hr']
  exact ⟨rfl, hrep⟩

theorem consumed (h : r.Represents p) : r.consumed = p.consumed := by
  rw [LineReader.consumed, h.consumed?]
  rfl

end Represents

end LineReader

end DequeMachine
