import DequeMachine.LineReader
import DequeMachine.Proofs.Text.Encoded
import DequeMachine.Proofs.Text.Words

/-!
# Places between characters

A class of bytes that tells characters by their first byte and goes on to their last cuts an encoded
text between characters. Blanks and the bytes of words are such classes. So a reader that starts
between two characters stops between two, and the text between two such places is never refused.
-/
namespace DequeMachine

open Utf8 (encode)

namespace LineReader

/-- All bytes of the characters in `q` satisfy `p`, and the first byte of any other character does not. -/
structure Classifies (p : UInt8 → Bool) (q : Char → Bool) : Prop where
  bytes : ∀ c, q c = true → ∀ b ∈ String.utf8EncodeChar c, p b = true
  head : ∀ c, q c = false → ∃ b bs, String.utf8EncodeChar c = b :: bs ∧ p b = false

theorem isBlankByte_ascii {c : Char} (h : c.toNat < 0x80) :
    isBlankByte (UInt8.ofNat c.toNat) = Text.isBlank c := by
  have hall : ∀ n < 0x80, isBlankByte (UInt8.ofNat n) = Text.isBlank (Char.ofNat n) := by decide
  have hc := hall c.toNat h
  rwa [Char.ofNat_toNat] at hc

theorem isBlankByte_of_le {b : UInt8} (h : 0x80 ≤ b.toNat) : isBlankByte b = false := by
  by_contra hblank
  simp only [isBlankByte, Bool.not_eq_false, Bool.or_eq_true, beq_iff_eq] at hblank
  rcases hblank with ((((rfl | rfl) | rfl) | rfl) | rfl) | rfl <;> exact absurd h (by decide)

theorem toNat_lt_of_isBlank {c : Char} (h : Text.isBlank c = true) : c.toNat < 0x80 := by
  simp only [Text.isBlank, Bool.or_eq_true, beq_iff_eq] at h
  rcases h with ((((rfl | rfl) | rfl) | rfl) | rfl) | rfl <;> decide

theorem classifies_blank : Classifies isBlankByte Text.isBlank where
  bytes := by
    intro c hc
    have hascii := toNat_lt_of_isBlank hc
    rw [Utf8.encodeChar_of_ascii hascii, List.forall_mem_singleton, isBlankByte_ascii hascii, hc]
  head := by
    intro c hc
    obtain ⟨b, bs, hencode, -⟩ := Utf8.exists_head c
    refine ⟨b, bs, hencode, ?_⟩
    by_cases hascii : c.toNat < 0x80
    · rw [Utf8.encodeChar_of_ascii hascii] at hencode
      obtain ⟨rfl, -⟩ := List.cons.inj hencode
      rw [isBlankByte_ascii hascii, hc]
    · apply isBlankByte_of_le
      apply Utf8.le_toNat_of_mem (Nat.le_of_not_lt hascii)
      rw [hencode]
      exact List.mem_cons_self

theorem classifies_word : Classifies isWordByte Text.isWordChar where
  bytes := by
    intro c hc b hb
    by_cases hascii : c.toNat < 0x80
    · rw [Utf8.encodeChar_of_ascii hascii, List.mem_singleton] at hb
      rw [isWordByte, hb, isBlankByte_ascii hascii]
      exact hc
    · rw [isWordByte, isBlankByte_of_le (Utf8.le_toNat_of_mem (Nat.le_of_not_lt hascii) b hb)]
      rfl
  head := by
    intro c hc
    have hblank : Text.isBlank c = true := by simpa [Text.isWordChar] using hc
    have hascii := toNat_lt_of_isBlank hblank
    refine ⟨_, _, Utf8.encodeChar_of_ascii hascii, ?_⟩
    rw [isWordByte, isBlankByte_ascii hascii, hblank]
    rfl

theorem eq_commentByte_iff {c : Char} {b : UInt8} {bs : Bytes}
    (h : String.utf8EncodeChar c = b :: bs) : b = commentByte ↔ c = Token.commentMark := by
  constructor
  · rintro rfl
    have hfirst : commentByte ∈ String.utf8EncodeChar c := by simp [h]
    exact Utf8.eq_ofNat_of_mem hfirst (by decide)
  · rintro rfl
    exact (List.cons.inj h).1.symm

variable {p : UInt8 → Bool} {q : Char → Bool}

theorem Classifies.takeWhile_encode (h : Classifies p q) (t : Text) :
    (encode t).takeWhile p = encode (t.takeWhile q) := by
  induction t with
  | nil => rfl
  | cons c t ih =>
    have hcons : encode (c :: t) = String.utf8EncodeChar c ++ encode t := rfl
    cases hq : q c with
    | true =>
      rw [hcons, List.takeWhile_append_of_pos (h.bytes c hq), List.takeWhile_cons_of_pos hq, ih]
      rfl
    | false =>
      obtain ⟨b, bs, hencode, hb⟩ := h.head c hq
      rw [hcons, hencode, List.cons_append, List.takeWhile_cons_of_neg (by simp [hb]),
        List.takeWhile_cons_of_neg (by simp [hq])]
      rfl

theorem Classifies.dropWhile_encode (h : Classifies p q) (t : Text) :
    (encode t).dropWhile p = encode (t.dropWhile q) := by
  have hbytes := List.takeWhile_append_dropWhile (p := p) (l := encode t)
  have htext := congrArg encode (List.takeWhile_append_dropWhile (p := q) (l := t))
  rw [Utf8.encode_append, ← h.takeWhile_encode] at htext
  exact List.append_cancel_left (hbytes.trans htext.symm)

/-- The reader of a line that stands between two characters. -/
def standing (passed rest : Text) : LineReader := ⟨encode passed, encode rest⟩

theorem rest_standing (passed rest : Text) : (standing passed rest).rest = encode rest := rfl

theorem advance_standing (h : Classifies p q) (passed rest : Text) :
    (standing passed rest).advance p = standing (passed ++ rest.takeWhile q) (rest.dropWhile q) := by
  simp only [advance, standing, h.takeWhile_encode, h.dropWhile_encode, Utf8.encode_append]

/-- To the end of the line. -/
theorem advance_all_standing (passed rest : Text) :
    (standing passed rest).advance (fun _ => true) = standing (passed ++ rest) [] := by
  simp [advance, standing]

theorem isBoundary_encode (rest : Text) : isBoundary (encode rest) = true := by
  cases rest with
  | nil => rfl
  | cons c rest =>
    obtain ⟨b, bs, hencode, hb⟩ := Utf8.exists_head c
    simp [isBoundary, encode, hencode, hb]

/-- A text between two characters is cut out. -/
theorem cut?_encode (piece rest : Text) : cut? (encode piece) (encode rest) = some piece := by
  rw [cut?, ← Utf8.encode_append, isBoundary_encode, isBoundary_encode, Utf8.decode_encode]
  rfl

end LineReader

end DequeMachine
