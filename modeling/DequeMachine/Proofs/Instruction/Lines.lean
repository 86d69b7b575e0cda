import DequeMachine.Interpreter
import DequeMachine.Proofs.LineReader.Unread

namespace DequeMachine

open Text (words)

/-- Behind the first word of a line, that word is what was consumed. -/
theorem Plain.Reader.consumed_nextWord {line w : Text} {ws : List Text} (h : words line = w :: ws) :
    (nextWord ⟨line, line⟩).2.consumed = w := by
  rw [Text.words_eq] at h
  cases hleft : Text.trimStart line with
  | nil =>
    rw [if_pos hleft] at h
    cases h
  | cons c left =>
    rw [if_neg (by rw [hleft]; exact List.cons_ne_nil c left), hleft] at h
    have hc : Text.isWordChar c = true := by
      rw [Text.isWordChar, Text.head_trimStart hleft, Bool.not_false]
    rw [List.takeWhile_cons_of_pos hc, List.dropWhile_cons_of_pos hc] at h
    have hblank : ∀ a ∈ line.takeWhile Text.isBlank, Text.isBlank a :=
      fun a ha => List.mem_takeWhile_imp ha
    have hline : line = line.takeWhile Text.isBlank ++ c :: left.takeWhile Text.isWordChar ++
        left.dropWhile Text.isWordChar := by
      rw [List.append_assoc, List.cons_append, List.takeWhile_append_dropWhile, ← hleft,
        Text.trimStart, List.takeWhile_append_dropWhile]
    have hconsumed := consumed_append (line.takeWhile Text.isBlank ++ c :: left.takeWhile Text.isWordChar)
      (left.dropWhile Text.isWordChar)
    rw [← hline, Text.trimStart_append hblank (Text.head_trimStart hleft)] at hconsumed
    rw [nextWord]
    dsimp only
    rw [hleft, List.dropWhile_cons_of_pos hc, hconsumed]
    exact (List.cons.inj h).1

namespace Instruction

theorem ofLine_eq (line : Text) : ofLine line = ofWords (words line) := by
  obtain ⟨htoken, hrep⟩ := (LineReader.represents_ofLine line).nextToken
  rw [ofLine]
  generalize (LineReader.ofLine line).nextToken = answer at htoken hrep
  obtain ⟨token, r⟩ := answer
  dsimp only at htoken hrep
  subst htoken
  cases hwords : words line with
  | nil => rw [Plain.Reader.nextToken_of_nil hwords, ofWords]
  | cons w ws =>
    rw [ofWords]
    by_cases hmark : w.head? = some Token.commentMark
    · rw [Plain.Reader.nextToken_of_comment hwords hmark, if_pos hmark]
    · rw [Plain.Reader.nextToken_of_word hwords hmark] at hrep ⊢
      rw [if_neg hmark, Token.ofWord]
      cases Opcode.ofWord? w with
      | none => rfl
      | some op =>
        have hargument := hrep.nextWord.1
        rw [Plain.Reader.nextWord_fst, Plain.Reader.words_nextWord, hwords, List.tail_cons] at hargument
        dsimp only
        rw [hrep.consumed, hargument, Plain.Reader.consumed_nextWord hwords]

/-- What line `n` holds if these are its words. -/
inductive Parses (n : Nat) : List Text → Except Error (Option Instruction) → Prop
  | blank : Parses n [] (.ok none)
  | comment (t : Text) (ws : List Text) : Parses n (('#' :: t) :: ws) (.ok none)
  | opcode (op : Opcode) (ws : List Text) :
    Parses n (op.word :: ws) (.ok (some ⟨op.word, op, ws.head?⟩))
  | divAlias (ws : List Text) :
    Parses n (Opcode.divAlias :: ws) (.ok (some ⟨Opcode.divAlias, .div, ws.head?⟩))
  | unknown {w : Text} (ws : List Text) (mark : w.head? ≠ some '#') (word : ∀ op : Opcode, w ≠ op.word)
    (divAlias : w ≠ Opcode.divAlias) : Parses n (w :: ws) (.error (.atLine n (.unknownInstruction w)))

variable {n : Nat} {ws : List Text} {answer : Except Error (Option Instruction)}

theorem parses_ofWords (n : Nat) (ws : List Text) :
    Parses n ws ((ofWords ws).mapError (Error.atLine n)) := by
  cases ws with
  | nil => exact .blank
  | cons w ws =>
    rw [ofWords]
    split
    · rename_i hmark
      obtain ⟨t, rfl⟩ := List.head?_eq_some_iff.mp hmark
      exact .comment t ws
    · rename_i hmark
      cases hop : Opcode.ofWord? w with
      | some op =>
        rcases Opcode.ofWord?_eq_some_iff.mp hop with rfl | ⟨rfl, rfl⟩
        · exact .opcode op ws
        · exact .divAlias ws
      | none =>
        obtain ⟨hword, halias⟩ := Opcode.ofWord?_eq_none_iff.mp hop
        exact .unknown ws hmark hword halias

theorem Parses.eq_ofWords (h : Parses n ws answer) :
    answer = (ofWords ws).mapError (Error.atLine n) := by
  cases h with
  | blank => rfl
  | comment t ws => rfl
  | opcode op ws =>
    rw [ofWords_of_opcode (Opcode.ofWord?_word op)]
    rfl
  | divAlias ws => rfl
  | @unknown w ws mark word divAlias =>
    have hmark : w.head? ≠ some Token.commentMark := mark
    rw [ofWords, if_neg hmark, Opcode.ofWord?_eq_none_iff.mpr ⟨word, divAlias⟩]
    rfl

theorem parses_iff : Parses n ws answer ↔ (ofWords ws).mapError (Error.atLine n) = answer :=
  ⟨fun h => h.eq_ofWords.symm, fun h => h ▸ parses_ofWords n ws⟩

/-- Behind a token that is no comment, the word that it was made of is what was consumed. -/
theorem consumed?_of_nextToken? {line : Text} {token : Token} {r : LineReader}
    (h : (LineReader.ofLine line).nextToken? = some (some token, r)) (htoken : token ≠ .comment) :
    ∃ w, (words line).head? = some w ∧ token = Token.ofWord w ∧ r.consumed? = some w := by
  obtain ⟨r', hr', hrep⟩ := (LineReader.represents_ofLine line).nextToken?
  obtain ⟨htoken', rfl⟩ := Prod.mk.inj (Option.some.inj (h.symm.trans hr'))
  cases hwords : words line with
  | nil =>
    rw [Plain.Reader.nextToken_of_nil hwords] at htoken'
    cases htoken'
  | cons w ws =>
    by_cases hmark : w.head? = some Token.commentMark
    · rw [Plain.Reader.nextToken_of_comment hwords hmark] at htoken'
      exact absurd (Option.some.inj htoken') htoken
    · rw [Plain.Reader.nextToken_of_word hwords hmark] at htoken' hrep
      refine ⟨w, rfl, Option.some.inj htoken', ?_⟩
      rw [hrep.consumed?, Plain.Reader.consumed_nextWord hwords]

/-- A line has one list of words and holds what the grammar says of them, and nothing else. The opcode
is kept as it was written, since what was consumed is the word that the token was made of. An
interpreter refuses the line with the same error. -/
theorem ofLine_eq_iff_parses (line : Text) (n : Nat) :
    (∃! ws, Text.IsWords line ws) ∧
    (∀ answer, (ofLine line).mapError (Error.atLine n) = answer ↔
      ∃ ws, Text.IsWords line ws ∧ Parses n ws answer) ∧
    (∀ token r, (LineReader.ofLine line).nextToken? = some (some token, r) → token ≠ .comment →
      ∃ w ws, Text.IsWords line (w :: ws) ∧ token = Token.ofWord w ∧ r.consumed? = some w) ∧
    ∀ (s : Interpreter) (e : Error), s.lines + 1 = n →
      (ofLine line).mapError (Error.atLine n) = .error e →
      s.executeLine line = (some e, { s with lines := n }) := by
  refine ⟨⟨words line, Text.isWords_words line, fun ws => Text.IsWords.eq_words⟩, ?_, ?_, ?_⟩
  · intro answer
    simp only [Text.isWords_iff, exists_eq_left, parses_iff, ofLine_eq]
  · intro token r h htoken
    obtain ⟨w, hw, hofWord, hconsumed⟩ := consumed?_of_nextToken? h htoken
    obtain ⟨ws, hws⟩ := List.head?_eq_some_iff.mp hw
    exact ⟨w, ws, Text.isWords_iff.mpr hws.symm, hofWord, hconsumed⟩
  · rintro s e rfl he
    rw [Interpreter.executeLine]
    cases hline : ofLine line with
    | ok i =>
      rw [hline] at he
      cases he
    | error fault =>
      rw [hline] at he
      cases he
      rfl

end Instruction

end DequeMachine
