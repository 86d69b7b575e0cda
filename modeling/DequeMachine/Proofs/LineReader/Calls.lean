import DequeMachine.Proofs.LineReader.Unread

namespace DequeMachine

namespace LineReader

inductive Call
  | token
  | word
  | consumed
  deriving DecidableEq, Repr

inductive Reply
  | token (t : Option Token)
  | word (w : Option Text)
  | consumed (t : Text)
  deriving DecidableEq, Repr

namespace Reply

def call : Reply → Call
  | token _ => .token
  | word _ => .word
  | consumed _ => .consumed

/-- Whether the reply was read from the line. What was consumed is only looked at. -/
def isRead (reply : Reply) : Bool := reply.call != .consumed

def consumed? : Reply → Option Text
  | consumed t => some t
  | _ => none

/-- A comment, or the end of the line. -/
def isLast : Reply → Bool
  | token t => t.all (· == .comment)
  | word w => w.isNone
  | consumed _ => false

/-- Nothing is read from the line. -/
def isSilent : Reply → Bool
  | token t => t.isNone
  | word w => w.isNone
  | consumed _ => true

end Reply

def perform? (call : Call) (r : LineReader) : Option (Reply × LineReader) :=
  match call with
  | .token => r.nextToken?.map fun (t, r) => (.token t, r)
  | .word => r.nextWord?.map fun (w, r) => (.word w, r)
  | .consumed => r.consumed?.map fun t => (.consumed t, r)

def session? : List Call → LineReader → Option (List Reply × LineReader)
  | [], r => some ([], r)
  | call :: calls, r => do
    let (reply, r) ← r.perform? call
    let (replies, r) ← r.session? calls
    some (reply :: replies, r)

def perform (call : Call) (r : LineReader) : Reply × LineReader :=
  match call with
  | .token => (.token r.nextToken.1, r.nextToken.2)
  | .word => (.word r.nextWord.1, r.nextWord.2)
  | .consumed => (.consumed r.consumed, r)

def session : List Call → LineReader → List Reply × LineReader
  | [], r => ([], r)
  | call :: calls, r =>
    let (reply, r) := r.perform call
    let (replies, r) := r.session calls
    (reply :: replies, r)

/-- What the readings among some calls give when these are the words still to come. -/
def readings : List Call → List Text → List Reply
  | [], _ => []
  | .consumed :: calls, ws => readings calls ws
  | .word :: calls, ws => .word ws.head? :: readings calls ws.tail
  | .token :: calls, [] => .token none :: readings calls []
  | .token :: calls, w :: ws =>
    if w.head? = some Token.commentMark then .token (some .comment) :: readings calls []
    else .token (some (Token.ofWord w)) :: readings calls ws

end LineReader

open LineReader (Call Reply)
open Text (words)

namespace Plain.Reader

def perform (call : Call) (r : Reader) : Reply × Reader :=
  match call with
  | .token => (.token r.nextToken.1, r.nextToken.2)
  | .word => (.word r.nextWord.1, r.nextWord.2)
  | .consumed => (.consumed r.consumed, r)

def session : List Call → Reader → List Reply × Reader
  | [], r => ([], r)
  | call :: calls, r => ((r.perform call).1 :: ((r.perform call).2.session calls).1,
      ((r.perform call).2.session calls).2)

/-- A later reader of the same line. -/
structure Onward (r r' : Reader) : Prop where
  line : r'.line = r.line
  unread : r'.unread <:+ r.unread

variable {r r' r'' : Reader}

theorem Onward.refl (r : Reader) : r.Onward r := ⟨rfl, List.suffix_rfl⟩

theorem Onward.trans (h : r.Onward r') (h' : r'.Onward r'') : r.Onward r'' :=
  ⟨h'.line.trans h.line, h'.unread.trans h.unread⟩

theorem onward_nextWord (r : Reader) : r.Onward r.nextWord.2 :=
  ⟨rfl, (List.dropWhile_suffix _).trans (List.dropWhile_suffix _)⟩

theorem onward_nextToken (r : Reader) : r.Onward r.nextToken.2 := by
  rw [nextToken]
  split
  · exact ⟨rfl, List.nil_suffix⟩
  · exact r.onward_nextWord

theorem onward_perform (call : Call) (r : Reader) : r.Onward (r.perform call).2 := by
  cases call with
  | token => exact r.onward_nextToken
  | word => exact r.onward_nextWord
  | consumed => exact .refl r

theorem call_perform (call : Call) (r : Reader) : (r.perform call).1.call = call := by
  cases call <;> rfl

/-- The replies of a session are those of later and later readers. -/
theorem mem_session {calls : List Call} {reply : Reply} (h : reply ∈ (r.session calls).1) :
    ∃ r' call, r.Onward r' ∧ reply = (r'.perform call).1 := by
  induction calls generalizing r with
  | nil => cases h
  | cons call calls ih =>
    rcases List.mem_cons.mp h with rfl | h
    · exact ⟨r, call, .refl r, rfl⟩
    · obtain ⟨r', call', honward, rfl⟩ := ih h
      exact ⟨r', call', (onward_perform call r).trans honward, rfl⟩

theorem pairwise_session {R : Reply → Reply → Prop}
    (h : ∀ (r r' : Reader) (call call' : Call), (r.perform call).2.Onward r' →
      R (r.perform call).1 (r'.perform call').1) (calls : List Call) (r : Reader) :
    (r.session calls).1.Pairwise R := by
  induction calls generalizing r with
  | nil => exact .nil
  | cons call calls ih =>
    refine .cons ?_ (ih _)
    intro reply hreply
    obtain ⟨r', call', honward, rfl⟩ := mem_session hreply
    exact h r r' call call' honward

theorem onward_session (calls : List Call) (r : Reader) : r.Onward (r.session calls).2 := by
  induction calls generalizing r with
  | nil => exact .refl r
  | cons call calls ih => exact (onward_perform call r).trans (ih _)

theorem map_call_session (calls : List Call) (r : Reader) :
    (r.session calls).1.map Reply.call = calls := by
  induction calls generalizing r with
  | nil => rfl
  | cons call calls ih => rw [session, List.map_cons, call_perform, ih]

/-- What was consumed begins what is consumed later. -/
theorem Onward.consumed (h : r.Onward r') : r.consumed <+: r'.consumed := by
  obtain ⟨line, unread⟩ := r
  obtain ⟨line', unread'⟩ := r'
  obtain ⟨rfl, hunread⟩ := h
  apply Text.trimStart_prefix
  apply List.take_prefix_take_left
  exact Nat.sub_le_sub_left hunread.length_le _

theorem consumed?_perform {call : Call} {t : Text} (h : (r.perform call).1.consumed? = some t) :
    t = r.consumed ∧ (r.perform call).2 = r := by
  cases call with
  | token => cases h
  | word => cases h
  | consumed => exact ⟨(Option.some.inj h).symm, rfl⟩

theorem pairwise_consumed (calls : List Call) (r : Reader) :
    ((r.session calls).1.filterMap Reply.consumed?).Pairwise (· <+: ·) := by
  rw [List.pairwise_filterMap]
  apply pairwise_session
  intro r r' call call' honward t ht u hu
  obtain ⟨rfl, hr⟩ := consumed?_perform ht
  obtain ⟨rfl, -⟩ := consumed?_perform hu
  rw [hr] at honward
  exact honward.consumed

theorem isSilent_perform (h : words r.unread = []) (call : Call) :
    (r.perform call).1.isSilent = true := by
  cases call with
  | token =>
    rw [perform, nextToken_of_nil h]
    rfl
  | word =>
    rw [perform, nextWord_fst, h]
    rfl
  | consumed => rfl

theorem words_of_isLast {call : Call} (h : (r.perform call).1.isLast = true) :
    words (r.perform call).2.unread = [] := by
  cases call with
  | token =>
    cases hwords : words r.unread with
    | nil => rw [perform, nextToken_of_nil hwords, words_nextWord, hwords, List.tail_nil]
    | cons w ws =>
      by_cases hmark : w.head? = some Token.commentMark
      · rw [perform, nextToken_of_comment hwords hmark, Text.words_nil]
      · rw [perform, nextToken_of_word hwords hmark] at h
        exact absurd h (by simp [Reply.isLast, Token.ofWord_ne_comment])
  | word =>
    rw [perform, nextWord_fst] at h
    rw [perform, words_nextWord]
    cases hwords : words r.unread with
    | nil => rfl
    | cons w ws =>
      rw [hwords] at h
      cases h
  | consumed => cases h

/-- Behind a comment or the end of the line nothing is read any more. -/
theorem pairwise_silent (calls : List Call) (r : Reader) :
    (r.session calls).1.Pairwise fun before after => before.isLast = true → after.isSilent = true := by
  apply pairwise_session
  intro r r' call call' honward hlast
  exact isSilent_perform (Text.words_eq_nil_of_suffix (words_of_isLast hlast) honward.unread) call'

theorem filter_isRead_session (calls : List Call) (r : Reader) :
    (r.session calls).1.filter Reply.isRead = LineReader.readings calls (words r.unread) := by
  induction calls generalizing r with
  | nil => rfl
  | cons call calls ih =>
    rw [session]
    cases call with
    | consumed => exact ih r
    | word =>
      have htail := ih r.nextWord.2
      rw [words_nextWord] at htail
      rw [LineReader.readings, ← htail, ← nextWord_fst]
      rfl
    | token =>
      have htail := ih r.nextToken.2
      cases hwords : words r.unread with
      | nil =>
        rw [nextToken_of_nil hwords, words_nextWord, hwords] at htail
        rw [LineReader.readings, ← List.tail_nil, ← htail, perform, nextToken_of_nil hwords]
        rfl
      | cons w ws =>
        rw [LineReader.readings]
        by_cases hmark : w.head? = some Token.commentMark
        · rw [nextToken_of_comment hwords hmark, Text.words_nil] at htail
          rw [if_pos hmark, ← htail, perform, nextToken_of_comment hwords hmark]
          rfl
        · rw [nextToken_of_word hwords hmark, words_nextWord, hwords, List.tail_cons] at htail
          rw [if_neg hmark, ← htail, perform, nextToken_of_word hwords hmark]
          rfl

end Plain.Reader

namespace LineReader

variable {r : LineReader} {p : Plain.Reader}

theorem Represents.perform? (h : r.Represents p) (call : Call) :
    ∃ r', r.perform? call = some ((p.perform call).1, r') ∧ r'.Represents (p.perform call).2 := by
  cases call with
  | token =>
    obtain ⟨r', hr', hrep⟩ := h.nextToken?
    refine ⟨r', ?_, hrep⟩
    rw [LineReader.perform?, hr']
    rfl
  | word =>
    obtain ⟨r', hr', hrep⟩ := h.nextWord?
    refine ⟨r', ?_, hrep⟩
    rw [LineReader.perform?, hr']
    rfl
  | consumed =>
    refine ⟨r, ?_, h⟩
    rw [LineReader.perform?, h.consumed?]
    rfl

theorem Represents.session? (h : r.Represents p) (calls : List Call) :
    ∃ r', r.session? calls = some ((p.session calls).1, r') ∧ r'.Represents (p.session calls).2 := by
  induction calls generalizing r p with
  | nil => exact ⟨r, rfl, h⟩
  | cons call calls ih =>
    obtain ⟨r', hr', hrep⟩ := h.perform? call
    obtain ⟨r'', hr'', hrep⟩ := ih hrep
    refine ⟨r'', ?_, hrep⟩
    simp [LineReader.session?, hr', hr'', Plain.Reader.session]

/-! Where no cut is refused, the same is read without the checks. -/

theorem perform_of_perform? {call : Call} {reply : Reply} {r' : LineReader}
    (h : r.perform? call = some (reply, r')) : r.perform call = (reply, r') := by
  cases call with
  | token =>
    obtain ⟨answer, hanswer, hreply⟩ := Option.map_eq_some_iff.mp h
    rw [LineReader.perform, LineReader.nextToken, hanswer]
    exact hreply
  | word =>
    obtain ⟨answer, hanswer, hreply⟩ := Option.map_eq_some_iff.mp h
    rw [LineReader.perform, LineReader.nextWord, hanswer]
    exact hreply
  | consumed =>
    obtain ⟨answer, hanswer, hreply⟩ := Option.map_eq_some_iff.mp h
    rw [LineReader.perform, LineReader.consumed, hanswer]
    exact hreply

theorem session_of_session? {calls : List Call} {replies : List Reply} {r' : LineReader}
    (h : r.session? calls = some (replies, r')) : r.session calls = (replies, r') := by
  induction calls generalizing r replies r' with
  | nil => exact Option.some.inj h
  | cons call calls ih =>
    simp only [LineReader.session?, Option.bind_eq_bind, Option.bind_eq_some_iff, Prod.exists] at h
    obtain ⟨reply, first, hfirst, rest, last, hrest, hanswer⟩ := h
    rw [LineReader.session, perform_of_perform? hfirst]
    dsimp only
    rw [ih hrest]
    exact Option.some.inj hanswer

/-- Whatever is called on a new reader of a line in whatever order, no text is cut inside a character,
each call is answered as the plain reader answers it, and the reader is left in front of the suffix
that the plain one is left with. The readings give out the words of the line in order, each once; what
was consumed begins what is consumed later; and nothing is read behind a comment or the end. -/
theorem session_eq_plain (line : Text) (calls : List Call) :
    let p : Plain.Reader := ⟨line, line⟩
    let replies := (p.session calls).1
    let unread := (p.session calls).2.unread
    (∃ passed, passed ++ unread = line ∧
      (ofLine line).session? calls = some (replies, standing passed unread) ∧
      (ofLine line).session calls = (replies, standing passed unread)) ∧
    replies.map Reply.call = calls ∧
    replies.filter Reply.isRead = readings calls (words line) ∧
    (replies.filterMap Reply.consumed?).Pairwise (· <+: ·) ∧
    replies.Pairwise fun before after => before.isLast = true → after.isSilent = true := by
  intro p replies unread
  have hrep := represents_ofLine line
  refine ⟨?_, Plain.Reader.map_call_session calls p, Plain.Reader.filter_isRead_session calls p,
    Plain.Reader.pairwise_consumed calls p, Plain.Reader.pairwise_silent calls p⟩
  obtain ⟨r, hr, hstands⟩ := hrep.session? calls
  obtain ⟨passed, hpassed, rfl⟩ := hstands.exists_standing
  refine ⟨passed, ?_, hr, session_of_session? hr⟩
  rw [hpassed, (Plain.Reader.onward_session calls ⟨line, line⟩).line]

end LineReader

end DequeMachine
