import DequeMachine.Proofs.Plain.Integer
import DequeMachine.Proofs.Text.DecodedLines
import DequeMachine.Proofs.Text.Words

/-!
# Canonical lines

The canonical form of a line keeps only the words that an interpreter reads: the opcode in its first
spelling, and for `push` the argument, a value in its shortest decimal. Lines that hold nothing become
empty. Any other way to spell the same words has the same canonical form.
-/
namespace DequeMachine

theorem Decimal.eq_zero_of_head?_digits {n : Nat} (h : (digits n).head? = some '0') : n = 0 := by
  have hsmall : ∀ d < 10, Nat.digitChar d = '0' → d = 0 := by decide
  induction n using Nat.strong_induction_on with
  | _ n ih =>
    rw [digits, Nat.toDigits_eq_if (by decide)] at h
    split at h
    · rename_i hn
      exact hsmall n hn (Option.some.inj h)
    · rw [List.head?_append_of_ne_nil _ Nat.toDigits_ne_nil] at h
      have hzero := ih (n / 10) (by omega) h
      omega

/-- A written value has no zero in front, unless it is zero itself, which has no minus sign. -/
theorem Decimal.write_of_head?_eq_zero {v : Int32}
    (h : (Plain.signed (write v)).2.head? = some '0') : write v = ['0'] := by
  have hdigit : ∀ n, Plain.signed (digits n) = (1, digits n) := fun n =>
    Plain.signed_of_isDigit fun c hc => Plain.isDigit_iff.mp (isDigit_of_mem_digits hc)
  by_cases hv : v.toInt < 0
  · have hwrite : write v = '-' :: digits v.toInt.natAbs := if_pos hv
    rw [hwrite] at h
    have hzero : v.toInt.natAbs = 0 := eq_zero_of_head?_digits h
    omega
  · have hwrite : write v = digits v.toInt.natAbs := if_neg hv
    rw [hwrite, hdigit] at h
    rw [hwrite, eq_zero_of_head?_digits h]
    rfl

namespace Text

/-- The shortest decimal of a word that denotes a value, and any other word as it is. -/
def canonicalArgument (w : Text) : Text :=
  match Plain.integer? w with
  | some v => Decimal.write v
  | none => w

def canonicalWords : List Text → List Text
  | [] => []
  | w :: ws =>
    if w.head? = some Token.commentMark then []
    else if w = Opcode.divAlias then [Opcode.div.word]
    else if w = Opcode.push.word then w :: (ws.head?.map canonicalArgument).toList
    else [w]

theorem read?_canonicalArgument (w : Text) :
    Decimal.read? (canonicalArgument w) = Decimal.read? w := by
  rw [canonicalArgument]
  cases h : Plain.integer? w with
  | none => rfl
  | some v =>
    rw [Plain.integer?_eq] at h
    rw [h]
    exact Decimal.read?_write v

/-- A word that denotes a value keeps it and loses its leading zeros, and zero its minus sign. -/
theorem integer?_canonicalArgument {w : Text} {v : Int32} (h : Plain.integer? w = some v) :
    Plain.integer? (canonicalArgument w) = some v ∧
      ((Plain.signed (canonicalArgument w)).2.head? = some '0' → canonicalArgument w = ['0']) := by
  have hargument : canonicalArgument w = Decimal.write v := by rw [canonicalArgument, h]
  rw [hargument, Plain.integer?_eq, Decimal.read?_write]
  exact ⟨rfl, Decimal.write_of_head?_eq_zero⟩

theorem IsWord.canonicalArgument {w : Text} (h : w.IsWord) : (canonicalArgument w).IsWord := by
  rw [Text.canonicalArgument]
  cases Plain.integer? w with
  | none => exact h
  | some v => exact Decimal.isWord_write v

theorem isWord_canonicalWords {ws : List Text} (h : ∀ w ∈ ws, IsWord w) :
    ∀ w ∈ canonicalWords ws, IsWord w := by
  cases ws with
  | nil => exact h
  | cons w ws =>
    obtain ⟨hw, hws⟩ := List.forall_mem_cons.mp h
    rw [canonicalWords]
    split
    · exact fun v hv => absurd hv List.not_mem_nil
    · split
      · rw [List.forall_mem_singleton]
        exact Opcode.isWord (Opcode.ofWord?_word .div)
      · split
        · refine List.forall_mem_cons.mpr ⟨hw, fun v hv => ?_⟩
          obtain ⟨a, ha, rfl⟩ := Option.map_eq_some_iff.mp (Option.mem_toList.mp hv)
          exact (hws a (List.mem_of_mem_head? ha)).canonicalArgument
        · rw [List.forall_mem_singleton]
          exact hw

def canonicalLine (t : Text) : Text := List.intercalate [' '] (canonicalWords t.words)

theorem words_canonicalLine (t : Text) : (canonicalLine t).words = canonicalWords t.words :=
  words_intercalate (isWord_canonicalWords fun _ => isWord_of_mem_words)

theorem newline_notMem_canonicalLine (t : Text) : '\n' ∉ canonicalLine t :=
  newline_notMem_intercalate (isWord_canonicalWords fun _ => isWord_of_mem_words)

/-- The second line is another spelling of the first: other blanks around the words, other words behind
the second one, other arguments of an opcode that has none, or the other spelling of division. -/
inductive Respelled : Text → Text → Prop
  | blanks {t u : Text} (h : words t = words u) : Respelled t u
  | rest {t u w argument : Text} {ws ws' : List Text} (ht : words t = w :: argument :: ws)
    (hu : words u = w :: argument :: ws') : Respelled t u
  | arguments {t u w : Text} {ws ws' : List Text} (hw : w ≠ Opcode.push.word)
    (ht : words t = w :: ws) (hu : words u = w :: ws') : Respelled t u
  | division {t u : Text} {ws ws' : List Text} (ht : words t = Opcode.div.word :: ws)
    (hu : words u = Opcode.divAlias :: ws') : Respelled t u

theorem Respelled.canonicalLine_eq {t u : Text} (h : Respelled t u) :
    canonicalLine t = canonicalLine u := by
  rw [canonicalLine, canonicalLine]
  cases h with
  | blanks h => rw [h]
  | rest ht hu =>
    rw [ht, hu]
    rfl
  | arguments hw ht hu =>
    rw [ht, hu, canonicalWords, canonicalWords, if_neg hw, if_neg hw]
  | division ht hu =>
    rw [ht, hu]
    rfl

end Text

/-- The program whose lines are those of another one in canonical form, each ended by a newline. -/
def Bytes.canonical (program : Bytes) : Bytes :=
  unlines (((program.lines.map Utf8.decode).map Text.canonicalLine).map Utf8.encode)

theorem Bytes.map_decode_lines_canonical (program : Bytes) :
    (canonical program).lines.map Utf8.decode =
      (program.lines.map Utf8.decode).map Text.canonicalLine := by
  apply Utf8.map_decode_lines_unlines
  intro t ht
  obtain ⟨u, -, rfl⟩ := List.mem_map.mp ht
  exact Text.newline_notMem_canonicalLine u

end DequeMachine
