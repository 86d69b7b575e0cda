import Mathlib
import DequeMachine.Command.Run
import DequeMachine.Proofs.Journal

namespace DequeMachine

variable {limit : Option Level} {word name t u : Text} {c : Char}

namespace Text

theorem isWhiteSpace_of_isAlpha (h : c.isAlpha) : isWhiteSpace c = false := by
  have hrange : 65 ≤ c.toNat ∧ c.toNat ≤ 90 ∨ 97 ≤ c.toNat ∧ c.toNat ≤ 122 := by
    simpa [Char.isAlpha, Char.isUpper, Char.isLower, UInt32.le_iff_toNat_le, ← Char.toNat_val]
      using h
  simp [isWhiteSpace, inRanges, whiteSpaceRanges]
  omega

theorem dropWhile_append_of_word (hword : ∀ c ∈ word, isWhiteSpace c = false) (hne : word ≠ [])
    (t : Text) : (t ++ word).dropWhile isWhiteSpace = t.dropWhile isWhiteSpace ++ word := by
  induction t with
  | nil =>
    obtain ⟨c, word, rfl⟩ := List.exists_cons_of_ne_nil hne
    exact List.dropWhile_cons_of_neg (by simp [hword])
  | cons c t ih =>
    simp only [List.cons_append, List.dropWhile_cons, ih]
    split <;> rfl

/-- Text that ends with a word has white space to lose only in front. -/
theorem trim_append (hword : ∀ c ∈ word, isWhiteSpace c = false) (hne : word ≠ []) (t : Text) :
    trim (t ++ word) = t.dropWhile isWhiteSpace ++ word := by
  have hend : ∀ u : Text, (word.reverse ++ u).dropWhile isWhiteSpace = word.reverse ++ u := by
    obtain ⟨word, c, rfl⟩ := List.eq_nil_or_concat word |>.resolve_left hne
    simp [hword]
  simp [trim, dropWhile_append_of_word hword hne, hend]

end Text

namespace Level

/-- A word for a level, or the one for none, in capital or small letters. -/
def Names (limit : Option Level) (word : Text) : Prop :=
  word.map Char.toLower = (limit.map Level.word).getD "off".toList

theorem Names.limit?_eq (h : Names limit word) : limit? word = some limit := by
  unfold Names at h
  simp only [limit?, h]
  rcases limit with _ | l
  · rfl
  · cases l <;> rfl

theorem Names.isAlpha (h : Names limit word) (hc : c ∈ word) : c.isAlpha := by
  have hlower : ((limit.map Level.word).getD "off".toList).all Char.isLower := by
    rcases limit with _ | l
    · rfl
    · cases l <;> rfl
  rw [← h, List.all_map, List.all_eq_true] at hlower
  rw [← Char.isLower_toLower_eq_isAlpha]
  exact hlower c hc

theorem Names.notMem (h : Names limit word) (hc : c.isAlpha = false) : c ∉ word := by
  intro hmem
  simp [h.isAlpha hmem] at hc

theorem Names.ne_nil (h : Names limit word) : word ≠ [] := by
  rintro rfl
  rcases limit with _ | l
  · cases h
  · cases l <;> cases h

theorem Names.isWhiteSpace (h : Names limit word) : ∀ c ∈ word, Text.isWhiteSpace c = false :=
  fun _ hc => Text.isWhiteSpace_of_isAlpha (h.isAlpha hc)

theorem Names.trim_eq (h : Names limit word) : Text.trim word = word :=
  Text.trim_append h.isWhiteSpace h.ne_nil []

end Level

namespace Journal

open Level (Names)

theorem Rule.ofText_level (h : Names limit word) : Rule.ofText word = .ok { limit } := by
  have hequals : '=' ∉ word := h.notMem rfl
  simp [Rule.ofText, List.splitOn_eq_singleton hequals, h.limit?_eq]

theorem Rule.ofText_target (hname : '=' ∉ name) (h : Names limit word) :
    Rule.ofText (name ++ '=' :: word) = .ok { target := some name, limit } := by
  have hequals : '=' ∉ word := h.notMem rfl
  simp [Rule.ofText, List.splitOn_append_cons_self_of_not_mem hname,
    List.splitOn_eq_singleton hequals, h.trim_eq, h.ne_nil, h.limit?_eq]

theorem Filter.Written.ofText_rule {rule : Rule} (pattern? : Text → Except Text (Text → Bool))
    (hcomma : ',' ∉ t) (hslash : '/' ∉ t) (htrim : Text.trim t = u) (hne : u ≠ [])
    (h : Rule.ofText u = .ok rule) : ofText pattern? t = { filter := { rules := [rule] } } := by
  simp [ofText, List.splitOn_eq_singleton hslash, readRules, List.splitOn_eq_singleton hcomma, htrim,
    hne, readRule, h, Rule.insertInto, ofRules]

/-- What the environment says of the journal: nothing, how much to log, or how much of which target. -/
inductive Setting
  | unset
  | level (limit : Option Level)
  | target (name : Text) (limit : Option Level)
  deriving DecidableEq, Repr

namespace Setting

/-- How a setting is written. The name of a target can hold anything that does not end the rule or its
target, though white space in front of it is lost. -/
inductive Written : Setting → Option Text → Prop
  | unset : Written .unset none
  | level {limit : Option Level} {word : Text} (names : Names limit word) :
    Written (.level limit) (some word)
  | target {name : Text} {limit : Option Level} {word : Text} (equals : '=' ∉ name)
    (comma : ',' ∉ name) (slash : '/' ∉ name) (names : Names limit word) :
    Written (.target name limit) (some (name ++ '=' :: word))

/-- Whether a setting enables a record. An unset one leaves it to the flags. -/
def enables (flags : Level) (r : Record) : Setting → Bool
  | unset => r.level.rank ≤ flags.rank
  | level limit => limit.any fun l => r.level.rank ≤ l.rank
  | target name limit =>
    (name.dropWhile Text.isWhiteSpace).isPrefixOf r.target && limit.any fun l => r.level.rank ≤ l.rank

def filter (flags : Level) : Setting → Filter
  | unset => .upTo (some flags)
  | level limit => .upTo limit
  | target name limit => { rules := [{ target := some (name.dropWhile Text.isWhiteSpace), limit }] }

theorem admits_filter (flags : Level) (r : Record) (s : Setting) :
    (s.filter flags).admits r = s.enables flags r := by
  cases s with
  | unset => exact Filter.admits_upTo flags r
  | level limit => exact Filter.admits_upTo_option limit r
  | target name limit =>
    let rule : Rule := { target := some (name.dropWhile Text.isWhiteSpace), limit }
    have hallows : rule.allows r.level = limit.any fun l => r.level.rank ≤ l.rank := by
      cases limit <;> rfl
    have hconcerns : rule.concerns r.target = (name.dropWhile Text.isWhiteSpace).isPrefixOf r.target := rfl
    rw [enables, ← hallows, ← hconcerns]
    cases h : rule.concerns r.target <;> simp [filter, Filter.admits, Filter.deciding?, rule, h, Filter.closer]

variable {s : Setting} {environment : Option Text}

/-- A setting is read without complaint. -/
theorem Written.filter_eq (h : s.Written environment) (l : Libraries) (a : Arguments) :
    Command.filter l environment a = { filter := s.filter a.level } := by
  cases h with
  | unset => rfl
  | level names =>
    exact Filter.Written.ofText_rule l.pattern? (names.notMem rfl) (names.notMem rfl) names.trim_eq
      names.ne_nil (Rule.ofText_level names)
  | @target name limit word equals comma slash names =>
    have hword : ∀ c ∈ '=' :: word, Text.isWhiteSpace c = false :=
      List.forall_mem_cons.mpr ⟨by decide, names.isWhiteSpace⟩
    have hcomma : ',' ∉ name ++ '=' :: word := by simp [comma, names.notMem]
    have hslash : '/' ∉ name ++ '=' :: word := by simp [slash, names.notMem]
    have hname : '=' ∉ name.dropWhile Text.isWhiteSpace :=
      fun hmem => equals ((List.dropWhile_suffix _).subset hmem)
    exact Filter.Written.ofText_rule l.pattern? hcomma hslash (Text.trim_append hword (by simp) name)
      (by simp) (Rule.ofText_target hname names)

end Setting

end Journal

end DequeMachine
