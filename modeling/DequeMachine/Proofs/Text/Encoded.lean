import DequeMachine.Proofs.Text.Utf8

namespace DequeMachine.Utf8

/-- The ranges of the bytes behind a first byte; there are none if it is a character by itself. -/
def awaitedAfter? (b : UInt8) : Option (List ByteRange) := if b < 0x80 then some [] else afterLead? b

/-- One byte in each range. -/
abbrev Fills (ranges : List ByteRange) (b : Bytes) : Prop :=
  List.Forall₂ (fun r x => r.contains x = true) ranges b

theorem lt_0x80_iff {b : UInt8} : b < 0x80 ↔ b.toNat < 0x80 := UInt8.lt_iff_toNat_lt

theorem awaitedAfter?_ascii {n : Nat} (h : n ≤ 0x7f) : awaitedAfter? (UInt8.ofNat n) = some [] := by
  have hlt : UInt8.ofNat n < 0x80 := by
    rw [lt_0x80_iff, toNat_ofNat (by omega)]
    omega
  rw [awaitedAfter?, if_pos hlt]

theorem awaitedAfter?_ofNat {n : Nat} (hn : n < 256) (h : 0x80 ≤ n) :
    awaitedAfter? (UInt8.ofNat n) = afterLead? (UInt8.ofNat n) := by
  have hlt : ¬UInt8.ofNat n < 0x80 := by
    rw [lt_0x80_iff, toNat_ofNat hn]
    omega
  rw [awaitedAfter?, if_neg hlt]

theorem contains_continuation {n : Nat} (h : n < 64) :
    continuation.contains (UInt8.ofNat (n + 0x80)) = true := by
  rw [contains_ofNat (by omega)]
  change 0x80 ≤ _ ∧ _ ≤ 0xbf
  omega

/-- The bytes behind the first byte of a character are in the ranges that the first byte asks for. -/
theorem exists_fills (c : Char) : ∃ b bs ranges, String.utf8EncodeChar c = b :: bs ∧
    awaitedAfter? b = some ranges ∧ Fills ranges bs := by
  have hvalid : c.val.toNat < 0xd800 ∨ 0xdfff < c.val.toNat ∧ c.val.toNat < 0x110000 := c.valid
  unfold String.utf8EncodeChar
  generalize c.val.toNat = v at hvalid
  dsimp only
  split
  · exact ⟨_, _, [], rfl, awaitedAfter?_ascii ‹_›, .nil⟩
  · split
    · have hlead : afterLead? (UInt8.ofNat (v / 64 % 32 + 0xc0)) = some [continuation] := by
        rw [afterLead?_ofNat (by omega), if_pos (by omega)]
      refine ⟨_, _, [continuation], rfl, ?_, ?_⟩
      · rw [awaitedAfter?_ofNat (by omega) (by omega), hlead]
      · exact .cons (contains_continuation (by omega)) .nil
    · split
      · obtain ⟨r, hlead, hfrom, hto⟩ := exists_range_three (v := v) (by omega) ‹_› (by omega)
        refine ⟨_, _, [r, continuation], rfl, ?_, ?_⟩
        · rw [awaitedAfter?_ofNat (by omega) (by omega), hlead]
        · exact .cons ((contains_ofNat (by omega)).mpr ⟨hfrom, hto⟩)
            (.cons (contains_continuation (by omega)) .nil)
      · obtain ⟨r, hlead, hfrom, hto⟩ := exists_range_four (v := v) (by omega) (by omega)
        refine ⟨_, _, [r, continuation, continuation], rfl, ?_, ?_⟩
        · rw [awaitedAfter?_ofNat (by omega) (by omega), hlead]
        · exact .cons ((contains_ofNat (by omega)).mpr ⟨hfrom, hto⟩)
            (.cons (contains_continuation (by omega))
              (.cons (contains_continuation (by omega)) .nil))

theorem val_ofNat {v : Nat} (h : v.isValidChar) : (Char.ofNat v).val.toNat = v := by
  rw [Char.ofNat, dif_pos h]
  rfl

theorem exists_char_one {a : UInt8} (ha : a.toNat < 0x80) :
    ∃ c, String.utf8EncodeChar c = [a] := by
  refine ⟨Char.ofNat a.toNat, ?_⟩
  rw [String.utf8EncodeChar, val_ofNat (.inl (by omega)), if_pos (by omega), UInt8.ofNat_toNat]

theorem exists_char_two {a b : UInt8} (ha : 0xc2 ≤ a.toNat ∧ a.toNat ≤ 0xdf)
    (hb : 0x80 ≤ b.toNat ∧ b.toNat ≤ 0xbf) : ∃ c, String.utf8EncodeChar c = [a, b] := by
  obtain ⟨v, hv⟩ : ∃ v, v = (a.toNat - 0xc0) * 64 + (b.toNat - 0x80) := ⟨_, rfl⟩
  have hfirst : v / 64 % 32 + 0xc0 = a.toNat := by omega
  have hsecond : v % 64 + 0x80 = b.toNat := by omega
  refine ⟨Char.ofNat v, ?_⟩
  rw [String.utf8EncodeChar, val_ofNat (.inl (by omega)), if_neg (by omega), if_pos (by omega),
    hfirst, hsecond]
  simp only [UInt8.ofNat_toNat]

theorem exists_char_three {a b c : UInt8} (ha : 0xe0 ≤ a.toNat ∧ a.toNat ≤ 0xef)
    (hb : 0x80 ≤ b.toNat ∧ b.toNat ≤ 0xbf) (hc : 0x80 ≤ c.toNat ∧ c.toNat ≤ 0xbf)
    (hlong : a.toNat = 0xe0 → 0xa0 ≤ b.toNat) (hsurrogate : a.toNat = 0xed → b.toNat ≤ 0x9f) :
    ∃ ch, String.utf8EncodeChar ch = [a, b, c] := by
  obtain ⟨v, hv⟩ : ∃ v, v = (a.toNat - 0xe0) * 4096 + (b.toNat - 0x80) * 64 + (c.toNat - 0x80) :=
    ⟨_, rfl⟩
  have hfirst : v / 4096 % 16 + 0xe0 = a.toNat := by omega
  have hsecond : v / 64 % 64 + 0x80 = b.toNat := by omega
  have hthird : v % 64 + 0x80 = c.toNat := by omega
  have hvalid : v < 0xd800 ∨ 0xdfff < v ∧ v < 0x110000 := by omega
  refine ⟨Char.ofNat v, ?_⟩
  rw [String.utf8EncodeChar, val_ofNat hvalid, if_neg (by omega), if_neg (by omega),
    if_pos (by omega), hfirst, hsecond, hthird]
  simp only [UInt8.ofNat_toNat]

theorem exists_char_four {a b c d : UInt8} (ha : 0xf0 ≤ a.toNat ∧ a.toNat ≤ 0xf4)
    (hb : 0x80 ≤ b.toNat ∧ b.toNat ≤ 0xbf) (hc : 0x80 ≤ c.toNat ∧ c.toNat ≤ 0xbf)
    (hd : 0x80 ≤ d.toNat ∧ d.toNat ≤ 0xbf) (hlong : a.toNat = 0xf0 → 0x90 ≤ b.toNat)
    (hbeyond : a.toNat = 0xf4 → b.toNat ≤ 0x8f) :
    ∃ ch, String.utf8EncodeChar ch = [a, b, c, d] := by
  obtain ⟨v, hv⟩ : ∃ v, v = (a.toNat - 0xf0) * 262144 + (b.toNat - 0x80) * 4096 +
      (c.toNat - 0x80) * 64 + (d.toNat - 0x80) := ⟨_, rfl⟩
  have hfirst : v / 262144 % 8 + 0xf0 = a.toNat := by omega
  have hsecond : v / 4096 % 64 + 0x80 = b.toNat := by omega
  have hthird : v / 64 % 64 + 0x80 = c.toNat := by omega
  have hfourth : v % 64 + 0x80 = d.toNat := by omega
  have hvalid : v < 0xd800 ∨ 0xdfff < v ∧ v < 0x110000 := by omega
  refine ⟨Char.ofNat v, ?_⟩
  rw [String.utf8EncodeChar, val_ofNat hvalid, if_neg (by omega), if_neg (by omega),
    if_neg (by omega), hfirst, hsecond, hthird, hfourth]
  simp only [UInt8.ofNat_toNat]

/-- What a leading byte asks for. The second byte of three or four has a range of its own. -/
inductive Asks (n : Nat) : List ByteRange → Prop
  | one (h : 0xc2 ≤ n ∧ n ≤ 0xdf) : Asks n [continuation]
  | two {r : ByteRange} (h : 0xe0 ≤ n ∧ n ≤ 0xef)
    (hr : 0x80 ≤ r.lo.toNat ∧ r.lo.toNat ≤ r.hi.toNat ∧ r.hi.toNat ≤ 0xbf)
    (hlong : n = 0xe0 → 0xa0 ≤ r.lo.toNat) (hsurrogate : n = 0xed → r.hi.toNat ≤ 0x9f) :
    Asks n [r, continuation]
  | three {r : ByteRange} (h : 0xf0 ≤ n ∧ n ≤ 0xf4)
    (hr : 0x80 ≤ r.lo.toNat ∧ r.lo.toNat ≤ r.hi.toNat ∧ r.hi.toNat ≤ 0xbf)
    (hlong : n = 0xf0 → 0x90 ≤ r.lo.toNat) (hbeyond : n = 0xf4 → r.hi.toNat ≤ 0x8f) :
    Asks n [r, continuation, continuation]

theorem asks_of_afterLead? {b : UInt8} {ranges : List ByteRange} (h : afterLead? b = some ranges) :
    Asks b.toNat ranges := by
  have hb := afterLead?_ofNat b.toNat_lt
  rw [UInt8.ofNat_toNat, h] at hb
  have hcontinuation : 0x80 ≤ continuation.lo.toNat ∧
      continuation.lo.toNat ≤ continuation.hi.toNat ∧ continuation.hi.toNat ≤ 0xbf := by decide
  split_ifs at hb with h2 he0 hed h3 hf0 hf3 hf4 <;> obtain rfl := Option.some.inj hb
  · exact .one h2
  · exact .two (by omega) (by decide) (fun _ => by decide) (by omega)
  · exact .two (by omega) (by decide) (by omega) (fun _ => by decide)
  · exact .two (by omega) hcontinuation (by omega) (by omega)
  · exact .three (by omega) (by decide) (fun _ => by decide) (by omega)
  · exact .three (by omega) hcontinuation (by omega) (by omega)
  · exact .three (by omega) (by decide) (by omega) (fun _ => by decide)

theorem contains_iff {r : ByteRange} {b : UInt8} :
    r.contains b = true ↔ r.lo.toNat ≤ b.toNat ∧ b.toNat ≤ r.hi.toNat := by
  simp [ByteRange.contains, UInt8.le_iff_toNat_le]

/-- Bytes in the ranges that a first byte asks for complete a character. -/
theorem exists_char_of_fills {b : UInt8} {bs : Bytes} {ranges : List ByteRange}
    (h : awaitedAfter? b = some ranges) (hfills : Fills ranges bs) :
    ∃ c, String.utf8EncodeChar c = b :: bs := by
  have hcontinuation : ∀ x : UInt8, continuation.contains x = true ↔ 0x80 ≤ x.toNat ∧ x.toNat ≤ 0xbf :=
    fun x => contains_iff
  unfold awaitedAfter? at h
  split at h
  · obtain rfl : [] = ranges := Option.some.inj h
    cases hfills
    exact exists_char_one (lt_0x80_iff.mp ‹_›)
  · cases asks_of_afterLead? h with
    | one hb =>
      obtain _ | ⟨hx, _ | _⟩ := hfills
      exact exists_char_two hb ((hcontinuation _).mp hx)
    | two hb hr hlong hsurrogate =>
      obtain _ | ⟨hx, _ | ⟨hy, _ | _⟩⟩ := hfills
      have hx := contains_iff.mp hx
      exact exists_char_three hb (by omega) ((hcontinuation _).mp hy) (by omega) (by omega)
    | three hb hr hlong hbeyond =>
      obtain _ | ⟨hx, _ | ⟨hy, _ | ⟨hz, _ | _⟩⟩⟩ := hfills
      have hx := contains_iff.mp hx
      exact exists_char_four hb (by omega) ((hcontinuation _).mp hy) ((hcontinuation _).mp hz)
        (by omega) (by omega)

theorem contains_lo {b : UInt8} {ranges : List ByteRange} (h : awaitedAfter? b = some ranges) :
    ∀ r ∈ ranges, r.contains r.lo = true := by
  have hlo : ∀ r : ByteRange, r.lo.toNat ≤ r.hi.toNat → r.contains r.lo = true :=
    fun r hr => contains_iff.mpr ⟨Nat.le_refl _, hr⟩
  have hcontinuation : continuation.contains continuation.lo = true := by decide
  unfold awaitedAfter? at h
  split at h
  · obtain rfl : [] = ranges := Option.some.inj h
    simp
  · cases asks_of_afterLead? h with
    | one => simpa using hcontinuation
    | two _ hr => simpa using ⟨hlo _ hr.2.1, hcontinuation⟩
    | three _ hr => simpa using ⟨hlo _ hr.2.1, hcontinuation⟩

/-- The ranges behind a first byte lie above ASCII. -/
theorem le_lo {b : UInt8} {ranges : List ByteRange} (h : awaitedAfter? b = some ranges) :
    ∀ r ∈ ranges, 0x80 ≤ r.lo.toNat := by
  have hcontinuation : 0x80 ≤ continuation.lo.toNat := by decide
  unfold awaitedAfter? at h
  split at h
  · obtain rfl : [] = ranges := Option.some.inj h
    simp
  · cases asks_of_afterLead? h with
    | one => simpa using hcontinuation
    | two _ hr => simpa using ⟨hr.1, hcontinuation⟩
    | three _ hr => simpa using ⟨hr.1, hcontinuation⟩

theorem Fills.le_toNat {ranges : List ByteRange} {bs : Bytes} (h : Fills ranges bs)
    (hranges : ∀ r ∈ ranges, 0x80 ≤ r.lo.toNat) : ∀ x ∈ bs, 0x80 ≤ x.toNat := by
  induction h with
  | nil => simp
  | @cons r x ranges bs hx _ ih =>
    obtain ⟨hr, hranges⟩ := List.forall_mem_cons.mp hranges
    have hlo := (contains_iff.mp hx).1
    exact List.forall_mem_cons.mpr ⟨by omega, ih hranges⟩

theorem encodeChar_of_ascii {c : Char} (h : c.toNat < 0x80) :
    String.utf8EncodeChar c = [UInt8.ofNat c.toNat] := by
  have hval : c.val.toNat ≤ 0x7f := Nat.le_of_lt_succ h
  rw [String.utf8EncodeChar, if_pos hval]
  rfl

theorem toNat_of_length_one {c : Char} {b : UInt8} (h : String.utf8EncodeChar c = [b]) :
    c.toNat < 0x80 := by
  have hsize := String.length_utf8EncodeChar c
  rw [h, List.length_singleton] at hsize
  have hval : c.val ≤ 0x7f := Char.utf8Size_eq_one_iff.mp hsize.symm
  exact Nat.lt_succ_of_le (UInt32.le_iff_toNat_le.mp hval)

/-- All bytes of a character that is not ASCII lie above ASCII. -/
theorem le_toNat_of_mem {c : Char} (h : 0x80 ≤ c.toNat) : ∀ b ∈ String.utf8EncodeChar c, 0x80 ≤ b.toNat := by
  obtain ⟨b, bs, ranges, hencode, hb, hfills⟩ := exists_fills c
  have hfirst : 0x80 ≤ b.toNat := by
    by_contra hlt
    rw [awaitedAfter?, if_pos (lt_0x80_iff.mpr (by omega))] at hb
    obtain rfl : [] = ranges := Option.some.inj hb
    cases hfills
    have := toNat_of_length_one hencode
    omega
  rw [hencode]
  exact List.forall_mem_cons.mpr ⟨hfirst, hfills.le_toNat (le_lo hb)⟩

/-- A byte of ASCII is all of its character. -/
theorem eq_ofNat_of_mem {c : Char} {b : UInt8} (h : b ∈ String.utf8EncodeChar c)
    (hb : b.toNat < 0x80) : c = Char.ofNat b.toNat := by
  have hascii : c.toNat < 0x80 := by
    by_contra hle
    have hbyte := le_toNat_of_mem (Nat.le_of_not_lt hle) b h
    omega
  rw [encodeChar_of_ascii hascii, List.mem_singleton] at h
  rw [h, toNat_ofNat (by omega), Char.ofNat_toNat]

/-- No character begins with a continuation byte. -/
theorem exists_head (c : Char) : ∃ b bs, String.utf8EncodeChar c = b :: bs ∧
    continuation.contains b = false := by
  obtain ⟨b, bs, ranges, hencode, hb, -⟩ := exists_fills c
  refine ⟨b, bs, hencode, ?_⟩
  have hcontinuation : continuation.contains b = true ↔ 0x80 ≤ b.toNat ∧ b.toNat ≤ 0xbf := contains_iff
  rw [← Bool.not_eq_true, hcontinuation]
  unfold awaitedAfter? at hb
  split at hb
  · have hlt := lt_0x80_iff.mp ‹_›
    omega
  · have hasks := asks_of_afterLead? hb
    cases hasks <;> omega

end DequeMachine.Utf8
