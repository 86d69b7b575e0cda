import Mathlib
import DequeMachine.Text.Utf8

namespace DequeMachine.Utf8

theorem toNat_ofNat {n : Nat} (hn : n < 256) : (UInt8.ofNat n).toNat = n := by
  simp [Nat.mod_eq_of_lt hn]

theorem contains_ofNat {r : ByteRange} {n : Nat} (hn : n < 256) :
    r.contains (UInt8.ofNat n) = true ↔ r.lo.toNat ≤ n ∧ n ≤ r.hi.toNat := by
  simp [ByteRange.contains, UInt8.le_iff_toNat_le, Nat.mod_eq_of_lt hn]

/-- The ranges after a leading byte, by its number. -/
theorem afterLead?_ofNat {n : Nat} (hn : n < 256) :
    afterLead? (UInt8.ofNat n) =
      if 0xc2 ≤ n ∧ n ≤ 0xdf then some [continuation]
      else if n = 0xe0 then some [⟨0xa0, 0xbf⟩, continuation]
      else if n = 0xed then some [⟨0x80, 0x9f⟩, continuation]
      else if 0xe1 ≤ n ∧ n ≤ 0xef then some [continuation, continuation]
      else if n = 0xf0 then some [⟨0x90, 0xbf⟩, continuation, continuation]
      else if 0xf1 ≤ n ∧ n ≤ 0xf3 then some [continuation, continuation, continuation]
      else if n = 0xf4 then some [⟨0x80, 0x8f⟩, continuation, continuation]
      else none := by
  simp only [afterLead?, UInt8.le_iff_toNat_le, ← UInt8.toNat_inj, toNat_ofNat hn]
  rfl

theorem start_ofNat {n : Nat} (hn : n < 256) (hascii : 0x80 ≤ n) {ranges : List ByteRange}
    (h : afterLead? (UInt8.ofNat n) = some ranges) :
    start (UInt8.ofNat n) = (⟨n % 2 ^ (6 - ranges.length), ranges⟩, []) := by
  have hlt : ¬ UInt8.ofNat n < 0x80 := by
    rw [UInt8.lt_iff_toNat_lt, toNat_ofNat hn]
    exact not_lt.mpr hascii
  rw [start, if_neg hlt, h]
  simp only [leadBits, toNat_ofNat hn, Nat.one_shiftLeft]

/-- A byte in the awaited range adds its six bits. -/
theorem take_continue {bits k : Nat} {range : ByteRange} {ranges : List ByteRange} {t : Text}
    (hk : k < 64) (hlo : range.lo.toNat ≤ k + 0x80) (hhi : k + 0x80 ≤ range.hi.toNat) :
    Run.take ⟨⟨bits, range :: ranges⟩, t⟩ (UInt8.ofNat (k + 0x80)) =
      if ranges.isEmpty then ⟨idle, Char.ofNat (bits * 64 + k) :: t⟩
      else ⟨⟨bits * 64 + k, ranges⟩, t⟩ := by
  have hlt : k + 0x80 < 256 := by omega
  have hmod : (k + 0x80) % 64 = k := by omega
  simp only [Run.take, step, (contains_ofNat hlt).mpr ⟨hlo, hhi⟩, toNat_ofNat hlt, hmod, if_true]
  cases ranges <;> rfl

theorem take_lead {n : Nat} (hn : n < 256) (hascii : 0x80 ≤ n) {ranges : List ByteRange}
    (h : afterLead? (UInt8.ofNat n) = some ranges) (t : Text) :
    Run.take ⟨idle, t⟩ (UInt8.ofNat n) = ⟨⟨n % 2 ^ (6 - ranges.length), ranges⟩, t⟩ := by
  simp [Run.take, step, idle, start_ofNat hn hascii h]

/-- The second of three bytes lies in the range that the first asks for. -/
theorem exists_range_three {v : Nat} (h : 0x7ff < v) (hv : v ≤ 0xffff)
    (hvalid : v < 0xd800 ∨ 0xdfff < v) :
    ∃ r : ByteRange, afterLead? (UInt8.ofNat (v / 4096 % 16 + 0xe0)) = some [r, continuation] ∧
      r.lo.toNat ≤ v / 64 % 64 + 0x80 ∧ v / 64 % 64 + 0x80 ≤ r.hi.toNat := by
  rw [afterLead?_ofNat (by omega), if_neg (by omega)]
  by_cases he0 : v / 4096 % 16 + 0xe0 = 0xe0
  · refine ⟨⟨0xa0, 0xbf⟩, by rw [if_pos he0], ?_, ?_⟩
    · change 0xa0 ≤ _
      omega
    · change _ ≤ 0xbf
      omega
  · rw [if_neg he0]
    by_cases hed : v / 4096 % 16 + 0xe0 = 0xed
    · refine ⟨⟨0x80, 0x9f⟩, by rw [if_pos hed], ?_, ?_⟩
      · change 0x80 ≤ _
        omega
      · change _ ≤ 0x9f
        omega
    · refine ⟨continuation, by rw [if_neg hed, if_pos (by omega)], ?_, ?_⟩
      · change 0x80 ≤ _
        omega
      · change _ ≤ 0xbf
        omega

theorem exists_range_four {v : Nat} (h : 0xffff < v) (hv : v < 0x110000) :
    ∃ r : ByteRange, afterLead? (UInt8.ofNat (v / 262144 % 8 + 0xf0)) =
        some [r, continuation, continuation] ∧
      r.lo.toNat ≤ v / 4096 % 64 + 0x80 ∧ v / 4096 % 64 + 0x80 ≤ r.hi.toNat := by
  rw [afterLead?_ofNat (by omega), if_neg (by omega), if_neg (by omega), if_neg (by omega),
    if_neg (by omega)]
  by_cases hf0 : v / 262144 % 8 + 0xf0 = 0xf0
  · refine ⟨⟨0x90, 0xbf⟩, by rw [if_pos hf0], ?_, ?_⟩
    · change 0x90 ≤ _
      omega
    · change _ ≤ 0xbf
      omega
  · rw [if_neg hf0]
    by_cases hf4 : v / 262144 % 8 + 0xf0 = 0xf4
    · refine ⟨⟨0x80, 0x8f⟩, by rw [if_neg (by omega), if_pos hf4], ?_, ?_⟩
      · change 0x80 ≤ _
        omega
      · change _ ≤ 0x8f
        omega
    · refine ⟨continuation, by rw [if_pos (by omega)], ?_, ?_⟩
      · change 0x80 ≤ _
        omega
      · change _ ≤ 0xbf
        omega

theorem take_continuation {bits k : Nat} {ranges : List ByteRange} {t : Text} (hk : k < 64) :
    Run.take ⟨⟨bits, continuation :: ranges⟩, t⟩ (UInt8.ofNat (k + 0x80)) =
      if ranges.isEmpty then ⟨idle, Char.ofNat (bits * 64 + k) :: t⟩
      else ⟨⟨bits * 64 + k, ranges⟩, t⟩ := by
  apply take_continue hk
  · change 0x80 ≤ _
    omega
  · change _ ≤ 0xbf
    omega

theorem take_ascii {v : Nat} (h : v ≤ 0x7f) (t : Text) :
    Run.take ⟨idle, t⟩ (UInt8.ofNat v) = ⟨idle, Char.ofNat v :: t⟩ := by
  have hlt : UInt8.ofNat v < 0x80 := by
    rw [UInt8.lt_iff_toNat_lt, toNat_ofNat (by omega)]
    change v < 0x80
    omega
  have hnat : (UInt8.ofNat v).toNat = v := toNat_ofNat (by omega)
  simp [Run.take, step, idle, start, hlt, hnat]

theorem foldl_take_two {v : Nat} (hlo : 0x7f < v) (hhi : v ≤ 0x7ff) (t : Text) :
    [UInt8.ofNat (v / 64 % 32 + 0xc0), UInt8.ofNat (v % 64 + 0x80)].foldl Run.take ⟨idle, t⟩ =
      ⟨idle, Char.ofNat v :: t⟩ := by
  have hlead : afterLead? (UInt8.ofNat (v / 64 % 32 + 0xc0)) = some [continuation] := by
    rw [afterLead?_ofNat (by omega), if_pos (by omega)]
  have hbits : (v / 64 % 32 + 0xc0) % 2 ^ (6 - [continuation].length) * 64 + v % 64 = v := by
    simp only [List.length_singleton, Nat.reduceSub, Nat.reducePow]
    omega
  rw [List.foldl_cons, take_lead (by omega) (by omega) hlead, List.foldl_cons,
    take_continuation (Nat.mod_lt _ (by decide)), hbits]
  rfl

theorem foldl_take_three {v : Nat} (hlo : 0x7ff < v) (hhi : v ≤ 0xffff)
    (hvalid : v < 0xd800 ∨ 0xdfff < v) (t : Text) :
    [UInt8.ofNat (v / 4096 % 16 + 0xe0), UInt8.ofNat (v / 64 % 64 + 0x80),
        UInt8.ofNat (v % 64 + 0x80)].foldl Run.take ⟨idle, t⟩ =
      ⟨idle, Char.ofNat v :: t⟩ := by
  obtain ⟨r, hlead, hfrom, hto⟩ := exists_range_three hlo hhi hvalid
  have hbits : ((v / 4096 % 16 + 0xe0) % 2 ^ (6 - [r, continuation].length) * 64 +
      v / 64 % 64) * 64 + v % 64 = v := by
    simp only [List.length_cons, List.length_nil, Nat.reduceAdd, Nat.reduceSub, Nat.reducePow]
    omega
  rw [List.foldl_cons, take_lead (by omega) (by omega) hlead, List.foldl_cons,
    take_continue (Nat.mod_lt _ (by decide)) hfrom hto, List.foldl_cons]
  simp only [List.isEmpty_cons, Bool.false_eq_true, if_false]
  rw [take_continuation (Nat.mod_lt _ (by decide)), hbits]
  rfl

theorem foldl_take_four {v : Nat} (hlo : 0xffff < v) (hhi : v < 0x110000) (t : Text) :
    [UInt8.ofNat (v / 262144 % 8 + 0xf0), UInt8.ofNat (v / 4096 % 64 + 0x80),
        UInt8.ofNat (v / 64 % 64 + 0x80), UInt8.ofNat (v % 64 + 0x80)].foldl Run.take ⟨idle, t⟩ =
      ⟨idle, Char.ofNat v :: t⟩ := by
  obtain ⟨r, hlead, hfrom, hto⟩ := exists_range_four hlo hhi
  have hbits : (((v / 262144 % 8 + 0xf0) % 2 ^ (6 - [r, continuation, continuation].length) *
      64 + v / 4096 % 64) * 64 + v / 64 % 64) * 64 + v % 64 = v := by
    simp only [List.length_cons, List.length_nil, Nat.reduceAdd, Nat.reduceSub, Nat.reducePow]
    omega
  rw [List.foldl_cons, take_lead (by omega) (by omega) hlead, List.foldl_cons,
    take_continue (Nat.mod_lt _ (by decide)) hfrom hto, List.foldl_cons]
  simp only [List.isEmpty_cons, Bool.false_eq_true, if_false]
  rw [take_continuation (Nat.mod_lt _ (by decide)), List.foldl_cons]
  simp only [List.isEmpty_cons, Bool.false_eq_true, if_false]
  rw [take_continuation (Nat.mod_lt _ (by decide)), hbits]
  rfl

/-- The bytes of a character complete it, from rest to rest. -/
theorem foldl_take_encodeChar (c : Char) (t : Text) :
    (String.utf8EncodeChar c).foldl Run.take ⟨idle, t⟩ = ⟨idle, c :: t⟩ := by
  have hc : Char.ofNat c.val.toNat = c := Char.ofNat_toNat c
  have hvalid : c.val.toNat < 0xd800 ∨ 0xdfff < c.val.toNat ∧ c.val.toNat < 0x110000 := c.valid
  unfold String.utf8EncodeChar
  generalize c.val.toNat = v at hc hvalid ⊢
  subst hc
  dsimp only
  split
  · exact take_ascii ‹_› t
  · split
    · exact foldl_take_two (by omega) ‹_› t
    · split
      · exact foldl_take_three (by omega) ‹_› (by omega) t
      · exact foldl_take_four (by omega) (by omega) t

theorem feed_encode (t : Text) : feed (encode t) = ⟨idle, t.reverse⟩ := by
  induction t using List.reverseRecOn with
  | nil => rfl
  | append_singleton t c ih =>
    rw [encode_append, feed_append, ih, List.reverse_append, List.reverse_singleton,
      List.singleton_append]
    simpa [encode] using foldl_take_encodeChar c t.reverse

theorem length_encode_le {t u : Text} (h : t <+: u) : (encode t).length ≤ (encode u).length := by
  obtain ⟨rest, rfl⟩ := h
  rw [encode_append, List.length_append]
  exact Nat.le_add_right _ _

/-- Every text is decoded from its encoding. -/
theorem decode_encode (t : Text) : decode (encode t) = t := by
  rw [decode, feed_encode]
  simp [finish, idle]

theorem encode_eq_nil_iff {t : Text} : encode t = [] ↔ t = [] := by
  constructor
  · intro h
    rw [← decode_encode t, h, decode_nil]
  · rintro rfl
    rfl

theorem map_decode_encode (ts : List Text) : (ts.map encode).map decode = ts := by
  rw [List.map_map]
  exact (List.map_congr_left fun t _ => decode_encode t).trans (List.map_id ts)

end DequeMachine.Utf8
