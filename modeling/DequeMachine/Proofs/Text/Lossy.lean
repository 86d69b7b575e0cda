import DequeMachine.Proofs.Text.Encoded

/-!
# Lossy decoding

What is decoded from a byte string, said without the decoder: from left to right, the encoding of a
character gives that character, and where no encoding begins, the longest beginning of one gives a
replacement character, or a single byte does if it begins none. The decoder answers just that.
-/
namespace DequeMachine.Utf8

/-- The bytes are a beginning of the encoding of some character. -/
def Begins (b : Bytes) : Prop := ∃ c, b <+: String.utf8EncodeChar c

/-- What one replacement character stands for at the beginning of `b`. -/
structure IsIllFormed (part b : Bytes) : Prop where
  begins : part <+: b
  nonempty : part ≠ []
  unconvertible : ∀ c, ¬String.utf8EncodeChar c <+: b
  subpart : part.length = 1 ∨ Begins part
  longest : ∀ other : Bytes, other <+: b → Begins other → other.length ≤ part.length

inductive Lossy : Bytes → Text → Prop
  | nil : Lossy [] []
  | character (c : Char) {b : Bytes} {t : Text} (rest : Lossy b t) :
    Lossy (String.utf8EncodeChar c ++ b) (c :: t)
  | illFormed {part b : Bytes} {t : Text} (h : IsIllFormed part (part ++ b)) (rest : Lossy b t) :
    Lossy (part ++ b) (replacement :: t)

/-- Bytes fill the ranges, or there is a first range that they do not fill. -/
theorem exists_fills_or_cut (ranges : List ByteRange) (b : Bytes) :
    (∃ bs rest, b = bs ++ rest ∧ Fills ranges bs) ∨
      ∃ done r more bs rest, ranges = done ++ r :: more ∧ b = bs ++ rest ∧ Fills done bs ∧
        ∀ x ∈ rest.head?, r.contains x = false := by
  induction ranges generalizing b with
  | nil => exact .inl ⟨[], b, rfl, .nil⟩
  | cons r ranges ih =>
    cases b with
    | nil => exact .inr ⟨[], r, ranges, [], [], rfl, rfl, .nil, by simp⟩
    | cons x b =>
      cases hx : r.contains x with
      | false => exact .inr ⟨[], r, ranges, [], x :: b, rfl, rfl, .nil, by simpa using hx⟩
      | true =>
        rcases ih b with ⟨bs, rest, rfl, h⟩ | ⟨done, r', more, bs, rest, rfl, rfl, h, hrest⟩
        · exact .inl ⟨x :: bs, rest, rfl, .cons hx h⟩
        · exact .inr ⟨r :: done, r', more, x :: bs, rest, rfl, rfl, .cons hx h, hrest⟩

section cut

variable {b : UInt8} {done more : List ByteRange} {r : ByteRange} {bs rest : Bytes}

/-- Nothing behind the cut continues an encoding. -/
theorem length_le_of_cut (h : Fills done bs) (hrest : ∀ x ∈ rest.head?, r.contains x = false)
    {cs other : Bytes} (hcs : Fills (done ++ r :: more) cs) (hother : other <+: cs)
    (hbegins : other <+: bs ++ rest) : other.length ≤ bs.length := by
  induction h generalizing cs other with
  | nil =>
    obtain _ | ⟨hx, -⟩ := hcs
    cases other with
    | nil => exact Nat.le_refl 0
    | cons y other =>
      obtain ⟨rfl, -⟩ := List.cons_prefix_cons.mp hother
      obtain ⟨after, rfl⟩ := hbegins
      rw [hrest _ rfl] at hx
      cases hx
  | cons _ _ ih =>
    obtain _ | ⟨-, hcs⟩ := hcs
    cases other with
    | nil => exact Nat.zero_le _
    | cons y other =>
      obtain ⟨-, hother⟩ := List.cons_prefix_cons.mp hother
      obtain ⟨-, hbegins⟩ := List.cons_prefix_cons.mp hbegins
      exact Nat.succ_le_succ (ih hcs hother hbegins)

/-- An encoding at the beginning of some bytes has what the first of them asks for. -/
theorem exists_fills_of_prefix {c : Char} (h : String.utf8EncodeChar c <+: b :: rest) :
    ∃ ranges cs, awaitedAfter? b = some ranges ∧ Fills ranges cs ∧ cs <+: rest := by
  obtain ⟨b', cs, ranges, hencode, hb', hcs⟩ := exists_fills c
  rw [hencode] at h
  obtain ⟨rfl, hprefix⟩ := List.cons_prefix_cons.mp h
  exact ⟨ranges, cs, hb', hcs, hprefix⟩

theorem Begins.exists_fills {other : Bytes} (h : Begins (b :: other)) :
    ∃ ranges cs, awaitedAfter? b = some ranges ∧ Fills ranges cs ∧ other <+: cs := by
  obtain ⟨c, hc⟩ := h
  obtain ⟨b', cs, ranges, hencode, hb', hcs⟩ := Utf8.exists_fills c
  rw [hencode] at hc
  obtain ⟨rfl, hprefix⟩ := List.cons_prefix_cons.mp hc
  exact ⟨ranges, cs, hb', hcs, hprefix⟩

/-- A beginning can be completed, so it begins an encoding. -/
theorem begins_of_cut (hb : awaitedAfter? b = some (done ++ r :: more)) (h : Fills done bs) :
    Begins (b :: bs) := by
  have hlow : Fills (r :: more) ((r :: more).map ByteRange.lo) := by
    rw [Fills, List.forall₂_map_right_iff, List.forall₂_same]
    exact fun r' hr' => contains_lo hb r' (List.mem_append_right done hr')
  obtain ⟨c, hc⟩ := exists_char_of_fills hb (List.rel_append h hlow)
  refine ⟨c, ?_⟩
  rw [hc]
  exact List.prefix_append (b :: bs) _

theorem isIllFormed_of_cut (hb : awaitedAfter? b = some (done ++ r :: more)) (h : Fills done bs)
    (hrest : ∀ x ∈ rest.head?, r.contains x = false) :
    IsIllFormed (b :: bs) (b :: (bs ++ rest)) where
  begins := List.prefix_append (b :: bs) rest
  nonempty := List.cons_ne_nil b bs
  unconvertible := by
    intro c hc
    obtain ⟨ranges, cs, hb', hcs, hprefix⟩ := exists_fills_of_prefix hc
    obtain rfl := Option.some.inj (hb.symm.trans hb')
    have hlength := length_le_of_cut h hrest hcs List.prefix_rfl hprefix
    have hdone := h.length_eq
    have hall := hcs.length_eq
    simp only [List.length_append, List.length_cons] at hall
    omega
  subpart := .inr (begins_of_cut hb h)
  longest := by
    intro other hprefix hother
    cases other with
    | nil => exact Nat.zero_le _
    | cons x other =>
      obtain ⟨rfl, htail⟩ := List.cons_prefix_cons.mp hprefix
      obtain ⟨ranges, cs, hb', hcs, hbegins⟩ := hother.exists_fills
      obtain rfl := Option.some.inj (hb.symm.trans hb')
      exact Nat.succ_le_succ (length_le_of_cut h hrest hcs hbegins htail)

theorem isIllFormed_of_unasked (hb : awaitedAfter? b = none) (rest : Bytes) :
    IsIllFormed [b] (b :: rest) where
  begins := ⟨rest, rfl⟩
  nonempty := List.cons_ne_nil b []
  unconvertible := by
    intro c hc
    obtain ⟨ranges, cs, hb', -⟩ := exists_fills_of_prefix hc
    rw [hb] at hb'
    cases hb'
  subpart := .inl rfl
  longest := by
    intro other hprefix hother
    cases other with
    | nil => exact Nat.zero_le _
    | cons x other =>
      obtain ⟨rfl, -⟩ := List.cons_prefix_cons.mp hprefix
      obtain ⟨ranges, cs, hb', -⟩ := hother.exists_fills
      rw [hb] at hb'
      cases hb'

end cut

theorem decode_append {a b : Bytes} {t : Text} (h : feed a = ⟨idle, t.reverse⟩) :
    decode (a ++ b) = t ++ decode b := by
  have hfeed : feed b = b.foldl Run.take ⟨idle, []⟩ := rfl
  rw [decode, feed_append, h, foldl_take, decode, hfeed, List.reverse_append, List.reverse_reverse,
    List.append_assoc]

theorem decode_encode_append (t : Text) (b : Bytes) : decode (encode t ++ b) = t ++ decode b :=
  decode_append (feed_encode t)

theorem decode_encodeChar_append (c : Char) (b : Bytes) :
    decode (String.utf8EncodeChar c ++ b) = c :: decode b :=
  decode_append (t := [c]) (foldl_take_encodeChar c [])

/-- Bytes in the first awaited ranges leave the others awaited. -/
theorem foldl_take_of_fills {done more : List ByteRange} (hmore : more ≠ []) {b : Bytes}
    (h : Fills done b) (bits : Nat) (t : Text) :
    ∃ bits', b.foldl Run.take ⟨⟨bits, done ++ more⟩, t⟩ = ⟨⟨bits', more⟩, t⟩ := by
  induction h generalizing bits with
  | nil => exact ⟨bits, rfl⟩
  | @cons r x done b hx _ ih =>
    have htake : Run.take ⟨⟨bits, r :: (done ++ more)⟩, t⟩ x =
        ⟨⟨bits * 64 + x.toNat % 64, done ++ more⟩, t⟩ := by
      have hrest : (done ++ more).isEmpty = false := by simp [hmore]
      simp [Run.take, step, hx, hrest]
    rw [List.foldl_cons, List.cons_append, htake]
    exact ih _

/-- What does not continue a character in progress gives a replacement character and is decoded afresh. -/
theorem decode_append_of_cut {a b : Bytes} {bits : Nat} {r : ByteRange} {more : List ByteRange}
    (h : feed a = ⟨⟨bits, r :: more⟩, []⟩) (hb : ∀ x ∈ b.head?, r.contains x = false) :
    decode (a ++ b) = replacement :: decode b := by
  cases b with
  | nil =>
    rw [List.append_nil, decode, h]
    rfl
  | cons x b =>
    have hx : r.contains x = false := hb x rfl
    have hafresh : Run.take ⟨⟨bits, r :: more⟩, []⟩ x = Run.take ⟨idle, [replacement]⟩ x := by
      simp [Run.take, step, hx, idle]
    have hfeed : feed (x :: b) = (x :: b).foldl Run.take ⟨idle, []⟩ := rfl
    rw [decode, feed_append, h, List.foldl_cons, hafresh, ← List.foldl_cons, foldl_take, decode, hfeed]
    simp

theorem decode_cons_of_unasked {b : UInt8} (hb : awaitedAfter? b = none) (rest : Bytes) :
    decode (b :: rest) = replacement :: decode rest := by
  unfold awaitedAfter? at hb
  split at hb
  · cases hb
  · have hfeed : feed [b] = ⟨idle, [replacement].reverse⟩ := by
      simp [feed, Run.take, step, start, idle, *]
    exact decode_append (a := [b]) hfeed

theorem decode_cons_of_cut {b : UInt8} {done more : List ByteRange} {r : ByteRange} {bs rest : Bytes}
    (hb : awaitedAfter? b = some (done ++ r :: more)) (h : Fills done bs)
    (hrest : ∀ x ∈ rest.head?, r.contains x = false) :
    decode (b :: (bs ++ rest)) = replacement :: decode rest := by
  unfold awaitedAfter? at hb
  split at hb
  · have := Option.some.inj hb
    simp at this
  · have hlead : Run.take {} b = ⟨⟨leadBits b (done ++ r :: more).length, done ++ r :: more⟩, []⟩ := by
      simp [Run.take, step, start, idle, *]
    obtain ⟨bits, hbits⟩ := foldl_take_of_fills (List.cons_ne_nil r more) h
      (leadBits b (done ++ r :: more).length) []
    have hfeed : feed (b :: bs) = ⟨⟨bits, r :: more⟩, []⟩ := by
      rw [feed, List.foldl_cons, hlead, hbits]
    exact decode_append_of_cut hfeed hrest

/-- The decoder replaces what is ill-formed and nothing else. -/
theorem lossy_decode (b : Bytes) : Lossy b (decode b) := by
  -- What the first byte asks for is either filled, which is a character, or cut short.
  induction hn : b.length using Nat.strong_induction_on generalizing b with
  | _ n ih =>
    cases b with
    | nil => exact .nil
    | cons b rest =>
      rw [List.length_cons] at hn
      cases hb : awaitedAfter? b with
      | none =>
        have hrest := ih rest.length (by omega) rest rfl
        rw [decode_cons_of_unasked hb]
        exact .illFormed (isIllFormed_of_unasked hb rest) hrest
      | some ranges =>
        rcases exists_fills_or_cut ranges rest with
          ⟨bs, after, rfl, h⟩ | ⟨done, r, more, bs, after, rfl, rfl, h, hafter⟩
        · have hrest := ih after.length (by simp at hn; omega) after rfl
          obtain ⟨c, hc⟩ := exists_char_of_fills hb h
          rw [← List.cons_append, ← hc, decode_encodeChar_append]
          exact .character c hrest
        · have hrest := ih after.length (by simp at hn; omega) after rfl
          rw [decode_cons_of_cut hb h hafter]
          exact .illFormed (isIllFormed_of_cut hb h hafter) hrest

theorem IsIllFormed.length_le {part other b : Bytes} (h : IsIllFormed part b)
    (hother : IsIllFormed other b) : part.length ≤ other.length := by
  rcases h.subpart with hone | hbegins
  · have hlength := List.length_pos_iff.mpr hother.nonempty
    omega
  · exact hother.longest part h.begins hbegins

theorem IsIllFormed.unique {part other b : Bytes} (h : IsIllFormed part b)
    (hother : IsIllFormed other b) : part = other :=
  (List.prefix_of_prefix_length_le h.begins hother.begins (h.length_le hother)).eq_of_length
    (Nat.le_antisymm (h.length_le hother) (hother.length_le h))

theorem Lossy.unique {b : Bytes} {t u : Text} (ht : Lossy b t) (hu : Lossy b u) : t = u := by
  induction ht generalizing u with
  | nil =>
    generalize hb : ([] : Bytes) = b at hu
    cases hu with
    | nil => rfl
    | character c => simp at hb
    | illFormed h => simp [h.nonempty] at hb
  | @character c b t _ ih =>
    generalize hb : String.utf8EncodeChar c ++ b = whole at hu
    cases hu with
    | nil => simp at hb
    | @character c' b' u rest =>
      have hdecode := congrArg decode hb
      rw [decode_encodeChar_append, decode_encodeChar_append] at hdecode
      obtain rfl := (List.cons.inj hdecode).1
      obtain rfl := List.append_cancel_left hb
      rw [ih rest]
    | illFormed h rest =>
      rw [← hb] at h
      exact absurd (List.prefix_append _ b) (h.unconvertible c)
  | @illFormed part b t h _ ih =>
    generalize hb : part ++ b = whole at hu
    cases hu with
    | nil => simp [h.nonempty] at hb
    | @character c b' u rest =>
      rw [hb] at h
      exact absurd (List.prefix_append _ b') (h.unconvertible c)
    | @illFormed part' b' u h' rest =>
      rw [← hb] at h'
      obtain rfl := h.unique h'
      obtain rfl := List.append_cancel_left hb
      rw [ih rest]

theorem lossy_iff {b : Bytes} {t : Text} : Lossy b t ↔ t = decode b := by
  constructor
  · intro h
    exact h.unique (lossy_decode b)
  · rintro rfl
    exact lossy_decode b

/-- A character of the text is a replacement, or its encoding stands among the bytes. -/
theorem mem_decode {b : Bytes} {c : Char} (hc : c ∈ decode b) :
    c = replacement ∨ String.utf8EncodeChar c <:+: b := by
  have h := lossy_decode b
  generalize decode b = t at h hc
  induction h with
  | nil => cases hc
  | @character c' b t _ ih =>
    rcases List.mem_cons.mp hc with rfl | hc
    · exact .inr (List.prefix_append _ b).isInfix
    · exact (ih hc).imp_right fun h => h.trans (List.suffix_append _ b).isInfix
  | @illFormed part b t _ _ ih =>
    rcases List.mem_cons.mp hc with rfl | hc
    · exact .inl rfl
    · exact (ih hc).imp_right fun h => h.trans (List.suffix_append part b).isInfix

theorem decode_eq_nil_iff {b : Bytes} : decode b = [] ↔ b = [] := by
  constructor
  · intro h
    have hlossy := lossy_decode b
    rw [h] at hlossy
    cases hlossy
    rfl
  · rintro rfl
    rfl

end DequeMachine.Utf8
