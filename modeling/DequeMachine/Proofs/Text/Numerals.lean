import Mathlib
import DequeMachine.Proofs.Plain.Integer

/-!
# Numerals

A numeral is a minus sign or none, then at least one digit. It is read as the integer it denotes if that
fits in 32 bits, and nothing else is read. Arithmetic at 32 bits that stops at the first overflow reads
numerals alike. Two of them are read as one value if they differ in leading zeros or in the sign of zero.
-/
namespace DequeMachine.Decimal

open Plain (IsDigit natural signed)

def ofDigit (c : Char) : Nat := c.toNat - '0'.toNat

theorem toNat_of_isDigit {c : Char} (h : IsDigit c) : c.toNat = 48 + ofDigit c ∧ ofDigit c ≤ 9 := by
  obtain ⟨hlo, hhi⟩ := Char.isDigit_iff_toNat.mp (Plain.isDigit_iff.mpr h)
  have hzero : '0'.toNat = 48 := rfl
  have hnine : '9'.toNat = 57 := rfl
  rw [ofDigit]
  omega

theorem eq_of_ofDigit_eq {c d : Char} (hc : IsDigit c) (hd : IsDigit d) (h : ofDigit c = ofDigit d) :
    c = d := by
  apply Char.toNat_inj.mp
  rw [(toNat_of_isDigit hc).1, (toNat_of_isDigit hd).1, h]

theorem natural_concat (digits : Text) (c : Char) :
    natural (digits ++ [c]) = 10 * natural digits + ofDigit c := by
  rw [natural, List.foldl_append]
  rfl

theorem natural_dropWhile_zero (digits : Text) :
    natural (digits.dropWhile (· = '0')) = natural digits := by
  induction digits with
  | nil => rfl
  | cons c digits ih =>
    by_cases hc : c = '0'
    · subst hc
      rw [List.dropWhile_cons_of_pos rfl, ih]
      rfl
    · rw [List.dropWhile_cons_of_neg (by simpa using hc)]

variable {digits digits' : Text}

theorem eq_zero_of_natural_eq_zero (hdigits : ∀ c ∈ digits, IsDigit c) (h : natural digits = 0) :
    ∀ c ∈ digits, c = '0' := by
  induction digits using List.reverseRecOn with
  | nil => exact fun c hc => absurd hc List.not_mem_nil
  | append_singleton digits d ih =>
    rw [natural_concat] at h
    obtain ⟨hfront, hlast⟩ := List.forall_mem_append.mp hdigits
    have hd : d = '0' := by
      apply eq_of_ofDigit_eq (hlast d (List.mem_singleton_self d)) (by decide)
      have hzero : ofDigit '0' = 0 := rfl
      omega
    rw [List.forall_mem_append]
    exact ⟨ih hfront (by omega), fun c hc => (List.mem_singleton.mp hc).trans hd⟩

/-- Digits without a leading zero. -/
def Leading (digits : Text) : Prop := (∀ c ∈ digits, IsDigit c) ∧ digits.head? ≠ some '0'

theorem Leading.of_concat {c : Char} (h : Leading (digits ++ [c])) : Leading digits := by
  refine ⟨(List.forall_mem_append.mp h.1).1, fun hhead => h.2 ?_⟩
  rw [List.head?_append, hhead]
  rfl

theorem Leading.eq_nil (h : Leading digits) (hzero : natural digits = 0) : digits = [] := by
  cases digits with
  | nil => rfl
  | cons c digits =>
    have hc := eq_zero_of_natural_eq_zero h.1 hzero c List.mem_cons_self
    exact absurd (congrArg some hc) h.2

/-- Without leading zeros a number has one way to be written. -/
theorem Leading.eq_of_natural_eq (h : Leading digits) (h' : Leading digits')
    (heq : natural digits = natural digits') : digits = digits' := by
  induction digits using List.reverseRecOn generalizing digits' with
  | nil => exact (h'.eq_nil heq.symm).symm
  | append_singleton digits c ih =>
    obtain rfl | ⟨digits', d, rfl⟩ := digits'.eq_nil_or_concat
    · exact h.eq_nil heq
    · rw [List.concat_eq_append] at h' heq ⊢
      rw [natural_concat, natural_concat] at heq
      have hc : IsDigit c := h.1 c (by simp)
      have hd : IsDigit d := h'.1 d (by simp)
      have hcle := (toNat_of_isDigit hc).2
      have hdle := (toNat_of_isDigit hd).2
      rw [ih h.of_concat h'.of_concat (by omega), eq_of_ofDigit_eq hc hd (by omega)]

/-- The word is written as a numeral and denotes the integer. -/
inductive Numeral : Text → Int → Prop
  | unsigned {digits : Text} (hne : digits ≠ []) (hdigits : ∀ c ∈ digits, IsDigit c) :
    Numeral digits (natural digits)
  | negated {digits : Text} (hne : digits ≠ []) (hdigits : ∀ c ∈ digits, IsDigit c) :
    Numeral ('-' :: digits) (-natural digits)

variable {w w' : Text} {n : Int} {v : Int32}

theorem numeral_iff :
    Numeral w n ↔ ((signed w).2 ≠ [] ∧ ∀ c ∈ (signed w).2, IsDigit c) ∧
      (signed w).1 * natural (signed w).2 = n := by
  constructor
  · intro h
    cases h with
    | unsigned hne hdigits =>
      rw [Plain.signed_of_isDigit hdigits, Int.one_mul]
      exact ⟨⟨hne, hdigits⟩, rfl⟩
    | @negated digits hne hdigits =>
      rw [Plain.signed_minus, Int.neg_one_mul]
      exact ⟨⟨hne, hdigits⟩, rfl⟩
  · rintro ⟨⟨hne, hdigits⟩, rfl⟩
    by_cases hminus : w.head? = some '-'
    · obtain ⟨digits, rfl⟩ := List.head?_eq_some_iff.mp hminus
      rw [Plain.signed_minus] at hne hdigits ⊢
      rw [Int.neg_one_mul]
      exact .negated hne hdigits
    · rw [Plain.signed_of_head?_ne hminus] at hne hdigits ⊢
      rw [Int.one_mul]
      exact .unsigned hne hdigits

theorem readInt?_eq_some_iff : readInt? w = some n ↔ Numeral w n := by
  rw [numeral_iff, Plain.readInt?_eq, Plain.readNat?_eq]
  by_cases hword : (signed w).2 ≠ [] ∧ ∀ c ∈ (signed w).2, IsDigit c
  · rw [if_pos hword, Option.map_some, Option.some_inj, and_iff_right hword]
  · rw [if_neg hword, Option.map_none]
    exact iff_of_false nofun fun h => hword h.1

/-- The integer as a value, if it is one. -/
def fit? (n : Int) : Option Int32 :=
  if Int32.minValue.toInt ≤ n ∧ n ≤ Int32.maxValue.toInt then some (Int32.ofInt n) else none

theorem fit?_eq_some_iff : fit? n = some v ↔ v.toInt = n := by
  rw [fit?, Int32.toInt_minValue, Int32.toInt_maxValue, Option.ite_none_right_eq_some, Option.some_inj]
  constructor
  · rintro ⟨⟨hlo, hhi⟩, rfl⟩
    exact Int32.toInt_ofInt_of_le hlo (by omega)
  · rintro rfl
    exact ⟨⟨v.le_toInt, Int.le_sub_one_of_lt v.toInt_lt⟩, Int32.ofInt_toInt v⟩

theorem fit?_eq_none_iff : fit? n = none ↔ n < -2 ^ 31 ∨ 2 ^ 31 - 1 < n := by
  rw [fit?, Int32.toInt_minValue, Int32.toInt_maxValue, ite_eq_right_iff]
  constructor
  · intro h
    by_contra hfits
    exact Option.some_ne_none _ (h (by omega))
  · exact fun h hfits => absurd h (by omega)

theorem read?_eq (w : Text) : read? w = (readInt? w).bind fit? := rfl

theorem read?_eq_some_iff : read? w = some v ↔ Numeral w v.toInt := by
  rw [read?_eq, Option.bind_eq_some_iff]
  constructor
  · rintro ⟨n, hn, hv⟩
    rw [fit?_eq_some_iff.mp hv]
    exact readInt?_eq_some_iff.mp hn
  · exact fun h => ⟨v.toInt, readInt?_eq_some_iff.mpr h, fit?_eq_some_iff.mpr rfl⟩

/-- The digits behind the sign, from the first that is not zero on. -/
def significant (w : Text) : Text := (signed w).2.dropWhile (· = '0')

/-- The words are the same but for leading zeros, and for the sign if they have only zeros. -/
def SameNumeral (w w' : Text) : Prop :=
  significant w = significant w' ∧ ((signed w).1 = (signed w').1 ∨ significant w = [])

instance (w w' : Text) : Decidable (SameNumeral w w') := inferInstanceAs (Decidable (_ ∧ _))

theorem Numeral.leading (h : Numeral w n) :
    Leading (significant w) ∧ n = (signed w).1 * natural (significant w) := by
  obtain ⟨⟨-, hdigits⟩, rfl⟩ := numeral_iff.mp h
  rw [significant, natural_dropWhile_zero]
  refine ⟨⟨fun c hc => hdigits c ((List.dropWhile_sublist _).mem hc), fun hzero => ?_⟩, rfl⟩
  have hkept := List.head?_dropWhile_not (· = '0') (signed w).2
  rw [hzero] at hkept
  simp at hkept

theorem signed_cases (w : Text) : (signed w).1 = 1 ∨ (signed w).1 = -1 := by
  unfold signed
  split
  · exact .inr rfl
  · exact .inl rfl

theorem Numeral.eq_iff {n' : Int} (h : Numeral w n) (h' : Numeral w' n') :
    n = n' ↔ SameNumeral w w' := by
  obtain ⟨hleading, rfl⟩ := h.leading
  obtain ⟨hleading', rfl⟩ := h'.leading
  have hsign := signed_cases w
  have hsign' := signed_cases w'
  constructor
  · intro heq
    have hnatural : natural (significant w) = natural (significant w') := by
      rcases hsign with hsign | hsign <;> rcases hsign' with hsign' | hsign' <;>
        rw [hsign, hsign'] at heq <;> omega
    refine ⟨hleading.eq_of_natural_eq hleading' hnatural, ?_⟩
    by_cases hzero : natural (significant w) = 0
    · exact .inr (hleading.eq_nil hzero)
    · left
      rcases hsign with hsign | hsign <;> rcases hsign' with hsign' | hsign' <;>
        rw [hsign, hsign'] at heq ⊢ <;> omega
  · rintro ⟨hsame, hsign | hzero⟩
    · rw [hsame, hsign]
    · have hnil : natural [] = 0 := rfl
      rw [← hsame, hzero, hnil]
      simp

/-- One more digit behind a value, on the side of the sign, if nothing overflows. -/
def extend? (sign : Int) (v : Int32) (c : Char) : Option Int32 :=
  if c.isDigit then (fit? (10 * v.toInt)).bind fun tenfold => fit? (tenfold.toInt + sign * ofDigit c)
  else none

def accumulate? (sign : Int) (digits : Text) : Option Int32 :=
  if digits.isEmpty then none else digits.foldlM (extend? sign) 0

/-- Reads digits behind a sign of either kind or none, one after the other, up to the first overflow. -/
def parse? : Text → Option Int32
  | '-' :: digits => accumulate? (-1) digits
  | '+' :: digits => accumulate? 1 digits
  | digits => accumulate? 1 digits

/-- Whether there are digits behind a minus sign or none, and nothing else. -/
def isNumeral (w : Text) : Bool := !(signed w).2.isEmpty && (signed w).2.all Char.isDigit

/-- Once a value has overflowed, more digits do not bring it back. -/
theorem foldlM_extend? {sign : Int} (hsign : sign = 1 ∨ sign = -1)
    (hdigits : ∀ c ∈ digits, IsDigit c) :
    digits.foldlM (extend? sign) 0 = fit? (sign * natural digits) := by
  induction digits using List.reverseRecOn with
  | nil =>
    have hzero : (0 : Int32).toInt = sign * natural [] := (Int.mul_zero sign).symm
    exact (fit?_eq_some_iff.mpr hzero).symm
  | append_singleton digits c ih =>
    obtain ⟨hfront, hlast⟩ := List.forall_mem_append.mp hdigits
    have hc : c.isDigit := Plain.isDigit_iff.mpr (hlast c (List.mem_singleton_self c))
    rw [List.foldlM_append, ih hfront, natural_concat]
    simp only [List.foldlM_cons, List.foldlM_nil, bind_pure, Option.bind_eq_bind]
    cases hv : fit? (sign * natural digits) with
    | none =>
      have hover : fit? (sign * (10 * natural digits + ofDigit c : Nat)) = none := by
        rw [fit?_eq_none_iff] at hv ⊢
        rcases hsign with rfl | rfl <;> omega
      rw [hover, Option.bind_none]
    | some v =>
      have hvalue := fit?_eq_some_iff.mp hv
      rw [Option.bind_some, extend?, if_pos hc]
      cases htenfold : fit? (10 * v.toInt) with
      | none =>
        have hover : fit? (sign * (10 * natural digits + ofDigit c : Nat)) = none := by
          rw [fit?_eq_none_iff] at htenfold ⊢
          rcases hsign with rfl | rfl <;> omega
        rw [hover, Option.bind_none]
      | some tenfold =>
        rw [Option.bind_some, fit?_eq_some_iff.mp htenfold, hvalue]
        congr 1
        push_cast
        ring

theorem accumulate?_eq {sign : Int} (hsign : sign = 1 ∨ sign = -1) (hne : digits ≠ [])
    (hdigits : ∀ c ∈ digits, IsDigit c) : accumulate? sign digits = fit? (sign * natural digits) := by
  rw [accumulate?, if_neg (by simpa using hne), foldlM_extend? hsign hdigits]

theorem isNumeral_iff : isNumeral w ↔ ∃ n, Numeral w n := by
  simp [isNumeral, numeral_iff, Plain.isDigit_iff]

theorem Numeral.parse?_eq (h : Numeral w n) : parse? w = fit? n := by
  cases h with
  | unsigned hne hdigits =>
    obtain ⟨c, rest, rfl⟩ := List.exists_cons_of_ne_nil hne
    have hc := hdigits c List.mem_cons_self
    have hparse : parse? (c :: rest) = accumulate? 1 (c :: rest) := by
      unfold parse?
      split
      · rename_i hminus
        obtain ⟨rfl, -⟩ := List.cons.inj hminus
        exact absurd hc (by decide)
      · rename_i hplus
        obtain ⟨rfl, -⟩ := List.cons.inj hplus
        exact absurd hc (by decide)
      · rfl
    rw [hparse, accumulate?_eq (.inl rfl) hne hdigits, Int.one_mul]
  | negated hne hdigits =>
    rw [parse?, accumulate?_eq (.inr rfl) hne hdigits, Int.neg_one_mul]

/-- Words that are no numerals are refused before they are parsed, and numerals where they overflow. -/
theorem read?_eq_parse? (w : Text) : read? w = if isNumeral w then parse? w else none := by
  by_cases hword : isNumeral w
  · obtain ⟨n, hn⟩ := isNumeral_iff.mp hword
    rw [if_pos hword, hn.parse?_eq, read?_eq, readInt?_eq_some_iff.mpr hn, Option.bind_some]
  · have hnone : readInt? w = none := by
      rw [Option.eq_none_iff_forall_ne_some]
      exact fun n hn => hword (isNumeral_iff.mpr ⟨n, readInt?_eq_some_iff.mp hn⟩)
    rw [if_neg hword, read?_eq, hnone, Option.bind_none]

example : parse? "+5".toList = some 5 ∧ read? "+5".toList = none := by decide

/-- A word is read as a value when it is a numeral for it, and a numeral is refused only when its integer is
too small or too large. Refusing all other words, and parsing the rest at 32 bits up to the first overflow,
comes to the same. Two words that are read have one value when they differ in nothing but leading zeros, or
the sign of zero. -/
theorem read?_numeral :
    (∀ w v, read? w = some v ↔ ∃ n, Numeral w n ∧ -2 ^ 31 ≤ n ∧ n ≤ 2 ^ 31 - 1 ∧ v.toInt = n) ∧
    (∀ w, read? w = none ↔ ∀ n, Numeral w n → n < -2 ^ 31 ∨ 2 ^ 31 - 1 < n) ∧
    (∀ w, read? w = if isNumeral w then parse? w else none) ∧
    ∀ w w' v v', read? w = some v → read? w' = some v' → (v = v' ↔ SameNumeral w w') := by
  refine ⟨fun w v => ?_, fun w => ?_, read?_eq_parse?, fun w w' v v' h h' => ?_⟩
  · rw [read?_eq_some_iff]
    constructor
    · exact fun h => ⟨v.toInt, h, v.le_toInt, Int.le_sub_one_of_lt v.toInt_lt, rfl⟩
    · rintro ⟨n, hn, -, -, rfl⟩
      exact hn
  · simp only [read?_eq, Option.bind_eq_none_iff, readInt?_eq_some_iff, fit?_eq_none_iff]
  · rw [← Int32.toInt_inj]
    exact (read?_eq_some_iff.mp h).eq_iff (read?_eq_some_iff.mp h')

/-- The smallest value, with zeros in front and without; and zero with a minus sign and without. -/
theorem read?_numeral_smallest :
    read? "-002147483648".toList = some Int32.minValue ∧ read? "-2147483648".toList = some Int32.minValue ∧
      SameNumeral "-002147483648".toList "-2147483648".toList ∧
      read? "-00".toList = some 0 ∧ read? "0".toList = some 0 ∧ SameNumeral "-00".toList "0".toList := by
  have hpadded : read? "-002147483648".toList = some Int32.minValue := by decide
  have hsmallest : read? "-2147483648".toList = some Int32.minValue := by decide
  have hminus : read? "-00".toList = some 0 := by decide
  have hzero : read? "0".toList = some 0 := by decide
  obtain ⟨-, -, -, hsame⟩ := read?_numeral
  exact ⟨hpadded, hsmallest, (hsame _ _ _ _ hpadded hsmallest).mp rfl, hminus, hzero,
    (hsame _ _ _ _ hminus hzero).mp rfl⟩

end DequeMachine.Decimal
