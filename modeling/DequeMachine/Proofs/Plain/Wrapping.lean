import Mathlib
import DequeMachine.Proofs.Plain.Operator

namespace DequeMachine.Plain.Operator

/-- What is left of the dividend `a` behind its quotient by `b`, rounded toward zero. -/
structure IsRemainder (a b r : Int32) : Prop where
  exact : a.toInt = a.toInt.tdiv b.toInt * b.toInt + r.toInt
  small : |r.toInt| < |b.toInt|
  sign : r = 0 ∨ r.toInt.sign = a.toInt.sign
  least : a = Int32.minValue → b = -1 → r = 0

/-- What the result on a left operand `a` and a right operand `b` has to be. -/
def IsResult (op : Operator) (a b r : Int32) : Prop :=
  match op with
  | add => ∀ v : Int32, v.toInt ≡ a.toInt + b.toInt [ZMOD 2 ^ 32] ↔ v = r
  | sub => ∀ v : Int32, v.toInt ≡ a.toInt - b.toInt [ZMOD 2 ^ 32] ↔ v = r
  | mul => ∀ v : Int32, v.toInt ≡ a.toInt * b.toInt [ZMOD 2 ^ 32] ↔ v = r
  | div =>
    if a = Int32.minValue ∧ b = -1 then r = Int32.minValue else r.toInt = a.toInt.tdiv b.toInt
  | mod => IsRemainder a b r

variable {a b : Int32}

/-- A value and no other agrees with an integer modulo `2 ^ 32`. -/
theorem modEq_iff_eq_ofInt (v : Int32) (n : Int) : v.toInt ≡ n [ZMOD 2 ^ 32] ↔ v = Int32.ofInt n := by
  have hlo := v.le_toInt
  have hhi := v.toInt_lt
  rw [eq_comm, Int32.ofInt_eq_iff_bmod_eq_toInt, Int.bmod_eq_iff (by decide), Int.modEq_comm,
    Int.modEq_iff_dvd]
  constructor
  · exact fun h => ⟨by omega, by omega, by exact_mod_cast h⟩
  · exact fun h => by exact_mod_cast h.2.2

theorem toInt_apply_div (h : ¬(a = Int32.minValue ∧ b = -1)) :
    (div.apply a b).toInt = a.toInt.tdiv b.toInt := by
  rw [← div_eq_apply]
  by_cases ha : a = Int32.minValue
  · exact Int32.toInt_div_of_ne_right a b fun hb => h ⟨ha, hb⟩
  · exact Int32.toInt_div_of_ne_left a b ha

theorem toInt_apply_mod (a b : Int32) : (mod.apply a b).toInt = a.toInt.tmod b.toInt := by
  rw [← mod_eq_apply, Int32.toInt_mod]

theorem isRemainder_apply (hb : b ≠ 0) : IsRemainder a b (mod.apply a b) where
  exact := by rw [toInt_apply_mod, Int.tdiv_mul_add_tmod]
  small := by
    have hpos : 0 < b.toInt.natAbs := Int.natAbs_pos.mpr fun h => hb (Int32.toInt_inj.mp h)
    rw [toInt_apply_mod, Int.abs_eq_natAbs, Int.abs_eq_natAbs, Int.natAbs_tmod]
    exact_mod_cast Nat.mod_lt _ hpos
  sign := by
    rw [← Int32.toInt_inj, toInt_apply_mod, Int.sign_tmod]
    by_cases hdvd : b.toInt ∣ a.toInt
    · exact .inl (Int.tmod_eq_zero_of_dvd hdvd)
    · exact .inr (if_neg hdvd)
  least := by
    rintro rfl rfl
    decide

theorem isResult_apply {op : Operator} (h : ¬(op.divides ∧ b = 0)) : op.IsResult a b (op.apply a b) := by
  cases op with
  | add | sub | mul => exact fun v => modEq_iff_eq_ofInt v _
  | div =>
    rw [IsResult]
    split
    · rename_i hleast
      obtain ⟨rfl, rfl⟩ := hleast
      decide
    · rename_i hleast
      exact toInt_apply_div hleast
  | mod => exact isRemainder_apply fun hb => h ⟨rfl, hb⟩

/-- Also where the quotient wraps. -/
theorem apply_div_mul_add_apply_mod (a b : Int32) : div.apply a b * b + mod.apply a b = a := by
  calc div.apply a b * b + mod.apply a b
      = Int32.ofInt (a.toInt.tdiv b.toInt) * Int32.ofInt b.toInt + Int32.ofInt (a.toInt.tmod b.toInt) := by
        rw [Int32.ofInt_toInt]
        rfl
    _ = Int32.ofInt (a.toInt.tdiv b.toInt * b.toInt + a.toInt.tmod b.toInt) := by
        rw [Int32.ofInt_add, Int32.ofInt_mul]
    _ = a := by rw [Int.tdiv_mul_add_tmod, Int32.ofInt_toInt]

end DequeMachine.Plain.Operator
