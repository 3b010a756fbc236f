import NestedFun.Word
import Mathlib.Tactic

namespace NestedFun

/-!
# Arithmetic of words

Addresses and offsets are reckoned as integers; as long as they fit, words and integers agree.
-/

theorem fitsWord_iff (n : Int) : fitsWord n = true ↔ -2147483648 ≤ n ∧ n < 2147483648 := by
  rw [fitsWord, Bool.and_eq_true, decide_eq_true_iff, decide_eq_true_iff]
  exact Iff.rfl

theorem checked?_eq_some {n m : Int} (h : checked? n = some m) :
    m = n ∧ -2147483648 ≤ n ∧ n < 2147483648 := by
  simp only [checked?] at h
  split at h
  · rename_i hfits
    exact ⟨(Option.some.inj h).symm, (fitsWord_iff n).mp hfits⟩
  · cases h

theorem checked?_of_fits {n : Int} (h₁ : -2147483648 ≤ n) (h₂ : n < 2147483648) :
    checked? n = some n := by
  simp [checked?, (fitsWord_iff n).mpr ⟨h₁, h₂⟩]

namespace Word

theorem toInt_ofInt {n : Int} (h₁ : -2147483648 ≤ n) (h₂ : n < 2147483648) :
    (ofInt n).toInt = n :=
  Int32.toInt_ofInt_of_le h₁ h₂

@[simp] theorem ofInt_toInt (w : Word) : ofInt w.toInt = w := Int32.ofInt_toInt w

theorem toInt_lt (w : Word) : w.toInt < 2147483648 := Int32.toInt_lt w

theorem ofInt_add (a b : Int) : ofInt a + ofInt b = ofInt (a + b) := (Int32.ofInt_add a b).symm

theorem ofInt_sub (a b : Int) : ofInt a - ofInt b = ofInt (a - b) := (Int32.ofInt_sub a b).symm

theorem ofInt_sub_four (a : Int) : ofInt a - 4 = ofInt (a - 4) := ofInt_sub a 4

theorem ofInt_sub_eight (a : Int) : ofInt a - 8 = ofInt (a - 8) := ofInt_sub a 8

theorem ofInt_add_four (a : Int) : ofInt a + 4 = ofInt (a + 4) := ofInt_add a 4

theorem ofInt_inj {a b : Int} (ha : -2147483648 ≤ a) (ha' : a < 2147483648)
    (hb : -2147483648 ≤ b) (hb' : b < 2147483648) (h : ofInt a = ofInt b) : a = b := by
  rw [← toInt_ofInt ha ha', h, toInt_ofInt hb hb']

theorem after_ofInt (a n : Int) : (ofInt a).after (ofInt n) = ofInt (a + n * 4) := by
  have h : ofInt n * 4 = ofInt (n * 4) := (Int32.ofInt_mul n 4).symm
  rw [after, h, ofInt_add]

theorem after_one (a : Int) : (ofInt a).after 1 = ofInt (a + 4) := after_ofInt a 1

theorem after_two (a : Int) : (ofInt a).after 2 = ofInt (a + 8) := after_ofInt a 2

/-- Clearing the two lowest bits rounds down to a multiple of four. -/
theorem clearLow_toNat (x : BitVec 32) : (x &&& ~~~3#32).toNat = x.toNat / 4 * 4 := by
  have h : x &&& ~~~3#32 = (x >>> 2) <<< 2 := by
    apply BitVec.eq_of_getLsbD_eq
    intro i hi
    simp only [BitVec.getLsbD_and, BitVec.getLsbD_not, BitVec.getLsbD_shiftLeft,
      BitVec.getLsbD_ushiftRight, hi, decide_true, Bool.true_and]
    by_cases h2 : i < 2
    · have h₃ : (3#32).getLsbD i = true := by
        have : i = 0 ∨ i = 1 := by omega
        rcases this with rfl | rfl <;> rfl
      simp [h2, h₃]
    · have h₃ : (3#32).getLsbD i = false := by
        show (3 % 2 ^ 32 : Nat).testBit i = false
        apply Nat.testBit_lt_two_pow
        calc 3 < 2 ^ 2 := by norm_num
          _ ≤ 2 ^ i := Nat.pow_le_pow_right (by norm_num) (by omega)
      simp [h2, h₃, show 2 + (i - 2) = i by omega]
  rw [h, BitVec.toNat_shiftLeft, BitVec.toNat_ushiftRight, Nat.shiftLeft_eq,
    Nat.shiftRight_eq_div_pow]
  have hlt := x.isLt
  norm_num at hlt ⊢
  omega

/-- Addresses are rounded up to whole words. -/
theorem toInt_alignUp {w : Word} (h₀ : 0 ≤ w.toInt) (h₁ : w.toInt < 2147483645) :
    w.alignUp.toInt = (w.toInt + 3) / 4 * 4 := by
  have hbits : w.alignUp.toBitVec = (w + 3).toBitVec &&& ~~~3#32 := rfl
  have hsum : (w + 3).toInt = w.toInt + 3 := by
    have h : w + 3 = ofInt (w.toInt + 3) := by
      rw [← ofInt_add, ofInt_toInt]
      rfl
    rw [h, toInt_ofInt (by omega) (by omega)]
  have hint : (w + 3).toBitVec.toInt = w.toInt + 3 := hsum
  have hnat : ((w + 3).toBitVec.toNat : Int) = w.toInt + 3 := by
    have hlt := (w + 3).toBitVec.isLt
    rw [BitVec.toInt_eq_toNat_cond] at hint
    split at hint <;> omega
  have hclear := clearLow_toNat (w + 3).toBitVec
  show w.alignUp.toBitVec.toInt = _
  rw [hbits, BitVec.toInt_eq_toNat_cond, if_pos (by rw [hclear]; omega), hclear]
  omega

end Word

end NestedFun
