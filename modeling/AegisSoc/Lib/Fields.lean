/-
Words put together from fields: each field is placed at its position with a shift, and the placed fields are joined with
`|||`, as encoders write them.

- `extract_place`, `extract_place_off`: a placed field is read back at its position, and leaves the other positions zero. So
  `simp` with `BitVec.extractLsb'_or` decodes such a word field by field;
- `bit_eq`, `mask_eq`, `low_eq`: cutting a field out of a word by shifting it down and masking;
- `ofInt_eq_signExtend`: a number in the range of `k` bits is the sign extension of its low `k` bits;
- `setWidth_setWidth_eq_iff`: dropping the top bit changes a word exactly if it is set.
-/
import Mathlib.Data.BitVec
import Mathlib.Tactic

namespace AegisSoc.Fields

variable {n k m p q : ℕ}

/-- field `v` at position `p` of an `n`-bit word -/
def place (n p : ℕ) (v : BitVec k) : BitVec n := v.setWidth n <<< p

theorem place_zero (v : BitVec k) : v.setWidth n = place n 0 v := by
  rw [place, BitVec.shiftLeft_zero]

theorem getLsbD_place (v : BitVec k) (i : ℕ) :
    (place n p v).getLsbD i = (decide (i < n) && decide (p ≤ i) && v.getLsbD (i - p)) := by
  rw [place, BitVec.getLsbD_shiftLeft, BitVec.getLsbD_setWidth]
  by_cases hi : i < n
  · by_cases hp : i < p
    · simp [hp]
    · simp [hi, show p ≤ i by omega, show i - p < n by omega]
  · simp [hi]

theorem extract_place (v : BitVec k) (h : p + k ≤ n) : (place n p v).extractLsb' p k = v := by
  apply BitVec.eq_of_getLsbD_eq
  intro i hi
  rw [BitVec.getLsbD_extractLsb', getLsbD_place]
  simp [hi, show p + i < n by omega]

theorem extract_place_off (v : BitVec k) (h : q + m ≤ p ∨ p + k ≤ q) : (place n p v).extractLsb' q m = 0#m := by
  apply BitVec.eq_of_getLsbD_eq
  intro i hi
  rw [BitVec.getLsbD_extractLsb', getLsbD_place]
  rcases h with h | h
  · simp [show ¬ p ≤ q + i by omega]
  · rw [BitVec.getLsbD_of_ge v _ (by omega)]
    simp

/-- the lowest bit of a field -/
theorem getLsbD_eq_extract (x : BitVec n) : x.getLsbD p = (x.extractLsb' p 1).getLsbD 0 := by
  simp

theorem bit_eq (x : BitVec n) (h : p < n) : x.sshiftRight p &&& 1 = (x.extractLsb' p 1).setWidth n := by
  apply BitVec.eq_of_getLsbD_eq
  intro i hi
  rw [BitVec.getLsbD_and, BitVec.getLsbD_sshiftRight, BitVec.getLsbD_setWidth, BitVec.getLsbD_extractLsb']
  by_cases h0 : i = 0
  · subst h0
    simp [h, hi, show n ≠ 0 by omega]
  · simp [h0, BitVec.getLsbD_one, show ¬ i < 1 by omega]

theorem getLsbD_ones (h : m < n) (i : ℕ) : ((1 : BitVec n) <<< m - 1).getLsbD i = decide (i < m) := by
  have hone : (1 : BitVec n).toNat = 1 := Nat.mod_eq_of_lt (Nat.one_lt_two_pow (by omega))
  have hshift : ((1 : BitVec n) <<< m).toNat = 2 ^ m := by
    rw [BitVec.toNat_shiftLeft, hone, Nat.one_shiftLeft, Nat.mod_eq_of_lt (Nat.pow_lt_pow_right (by decide) h)]
  have hval : ((1 : BitVec n) <<< m - 1).toNat = 2 ^ m - 1 := by
    rw [BitVec.toNat_sub_of_le, hshift, hone]
    rw [BitVec.le_def, hone, hshift]
    exact Nat.one_le_two_pow
  rw [BitVec.getLsbD, hval, Nat.testBit_two_pow_sub_one]

theorem mask_eq (x : BitVec n) (h : p + m ≤ n) (hm : m < n) :
    x.sshiftRight p &&& ((1 : BitVec n) <<< m - 1) = (x.extractLsb' p m).setWidth n := by
  apply BitVec.eq_of_getLsbD_eq
  intro i hi
  rw [BitVec.getLsbD_and, BitVec.getLsbD_sshiftRight, BitVec.getLsbD_setWidth, BitVec.getLsbD_extractLsb', getLsbD_ones hm]
  by_cases him : i < m
  · simp [him, hi, show p + i < n by omega, show ¬ n ≤ i by omega]
  · simp [him]

theorem low_eq (x : BitVec n) (h : m < n) : x &&& ((1 : BitVec n) <<< m - 1) = (x.extractLsb' 0 m).setWidth n := by
  have hlow := mask_eq x (p := 0) (m := m) (by omega) h
  rwa [BitVec.sshiftRight_zero] at hlow

/-- clearing the lowest bit -/
theorem extract_append_zero (x : BitVec (n + 1)) : x.extractLsb' 1 n ++ 0#1 = x &&& ~~~1 := by
  apply BitVec.eq_of_getLsbD_eq
  intro i hi
  rw [BitVec.getLsbD_append, BitVec.getLsbD_and, BitVec.getLsbD_not, BitVec.getLsbD_extractLsb']
  by_cases h0 : i = 0
  · subst h0
    simp
  · simp [h0, hi, show i - 1 < n by omega, show 1 + (i - 1) = i by omega]

/-- dropping the top bit and putting a zero in its place -/
theorem setWidth_setWidth_eq_iff (x : BitVec (n + 1)) : (x.setWidth n).setWidth (n + 1) = x ↔ x.msb = false := by
  have hlast : x.msb = x.getLsbD n := BitVec.msb_eq_getLsbD_last x
  constructor
  · intro h
    rw [hlast, ← h]
    simp
  · intro h
    apply BitVec.eq_of_getLsbD_eq
    intro i hi
    rw [BitVec.getLsbD_setWidth, BitVec.getLsbD_setWidth]
    by_cases hn : i = n
    · subst hn
      rw [← hlast, h]
      simp
    · simp [hi, show i < n by omega]

theorem ofInt_eq_signExtend (hk : 0 < k) (hkn : k ≤ n) {z : ℤ} (hlo : -2 ^ (k - 1) ≤ z) (hhi : z < 2 ^ (k - 1)) :
    BitVec.ofInt n z = (BitVec.ofInt k z).signExtend n := by
  have hpow : (2 : ℤ) ^ (k - 1) ≤ 2 ^ (n - 1) := by
    gcongr
    · norm_num
  apply BitVec.eq_of_toInt_eq
  rw [BitVec.toInt_signExtend_of_le hkn, BitVec.toInt_ofInt_eq_self hk hlo hhi,
    BitVec.toInt_ofInt_eq_self (by omega) (by omega) (by omega)]

theorem even_ofInt (hk : 0 < k) {z : ℤ} (h : 2 ∣ z) : (BitVec.ofInt k z)[0] = false := by
  have hdvd : (2 : ℤ) ∣ 2 ^ k := dvd_pow_self 2 (by omega)
  have hmod : z % 2 ^ k % 2 = 0 := by rw [Int.emod_emod_of_dvd _ hdvd, Int.emod_eq_zero_of_dvd h]
  have hpos : 0 ≤ z % 2 ^ k := Int.emod_nonneg _ (by positivity)
  have hnat : (BitVec.ofInt k z).toNat = (z % 2 ^ k).toNat := by
    rw [BitVec.toNat_ofInt]
    norm_cast
  rw [← BitVec.getLsbD_eq_getElem, BitVec.getLsbD, hnat, Nat.testBit_zero, decide_eq_false_iff_not]
  omega

end AegisSoc.Fields
