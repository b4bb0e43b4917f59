import Mathlib.Tactic

/-! A machine word that counts in its low `k` bits and keeps flags above them. -/

namespace CountWord

variable {n k i : Nat} {w f : BitVec n}

def count (k : Nat) (w : BitVec n) : Nat := w.toNat % 2 ^ k

theorem count_lt (k : Nat) (w : BitVec n) : count k w < 2 ^ k := Nat.mod_lt _ (Nat.two_pow_pos k)

theorem toNat_add_one (hk : k ≤ n) (h : count k w + 1 < 2 ^ k) :
    (w + 1#n).toNat = w.toNat + 1 := by
  have hdvd : 2 ^ k ∣ 2 ^ n := Nat.pow_dvd_pow 2 hk
  have hmod : (w.toNat + 1) % 2 ^ k = count k w + 1 := by
    rw [Nat.add_mod, Nat.mod_eq_of_lt (show 1 < 2 ^ k by omega)]
    exact Nat.mod_eq_of_lt h
  have hne : w.toNat + 1 ≠ 2 ^ n := by
    intro he
    rw [he, Nat.mod_eq_zero_of_dvd hdvd] at hmod
    omega
  have hle : 2 ^ k ≤ 2 ^ n := Nat.le_of_dvd (Nat.two_pow_pos n) hdvd
  have hlt := w.isLt
  rw [BitVec.toNat_add, BitVec.toNat_ofNat, Nat.mod_eq_of_lt (show 1 < 2 ^ n by omega)]
  exact Nat.mod_eq_of_lt (by omega)

theorem count_add_one (hk : k ≤ n) (h : count k w + 1 < 2 ^ k) :
    count k (w + 1#n) = count k w + 1 := by
  unfold count at h ⊢
  rw [toNat_add_one hk h, Nat.add_mod, Nat.mod_eq_of_lt (show 1 < 2 ^ k by omega)]
  exact Nat.mod_eq_of_lt h

/-- Counting up leaves the flags alone as long as the count does not run over. -/
theorem getLsbD_add_one (hk : k ≤ n) (h : count k w + 1 < 2 ^ k) (hi : k ≤ i) :
    (w + 1#n).getLsbD i = w.getLsbD i := by
  have hd : (w.toNat + 1) / 2 ^ k = w.toNat / 2 ^ k := by
    refine Nat.div_eq_of_lt_le ?_ ?_
    · have := Nat.div_mul_le_self w.toNat (2 ^ k)
      omega
    · have hdm := Nat.div_add_mod w.toNat (2 ^ k)
      unfold count at h
      rw [Nat.mul_comm] at hdm
      rw [Nat.add_mul]
      omega
  obtain ⟨j, rfl⟩ := Nat.exists_eq_add_of_le hi
  unfold BitVec.getLsbD
  rw [toNat_add_one hk h, Nat.add_comm k j, ← Nat.testBit_div_two_pow, ← Nat.testBit_div_two_pow,
    hd]

theorem count_sub_one (hk : k ≤ n) (h : count k w ≠ 0) : count k (w - 1#n) = count k w - 1 := by
  have hlt := count_lt k (w - 1#n)
  by_cases hc : count k (w - 1#n) + 1 < 2 ^ k
  · have hadd := count_add_one hk hc
    rw [BitVec.sub_add_cancel] at hadd
    omega
  · exfalso
    have hdvd : 2 ^ k ∣ 2 ^ n := Nat.pow_dvd_pow 2 hk
    have hw : w.toNat % 2 ^ k = ((w - 1#n).toNat + 1) % 2 ^ k := by
      conv_lhs => rw [← BitVec.sub_add_cancel w 1#n]
      rw [BitVec.toNat_add, BitVec.toNat_ofNat, Nat.mod_mod_of_dvd _ hdvd, Nat.add_mod,
        Nat.mod_mod_of_dvd _ hdvd, ← Nat.add_mod]
    have h1 : count k (w - 1#n) + 1 = 2 ^ k := by omega
    unfold count at h h1
    rw [hw, ← Nat.mod_add_mod, h1, Nat.mod_self] at h
    exact h rfl

theorem getLsbD_sub_one (hk : k ≤ n) (h : count k w ≠ 0) (hi : k ≤ i) :
    (w - 1#n).getLsbD i = w.getLsbD i := by
  have hc := count_sub_one hk h
  have hlt := count_lt k w
  have hadd := getLsbD_add_one (w := w - 1#n) hk (by omega) hi
  rw [← hadd, BitVec.sub_add_cancel]

theorem count_or (h : count k f = 0) : count k (w ||| f) = count k w := by
  unfold count at h ⊢
  rw [BitVec.toNat_or, Nat.or_mod_two_pow, h, Nat.or_zero]

theorem count_and_not (hk : k ≤ n) (h : count k f = 0) : count k (w &&& ~~~f) = count k w := by
  unfold count
  apply Nat.eq_of_testBit_eq
  intro j
  have hf : (f.toNat % 2 ^ k).testBit j = false := by
    unfold count at h
    rw [h, Nat.zero_testBit]
  rw [Nat.testBit_mod_two_pow] at hf
  rw [Nat.testBit_mod_two_pow, Nat.testBit_mod_two_pow, BitVec.testBit_toNat,
    BitVec.testBit_toNat]
  by_cases hj : j < k
  · have hfj : f.getLsbD j = false := by simpa [hj, BitVec.testBit_toNat] using hf
    rw [BitVec.getLsbD_and, BitVec.getLsbD_not, hfj]
    simp [Nat.lt_of_lt_of_le hj hk]
  · simp [hj]

end CountWord
