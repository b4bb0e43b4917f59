import Mathlib.Tactic

namespace BitPair

variable {w : Nat}

/-- The two bits of `x` that start at bit `2 * k`. -/
def pair (x : BitVec w) (k : Nat) : BitVec 2 := x.extractLsb' (2 * k) 2

/-- The lowest `r` bits set, as `(1 << r) - 1` computes them. -/
def ones (w r : Nat) : BitVec w := (1#w <<< r) - 1#w

/-- A run of `c` pairs of ones that starts at pair `k`. -/
def run (w k c : Nat) : BitVec w := ones w (2 * c) <<< (2 * k)

theorem getLsbD_ones {r : Nat} (h : r < w) (i : Nat) :
    (ones w r).getLsbD i = decide (i < r) := by
  have hpow : 2 ^ r < 2 ^ w := Nat.pow_lt_pow_right (by omega) h
  have hone : 1 < 2 ^ w := Nat.one_lt_two_pow (by omega)
  have hpos : 0 < 2 ^ r := Nat.two_pow_pos r
  have hval : (ones w r).toNat = 2 ^ r - 1 := by
    unfold ones
    rw [BitVec.toNat_sub, BitVec.toNat_shiftLeft]
    simp only [BitVec.toNat_ofNat, Nat.mod_eq_of_lt hone, Nat.shiftLeft_eq, one_mul,
      Nat.mod_eq_of_lt hpow]
    rw [show 2 ^ w - 1 + 2 ^ r = 2 ^ r - 1 + 2 ^ w by omega, Nat.add_mod_right,
      Nat.mod_eq_of_lt (by omega)]
  rw [BitVec.getLsbD, hval, Nat.testBit_two_pow_sub_one]

theorem getLsbD_run {k c : Nat} (h : 2 * c < w) (i : Nat) :
    (run w k c).getLsbD i = decide (i < w ∧ 2 * k ≤ i ∧ i < 2 * (k + c)) := by
  unfold run
  rw [BitVec.getLsbD_shiftLeft, getLsbD_ones h]
  by_cases h1 : i < w
  · by_cases h2 : 2 * k ≤ i
    · have hsub : i - 2 * k < 2 * c ↔ i < 2 * (k + c) := by omega
      simp [h1, h2, hsub]
    · have hlt : i < 2 * k := by omega
      simp [h1, h2, hlt]
  · simp [h1]

theorem getLsbD_pair (x : BitVec w) (k i : Nat) :
    (pair x k).getLsbD i = (decide (i < 2) && x.getLsbD (2 * k + i)) := by
  simp [pair]

theorem pair_eq_iff {x y : BitVec w} {j k : Nat} :
    pair x j = pair y k ↔ x.getLsbD (2 * j) = y.getLsbD (2 * k) ∧
      x.getLsbD (2 * j + 1) = y.getLsbD (2 * k + 1) := by
  constructor
  · intro h
    have h0 := congrArg (fun p : BitVec 2 => p.getLsbD 0) h
    have h1 := congrArg (fun p : BitVec 2 => p.getLsbD 1) h
    simp only [getLsbD_pair] at h0 h1
    exact ⟨by simpa using h0, by simpa using h1⟩
  · intro h
    apply BitVec.eq_of_getLsbD_eq
    intro i hi
    rw [getLsbD_pair, getLsbD_pair]
    have hi' : i = 0 ∨ i = 1 := by omega
    rcases hi' with hi' | hi' <;> subst hi' <;> simp [h.1, h.2]

theorem eq_of_pair_eq {x y : BitVec w} (h : ∀ k, 2 * k < w → pair x k = pair y k) : x = y := by
  apply BitVec.eq_of_getLsbD_eq
  intro i hi
  have hp := pair_eq_iff.mp (h (i / 2) (by omega))
  rcases Nat.mod_two_eq_zero_or_one i with hm | hm
  · rw [show i = 2 * (i / 2) by omega]; exact hp.1
  · rw [show i = 2 * (i / 2) + 1 by omega]; exact hp.2

@[simp]
theorem pair_zero (k : Nat) : pair (0#w) k = 0 := by
  unfold pair
  simp

theorem pair_allOnes {k : Nat} (h : 2 * k + 1 < w) : pair (BitVec.allOnes w) k = 3 := by
  apply BitVec.eq_of_getLsbD_eq
  intro i hi
  rw [getLsbD_pair, BitVec.getLsbD_allOnes]
  have hi' : i = 0 ∨ i = 1 := by omega
  rcases hi' with hi' | hi' <;> subst hi' <;> simp <;> omega

theorem pair_or_run {x : BitVec w} {k c : Nat} (hc : 2 * c < w) (j : Nat) (hj : 2 * j + 1 < w) :
    pair (x ||| run w k c) j = if k ≤ j ∧ j < k + c then 3 else pair x j := by
  have hbit : ∀ i, 2 * j ≤ i → i < 2 * j + 2 →
      (run w k c).getLsbD i = decide (k ≤ j ∧ j < k + c) := by
    intro i h1 h2
    rw [getLsbD_run hc]
    by_cases h : k ≤ j ∧ j < k + c <;> simp [h] <;> omega
  apply BitVec.eq_of_getLsbD_eq
  intro i hi
  rw [getLsbD_pair, BitVec.getLsbD_or, hbit _ (by omega) (by omega)]
  by_cases h : k ≤ j ∧ j < k + c
  · have hi' : i = 0 ∨ i = 1 := by omega
    rcases hi' with hi' | hi' <;> subst hi' <;> simp [h]
  · simp only [h, decide_false, Bool.or_false, ↓reduceIte]
    rw [getLsbD_pair]

/-- A word is disjoint from a run exactly if all the pairs of the run are clear in it. -/
theorem and_run_eq_zero_iff {x : BitVec w} {k c : Nat} (hc : 2 * c < w) (hk : 2 * (k + c) ≤ w) :
    x &&& run w k c = 0 ↔ ∀ j, k ≤ j → j < k + c → pair x j = 0 := by
  constructor
  · intro h j h1 h2
    apply BitVec.eq_of_getLsbD_eq
    intro i hi
    have hb := congrArg (fun y : BitVec w => y.getLsbD (2 * j + i)) h
    simp only [BitVec.getLsbD_and, getLsbD_run hc] at hb
    rw [getLsbD_pair]
    have hr : (2 * j + i < w ∧ 2 * k ≤ 2 * j + i ∧ 2 * j + i < 2 * (k + c)) := by omega
    simp only [hr, and_self, decide_true, Bool.and_true] at hb
    rw [hb]
    simp
  · intro h
    apply BitVec.eq_of_getLsbD_eq
    intro i hi
    rw [BitVec.getLsbD_and, getLsbD_run hc]
    by_cases hr : i < w ∧ 2 * k ≤ i ∧ i < 2 * (k + c)
    · have hp := h (i / 2) (by omega) (by omega)
      have hb := congrArg (fun p : BitVec 2 => p.getLsbD (i % 2)) hp
      simp only [getLsbD_pair] at hb
      rw [show 2 * (i / 2) + i % 2 = i by omega] at hb
      have hlt : i % 2 < 2 := Nat.mod_lt _ (by omega)
      simpa [hr, hlt] using hb
    · simp only [hr, decide_false, Bool.and_false]
      simp

theorem pair_run_self {k : Nat} (hk : 2 * k + 1 < w) (hw : 2 < w) : pair (run w k 1) k = 3 := by
  have h := pair_or_run (x := 0#w) (k := k) (c := 1) hw k hk
  simpa using h

theorem pair_and (x y : BitVec w) (k : Nat) : pair (x &&& y) k = pair x k &&& pair y k := by
  apply BitVec.eq_of_getLsbD_eq
  intro i hi
  simp only [getLsbD_pair, BitVec.getLsbD_and]
  by_cases h : i < 2 <;> simp [h]

theorem and_run_one_eq_iff {x : BitVec w} {k : Nat} (hk : 2 * (k + 1) ≤ w) (hw : 2 < w) :
    x &&& run w k 1 = run w k 1 ↔ pair x k = 3 := by
  have hthree : ∀ p : BitVec 2, p &&& 3 = p := by decide
  constructor
  · intro h
    have hp := congrArg (fun y => pair y k) h
    simp only [pair_and, pair_run_self (show 2 * k + 1 < w by omega) hw] at hp
    rwa [hthree] at hp
  · intro h
    apply eq_of_pair_eq
    intro j hj
    rw [pair_and]
    by_cases hjk : j = k
    · subst hjk
      rw [h, pair_run_self (by omega) hw]
      rfl
    · have hzero : pair (run w k 1) j = 0 := by
        apply BitVec.eq_of_getLsbD_eq
        intro i hi
        rw [getLsbD_pair, getLsbD_run (by omega)]
        have hout : ¬(2 * j + i < w ∧ 2 * k ≤ 2 * j + i ∧ 2 * j + i < 2 * (k + 1)) := by omega
        simp [hout]
      rw [hzero]
      simp

theorem run_one_ne_zero {k : Nat} (hk : 2 * (k + 1) ≤ w) (hw : 2 < w) : run w k 1 ≠ 0 := by
  intro h
  have hp := pair_run_self (w := w) (k := k) (by omega) hw
  rw [h, BitVec.ofNat_eq_ofNat, pair_zero] at hp
  exact absurd hp (by decide)

theorem pair_and_not_bit {x : BitVec w} {k j b : Nat} (hb : b < 2) (hj : 2 * j + 1 < w) :
    pair (x &&& ~~~(1#w <<< (2 * k + b))) j =
      if j = k then pair x j &&& ~~~(1#2 <<< b) else pair x j := by
  apply BitVec.eq_of_getLsbD_eq
  intro i hi
  have hw : 2 * j + i < w := by omega
  have hbit : 2 * k + b = 2 * j + i ↔ j = k ∧ b = i := by omega
  rw [getLsbD_pair, BitVec.getLsbD_and, BitVec.getLsbD_not, ← BitVec.twoPow_eq,
    BitVec.getLsbD_twoPow]
  by_cases h : j = k
  · subst h
    have hjb : 2 * j + b < w := by omega
    rw [if_pos rfl, BitVec.getLsbD_and, getLsbD_pair, BitVec.getLsbD_not, ← BitVec.twoPow_eq,
      BitVec.getLsbD_twoPow]
    simp [hi, hw, hb, hjb]
  · rw [if_neg h, getLsbD_pair]
    simp [hw, hbit, h]

theorem two_shiftLeft (n : Nat) : 2#w <<< n = 1#w <<< (n + 1) := by
  apply BitVec.eq_of_toNat_eq
  rw [BitVec.toNat_shiftLeft, BitVec.toNat_shiftLeft, BitVec.toNat_ofNat, BitVec.toNat_ofNat,
    Nat.shiftLeft_eq, Nat.shiftLeft_eq, Nat.mod_mul_mod, Nat.mod_mul_mod, pow_succ]
  ring_nf

theorem three_shiftLeft_eq_run (h : 2 < w) (k : Nat) : 3#w <<< (2 * k) = run w k 1 := by
  have hones : ones w (2 * 1) = 3#w := by
    apply BitVec.eq_of_getLsbD_eq
    intro i hi
    rw [getLsbD_ones (by omega), BitVec.getLsbD_ofNat]
    have h3 : Nat.testBit 3 i = decide (i < 2) := by
      simpa using Nat.testBit_two_pow_sub_one 2 i
    simp [h3, hi]
  rw [run, hones]

/-- The pair that a scan sees after shifting out `k` pairs. -/
theorem shiftRight_and_three (x : BitVec w) (k : Nat) :
    (x >>> (2 * k)) &&& 3#w = (pair x k).setWidth w := by
  apply BitVec.eq_of_getLsbD_eq
  intro i hi
  have h3 : Nat.testBit 3 i = decide (i < 2) := by
    simpa using Nat.testBit_two_pow_sub_one 2 i
  rw [BitVec.getLsbD_and, BitVec.getLsbD_ushiftRight, BitVec.getLsbD_ofNat, h3,
    BitVec.getLsbD_setWidth, getLsbD_pair]
  by_cases hi2 : i < 2 <;> simp [hi, hi2]

end BitPair
