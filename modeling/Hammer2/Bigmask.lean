import Hammer2.BulkfreeSync

namespace Hammer2

/-- An aligned run of free blocks that an allocation of the given radix fits in. -/
def FreeRun (bmap : BmapData) (radix : Nat) : Prop :=
  ∃ b, b % blockCount radix = 0 ∧ b + blockCount radix ≤ 256 ∧
    ∀ b', b ≤ b' → b' < b + blockCount radix → bmap.blk b' = 0

/-- A bitmap word has an aligned run of `c` clear pairs. -/
def WordRun (x : BitVec 64) (c : Nat) : Prop :=
  ∃ t, c * t < 32 ∧ x &&& BitPair.run 64 (c * t) c = 0

theorem elementScan_isSome_iff {x : BitVec 64} {c : Nat} (hc : 0 < c) :
    (elementScan x (2 * c) 32 (BitPair.run 64 (c * 0) c) (2 * (c * 0))).isSome ↔ WordRun x c := by
  constructor
  · intro h
    obtain ⟨j, hj⟩ := Option.isSome_iff_exists.mp h
    obtain ⟨t, _, _, hlt, hzero, _⟩ := elementScan_some hj
    exact ⟨t, hlt, hzero⟩
  · rintro ⟨t, hlt, hzero⟩
    by_contra hn
    have hnone := Option.not_isSome_iff_eq_none.mp hn
    have ht : t < 32 := lt_of_le_of_lt (Nat.le_mul_of_pos_left t hc) hlt
    exact elementScan_none hnone t (Nat.zero_le _) (by omega) hlt hzero

theorem bitmapScan_isSome_iff {bmap : BmapData} {radix fuel i : Nat} (hf : i + fuel = 8) :
    (bitmapScan bmap radix fuel i).isSome ↔
      ∃ n, i ≤ n ∧ n < 8 ∧
        (elementScan (bmap.q n) (bmradix radix) 32 (bmmask radix) 0).isSome := by
  induction fuel generalizing i with
  | zero =>
    refine iff_of_false (by simp [bitmapScan]) ?_
    rintro ⟨n, h1, h2, _⟩
    omega
  | succ fuel ih =>
    unfold bitmapScan
    rw [if_pos (show i < bmapElements by unfold bmapElements; omega)]
    cases he : elementScan (bmap.q i) (bmradix radix) 32 (bmmask radix) 0 with
    | some j => exact iff_of_true rfl ⟨i, le_rfl, by omega, by rw [he]; rfl⟩
    | none =>
      simp only
      rw [ih (by omega)]
      constructor
      · rintro ⟨n, h1, h2, hn⟩
        exact ⟨n, by omega, h2, hn⟩
      · rintro ⟨n, h1, h2, hn⟩
        rcases Nat.eq_or_lt_of_le h1 with rfl | hlt
        · rw [he] at hn
          cases hn
        · exact ⟨n, hlt, h2, hn⟩

theorem blockCount_pos {radix : Nat} (hr : radix ≤ 16) : 0 < blockCount radix := by
  rcases blockCount_cases hr with h | h | h <;> omega

/-- An aligned run of free blocks lies in one bitmap word. -/
theorem freeRun_iff_wordRun {bmap : BmapData} {radix : Nat} (hr : radix ≤ 16) :
    FreeRun bmap radix ↔ ∃ i, i < 8 ∧ WordRun (bmap.q i) (blockCount radix) := by
  have hc := blockCount_cases hr
  constructor
  · rintro ⟨b, hal, hfit, hfree⟩
    have hmul := Nat.div_add_mod (b % 32) (blockCount radix)
    have hmod : b % 32 % blockCount radix = 0 := by
      rcases hc with hc | hc | hc <;> rw [hc] at hal ⊢ <;> omega
    have hin : b % 32 + blockCount radix ≤ 32 := by
      rcases hc with hc | hc | hc <;> rw [hc] at hal ⊢ <;> omega
    have hstart : blockCount radix * (b % 32 / blockCount radix) = b % 32 := by omega
    have hlt : b / 32 < 8 := by
      rcases hc with hc | hc | hc <;> omega
    refine ⟨b / 32, hlt, b % 32 / blockCount radix, ?_, ?_⟩
    · rw [hstart]
      exact Nat.mod_lt _ (by omega)
    · rw [hstart]
      refine (q_and_run_eq_zero_iff hin (by omega)).mpr fun b' h1 h2 => ?_
      exact hfree b' (by omega) (by omega)
  · rintro ⟨i, hi, t, ht, hzero⟩
    have hfit : blockCount radix * t + blockCount radix ≤ 32 := by
      rcases hc with hc | hc | hc <;> rw [hc] at ht ⊢ <;> omega
    refine ⟨32 * i + blockCount radix * t, ?_, by omega, ?_⟩
    · rcases hc with hc | hc | hc <;> rw [hc] <;> omega
    · exact (q_and_run_eq_zero_iff hfit (by omega)).mp hzero

/-- The general element scan finds a place just when there is an aligned run of free blocks. -/
theorem bitmapScan_isSome_iff_freeRun {bmap : BmapData} {radix : Nat} (hr : radix ≤ 16) :
    (bitmapScan bmap radix bmapElements 0).isSome ↔ FreeRun bmap radix := by
  rw [bitmapScan_isSome_iff (show 0 + bmapElements = 8 from rfl), freeRun_iff_wordRun hr]
  refine exists_congr fun i => ?_
  rw [elementScan_zero_eq hr, elementScan_isSome_iff (blockCount_pos hr)]
  simp

theorem wordRun_iff {x : BitVec 64} {c : Nat} (hc : 0 < c) (hc' : c < 32) (hdvd : c ∣ 32) :
    WordRun x c ↔
      ∃ t, c * t < 32 ∧ ∀ j, c * t ≤ j → j < c * t + c → BitPair.pair x j = 0 := by
  obtain ⟨m, hm⟩ := hdvd
  have hfit : ∀ t, c * t < 32 → 2 * (c * t + c) ≤ 64 := by
    intro t ht
    have hlt : t < m := Nat.lt_of_mul_lt_mul_left (a := c) (by omega)
    have hle := Nat.mul_le_mul_left c (Nat.succ_le_of_lt hlt)
    rw [Nat.mul_succ] at hle
    omega
  constructor
  · rintro ⟨t, ht, hzero⟩
    exact ⟨t, ht, (BitPair.and_run_eq_zero_iff (by omega) (hfit t ht)).mp hzero⟩
  · rintro ⟨t, ht, hzero⟩
    exact ⟨t, ht, (BitPair.and_run_eq_zero_iff (by omega) (hfit t ht)).mpr hzero⟩

/-- A longer run has a shorter one at its start. -/
theorem WordRun.half {x : BitVec 64} {c : Nat} (hc : 0 < c) (hc' : 2 * c < 32)
    (hdvd : 2 * c ∣ 32) (h : WordRun x (2 * c)) : WordRun x c := by
  obtain ⟨t, ht, hzero⟩ := (wordRun_iff (by omega) hc' hdvd).mp h
  have hassoc : c * (2 * t) = 2 * c * t := by ring
  refine (wordRun_iff hc (by omega) (Dvd.dvd.trans (Dvd.intro_left 2 rfl) hdvd)).mpr
    ⟨2 * t, by omega, fun j h1 h2 => hzero j (by omega) (by omega)⟩

theorem wordRun_zero {c : Nat} : WordRun 0 c := ⟨0, by omega, by simp⟩

/-- The mask with which `bigmask_get` starts an inner loop. -/
def scanMask (ub : BitVec 32) (iter : Nat) : BitVec 64 :=
  if iter = bmapBitsPerElement then BitVec.allOnes 64 else (shiftLU ub iter - 1).setWidth 64

/-- The inner loop of `bigmask_get` over one word. -/
def elementHit (ub : BitVec 32) (x : BitVec 64) (iter : Nat) : Bool :=
  bigmaskFree x iter 32 (scanMask ub iter) 0

/-- What the inner loop looks for at width 32, where the shift `1LU << 32` is undefined and
leaves `ub`. -/
def ShiftHits (ub : BitVec 32) (x : BitVec 64) : Prop :=
  (ub - 1).setWidth 64 &&& x = 0 ∨ ((ub - 1).setWidth 64 <<< 32) &&& x = 0

instance (ub : BitVec 32) (x : BitVec 64) : Decidable (ShiftHits ub x) :=
  inferInstanceAs (Decidable (_ ∨ _))

theorem bigmaskFree_eq (x : BitVec 64) (iter fuel : Nat) (scan : BitVec 64) (j : Nat) :
    bigmaskFree x iter fuel scan j = (elementScan x iter fuel scan j).isSome := by
  induction fuel generalizing scan j with
  | zero => rfl
  | succ fuel ih =>
    unfold bigmaskFree elementScan
    split
    next =>
      rw [BitVec.and_comm scan x]
      split
      next hz => simp [hz]
      next hz =>
        rw [← ih]
        simp at hz
        simp [hz]
    next => rfl

theorem scanMask_eq (ub : BitVec 32) {c : Nat} (hc : 2 * c < 32) :
    scanMask ub (2 * c) = BitPair.run 64 (c * 0) c := by
  have hne : 2 * c ≠ bmapBitsPerElement := by unfold bmapBitsPerElement; omega
  have hones : shiftLU ub (2 * c) - 1 = BitPair.ones 32 (2 * c) := by
    unfold shiftLU BitPair.ones
    rw [if_pos hc]
    rfl
  unfold scanMask
  rw [if_neg hne, hones]
  apply BitVec.eq_of_getLsbD_eq
  intro i hi
  rw [BitVec.getLsbD_setWidth, BitPair.getLsbD_ones hc, BitPair.getLsbD_run (by omega)]
  simp [hi]

theorem elementHit_eq (ub : BitVec 32) (x : BitVec 64) {c : Nat} (hpos : 0 < c)
    (hc : 2 * c < 32) : elementHit ub x (2 * c) = true ↔ WordRun x c := by
  unfold elementHit
  rw [bigmaskFree_eq, scanMask_eq ub hc, ← elementScan_isSome_iff hpos]
  simp

theorem elementHit_32 (ub : BitVec 32) (x : BitVec 64) :
    elementHit ub x 32 = true ↔ ShiftHits ub x := by
  unfold elementHit ShiftHits scanMask shiftLU
  simp [bigmaskFree, bmapBitsPerElement]

theorem elementHit_64 (ub : BitVec 32) (x : BitVec 64) :
    elementHit ub x 64 = true ↔ x = 0 := by
  have hand : BitVec.allOnes 64 &&& x = x := BitVec.allOnes_and
  unfold elementHit scanMask
  rw [if_pos (show 64 = bmapBitsPerElement from rfl)]
  unfold bigmaskFree
  rw [if_pos (show 0 < bmapBitsPerElement by decide), hand]
  simp [bigmaskFree, bmapBitsPerElement]

theorem ones_succ {n : Nat} (hn : n + 1 < 32) :
    BitPair.ones 32 n <<< 1 ||| 1 = BitPair.ones 32 (n + 1) := by
  apply BitVec.eq_of_getLsbD_eq
  intro i hi
  rw [BitVec.getLsbD_or, BitVec.getLsbD_shiftLeft, BitPair.getLsbD_ones (by omega),
    BitPair.getLsbD_ones hn]
  rcases Nat.eq_zero_or_pos i with rfl | hpos
  · simp
  · have hone : (1 : BitVec 32).getLsbD i = false := by
      rw [show (1 : BitVec 32) = BitVec.twoPow 32 0 from rfl, BitVec.getLsbD_twoPow]
      simp
      omega
    have hlt : i - 1 < n ↔ i < n + 1 := by omega
    rw [hone]
    simp [hi, hlt]
    omega

/-- The bits that the loop over the widths `2 ^ (k + 1)`, `2 ^ (k + 2)`, …, 64 sets. -/
theorem bigmaskElement_getLsbD (ub : BitVec 32) (x : BitVec 64) {fuel k : Nat}
    (hk : k + fuel = 6) (bigmask : BitVec 32) (r : Nat) :
    (bigmaskElement ub x fuel (2 ^ (k + 1)) (BitPair.ones 32 (15 + k)) bigmask).getLsbD r = true ↔
      bigmask.getLsbD r = true ∨
        ∃ k', k ≤ k' ∧ k' < 6 ∧ r < 15 + k' ∧ elementHit ub x (2 ^ (k' + 1)) = true := by
  induction fuel generalizing k bigmask with
  | zero =>
    unfold bigmaskElement
    refine ⟨Or.inl, ?_⟩
    rintro (h | ⟨k', h1, h2, _⟩)
    · exact h
    · omega
  | succ fuel ih =>
    have hle : 2 ^ (k + 1) ≤ bmapBitsPerElement :=
      le_trans (Nat.pow_le_pow_right (by omega) (show k + 1 ≤ 6 by omega)) (by decide)
    unfold bigmaskElement
    rw [if_pos hle, ones_succ (by omega), ← pow_succ, show 15 + k + 1 = 15 + (k + 1) by omega]
    simp only
    rw [ih (by omega)]
    have hhit : (if elementHit ub x (2 ^ (k + 1)) = true then bigmask ||| BitPair.ones 32 (15 + k)
        else bigmask).getLsbD r = true ↔
        bigmask.getLsbD r = true ∨ r < 15 + k ∧ elementHit ub x (2 ^ (k + 1)) = true := by
      split
      next h => simp [BitVec.getLsbD_or, BitPair.getLsbD_ones (show 15 + k < 32 by omega), h]
      next h => simp [h]
    unfold elementHit scanMask at hhit
    rw [hhit, or_assoc]
    refine or_congr_right ?_
    constructor
    · rintro (⟨h1, h2⟩ | ⟨k', h1, h2, h3, h4⟩)
      · exact ⟨k, le_rfl, by omega, h1, h2⟩
      · exact ⟨k', by omega, h2, h3, h4⟩
    · rintro ⟨k', h1, h2, h3, h4⟩
      rcases Nat.eq_or_lt_of_le h1 with rfl | hlt
      · exact Or.inl ⟨h3, h4⟩
      · exact Or.inr ⟨k', hlt, h2, h3, h4⟩

theorem bigmaskGet_foldl (ub : BitVec 32) (bmap : BmapData) (r : Nat) (l : List Nat)
    (bigmask : BitVec 32) :
    (l.foldl (fun bigmask i =>
      bigmaskElement ub (bmap.q i) 6 2 (BitPair.ones 32 15) bigmask) bigmask).getLsbD r = true ↔
      bigmask.getLsbD r = true ∨ ∃ i ∈ l,
        ∃ k, k < 6 ∧ r < 15 + k ∧ elementHit ub (bmap.q i) (2 ^ (k + 1)) = true := by
  induction l generalizing bigmask with
  | nil => simp
  | cons i l ih =>
    have hstep := bigmaskElement_getLsbD ub (bmap.q i) (show 0 + 6 = 6 from rfl) bigmask r
    simp only [Nat.zero_add, pow_one, Nat.add_zero, Nat.zero_le, true_and] at hstep
    rw [List.foldl_cons, ih, hstep, or_assoc]
    simp only [List.mem_cons, exists_eq_or_imp]

theorem bigmaskGet_getLsbD (ub : BitVec 32) (bmap : BmapData) (r : Nat) :
    (bigmaskGet ub bmap).getLsbD r = true ↔
      ∃ i, i < 8 ∧ ∃ k, k < 6 ∧ r < 15 + k ∧ elementHit ub (bmap.q i) (2 ^ (k + 1)) = true := by
  have hmask : (1#32 <<< freemapBlockRadix ||| (1#32 <<< freemapBlockRadix - 1)) =
      BitPair.ones 32 15 := by decide
  unfold bigmaskGet
  simp only [hmask]
  rw [bigmaskGet_foldl]
  simp [bmapElements]

theorem blockCount_radix {r : Nat} (hr : r ≤ 16) :
    blockCount r = 1 ∧ r ≤ 14 ∨ blockCount r = 2 ∧ r = 15 ∨ blockCount r = 4 ∧ r = 16 := by
  unfold blockCount freemapBlockRadix
  interval_cases r <;> simp

/-- A hit of width `2 ^ (k + 1)` in one word, up to the last two widths. -/
theorem wordRun_of_hit {ub : BitVec 32} {x : BitVec 64} {r k : Nat} (hr : r ≤ 16) (hk : k < 4)
    (hrk : r < 15 + k) (hhit : elementHit ub x (2 ^ (k + 1)) = true) :
    WordRun x (blockCount r) := by
  have h8 : WordRun x 8 → WordRun x 4 := WordRun.half (c := 4) (by omega) (by omega) (by decide)
  have h4 : WordRun x 4 → WordRun x 2 := WordRun.half (c := 2) (by omega) (by omega) (by decide)
  have h2 : WordRun x 2 → WordRun x 1 := WordRun.half (c := 1) (by omega) (by omega) (by decide)
  have hrun : WordRun x (2 ^ k) := by
    refine (elementHit_eq ub x (Nat.two_pow_pos k) ?_).mp ?_
    · interval_cases k <;> omega
    · rwa [mul_comm, ← pow_succ]
  rcases blockCount_radix hr with ⟨hb, hr'⟩ | ⟨hb, hr'⟩ | ⟨hb, hr'⟩ <;> rw [hb] <;>
    interval_cases k <;> simp only [pow_zero, pow_one, Nat.reducePow] at hrun <;>
    first | omega | tauto

theorem hit_of_wordRun {ub : BitVec 32} {x : BitVec 64} {r : Nat} (hr : r ≤ 16)
    (h : WordRun x (blockCount r)) :
    ∃ k, k < 6 ∧ r < 15 + k ∧ elementHit ub x (2 ^ (k + 1)) = true := by
  rcases blockCount_radix hr with ⟨hb, hr'⟩ | ⟨hb, hr'⟩ | ⟨hb, hr'⟩
  · rw [hb] at h
    exact ⟨0, by omega, by omega, (elementHit_eq ub x (show 0 < 1 by omega) (by omega)).mpr h⟩
  · rw [hb] at h
    exact ⟨1, by omega, by omega, (elementHit_eq ub x (show 0 < 2 by omega) (by omega)).mpr h⟩
  · rw [hb] at h
    exact ⟨2, by omega, by omega, (elementHit_eq ub x (show 0 < 4 by omega) (by omega)).mpr h⟩

/-- Which radix bits the hits of one word set, for the radixes an allocation can have. -/
theorem wordHits_iff {ub : BitVec 32} {x : BitVec 64} {r : Nat} (hr : r ≤ 16) :
    (∃ k, k < 6 ∧ r < 15 + k ∧ elementHit ub x (2 ^ (k + 1)) = true) ↔
      WordRun x (blockCount r) ∨ ShiftHits ub x := by
  constructor
  · rintro ⟨k, hk, hrk, hhit⟩
    by_cases hk4 : k < 4
    · exact Or.inl (wordRun_of_hit hr hk4 hrk hhit)
    · have hk' : k = 4 ∨ k = 5 := by omega
      rcases hk' with rfl | rfl
      · exact Or.inr ((elementHit_32 ub x).mp hhit)
      · have hx : x = 0 := (elementHit_64 ub x).mp hhit
        rw [hx]
        exact Or.inl wordRun_zero
  · rintro (h | h)
    · exact hit_of_wordRun hr h
    · exact ⟨4, by omega, by omega, (elementHit_32 ub x).mpr h⟩

/-- What `bigmask_get` computes for the radixes an allocation can have. -/
theorem bigmaskGet_iff {ub : BitVec 32} {bmap : BmapData} {r : Nat} (hr : r ≤ 16) :
    (bigmaskGet ub bmap).getLsbD r = true ↔
      FreeRun bmap r ∨ ∃ i, i < 8 ∧ ShiftHits ub (bmap.q i) := by
  rw [bigmaskGet_getLsbD, freeRun_iff_wordRun hr]
  constructor
  · rintro ⟨i, hi, h⟩
    exact ((wordHits_iff hr).mp h).imp (fun h => ⟨i, hi, h⟩) (fun h => ⟨i, hi, h⟩)
  · rintro (⟨i, hi, h⟩ | ⟨i, hi, h⟩)
    · exact ⟨i, hi, (wordHits_iff hr).mpr (Or.inl h)⟩
    · exact ⟨i, hi, (wordHits_iff hr).mpr (Or.inr h)⟩

/-- `bigmask_get` agrees with the allocator's scan just where the undefined shift does no harm. -/
theorem bigmaskGet_agrees_iff (ub : BitVec 32) (bmap : BmapData) (r : Nat) (hr : r ≤ 16) :
    ((bigmaskGet ub bmap).getLsbD r = true ↔
        (bitmapScan bmap r bmapElements 0).isSome = true) ↔
      FreeRun bmap r ∨ ∀ i, i < 8 → ¬ShiftHits ub (bmap.q i) := by
  rw [bigmaskGet_iff hr, bitmapScan_isSome_iff_freeRun hr]
  by_cases hf : FreeRun bmap r
  · exact iff_of_true (iff_of_true (Or.inl hf) hf) (Or.inl hf)
  · constructor
    · intro h
      refine Or.inr fun i hi hs => hf (h.mp (Or.inr ⟨i, hi, hs⟩))
    · rintro (h | h)
      · exact absurd h hf
      · refine iff_of_false ?_ hf
        rintro (h' | ⟨i, hi, hs⟩)
        · exact hf h'
        · exact h i hi hs

theorem bigmaskGet_agrees_iff_full :
    ((bigmaskGet 1 bmapReserved).getLsbD 10 = true ↔
        (bitmapScan bmapReserved 10 bmapElements 0).isSome = true) ↔
      FreeRun bmapReserved 10 ∨ ∀ i, i < 8 → ¬ShiftHits 1 (bmapReserved.q i) :=
  bigmaskGet_agrees_iff 1 bmapReserved 10 (by decide)

/-- With the shift count taken modulo 32, a full segment is reported as wholly free. -/
theorem bigmaskGet_full_segment :
    ¬((bigmaskGet 1 bmapReserved).getLsbD 10 = true ↔
      (bitmapScan bmapReserved 10 bmapElements 0).isSome = true) := by
  decide

end Hammer2
