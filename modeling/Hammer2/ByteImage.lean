import Mathlib.Tactic

namespace ByteImage

/-- A block of bytes, addressed by offset. -/
abbrev Image := Nat → BitVec 8

/-- The little-endian value of the `n` bytes from `off` on. -/
def getLE (img : Image) (off : Nat) : Nat → Nat
  | 0 => 0
  | n + 1 => (img off).toNat + 256 * getLE img (off + 1) n

/-- Stores the low `n` bytes of `v` from `off` on. -/
def setLE (img : Image) (off n v : Nat) : Image := fun i =>
  if off ≤ i ∧ i < off + n then BitVec.ofNat 8 (v / 256 ^ (i - off)) else img i

/-- The `len` bytes from `off` on. -/
def slice (img : Image) (off len : Nat) : List (BitVec 8) :=
  (List.range len).map fun i => img (off + i)

theorem getLE_congr {img img' : Image} {off n : Nat}
    (h : ∀ i, off ≤ i → i < off + n → img i = img' i) : getLE img off n = getLE img' off n := by
  induction n generalizing off with
  | zero => rfl
  | succ n ih =>
    have hrest : getLE img (off + 1) n = getLE img' (off + 1) n :=
      ih fun i h1 h2 => h i (by omega) (by omega)
    simp only [getLE, hrest, h off (by omega) (by omega)]

theorem getLE_lt (img : Image) (off n : Nat) : getLE img off n < 256 ^ n := by
  induction n generalizing off with
  | zero => simp [getLE]
  | succ n ih =>
    have hbyte : (img off).toNat < 256 := (img off).isLt
    have hrest := ih (off + 1)
    have hpow : 256 ^ (n + 1) = 256 * 256 ^ n := Nat.pow_succ'
    rw [getLE, hpow]
    omega

theorem setLE_of_outside {img : Image} {off n v i : Nat} (h : i < off ∨ off + n ≤ i) :
    setLE img off n v i = img i := by
  unfold setLE
  rw [if_neg (by omega)]

theorem getLE_setLE_of_disjoint {img : Image} {off n v off' m : Nat}
    (h : off' + m ≤ off ∨ off + n ≤ off') :
    getLE (setLE img off n v) off' m = getLE img off' m :=
  getLE_congr fun i h1 h2 => setLE_of_outside (by omega)

theorem slice_setLE_of_disjoint {img : Image} {off n v off' len : Nat}
    (h : off' + len ≤ off ∨ off + n ≤ off') :
    slice (setLE img off n v) off' len = slice img off' len := by
  refine List.map_congr_left fun i hi => ?_
  have hlt := List.mem_range.mp hi
  exact setLE_of_outside (by omega)

/-- A stored number is read back, up to the width it was stored with. -/
theorem getLE_setLE_self (img : Image) (off n v : Nat) :
    getLE (setLE img off n v) off n = v % 256 ^ n := by
  induction n generalizing img off v with
  | zero => simp [getLE, Nat.mod_one]
  | succ n ih =>
    have htail : getLE (setLE img off (n + 1) v) (off + 1) n = (v / 256) % 256 ^ n := by
      rw [← ih img (off + 1) (v / 256)]
      refine getLE_congr fun i h1 h2 => ?_
      have he : v / 256 ^ (i - off) = v / 256 / 256 ^ (i - (off + 1)) := by
        rw [Nat.div_div_eq_div_mul, ← Nat.pow_succ', show (i - (off + 1)).succ = i - off by omega]
      simp only [setLE]
      rw [if_pos (by omega), if_pos (by omega), he]
    have hhead : setLE img off (n + 1) v off = BitVec.ofNat 8 v := by
      simp [setLE]
    have hpow : 256 ^ (n + 1) = 256 * 256 ^ n := Nat.pow_succ'
    rw [getLE, htail, hhead, BitVec.toNat_ofNat, hpow, Nat.mod_mul]

end ByteImage
