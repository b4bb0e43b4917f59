import Hammer2.ByteImage

/-! Memory of a fixed size, whose accesses outside of it have no result. -/

open ByteImage

structure ByteBuffer where
  size : Nat
  bytes : Image

namespace ByteBuffer

def load (b : ByteBuffer) (i : Nat) : Option (BitVec 8) :=
  if i < b.size then some (b.bytes i) else none

/-- The little-endian word of `n` bytes at `i`. -/
def loadWord (b : ByteBuffer) (i n : Nat) : Option Nat :=
  if i + n ≤ b.size then some (getLE b.bytes i n) else none

def store (b : ByteBuffer) (i : Nat) (v : BitVec 8) : Option ByteBuffer :=
  if i < b.size then some ⟨b.size, Function.update b.bytes i v⟩ else none

def storeWord (b : ByteBuffer) (i n v : Nat) : Option ByteBuffer :=
  if i + n ≤ b.size then some ⟨b.size, setLE b.bytes i n v⟩ else none

/-- The image with the `n` bytes of `src` from `i` on standing from `j` on. -/
def splice (dst src : Image) (i j n : Nat) : Image := fun k =>
  if j ≤ k ∧ k < j + n then src (i + (k - j)) else dst k

/-- `n` bytes of `src` from `i` on are read, and then stored from `j` on. -/
def copyFrom (b src : ByteBuffer) (i j n : Nat) : Option ByteBuffer :=
  if i + n ≤ src.size ∧ j + n ≤ b.size then some ⟨b.size, splice b.bytes src.bytes i j n⟩ else none

variable {b src b' : ByteBuffer} {dst img : Image} {i j k n v : Nat} {x : BitVec 8}

theorem load_eq (h : i < b.size) : b.load i = some (b.bytes i) := if_pos h

theorem loadWord_eq (h : i + n ≤ b.size) : b.loadWord i n = some (getLE b.bytes i n) := if_pos h

theorem store_eq (h : i < b.size) :
    b.store i x = some ⟨b.size, Function.update b.bytes i x⟩ := if_pos h

theorem storeWord_eq (h : i + n ≤ b.size) :
    b.storeWord i n v = some ⟨b.size, setLE b.bytes i n v⟩ := if_pos h

theorem copyFrom_eq (hi : i + n ≤ src.size) (hj : j + n ≤ b.size) :
    b.copyFrom src i j n = some ⟨b.size, splice b.bytes src.bytes i j n⟩ := if_pos ⟨hi, hj⟩

theorem splice_inside (h1 : j ≤ k) (h2 : k < j + n) :
    splice dst img i j n k = img (i + (k - j)) := if_pos ⟨h1, h2⟩

theorem splice_outside (h : k < j ∨ j + n ≤ k) : splice dst img i j n k = dst k :=
  if_neg fun hk => by omega

/-- A copy within one image whose places do not overlap. -/
theorem splice_self (hij : i + n ≤ j) (h1 : j ≤ k) (h2 : k < j + n) :
    splice dst dst i j n k = splice dst dst i j n (k - (j - i)) := by
  rw [splice_inside h1 h2, splice_outside (Or.inl (by omega))]
  congr 1
  omega

theorem getLE_eq_iff {img img' : Image} {off off' : Nat} :
    getLE img off n = getLE img' off' n ↔ ∀ i < n, img (off + i) = img' (off' + i) := by
  induction n generalizing off off' with
  | zero => exact ⟨fun _ i hi => absurd hi (Nat.not_lt_zero i), fun _ => rfl⟩
  | succ n ih =>
    have hb : (img off).toNat < 256 := (img off).isLt
    have hb' : (img' off').toNat < 256 := (img' off').isLt
    have hrest := @ih (off + 1) (off' + 1)
    rw [getLE, getLE]
    refine ⟨fun h i hi => ?_, fun h => ?_⟩
    · have htail := hrest.mp (by omega)
      rcases Nat.eq_zero_or_pos i with rfl | hpos
      · have hnat : (img off).toNat = (img' off').toNat := by omega
        exact BitVec.eq_of_toNat_eq (by simpa using hnat)
      · have hi' := htail (i - 1) (by omega)
        rw [show off + 1 + (i - 1) = off + i by omega, show off' + 1 + (i - 1) = off' + i by omega]
          at hi'
        exact hi'
    · have htail := hrest.mpr fun i hi => by
        have hi' := h (i + 1) (by omega)
        rw [show off + 1 + i = off + (i + 1) by omega, show off' + 1 + i = off' + (i + 1) by omega]
        exact hi'
      have hhead := h 0 (by omega)
      rw [Nat.add_zero, Nat.add_zero] at hhead
      rw [htail, hhead]

/-- The bits of a word are those of its bytes. -/
theorem getLE_testBit {img : Image} {off : Nat} (hi : i < n) (hk : k < 8) :
    (getLE img off n).testBit (8 * i + k) = (img (off + i)).getLsbD k := by
  induction n generalizing off i with
  | zero => exact absurd hi (Nat.not_lt_zero i)
  | succ n ih =>
    have hb : (img off).toNat < 2 ^ 8 := (img off).isLt
    rw [getLE, show (256 : Nat) = 2 ^ 8 from rfl, Nat.add_comm,
      Nat.testBit_two_pow_mul_add _ hb]
    rcases Nat.eq_zero_or_pos i with rfl | hpos
    · rw [if_pos (by omega)]
      simp [BitVec.getLsbD]
    · rw [if_neg (by omega)]
      have hrest := @ih (i - 1) (off + 1) (by omega)
      rw [show off + 1 + (i - 1) = off + i by omega] at hrest
      rw [← hrest]
      congr 1
      omega

end ByteBuffer
