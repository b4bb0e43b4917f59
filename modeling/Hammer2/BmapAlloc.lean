import Hammer2.Bmap

namespace Hammer2

inductive FreemapError where
  | enospc
  | panic
deriving DecidableEq, Repr

/-- `KKASSERT`: a failed assertion panics. -/
def kkassert (p : Prop) [Decidable p] : Except FreemapError Unit :=
  if p then .ok () else .error .panic

/-- `HAMMER2_BREF_TYPE_DATA` -/
def brefTypeData : Nat := 3

/-- Bits of a bitmap word that an allocation of the given radix occupies. -/
def bmradix (radix : Nat) : Nat :=
  if radix ≤ freemapBlockRadix then 2 else 2 <<< (radix - freemapBlockRadix)

def bmmask (radix : Nat) : BitVec 64 :=
  if bmradix radix = bmapBitsPerElement then BitVec.allOnes 64
  else BitPair.ones 64 (bmradix radix)

/-- The position chosen for an allocation, with the linear iterator it leaves behind. -/
structure Slot where
  i : Nat
  j : Nat
  offset : Nat
  linear : Nat

/-- The inner loop of the general element scan. -/
def elementScan (x : BitVec 64) (step : Nat) : Nat → BitVec 64 → Nat → Option Nat
  | 0, _, _ => none
  | fuel + 1, mask, j =>
    if j < bmapBitsPerElement then
      if x &&& mask = 0 then some j else elementScan x step fuel (mask <<< step) (j + step)
    else none

/-- The general element scan over `bitmapq[i]`, `bitmapq[i + 1]`, … -/
def bitmapScan (bmap : BmapData) (radix : Nat) : Nat → Nat → Option (Nat × Nat)
  | 0, _ => none
  | fuel + 1, i =>
    if i < bmapElements then
      match elementScan (bmap.q i) (bmradix radix) 32 (bmmask radix) 0 with
      | some j => some (i, j)
      | none => bitmapScan bmap radix fuel (i + 1)
    else none

/-- The starting point that `sub_key` selects for whole data blocks. -/
def subKeySlot (bmap : BmapData) (cls subKey radix : Nat) :
    Except FreemapError (Option (Nat × Nat)) := do
  if cls / 256 = brefTypeData ∧ freemapBlockRadix ≤ radix then
    let i := subKey % segSize / (segSize / bmapElements)
    let j := subKey % bmapIndexSize / (bmapIndexSize / bmapBlocksPerElement) * 2
    kkassert (i < bmapElements)
    kkassert (j < 2 * bmapBlocksPerElement)
    kkassert (j + bmradix radix ≤ bmapBitsPerElement)
    if bmap.q i &&& (bmmask radix <<< j) = 0 then return some (i, j) else return none
  else return none

def linearSlot (bmap : BmapData) (radix : Nat) : Except FreemapError Slot := do
  let size := 1 <<< radix
  kkassert (bmap.linear + size ≤ segSize)
  kkassert (bmap.linear % allocMin = 0)
  return ⟨bmap.linear / (segSize / bmapElements), bmap.linear / (freemapBlockSize / 2) &&& 62,
    bmap.linear, bmap.linear + size⟩

def bitmapSlot (bmap : BmapData) (cls subKey radix : Nat) : Except FreemapError Slot := do
  let size := 1 <<< radix
  let direct ← subKeySlot bmap cls subKey radix
  match direct.or (bitmapScan bmap radix bmapElements 0) with
  | none => throw .enospc
  | some (i, j) =>
    let offset := i * (segSize / bmapElements) + j * (freemapBlockSize / 2)
    return ⟨i, j, offset, if size % freemapBlockSize ≠ 0 then offset + size else bmap.linear⟩

/-- The linear iterator is used when it is mid-block and the request fits its block. -/
def LinearFits (bmap : BmapData) (radix : Nat) : Prop :=
  bmap.linear % freemapBlockSize + 1 <<< radix ≤ freemapBlockSize ∧
    bmap.linear % freemapBlockSize ≠ 0 ∧ bmap.linear < segSize

instance (bmap : BmapData) (radix : Nat) : Decidable (LinearFits bmap radix) :=
  inferInstanceAs (Decidable (_ ∧ _ ∧ _))

/-- Bitmap-granular size of the change an allocation makes. -/
def bgsize (bmap : BmapData) (radix : Nat) (slot : Slot) : Nat :=
  if radix < freemapBlockRadix then
    if bmap.q slot.i &&& (bmmask radix <<< slot.j) ≠ 0 then 0 else freemapBlockSize
  else 1 <<< radix

def allocSlot (bmap : BmapData) (cls subKey radix : Nat) : Except FreemapError Slot :=
  if LinearFits bmap radix then linearSlot bmap radix else bitmapSlot bmap cls subKey radix

/-- `hammer2_bmap_alloc`: the updated segment, the offset in it and the size charged to
`allocator_free`. -/
def bmapAlloc (bmap : BmapData) (cls subKey radix : Nat) :
    Except FreemapError (BmapData × Nat × Nat) := do
  let slot ← allocSlot bmap cls subKey radix
  kkassert (slot.i < bmapElements)
  let bg := bgsize bmap radix slot
  let marked := bmap.setq slot.i (bmap.q slot.i ||| (bmmask radix <<< slot.j))
  return ({ marked with
    linear := slot.linear
    cls := if bmap.cls = 0 then cls else bmap.cls
    avail := subU32 bmap.avail bg }, slot.offset, bg)

/-- Number of 16KB blocks an allocation of the given radix covers. -/
def blockCount (radix : Nat) : Nat :=
  if radix < freemapBlockRadix then 1 else 1 <<< (radix - freemapBlockRadix)

@[simp]
theorem kkassert_eq_ok {p : Prop} [Decidable p] {u : Unit} : kkassert p = .ok u ↔ p := by
  unfold kkassert
  split <;> simp_all

theorem except_bind_eq_ok {ε α β : Type} {x : Except ε α} {f : α → Except ε β} {b : β} :
    (x >>= f) = .ok b ↔ ∃ a, x = .ok a ∧ f a = .ok b := by
  cases x <;> simp [bind, Except.bind]

theorem blockCount_cases {radix : Nat} (hr : radix ≤ 16) :
    blockCount radix = 1 ∨ blockCount radix = 2 ∨ blockCount radix = 4 := by
  unfold blockCount freemapBlockRadix
  interval_cases radix <;> simp

theorem blockCount_of_lt {radix : Nat} (hr : radix < 14) : blockCount radix = 1 := by
  unfold blockCount freemapBlockRadix
  rw [if_pos hr]

theorem blockCount_mul_of_le {radix : Nat} (h14 : 14 ≤ radix) (hr : radix ≤ 16) :
    blockCount radix * 16384 = 2 ^ radix := by
  unfold blockCount freemapBlockRadix
  interval_cases radix <;> rfl

theorem two_pow_le_of_lt {radix : Nat} (hr : radix < 14) : 2 ^ radix ≤ 8192 := by
  calc 2 ^ radix ≤ 2 ^ 13 := Nat.pow_le_pow_right (by omega) (by omega)
    _ = 8192 := rfl

theorem bmradix_eq {radix : Nat} (hr : radix ≤ 16) : bmradix radix = 2 * blockCount radix := by
  unfold bmradix blockCount freemapBlockRadix
  interval_cases radix <;> rfl

theorem bmmask_shiftLeft {radix : Nat} (hr : radix ≤ 16) (k : Nat) :
    bmmask radix <<< (2 * k) = BitPair.run 64 k (blockCount radix) := by
  have hc := blockCount_cases hr
  unfold bmmask
  rw [bmradix_eq hr, if_neg (by unfold bmapBitsPerElement; omega)]
  rfl

theorem run_shiftLeft (k c : Nat) : BitPair.run 64 k c <<< (2 * c) = BitPair.run 64 (k + c) c := by
  unfold BitPair.run
  rw [← BitVec.shiftLeft_add]
  congr 1
  omega

/-- The element scan returns the first aligned run of clear pairs. -/
theorem elementScan_some {x : BitVec 64} {c fuel t j : Nat}
    (h : elementScan x (2 * c) fuel (BitPair.run 64 (c * t) c) (2 * (c * t)) = some j) :
    ∃ t', j = 2 * (c * t') ∧ t ≤ t' ∧ c * t' < 32 ∧ x &&& BitPair.run 64 (c * t') c = 0 ∧
      ∀ m, t ≤ m → m < t' → x &&& BitPair.run 64 (c * m) c ≠ 0 := by
  induction fuel generalizing t with
  | zero => simp [elementScan] at h
  | succ fuel ih =>
    unfold elementScan at h
    split at h
    next hj =>
      split at h
      next hz =>
        cases Option.some.inj h
        exact ⟨t, rfl, le_rfl, by unfold bmapBitsPerElement at hj; omega, hz,
          fun m h1 h2 => by omega⟩
      next hnz =>
        rw [run_shiftLeft, show c * t + c = c * (t + 1) by ring,
          show 2 * (c * t) + 2 * c = 2 * (c * (t + 1)) by ring] at h
        obtain ⟨t', hj', hle, hlt, hzero, hbefore⟩ := ih h
        refine ⟨t', hj', by omega, hlt, hzero, ?_⟩
        intro m h1 h2
        rcases Nat.eq_or_lt_of_le h1 with heq | hgt
        · subst heq; exact hnz
        · exact hbefore m hgt h2
    next => simp at h

theorem elementScan_none {x : BitVec 64} {c fuel t : Nat}
    (h : elementScan x (2 * c) fuel (BitPair.run 64 (c * t) c) (2 * (c * t)) = none) :
    ∀ m, t ≤ m → m < t + fuel → c * m < 32 → x &&& BitPair.run 64 (c * m) c ≠ 0 := by
  induction fuel generalizing t with
  | zero => intro m h1 h2; omega
  | succ fuel ih =>
    unfold elementScan at h
    intro m h1 h2 hm
    have hmono : c * t ≤ c * m := Nat.mul_le_mul_left c h1
    split at h
    next hj =>
      split at h
      next => simp at h
      next hnz =>
        rw [run_shiftLeft, show c * t + c = c * (t + 1) by ring,
          show 2 * (c * t) + 2 * c = 2 * (c * (t + 1)) by ring] at h
        rcases Nat.eq_or_lt_of_le h1 with heq | hgt
        · subst heq; exact hnz
        · exact ih h m hgt (by omega) hm
    next hj => unfold bmapBitsPerElement at hj; omega

theorem bitmapScan_some {bmap : BmapData} {radix fuel i i' j : Nat}
    (h : bitmapScan bmap radix fuel i = some (i', j)) :
    i ≤ i' ∧ i' < 8 ∧
      elementScan (bmap.q i') (bmradix radix) 32 (bmmask radix) 0 = some j ∧
      ∀ m, i ≤ m → m < i' → elementScan (bmap.q m) (bmradix radix) 32 (bmmask radix) 0 = none := by
  induction fuel generalizing i with
  | zero => simp [bitmapScan] at h
  | succ fuel ih =>
    unfold bitmapScan at h
    split at h
    next hi =>
      cases he : elementScan (bmap.q i) (bmradix radix) 32 (bmmask radix) 0 with
      | some j' =>
        rw [he] at h
        obtain ⟨rfl, rfl⟩ := Prod.mk.inj (Option.some.inj h)
        exact ⟨le_rfl, hi, he, fun m h1 h2 => by omega⟩
      | none =>
        rw [he] at h
        obtain ⟨hle, hlt, hsome, hbefore⟩ := ih h
        refine ⟨by omega, hlt, hsome, ?_⟩
        intro m h1 h2
        rcases Nat.eq_or_lt_of_le h1 with heq | hgt
        · subst heq; exact he
        · exact hbefore m hgt h2
    next => simp at h

theorem elementScan_zero_eq {x : BitVec 64} {radix : Nat} (hr : radix ≤ 16) :
    elementScan x (bmradix radix) 32 (bmmask radix) 0 =
      elementScan x (2 * blockCount radix) 32
        (BitPair.run 64 (blockCount radix * 0) (blockCount radix))
        (2 * (blockCount radix * 0)) := by
  rw [bmradix_eq hr, ← bmmask_shiftLeft hr]
  simp

/-- The general scan finds a run of free blocks inside one bitmap word; for a fragment it finds
the lowest free block of the segment. -/
theorem bitmapScan_spec {bmap : BmapData} {radix i j : Nat} (hr : radix ≤ 16)
    (h : bitmapScan bmap radix bmapElements 0 = some (i, j)) :
    ∃ k, j = 2 * k ∧ i < 8 ∧ k + blockCount radix ≤ 32 ∧
      (∀ b, 32 * i + k ≤ b → b < 32 * i + k + blockCount radix → bmap.blk b = 0) ∧
      (radix < 14 → ∀ b, b < 32 * i + k → bmap.blk b ≠ 0) := by
  obtain ⟨_, hi, hsome, hnone⟩ := bitmapScan_some h
  rw [elementScan_zero_eq hr] at hsome
  obtain ⟨t, hj, _, ht, hzero, hbefore⟩ := elementScan_some hsome
  have hc := blockCount_cases hr
  have hfit : blockCount radix * t + blockCount radix ≤ 32 := by
    rcases hc with hc | hc | hc <;> rw [hc] at ht ⊢ <;> omega
  refine ⟨blockCount radix * t, hj, hi, hfit,
    (q_and_run_eq_zero_iff hfit (by omega)).mp hzero, ?_⟩
  intro hr' b hb
  have hone := blockCount_of_lt hr'
  have hword : bmap.q (b / 32) &&& BitPair.run 64 (b % 32) 1 ≠ 0 := by
    by_cases hbi : b / 32 = i
    · have hb' := hbefore (b % 32) (by omega) (by rw [hone] at hb; omega)
      rw [hone, one_mul, ← hbi] at hb'
      exact hb'
    · have hm := hnone (b / 32) (by omega) (by omega)
      rw [elementScan_zero_eq hr, hone] at hm
      simpa using elementScan_none hm (b % 32) (by omega) (by omega) (by omega)
  intro hzero
  apply hword
  rw [q_and_run_eq_zero_iff (by omega) (by omega)]
  intro b' h1 h2
  rwa [show b' = b by omega]

theorem subKeySlot_spec {bmap : BmapData} {cls subKey radix i j : Nat} (hr : radix ≤ 16)
    (h : subKeySlot bmap cls subKey radix = .ok (some (i, j))) :
    14 ≤ radix ∧ ∃ k, j = 2 * k ∧ i < 8 ∧ k + blockCount radix ≤ 32 ∧
      ∀ b, 32 * i + k ≤ b → b < 32 * i + k + blockCount radix → bmap.blk b = 0 := by
  have hc := blockCount_cases hr
  unfold subKeySlot at h
  split at h
  next hd =>
    simp only [except_bind_eq_ok, kkassert_eq_ok] at h
    obtain ⟨_, hi, _, _, _, hfit, h⟩ := h
    split at h
    next hz =>
      simp only [pure, Except.pure, Except.ok.injEq, Option.some.injEq, Prod.mk.injEq] at h
      obtain ⟨rfl, rfl⟩ := h
      rw [bmradix_eq hr] at hfit
      unfold bmapBitsPerElement at hfit
      refine ⟨hd.2, _, Nat.mul_comm _ 2, hi, by omega, ?_⟩
      rw [Nat.mul_comm _ 2, bmmask_shiftLeft hr] at hz
      exact (q_and_run_eq_zero_iff (by omega) (by omega)).mp hz
    next => simp [pure, Except.pure] at h
  next => simp [pure, Except.pure] at h

/-- What a slot taken from the bitmap looks like. -/
theorem bitmapSlot_spec {bmap : BmapData} {cls subKey radix : Nat} {slot : Slot} (hr : radix ≤ 16)
    (h : bitmapSlot bmap cls subKey radix = .ok slot) :
    ∃ k, slot.j = 2 * k ∧ slot.i < 8 ∧ k + blockCount radix ≤ 32 ∧
      slot.offset = 16384 * (32 * slot.i + k) ∧
      slot.linear = (if radix < 14 then slot.offset + 2 ^ radix else bmap.linear) ∧
      (∀ b, 32 * slot.i + k ≤ b → b < 32 * slot.i + k + blockCount radix → bmap.blk b = 0) ∧
      (radix < 14 → ∀ b, b < 32 * slot.i + k → bmap.blk b ≠ 0) := by
  unfold bitmapSlot at h
  obtain ⟨direct, hdirect, h⟩ := except_bind_eq_ok.mp h
  cases hpick : direct.or (bitmapScan bmap radix bmapElements 0) with
  | none => simp [hpick, throw, throwThe, MonadExceptOf.throw] at h
  | some pick =>
    obtain ⟨i, j⟩ := pick
    simp only [hpick, pure, Except.pure, Except.ok.injEq] at h
    subst h
    have hmod : (1 <<< radix % freemapBlockSize ≠ 0) ↔ radix < 14 := by
      unfold freemapBlockSize
      interval_cases radix <;> decide
    have hoff : ∀ k, j = 2 * k → i * (segSize / bmapElements) + j * (freemapBlockSize / 2) =
        16384 * (32 * i + k) := by
      intro k hk
      simp only [segSize, bmapElements, freemapBlockSize]
      omega
    have hsize : 1 <<< radix = 2 ^ radix := by simp [Nat.shiftLeft_eq]
    simp only [hmod]
    cases direct with
    | none =>
      obtain ⟨k, hj, hi, hfit, hfree, hlow⟩ := bitmapScan_spec hr (by simpa using hpick)
      exact ⟨k, hj, hi, hfit, hoff k hj, by rw [hsize], hfree, hlow⟩
    | some pick =>
      cases Option.some.inj hpick
      obtain ⟨h14, k, hj, hi, hfit, hfree⟩ := subKeySlot_spec hr hdirect
      exact ⟨k, hj, hi, hfit, hoff k hj, by rw [hsize], hfree, fun h => by omega⟩

theorem and_sixtyTwo (n : Nat) : n &&& 62 = 2 * (n / 2 % 32) := by
  apply Nat.eq_of_testBit_eq
  intro i
  cases i with
  | zero => simp
  | succ i =>
    rw [Nat.testBit_and, Nat.testBit_succ, Nat.testBit_succ, Nat.testBit_succ,
      Nat.mul_div_cancel_left _ (by omega : 0 < 2), show 62 / 2 = 2 ^ 5 - 1 by rfl,
      Nat.testBit_two_pow_sub_one, show (32 : Nat) = 2 ^ 5 by rfl, Nat.testBit_mod_two_pow,
      Bool.and_comm]

theorem linearSlot_spec {bmap : BmapData} {radix : Nat} {slot : Slot}
    (hf : LinearFits bmap radix) (h : linearSlot bmap radix = .ok slot) :
    bmap.linear % 16384 ≠ 0 ∧ bmap.linear < 4194304 ∧ bmap.linear % 16384 + 2 ^ radix ≤ 16384 ∧
      slot.j = 2 * (bmap.linear / 16384 % 32) ∧ slot.i = bmap.linear / 16384 / 32 ∧
      slot.offset = bmap.linear ∧ slot.linear = bmap.linear + 2 ^ radix := by
  unfold LinearFits freemapBlockSize segSize at hf
  have hsize : 1 <<< radix = 2 ^ radix := by simp [Nat.shiftLeft_eq]
  unfold linearSlot at h
  simp only [except_bind_eq_ok, kkassert_eq_ok, pure, Except.pure, Except.ok.injEq] at h
  obtain ⟨_, _, _, _, rfl⟩ := h
  rw [hsize] at hf
  refine ⟨hf.2.1, hf.2.2, hf.1, ?_, ?_, rfl, by rw [hsize]⟩
  · rw [and_sixtyTwo]
    simp only [freemapBlockSize]
    omega
  · simp only [segSize, bmapElements]
    omega

/-- How a successful `hammer2_bmap_alloc` moved the segment from `bmap` to `bmap'`. -/
structure AllocEffect (bmap bmap' : BmapData) (radix off : Nat) : Prop where
  marked : ∀ b, b < 256 → bmap'.blk b =
    if off / 16384 ≤ b ∧ b < off / 16384 + blockCount radix then 3 else bmap.blk b
  fits : off + 2 ^ radix ≤ 4194304
  shape : (14 ≤ radix → off % 16384 = 0) ∧ (radix < 14 → off % 16384 + 2 ^ radix ≤ 16384)
  origin :
    (bmap.linear % 16384 ≠ 0 ∧ radix < 14 ∧ off = bmap.linear ∧ bmap'.linear = off + 2 ^ radix) ∨
    (off % 16384 = 0 ∧
      (∀ b, off / 16384 ≤ b → b < off / 16384 + blockCount radix → bmap.blk b = 0) ∧
      bmap'.linear = (if radix < 14 then off + 2 ^ radix else bmap.linear) ∧
      (radix < 14 → ∀ b, b < off / 16384 → bmap.blk b ≠ 0))

theorem radix_lt_of_two_pow_lt {radix : Nat} (h : 2 ^ radix < 16384) : radix < 14 := by
  by_contra hge
  have := Nat.pow_le_pow_right (n := 2) (by omega) (show 14 ≤ radix by omega)
  omega

theorem linear_allocEffect {bmap bmap' : BmapData} {radix : Nat} {slot : Slot} (hr : radix ≤ 16)
    (hf : LinearFits bmap radix) (h : linearSlot bmap radix = .ok slot)
    (hblk : ∀ b, bmap'.blk b =
      (bmap.setq slot.i (bmap.q slot.i ||| (bmmask radix <<< slot.j))).blk b)
    (hlin : bmap'.linear = slot.linear) : AllocEffect bmap bmap' radix slot.offset := by
  obtain ⟨hmid, hlt, hfit, hj, hi, hoff, hlin'⟩ := linearSlot_spec hf h
  have hr14 : radix < 14 := radix_lt_of_two_pow_lt (by omega)
  have hone := blockCount_of_lt hr14
  rw [hoff]
  refine ⟨?_, by omega, ⟨by omega, fun _ => hfit⟩, Or.inl ⟨hmid, hr14, rfl, by omega⟩⟩
  intro b hb
  rw [hblk, hj, hi, bmmask_shiftLeft hr, hone,
    setq_or_run_blk _ (by omega) (by omega) (by omega) hb,
    show 32 * (bmap.linear / 16384 / 32) + bmap.linear / 16384 % 32 = bmap.linear / 16384 by omega]

theorem bitmap_allocEffect {bmap bmap' : BmapData} {cls subKey radix : Nat} {slot : Slot}
    (hr : radix ≤ 16) (h : bitmapSlot bmap cls subKey radix = .ok slot)
    (hblk : ∀ b, bmap'.blk b =
      (bmap.setq slot.i (bmap.q slot.i ||| (bmmask radix <<< slot.j))).blk b)
    (hlin : bmap'.linear = slot.linear) : AllocEffect bmap bmap' radix slot.offset := by
  obtain ⟨k, hj, hi, hfit, hoff, hlin', hfree, hlow⟩ := bitmapSlot_spec hr h
  have hc := blockCount_cases hr
  have hdiv : slot.offset / 16384 = 32 * slot.i + k := by omega
  have hsize : 2 ^ radix ≤ blockCount radix * 16384 := by
    by_cases h14 : radix < 14
    · have := two_pow_le_of_lt h14
      omega
    · exact (blockCount_mul_of_le (by omega) hr).ge
  have hsmall : radix < 14 → 2 ^ radix ≤ 8192 := two_pow_le_of_lt
  refine ⟨?_, by omega, ⟨fun _ => by omega, fun h14 => by have := hsmall h14; omega⟩,
    Or.inr ⟨by omega, ?_, by rw [hlin, hlin'], ?_⟩⟩
  · intro b hb
    rw [hblk, hj, bmmask_shiftLeft hr, setq_or_run_blk _ hi hfit (by omega) hb, hdiv]
  · rw [hdiv]
    exact hfree
  · rw [hdiv]
    exact hlow

/-- The specification of `hammer2_bmap_alloc` on success. -/
theorem bmapAlloc_allocEffect {bmap bmap' : BmapData} {cls subKey radix off bg : Nat}
    (hr : radix ≤ 16) (h : bmapAlloc bmap cls subKey radix = .ok (bmap', off, bg)) :
    AllocEffect bmap bmap' radix off := by
  unfold bmapAlloc at h
  obtain ⟨slot, hslot, h⟩ := except_bind_eq_ok.mp h
  simp only [except_bind_eq_ok, kkassert_eq_ok, pure, Except.pure, Except.ok.injEq,
    Prod.mk.injEq] at h
  obtain ⟨_, _, rfl, rfl, _⟩ := h
  unfold allocSlot at hslot
  split at hslot
  next hf => exact linear_allocEffect hr hf hslot (fun _ => rfl) rfl
  next => exact bitmap_allocEffect hr hslot (fun _ => rfl) rfl

end Hammer2
