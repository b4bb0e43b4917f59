import Hammer2.BmapAlloc

namespace Hammer2

def freemapCount : Nat := 256

def freemapLevel1Size : Nat := 1073741824

def zoneSize : Nat := 2147483648

def zoneSeg : Nat := 4194304

def pbufRadix : Nat := 16

/-- The fields of `hammer2_dev` that the freemap code reads. -/
structure Dev where
  allocatorBeg : Nat
  totalSize : Nat

/-- A level1 freemap leaf: 256 segments and the `bigmask` hint of its blockref. -/
structure Leaf where
  bmdata : Fin 256 → BmapData
  bigmask : BitVec 32

def Leaf.seg (leaf : Leaf) (n : Nat) : BmapData := leaf.bmdata (Fin.ofNat 256 n)

def Leaf.setSeg (leaf : Leaf) (n : Nat) (bmap : BmapData) : Leaf :=
  { leaf with bmdata := Function.update leaf.bmdata (Fin.ofNat 256 n) bmap }

def Leaf.setBigmask (leaf : Leaf) (bigmask : BitVec 32) : Leaf := { leaf with bigmask := bigmask }

theorem setBigmask_seg (leaf : Leaf) (bigmask : BitVec 32) (n : Nat) :
    (leaf.setBigmask bigmask).seg n = leaf.seg n := rfl

theorem setSeg_seg {leaf : Leaf} {n m : Nat} {bmap : BmapData} (hn : n < 256) (hm : m < 256) :
    (leaf.setSeg n bmap).seg m = if m = n then bmap else leaf.seg m := by
  change Function.update leaf.bmdata (Fin.ofNat 256 n) bmap (Fin.ofNat 256 m) = _
  by_cases h : m = n
  · rw [if_pos h, h, Function.update_self]
  · have hne : Fin.ofNat 256 m ≠ Fin.ofNat 256 n := by
      intro heq
      rw [Fin.ext_iff] at heq
      simp only [Fin.ofNat] at heq
      omega
    rw [if_neg h, Function.update_of_ne hne]
    rfl

/-- `H2FMBASE(key, HAMMER2_FREEMAP_LEVEL1_RADIX)`, which `H2FMZONEBASE` computes as well. -/
def h2fmBase (key : Nat) : Nat := key / freemapLevel1Size * freemapLevel1Size

def bmapReserved : BmapData := ⟨segSize, 0, 0, fun _ => BitVec.allOnes 64⟩

def bmapFree : BmapData := ⟨0, 0, segSize, fun _ => 0⟩

/-- Bounds of the area of the leaf at `key` that starts out free. -/
def freemapInitLokey (hmp : Dev) (key : Nat) : Nat :=
  max (max ((hmp.allocatorBeg + (segSize - 1)) / segSize * segSize) (h2fmBase key))
    (h2fmBase key + zoneSeg)

def freemapInitHikey (hmp : Dev) (key : Nat) : Nat :=
  if hmp.totalSize < key + freemapLevel1Size then hmp.totalSize / segSize * segSize
  else key + freemapLevel1Size

/-- `hammer2_freemap_init` on a zeroed leaf. -/
def freemapInit (hmp : Dev) (key : Nat) : Leaf :=
  { bmdata := fun n =>
      if key + n.val * segSize < freemapInitLokey hmp key ∨
          freemapInitHikey hmp key ≤ key + n.val * segSize then bmapReserved
      else bmapFree
    bigmask := BitVec.allOnes 32 }

/-- An allocation request as `hammer2_freemap_try_alloc` sees it for one leaf. -/
structure AllocRequest where
  type : Nat
  key : Nat
  radix : Nat
  bnext : Nat
  relaxed : Bool

def AllocRequest.cls (req : AllocRequest) : Nat := req.type * 256 + pbufRadix

/-- `availchk` -/
def Availchk (bmap : BmapData) (radix : Nat) : Prop :=
  bmap.avail ≠ 0 ∨ radix < freemapBlockRadix ∧ bmap.linear % freemapBlockSize ≠ 0

instance (bmap : BmapData) (radix : Nat) : Decidable (Availchk bmap radix) :=
  inferInstanceAs (Decidable (_ ∨ _ ∧ _))

/-- One attempt of the segment scan: the new leaf, the segment, the offset in it and the size. -/
def trySegment (leaf : Leaf) (req : AllocRequest) (n : Nat) :
    Except FreemapError (Leaf × Nat × Nat × Nat) :=
  if n < freemapCount ∧ Availchk (leaf.seg n) req.radix ∧
      ((leaf.seg n).cls = 0 ∨ (leaf.seg n).cls = req.cls ∨ req.relaxed) then
    (bmapAlloc (leaf.seg n) req.cls req.key req.radix).map
      fun (bmap', off, bg) => (leaf.setSeg n bmap', n, off, bg)
  else .error .enospc

/-- The scan of the 4MB entries, forwards and backwards from `start`. -/
def leafScan (leaf : Leaf) (req : AllocRequest) (start : Nat) :
    Nat → Nat → Except FreemapError (Leaf × Nat × Nat × Nat)
  | 0, _ => .error .enospc
  | fuel + 1, count =>
    if freemapCount ≤ start + count ∧ start < count then .error .enospc
    else
      match trySegment leaf req (start + count) with
      | .error .enospc =>
        match if start < count then .error .enospc else trySegment leaf req (start - count) with
        | .error .enospc => leafScan leaf req start fuel (count + 1)
        | result => result
      | result => result

inductive TryResult where
  | panic
  | enospc (leaf : Leaf)
  | ok (leaf : Leaf) (dataOff bgsize : Nat)

/-- `hammer2_freemap_try_alloc` on an existing leaf at `key`. -/
def tryAlloc (hmp : Dev) (key : Nat) (leaf : Leaf) (req : AllocRequest) : TryResult :=
  let start := (req.bnext - key) / segSize
  if leaf.bigmask.getLsbD req.radix = false then .enospc leaf
  else if ¬start < freemapCount then .panic
  else
    match leafScan leaf req start freemapCount 0 with
    | .error .panic => .panic
    | .error .enospc =>
      if start = 0 ∧ req.relaxed then
        .enospc (leaf.setBigmask (leaf.bigmask &&& ~~~(1#32 <<< req.radix)))
      else .enospc leaf
    | .ok (leaf', n, off, bg) =>
      let dataOff := key + n * segSize + off
      if hmp.allocatorBeg ≤ dataOff ∧ dataOff + 1 <<< req.radix ≤ hmp.totalSize ∧
          zoneSeg ≤ dataOff % zoneSize then .ok leaf' dataOff bg
      else .panic

theorem trySegment_ok {leaf leaf' : Leaf} {req : AllocRequest} {m n off bg : Nat}
    (h : trySegment leaf req m = .ok (leaf', n, off, bg)) :
    n < 256 ∧ ∃ bmap', leaf' = leaf.setSeg n bmap' ∧
      bmapAlloc (leaf.seg n) req.cls req.key req.radix = .ok (bmap', off, bg) := by
  unfold trySegment at h
  split at h
  next hc =>
    cases ha : bmapAlloc (leaf.seg m) req.cls req.key req.radix with
    | error e => simp [ha, Except.map] at h
    | ok res =>
      obtain ⟨bmap', off', bg'⟩ := res
      simp only [ha, Except.map, Except.ok.injEq, Prod.mk.injEq] at h
      obtain ⟨rfl, rfl, rfl, rfl⟩ := h
      exact ⟨hc.1, bmap', rfl, ha⟩
  next => simp at h

/-- The scan returns what one of its segments returned. -/
theorem leafScan_trySegment {leaf : Leaf} {req : AllocRequest} {start fuel count : Nat}
    {res : Leaf × Nat × Nat × Nat} (h : leafScan leaf req start fuel count = .ok res) :
    ∃ m, trySegment leaf req m = .ok res := by
  induction fuel generalizing count with
  | zero => simp [leafScan] at h
  | succ fuel ih =>
    unfold leafScan at h
    split at h
    next => simp at h
    next =>
      split at h
      next =>
        split at h
        next => exact ih h
        next hback =>
          split at h
          next => simp at h
          next => exact ⟨_, h⟩
      next => exact ⟨_, h⟩

/-- A successful allocation is a successful `hammer2_bmap_alloc` in one segment. -/
theorem tryAlloc_bmapAlloc {hmp : Dev} {key dataOff bg : Nat} {leaf leaf' : Leaf}
    {req : AllocRequest} (h : tryAlloc hmp key leaf req = .ok leaf' dataOff bg) :
    hmp.allocatorBeg ≤ dataOff ∧ dataOff + 2 ^ req.radix ≤ hmp.totalSize ∧
      ∃ n bmap' off, n < 256 ∧ leaf' = leaf.setSeg n bmap' ∧ dataOff = key + n * 4194304 + off ∧
        bmapAlloc (leaf.seg n) req.cls req.key req.radix = .ok (bmap', off, bg) := by
  unfold tryAlloc at h
  simp only at h
  split at h
  next => simp at h
  next =>
    split at h
    next => simp at h
    next =>
      split at h
      next => simp at h
      next => split at h <;> simp at h
      next leaf'' n off bg' hs =>
        split at h
        next hrange =>
          obtain ⟨m, hm⟩ := leafScan_trySegment hs
          obtain ⟨hn, bmap', hleaf, ha⟩ := trySegment_ok hm
          simp only [TryResult.ok.injEq] at h
          obtain ⟨rfl, rfl, rfl⟩ := h
          rw [Nat.shiftLeft_eq, one_mul] at hrange
          exact ⟨hrange.1, hrange.2.1, n, bmap', off, hn, hleaf, rfl, ha⟩
        next => simp at h

theorem tryAlloc_ok {hmp : Dev} {key dataOff bg : Nat} {leaf leaf' : Leaf} {req : AllocRequest}
    (hr : req.radix ≤ 16) (h : tryAlloc hmp key leaf req = .ok leaf' dataOff bg) :
    hmp.allocatorBeg ≤ dataOff ∧ dataOff + 2 ^ req.radix ≤ hmp.totalSize ∧
      ∃ n bmap' off, n < 256 ∧ leaf' = leaf.setSeg n bmap' ∧ dataOff = key + n * 4194304 + off ∧
        AllocEffect (leaf.seg n) bmap' req.radix off := by
  obtain ⟨hbeg, hend, n, bmap', off, hn, hleaf, hoff, ha⟩ := tryAlloc_bmapAlloc h
  exact ⟨hbeg, hend, n, bmap', off, hn, hleaf, hoff, bmapAlloc_allocEffect hr ha⟩

/-- A failed allocation changes no segment. -/
theorem tryAlloc_enospc {hmp : Dev} {key : Nat} {leaf leaf' : Leaf} {req : AllocRequest}
    (h : tryAlloc hmp key leaf req = .enospc leaf') : leaf'.bmdata = leaf.bmdata := by
  unfold tryAlloc at h
  simp only at h
  split at h
  next => cases h; rfl
  next =>
    split at h
    next => simp at h
    next =>
      split at h
      next => simp at h
      next =>
        split at h
        next => cases h; rfl
        next => cases h; rfl
      next => split at h <;> simp at h

/-- A 32MB volume as newfs lays it out: segments 6 and 7 are free. -/
def smallDev : Dev := ⟨20973568, 33554432⟩

def inodeRequest : AllocRequest := ⟨1, 0, 10, 25165824, false⟩

end Hammer2
