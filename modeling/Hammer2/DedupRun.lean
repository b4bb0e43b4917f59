import Hammer2.DedupMarks
import Hammer2.FreeSpace

namespace Hammer2

open ByteImage

/-- The dedup call that the bulkfree makes for a block after it has changed the state of the block. -/
inductive BulkCall where
  | delete (b : Nat)
  | assert (b : Nat)
deriving DecidableEq

def BulkCall.block : BulkCall → Nat
  | .delete b => b
  | .assert b => b

/-- The freemap, the buffers, the table, and what the bulkfree is about to do. It holds the leaf
of the block until then. -/
structure DedupSys where
  fm : Freemap
  io : IoDev
  table : DedupTable
  pending : Option BulkCall

/-- No bulkfree is at work on the leaf. -/
def DedupSys.unlocked (s : DedupSys) (idx : Nat) : Bool :=
  match s.pending with
  | none => true
  | some call => call.block / 65536 ≠ idx

/-- The dedup call of `h2_bulkfree_sync_adjust` for a block with the given states. -/
def bulkCall (m l : BitVec 2) (b : Nat) : Option BulkCall :=
  if m = 0 then if l = 2 then some (.assert b) else if l = 3 then some (.delete b) else none
  else none

/-- One step: a try of the allocator, `hammer2_freemap_adjust`, the bulkfree at one block, the call
that goes with it, and at the end of a segment, the removal of a destroyed chain, the buffers,
`hammer2_dedup_record`, `hammer2_dedup_clear` and `hammer2_dedup_lookup`. -/
inductive DedupAction where
  | alloc (t : Nat) (req : AllocRequest) (evict : Nat → Bool)
  | adjust (type dataOff radix : Nat)
  | pair (idx n i k : Nat) (m : BitVec 64)
  | call (t : Nat) (evict : Nat → Bool)
  | segment (idx n : Nat) (bmap : BmapData)
  | delete (t : Nat) (btype : BrefType) (dataOff bytes : Nat) (evict : Nat → Bool)
  | getblk (t : Nat) (op : IoDop) (dataOff : Nat) (junk : Image)
  | putblk (t pbase : Nat) (how : IoPut) (evict : Nat → Bool)
  | modify (pbase : Nat) (bytes : Nat → Option (BitVec 8))
  | record (now : BitVec 32) (chain : DataChain) (data : Image)
  | clear (now : BitVec 32)
  | lookup (t : Nat) (now : BitVec 32) (data : Image) (bytes : Nat) (evict : Nat → Nat → Bool)

/-- A try of `hammer2_freemap_alloc` with the marks for file data; the leaf stays locked for both. -/
def dedupAlloc (env : DedupEnv) (hmp : Dev) (t : Nat) (s : DedupSys) (req : AllocRequest)
    (evict : Nat → Bool) : Option DedupSys :=
  (freemapTryAlloc hmp s.fm req).bind fun
    | (fm, none) => some { s with fm := fm }
    | (fm, some e) =>
      if req.type = brefTypeData then
        (ioDedupSet t env.limit s.io (e.off + e.radix) evict).map fun io =>
          { s with fm := fm, io := io }
      else some { s with fm := fm }

/-- `hammer2_freemap_adjust` -/
def dedupAdjust (hmp : Dev) (s : DedupSys) (type dataOff radix : Nat) : Option DedupSys :=
  (freeRecover hmp ⟨s.fm, 0⟩ type dataOff radix).map fun st => { s with fm := st.fm }

/-- The bulkfree at block `k` of word `i` of a segment; `m` is its own word. -/
def dedupPair (s : DedupSys) (idx n i k : Nat) (m : BitVec 64) : Option DedupSys :=
  (s.fm idx).map fun leaf =>
    let live : BmapData := leaf.seg n
    let l : BitVec 64 := live.q i
    let st := syncPair i (2 * k) (m >>> (2 * k)) (l >>> (2 * k)) ⟨live, 0⟩
    { s with
      fm := Function.update s.fm idx (some (leaf.setSeg n st.live))
      pending := bulkCall (BitPair.pair m k) (BitPair.pair l k)
        (65536 * idx + 256 * n + 32 * i + k) }

/-- What the bulkfree had left to do for a block. -/
def dedupCall (env : DedupEnv) (t : Nat) (s : DedupSys) (evict : Nat → Bool) : Option DedupSys :=
  s.pending.bind fun
    | .delete b =>
      (ioDedupDelete t env.limit s.io .data (16384 * b + freemapBlockRadix) freemapBlockSize
        evict).map fun io => { s with io := io, pending := none }
    | .assert b =>
      (ioDedupAssert t env.limit s.io (16384 * b + freemapBlockRadix) freemapBlockSize evict).map
        fun io => { s with io := io, pending := none }

/-- The end of `h2_bulkfree_sync_adjust`. -/
def dedupSegment (s : DedupSys) (idx n : Nat) (bmap : BmapData) : Option DedupSys :=
  (s.fm idx).map fun leaf =>
    let live := syncLinear (leaf.seg n) bmap
    let leaf := (leaf.setSeg n live).setBigmask (BitVec.allOnes 32)
    { s with fm := Function.update s.fm idx (some leaf) }

def dedupStep (env : DedupEnv) (hmp : Dev) (s : DedupSys) : DedupAction → Option DedupSys
  | .alloc t req evict =>
    if (10 ≤ req.radix ∧ req.radix ≤ 16) ∧ s.unlocked (req.bnext / freemapLevel1Size) = true then
      dedupAlloc env hmp t s req evict
    else none
  | .adjust type dataOff radix =>
    if s.unlocked (dataOff / freemapLevel1Size) = true then dedupAdjust hmp s type dataOff radix else none
  | .pair idx n i k m =>
    if s.pending = none ∧ n < 256 ∧ i < 8 ∧ k < 32 then dedupPair s idx n i k m else none
  | .call t evict => dedupCall env t s evict
  | .segment idx n bmap => if s.pending = none ∧ n < 256 then dedupSegment s idx n bmap else none
  | .delete t btype dataOff bytes evict =>
    (ioDedupDelete t env.limit s.io btype dataOff bytes evict).map fun io => { s with io := io }
  | .getblk t op dataOff junk =>
    (ioGetblkLock t s.io op dataOff junk .none).map fun r => { s with io := r.1 }
  | .putblk t pbase how evict =>
    (ioPutblkLock t env.limit s.io pbase how evict).map fun io => { s with io := io }
  | .modify pbase bytes =>
    (ioModify s.io.cache pbase bytes).map fun cache => { s with io := { s.io with cache := cache } }
  | .record now chain data =>
    let (io, table) := dedupRecord env now s.io s.table chain data
    some { s with io := io, table := table }
  | .clear now => some { s with table := dedupClear now s.table }
  | .lookup t now data bytes evict =>
    (dedupLookup env t now s.io s.table data bytes evict).map fun (io, table, _) =>
      { s with io := io, table := table }

section Aligned

theorem bmapAlloc_aligned {bmap bmap' : BmapData} {cls subKey radix off bg : Nat}
    (hr : radix ≤ 16) (h : bmapAlloc bmap cls subKey radix = .ok (bmap', off, bg)) :
    off % 1024 = 0 := by
  unfold bmapAlloc at h
  obtain ⟨slot, hslot, h⟩ := except_bind_eq_ok.mp h
  simp only [except_bind_eq_ok, kkassert_eq_ok, pure, Except.pure, Except.ok.injEq,
    Prod.mk.injEq] at h
  obtain ⟨_, _, _, rfl, _⟩ := h
  unfold allocSlot at hslot
  split at hslot
  next hfits =>
    obtain ⟨-, -, -, -, -, hoff, -⟩ := linearSlot_spec hfits hslot
    unfold linearSlot at hslot
    simp only [except_bind_eq_ok, kkassert_eq_ok, allocMin] at hslot
    obtain ⟨_, _, _, hlinear, _⟩ := hslot
    rw [hoff]
    exact kkassert_eq_ok.mp hlinear
  next =>
    obtain ⟨k, -, -, -, hoff, -⟩ := bitmapSlot_spec hr hslot
    omega

theorem tryAlloc_aligned {hmp : Dev} {key dataOff bg : Nat} {leaf leaf' : Leaf} {req : AllocRequest}
    (hr : req.radix ≤ 16) (hkey : key % 1024 = 0)
    (h : tryAlloc hmp key leaf req = .ok leaf' dataOff bg) : dataOff % 1024 = 0 := by
  obtain ⟨-, -, n, bmap', off, -, -, hdata, ha⟩ := tryAlloc_bmapAlloc h
  have hoff := bmapAlloc_aligned hr ha
  omega

end Aligned

section FreemapEffects

variable {hmp : Dev} {fm fm' : Freemap}

/-- Blocks only become fully allocated, and only in one leaf. -/
structure Raised (hmp : Dev) (fm fm' : Freemap) (idx : Nat) : Prop where
  raised : ∀ b, fm'.blk hmp b = 3 ∨ fm'.blk hmp b = fm.blk hmp b
  other : ∀ b, b / 65536 ≠ idx → fm'.blk hmp b = fm.blk hmp b

theorem blk_update_of_ne {idx : Nat} {leaf : Leaf} {b : Nat} (hb : b / 65536 ≠ idx) :
    Freemap.blk hmp (Function.update fm idx (some leaf)) b = fm.blk hmp b := by
  unfold Freemap.blk
  rw [leaf_update, if_neg hb]

theorem freemapTryAlloc_raised {req : AllocRequest} {e : Option Extent}
    (hmin : 10 ≤ req.radix) (hmax : req.radix ≤ 16)
    (h : freemapTryAlloc hmp fm req = some (fm', e)) :
    Raised hmp fm fm' (req.bnext / freemapLevel1Size) := by
  constructor
  · intro b
    cases e with
    | none => exact Or.inr (freemapTryAlloc_none h b)
    | some e => exact (freemapTryAlloc_some hmin hmax h).2.2 b
  · intro b hb
    unfold freemapTryAlloc at h
    simp only at h
    split at h
    next => cases h
    next leaf _ =>
      cases Option.some.inj h
      exact blk_update_of_ne hb
    next leaf _ _ _ =>
      cases Option.some.inj h
      exact blk_update_of_ne hb

theorem freemapTryAlloc_aligned {req : AllocRequest} {e : Extent} (hmax : req.radix ≤ 16)
    (h : freemapTryAlloc hmp fm req = some (fm', some e)) : e.off % 64 = 0 := by
  unfold freemapTryAlloc at h
  simp only at h
  split at h
  next => cases h
  next => cases h
  next leaf dataOff bg hal =>
    obtain ⟨-, he⟩ := Prod.mk.inj (Option.some.inj h)
    cases Option.some.inj he
    have hkey : h2fmBase req.bnext % 1024 = 0 := by
      unfold h2fmBase freemapLevel1Size
      omega
    have hoff := tryAlloc_aligned hmax hkey hal
    show dataOff % 64 = 0
    omega

theorem freeRecover_raised {type dataOff radix : Nat} {st : FreeState}
    (h : freeRecover hmp ⟨fm, 0⟩ type dataOff radix = some st) :
    Raised hmp fm st.fm (dataOff / freemapLevel1Size) := by
  unfold freeRecover at h
  simp only at h
  split at h
  next => cases h
  next leaf bg hadj =>
    split at h
    next =>
      cases Option.some.inj h
      exact ⟨fun b => Or.inr rfl, fun b _ => rfl⟩
    next =>
      cases Option.some.inj h
      refine ⟨fun b => ?_, fun b hb => blk_update_of_ne hb⟩
      by_cases hb : b / 65536 = dataOff / freemapLevel1Size
      · have hleaf : leaf.blk (b % 65536) = 3 ∨
            leaf.blk (b % 65536) = (fm.leaf hmp (dataOff / freemapLevel1Size)).blk (b % 65536) := by
          rcases freemapAdjust_ok hadj with rfl | ⟨st, heff, rfl⟩
          · exact Or.inr rfl
          · unfold Leaf.blk
            rw [setBigmask_seg, setSeg_seg (Nat.mod_lt _ (by omega)) (by omega)]
            split
            next hseg =>
              rw [heff.marked _ (Nat.mod_lt _ (by omega)), hseg]
              split
              next => exact Or.inl rfl
              next => exact Or.inr rfl
            next => exact Or.inr rfl
        unfold Freemap.blk
        rw [leaf_update, if_pos hb, hb]
        exact hleaf
      · exact Or.inr (blk_update_of_ne hb)

theorem blk_of_parts {idx n i k : Nat} (hn : n < 256) (hi : i < 8) (hk : k < 32) :
    fm.blk hmp (65536 * idx + 256 * n + 32 * i + k) =
      BitPair.pair (((fm.leaf hmp idx).seg n).q i) k := by
  have hseg : (65536 * idx + 256 * n + 32 * i + k) / 256 = idx * 256 + n := by omega
  rw [blk_of_seg hn hseg]
  unfold BmapData.blk
  rw [show (65536 * idx + 256 * n + 32 * i + k) % 256 = 32 * i + k by omega,
    show (32 * i + k) / 32 = i by omega, show (32 * i + k) % 32 = k by omega]

theorem dedupPair_blk (hmp : Dev) {s s' : DedupSys} {idx n i k : Nat} {m : BitVec 64} (hn : n < 256)
    (hi : i < 8) (hk : k < 32) (h : dedupPair s idx n i k m = some s') :
    ∃ l, s.fm.blk hmp (65536 * idx + 256 * n + 32 * i + k) = l ∧ s'.io = s.io ∧
      s'.table = s.table ∧
      s'.pending = bulkCall (BitPair.pair m k) l (65536 * idx + 256 * n + 32 * i + k) ∧
      ∀ b, s'.fm.blk hmp b = if b = 65536 * idx + 256 * n + 32 * i + k
        then mergeBlk (BitPair.pair m k) l else s.fm.blk hmp b := by
  obtain ⟨leaf, hleaf, rfl⟩ := Option.map_eq_some_iff.mp h
  have hfm : s.fm.leaf hmp idx = leaf := by
    unfold Freemap.leaf
    rw [hleaf, Option.getD_some]
  refine ⟨_, blk_of_parts hn hi hk, rfl, rfl, by rw [hfm], ?_⟩
  intro b
  have hupdate := @blk_update_setSeg hmp s.fm idx n
    (syncPair i (2 * k) (m >>> (2 * k)) ((leaf.seg n).q i >>> (2 * k)) ⟨leaf.seg n, 0⟩).live hn b
  rw [hfm] at hupdate
  dsimp only
  rw [hupdate, hfm]
  have hcur : (leaf.seg n).blk (32 * i + k) = BitPair.pair ((leaf.seg n).q i) k := by
    unfold BmapData.blk
    rw [show (32 * i + k) / 32 = i by omega, show (32 * i + k) % 32 = k by omega]
  by_cases hseg : b / 256 = idx * 256 + n
  · rw [if_pos hseg, syncPair_blk hi hk (Nat.mod_lt _ (by omega)) hcur]
    have hiff : b % 256 = 32 * i + k ↔ b = 65536 * idx + 256 * n + 32 * i + k := by omega
    simp only [hiff]
    rw [blk_of_seg hn hseg, hfm]
  · rw [if_neg hseg, if_neg (by omega)]

theorem dedupSegment_blk (hmp : Dev) {s s' : DedupSys} {idx n : Nat} {bmap : BmapData} (hn : n < 256)
    (h : dedupSegment s idx n bmap = some s') :
    s'.io = s.io ∧ s'.table = s.table ∧ s'.pending = s.pending ∧
      ∀ b, s'.fm.blk hmp b = s.fm.blk hmp b := by
  obtain ⟨leaf, hleaf, rfl⟩ := Option.map_eq_some_iff.mp h
  have hfm : s.fm.leaf hmp idx = leaf := by
    unfold Freemap.leaf
    rw [hleaf, Option.getD_some]
  refine ⟨rfl, rfl, rfl, fun b => ?_⟩
  unfold Freemap.blk
  rw [leaf_update]
  split
  next hb =>
    rw [hb, hfm]
    unfold Leaf.blk
    rw [setBigmask_seg, setSeg_seg hn (by omega)]
    split
    next hseg =>
      rw [syncLinear_blk, hseg]
    next => rfl
  next => rfl

end FreemapEffects

/-- A mounted device before the first buffer and the first record. -/
structure DedupMounted (s : DedupSys) : Prop where
  buffers : s.io.cache.iohash = []
  table : ∀ i, s.table i = ⟨0, 0, 0⟩
  idle : s.pending = none

section Loop

variable {i k : Nat} {m l : BitVec 64} {st : SyncState}

theorem syncPair_congr {l' : BitVec 64} (h : BitPair.pair l k = BitPair.pair l' k) :
    syncPair i (2 * k) (m >>> (2 * k)) (l >>> (2 * k)) st =
      syncPair i (2 * k) (m >>> (2 * k)) (l' >>> (2 * k)) st := by
  have hpair : l >>> (2 * k) &&& 3 = l' >>> (2 * k) &&& 3 :=
    ((BitPair.shiftRight_and_three l k).trans (congrArg _ h)).trans
      (BitPair.shiftRight_and_three l' k).symm
  unfold syncPair
  rw [hpair]

/-- The loop of `h2_bulkfree_sync_adjust` over a word takes its blocks in order, each as it is when
its turn comes. -/
theorem syncElement_eq_foldl (hi : i < 8) (fuel : Nat) (hk : k + fuel = 32)
    (hcur : ∀ j, k ≤ j → j < 32 → st.live.blk (32 * i + j) = BitPair.pair l j) :
    syncElement i fuel (2 * k) (m >>> (2 * k)) (l >>> (2 * k)) st =
      (List.range' k fuel).foldl (fun st k =>
        syncPair i (2 * k) (m >>> (2 * k)) (st.live.q i >>> (2 * k)) st) st := by
  induction fuel generalizing k st with
  | zero => rfl
  | succ fuel ih =>
    have hword : BitPair.pair l k = BitPair.pair (st.live.q i) k := by
      rw [← hcur k le_rfl (by omega)]
      unfold BmapData.blk
      rw [show (32 * i + k) / 32 = i by omega, show (32 * i + k) % 32 = k by omega]
    have hstep : syncPair i (2 * k) (m >>> (2 * k)) (l >>> (2 * k)) st =
        syncPair i (2 * k) (m >>> (2 * k)) (st.live.q i >>> (2 * k)) st := syncPair_congr hword
    have hpair : ∀ b, b < 256 → (syncPair i (2 * k) (m >>> (2 * k)) (l >>> (2 * k)) st).live.blk b =
        if b = 32 * i + k then mergeBlk (BitPair.pair m k) (BitPair.pair l k)
        else st.live.blk b :=
      fun b hb => syncPair_blk hi (by omega) hb (hcur k le_rfl (by omega))
    rw [List.range'_succ, List.foldl_cons, ← hstep]
    unfold syncElement
    rw [← BitVec.shiftRight_add, ← BitVec.shiftRight_add, show 2 * k + 2 = 2 * (k + 1) by ring]
    apply ih (by omega)
    intro j h1 h2
    rw [hpair _ (by omega), if_neg (by omega)]
    exact hcur j (by omega) h2

end Loop

/-- A marked fragment lies in an allocated block, or in one that the bulkfree has just staged. -/
structure FragmentOk (hmp : Dev) (s : DedupSys) (p j : Nat) : Prop where
  base : p ≠ 0 ∧ p % 65536 = 0
  state : s.fm.blk hmp ((p + 1024 * j) / 16384) = 3 ∨
    s.fm.blk hmp ((p + 1024 * j) / 16384) = 2 ∧
      s.pending = some (.delete ((p + 1024 * j) / 16384))

structure DedupInv (hmp : Dev) (s : DedupSys) : Prop where
  table : ∀ i, (s.table i).Ok
  marked : ∀ p j, s.io.Marked p j → FragmentOk hmp s p j
  free : ∀ b, s.pending = some (.assert b) → s.fm.blk hmp b = 0

/-- An allocated block stays so, or is staged and its marks are about to be deleted. -/
theorem mergeBlk_three (m : BitVec 2) (b : Nat) :
    mergeBlk m 3 = 3 ∨ mergeBlk m 3 = 2 ∧ bulkCall m 3 b = some (.delete b) := by
  unfold mergeBlk bulkCall
  by_cases hm : m = 0
  · apply Or.inr
    rw [if_pos hm, if_pos hm]
    exact ⟨rfl, rfl⟩
  · apply Or.inl
    rw [if_neg hm]
    split <;> rfl

theorem bulkCall_assert {m l : BitVec 2} {b b' : Nat} (h : bulkCall m l b = some (.assert b')) :
    b' = b ∧ mergeBlk m l = 0 := by
  unfold bulkCall at h
  obtain ⟨hm, h⟩ := Option.ite_none_right_eq_some.mp h
  unfold mergeBlk
  rw [if_pos hm]
  split at h
  next hl =>
    cases Option.some.inj h
    exact ⟨rfl, if_pos hl⟩
  next =>
    obtain ⟨-, h⟩ := Option.ite_none_right_eq_some.mp h
    cases Option.some.inj h

section Invariant

variable {env : DedupEnv} {hmp : Dev} {s s' : DedupSys}

theorem DedupInv.of_io (h : DedupInv hmp s) (hfm : s'.fm = s.fm) (hpending : s'.pending = s.pending)
    (htable : ∀ i, (s'.table i).Ok) (hmarked : ∀ p j, s'.io.Marked p j → s.io.Marked p j) :
    DedupInv hmp s' where
  table := htable
  marked := by
    intro p j hmark
    obtain ⟨hbase, hstate⟩ := h.marked p j (hmarked p j hmark)
    refine ⟨hbase, ?_⟩
    rw [hfm, hpending]
    exact hstate
  free := by
    rw [hfm, hpending]
    exact h.free

theorem unlocked_block {idx : Nat} {call : BulkCall} (h : s.unlocked idx = true)
    (hcall : s.pending = some call) : call.block / 65536 ≠ idx := by
  unfold DedupSys.unlocked at h
  rw [hcall] at h
  exact of_decide_eq_true h

theorem DedupInv.raise (h : DedupInv hmp s) {fm : Freemap} {idx : Nat}
    (hr : Raised hmp s.fm fm idx) (hunlocked : s.unlocked idx = true) :
    DedupInv hmp { s with fm := fm } where
  table := h.table
  marked := by
    intro p j hmark
    obtain ⟨hbase, hstate⟩ := h.marked p j hmark
    refine ⟨hbase, ?_⟩
    rcases hr.raised ((p + 1024 * j) / 16384) with hthree | hsame
    · exact Or.inl hthree
    · dsimp only
      rw [hsame]
      exact hstate
  free := by
    intro b hb
    have hother := hr.other b (unlocked_block hunlocked hb)
    exact hother.trans (h.free b hb)

theorem DedupInv.alloc (h : DedupInv hmp s) {t : Nat} {req : AllocRequest} {evict : Nat → Bool}
    (hmin : 10 ≤ req.radix) (hmax : req.radix ≤ 16)
    (hunlocked : s.unlocked (req.bnext / freemapLevel1Size) = true)
    (hs : dedupAlloc env hmp t s req evict = some s') : DedupInv hmp s' := by
  obtain ⟨⟨fm, e⟩, htry, hs⟩ := Option.bind_eq_some_iff.mp hs
  have hraise := h.raise (freemapTryAlloc_raised hmin hmax htry) hunlocked
  cases e with
  | none =>
    cases Option.some.inj hs
    exact hraise
  | some e =>
    dsimp only at hs
    split at hs
    next =>
      obtain ⟨io, hset, rfl⟩ := Option.map_eq_some_iff.mp hs
      obtain ⟨hallocated, hthree, -⟩ := freemapTryAlloc_some hmin hmax htry
      let data : DataExtent := ⟨e, hallocated.shaped, freemapTryAlloc_aligned hmax htry⟩
      have hextent : dataExtent (e.off + e.radix) = e := data.dataExtent_dataOff
      have hshaped : (dataExtent (e.off + e.radix)).Shaped := by
        rw [hextent]
        exact hallocated.shaped
      have hsize : ioLsize (e.off + e.radix) = 2 ^ ((e.off + e.radix) % 64) := by
        have hpos : 10 ≤ (e.off + e.radix) % 64 := hshaped.radix_min
        exact if_neg (by omega)
      refine ⟨hraise.table, ?_, hraise.free⟩
      intro p j hmark
      obtain ⟨hlegal, hold | ⟨rfl, hnew⟩⟩ := ioDedupSet_marked hset hmark
      · obtain ⟨hbase, hstate⟩ := hraise.marked p j hold
        exact ⟨hbase, hstate⟩
      · rw [hsize] at hnew
        have htouches := dedupMask_touches hshaped hlegal hmark.lt hnew
        rw [hextent] at htouches
        exact ⟨⟨hlegal.1, ioPbase_mod _⟩, Or.inl (hthree _ htouches)⟩
    next =>
      cases Option.some.inj hs
      exact hraise

theorem DedupInv.pair (h : DedupInv hmp s) {idx n i k : Nat} {m : BitVec 64}
    (hidle : s.pending = none) (hn : n < 256) (hi : i < 8) (hk : k < 32)
    (hs : dedupPair s idx n i k m = some s') : DedupInv hmp s' := by
  obtain ⟨l, hl, hio, htable, hpending, hblk⟩ := dedupPair_blk hmp hn hi hk hs
  generalize 65536 * idx + 256 * n + 32 * i + k = b₀ at hl hpending hblk
  refine ⟨htable ▸ h.table, ?_, ?_⟩
  · intro p j hmark
    rw [hio] at hmark
    obtain ⟨hbase, hstate⟩ := h.marked p j hmark
    refine ⟨hbase, ?_⟩
    -- nothing was pending, so the block is allocated, and is staged at most
    have hthree : s.fm.blk hmp ((p + 1024 * j) / 16384) = 3 := by
      rcases hstate with hthree | ⟨-, hdelete⟩
      · exact hthree
      · rw [hidle] at hdelete
        cases hdelete
    rw [hblk, hpending]
    split
    next hb =>
      rw [hb, hl] at hthree
      subst hthree
      rw [hb]
      exact mergeBlk_three (BitPair.pair m k) b₀
    next => exact Or.inl hthree
  · intro b hb
    rw [hpending] at hb
    obtain ⟨rfl, hzero⟩ := bulkCall_assert hb
    rw [hblk, if_pos rfl]
    exact hzero

theorem block_base {b : Nat} : ioLbase (16384 * b + 14) = 16384 * b := by
  unfold ioLbase
  omega

theorem block_pbase {b : Nat} : ioPbase (16384 * b + 14) = 65536 * (b / 4) := by
  unfold ioPbase dioPsize
  rw [block_base]
  omega

theorem DedupInv.call (h : DedupInv hmp s) {t : Nat} {evict : Nat → Bool}
    (hs : dedupCall env t s evict = some s') : DedupInv hmp s' := by
  obtain ⟨call, hcall, hs⟩ := Option.bind_eq_some_iff.mp hs
  cases call with
  | delete b =>
    obtain ⟨io, hdelete, rfl⟩ := Option.map_eq_some_iff.mp hs
    refine ⟨h.table, ?_, nofun⟩
    intro p j hmark
    obtain ⟨hold, hgone⟩ := ioDedupDelete_marked hdelete hmark
    obtain ⟨hbase, hthree | ⟨-, hpending⟩⟩ := h.marked p j hold
    · exact ⟨hbase, Or.inl hthree⟩
    · -- the fragment would be in the block whose marks are gone
      rw [hcall] at hpending
      have hb : b = (p + 1024 * j) / 16384 := BulkCall.delete.inj (Option.some.inj hpending)
      have hj := hmark.lt
      have hbuf : p = ioPbase (16384 * b + 14) := by
        rw [block_pbase]
        omega
      have hne : ioLbase (16384 * b + 14) ≠ 0 := by
        rw [block_base]
        omega
      have hmask := (getLsbD_dedupMask_block hj).mpr (show (ioPbase (16384 * b + 14) + 1024 * j) /
        16384 = b by rw [← hbuf]; exact hb.symm)
      have hclear := hgone hne rfl hbuf
      unfold freemapBlockSize freemapBlockRadix at hclear
      rw [hmask] at hclear
      cases hclear
  | assert b =>
    obtain ⟨io, hassert, rfl⟩ := Option.map_eq_some_iff.mp hs
    refine ⟨h.table, ?_, nofun⟩
    intro p j hmark
    obtain ⟨hbase, hthree | ⟨-, hpending⟩⟩ := h.marked p j (ioDedupAssert_marked hassert hmark)
    · exact ⟨hbase, Or.inl hthree⟩
    · rw [hcall] at hpending
      cases hpending

theorem dedupStep_inv {a : DedupAction} (h : DedupInv hmp s)
    (hs : dedupStep env hmp s a = some s') : DedupInv hmp s' := by
  cases a with
  | alloc t req evict =>
    obtain ⟨⟨⟨hmin, hmax⟩, hunlocked⟩, hs⟩ := Option.ite_none_right_eq_some.mp hs
    exact h.alloc hmin hmax hunlocked hs
  | adjust type dataOff radix =>
    obtain ⟨hunlocked, hs⟩ := Option.ite_none_right_eq_some.mp hs
    obtain ⟨st, hst, rfl⟩ := Option.map_eq_some_iff.mp hs
    exact h.raise (freeRecover_raised hst) hunlocked
  | pair idx n i k m =>
    obtain ⟨⟨hidle, hn, hi, hk⟩, hs⟩ := Option.ite_none_right_eq_some.mp hs
    exact h.pair hidle hn hi hk hs
  | call t evict => exact h.call hs
  | segment idx n bmap =>
    obtain ⟨⟨-, hn⟩, hs⟩ := Option.ite_none_right_eq_some.mp hs
    obtain ⟨hio, htable, hpending, hblk⟩ := dedupSegment_blk hmp hn hs
    refine ⟨htable ▸ h.table, fun p j hmark => ?_, fun b hb => ?_⟩
    · obtain ⟨hbase, hstate⟩ := h.marked p j (hio ▸ hmark)
      refine ⟨hbase, ?_⟩
      rw [hblk, hpending]
      exact hstate
    · rw [hblk]
      exact h.free b (hpending ▸ hb)
  | delete t btype dataOff bytes evict =>
    obtain ⟨io, hdelete, rfl⟩ := Option.map_eq_some_iff.mp hs
    exact h.of_io rfl rfl h.table fun p j hmark => (ioDedupDelete_marked hdelete hmark).1
  | getblk t op dataOff junk =>
    obtain ⟨⟨io, r⟩, hget, rfl⟩ := Option.map_eq_some_iff.mp hs
    exact h.of_io rfl rfl h.table fun p j hmark => ioGetblkLock_marked hget hmark
  | putblk t pbase how evict =>
    obtain ⟨io, hput, rfl⟩ := Option.map_eq_some_iff.mp hs
    exact h.of_io rfl rfl h.table fun p j hmark => ioPutblkLock_marked hput hmark
  | modify pbase bytes =>
    obtain ⟨cache, hmodify, rfl⟩ := Option.map_eq_some_iff.mp hs
    obtain ⟨dio, -, hmodify⟩ := Option.bind_eq_some_iff.mp hmodify
    obtain ⟨buf, -, rfl⟩ := Option.map_eq_some_iff.mp hmodify
    exact h.of_io rfl rfl h.table fun p j hmark =>
      ⟨pbases_update s.io.cache _ ▸ hmark.1, hmark.2⟩
  | record now chain data =>
    obtain ⟨hmarked, htable⟩ := dedupRecord_spec h.table
      (rfl : dedupRecord env now s.io s.table chain data = _)
    rw [← Option.some.inj hs]
    exact h.of_io rfl rfl htable hmarked
  | clear now =>
    cases Option.some.inj hs
    exact h.of_io rfl rfl (fun i => Or.inl rfl) fun p j hmark => hmark
  | lookup t now data bytes evict =>
    obtain ⟨⟨io, table, off⟩, hlookup, rfl⟩ := Option.map_eq_some_iff.mp hs
    obtain ⟨hsame, htable, -⟩ := dedupLookup_spec h.table hlookup
    exact h.of_io rfl rfl htable fun p j hmark => hsame.marked hmark

theorem DedupMounted.inv (h : DedupMounted s) : DedupInv hmp s where
  table := by
    intro i
    rw [h.table]
    exact Or.inl rfl
  marked := by
    intro p j hmark
    have hmem := hmark.1
    unfold IoCache.pbases at hmem
    rw [h.buffers] at hmem
    cases hmem
  free := by
    intro b hb
    rw [h.idle] at hb
    cases hb

/-- The assertion of `hammer2_io_dedup_assert`. -/
def DedupClear (d : IoDev) (dataOff bytes : Nat) : Prop :=
  d.cache.lookup (ioPbase dataOff) ≠ none →
    (d.dedup (ioPbase dataOff)).1 &&& dedupMask (ioPbase dataOff) dataOff bytes = 0

/-- The block is allocated, or the bulkfree is between staging it and deleting its marks. -/
def HeldBlock (hmp : Dev) (s : DedupSys) (b : Nat) : Prop :=
  s.fm.blk hmp b = 3 ∨ s.fm.blk hmp b = 2 ∧ s.pending = some (.delete b)

theorem DedupInv.clear (h : DedupInv hmp s) {b : Nat} (hb : s.pending = some (.assert b)) :
    DedupClear s.io (16384 * b + 14) 16384 := by
  intro hthere
  apply BitVec.eq_of_getLsbD_eq
  intro j hj
  show _ = (0#64).getLsbD j
  rw [BitVec.getLsbD_zero, BitVec.getLsbD_and, Bool.and_eq_false_iff]
  by_contra hset
  rw [not_or, Bool.not_eq_false, Bool.not_eq_false] at hset
  obtain ⟨hbit, hmask⟩ := hset
  have hmark : s.io.Marked (ioPbase (16384 * b + 14)) j :=
    ⟨not_not.mp (mt lookup_eq_none_iff.mpr hthere), hbit⟩
  have hblock := (getLsbD_dedupMask_block hj).mp hmask
  obtain ⟨-, hstate⟩ := h.marked _ j hmark
  rw [hblock, h.free b hb, hb] at hstate
  rcases hstate with hthree | ⟨htwo, -⟩
  · exact absurd hthree (by decide)
  · exact absurd htwo (by decide)

theorem DedupInv.hit (h : DedupInv hmp s) {off bytes : Nat} {data : Image}
    (hhit : HitFrom s.io off bytes data) {b : Nat} (ht : (dataExtent off).Touches b) :
    HeldBlock hmp s b := by
  obtain ⟨hs, hl, rfl, d₁, hsame, hd₁⟩ := hhit
  obtain ⟨j, hj, hmask, rfl⟩ := exists_dedupMask_of_touches hs hl ht
  have hbit : (d₁.dedup (ioPbase off)).1.getLsbD j = true := by
    have hand := congrArg (fun x => x.getLsbD j) hd₁.alloc
    rw [BitVec.getLsbD_and, hmask, Bool.and_true] at hand
    exact hand
  obtain ⟨dio, hlookup, -⟩ := hd₁.good
  have hthere : ioPbase off ∈ d₁.cache.pbases := by
    by_contra hnone
    rw [lookup_eq_none_iff.mpr hnone] at hlookup
    cases hlookup
  exact (h.marked _ j (hsame.marked ⟨hthere, hbit⟩)).state

end Invariant

/-- Whatever the order of allocations, records, lookups and the steps of the bulkfree: what
`hammer2_dedup_lookup` returns holds the data under marks that are set, in blocks that are allocated or
being staged at this moment, and the assertion of the bulkfree holds. -/
theorem dedup_never_aliases {env : DedupEnv} {hmp : Dev} {s₀ s : DedupSys} (h₀ : DedupMounted s₀)
    (h : Run.Reach (dedupStep env hmp) (fun _ _ => True) s₀ s) :
    (∀ t now data bytes evict d table off,
      dedupLookup env t now s.io s.table data bytes evict = some (d, table, off) → off ≠ 0 →
        2 ^ (off % 64) = bytes ∧ (∃ d₁, SameMarks s.io d₁ ∧ DedupHit d₁ off bytes data) ∧
          ∀ b, (dataExtent off).Touches b → HeldBlock hmp s b) ∧
      ∀ b, s.pending = some (.assert b) → DedupClear s.io (16384 * b + 14) 16384 := by
  have hinv : DedupInv hmp s := h.invariant h₀.inv fun hi _ hs => dedupStep_inv hi hs
  constructor
  · intro t now data bytes evict d table off hlookup hoff
    have hhit := (dedupLookup_spec hinv.table hlookup).2.2 hoff
    obtain ⟨-, -, hbytes, hd₁⟩ := id hhit
    exact ⟨hbytes, hd₁, fun b ht => hinv.hit hhit ht⟩
  · intro b hb
    exact hinv.clear hb

/-- A mounted device of 32MB on which every crc is the same. -/
def sameCrc : DedupEnv := ⟨true, 1000, 256, fun _ _ => 7⟩

def freshSys : DedupSys where
  fm := fun _ => none
  io := ⟨⟨fun _ => 0, [], 0⟩, fun _ => (0, 0), ⟨0, 0⟩⟩
  table := fun _ => ⟨0, 0, 0⟩
  pending := none

theorem freshSys_mounted : DedupMounted freshSys := ⟨rfl, fun _ => rfl, rfl⟩

def firstExtent : DataExtent where
  off := 25165824
  radix := 10
  shaped := ⟨by decide, by decide, by decide, by decide, by decide⟩
  aligned := by decide

/-- A kilobyte of file data is allocated, written and recorded. -/
def recordRun : List DedupAction :=
  [.alloc 0 ⟨brefTypeData, 0, 10, 25165824, false⟩ fun _ => false,
    .getblk 0 (.op .new) 25165834 fun _ => 0,
    .record 5 ⟨firstExtent, 1024, .iscsi32, 0⟩ fun _ => 0]

/-- What a lookup of a kilobyte of zeros returns, and the state of the first block of segment 6. -/
def lookupZeros (s : DedupSys) : Option (Nat × BitVec 2) :=
  (dedupLookup sameCrc 1 6 s.io s.table (fun _ => 0) 1024 fun _ _ => false).map fun r =>
    (r.2.2, s.fm.blk smallDev 1536)

theorem recordRun_lookupZeros :
    (Run.exec (dedupStep sameCrc smallDev) freshSys recordRun).bind lookupZeros =
      some (25165834, 3) := by
  decide +kernel

theorem dedup_never_aliases_zeros : ∃ s d table,
    Run.Reach (dedupStep sameCrc smallDev) (fun _ _ => True) freshSys s ∧
      dedupLookup sameCrc 1 6 s.io s.table (fun _ => 0) 1024 (fun _ _ => false) =
        some (d, table, 25165834) ∧
      (∃ d₁, SameMarks s.io d₁ ∧ DedupHit d₁ 25165834 1024 fun _ => 0) ∧
      ∀ b, (dataExtent 25165834).Touches b → HeldBlock smallDev s b := by
  obtain ⟨s, hexec, hlookup⟩ := Option.bind_eq_some_iff.mp recordRun_lookupZeros
  obtain ⟨⟨d, table, off⟩, hlookup, heq⟩ := Option.map_eq_some_iff.mp hlookup
  have hoff : off = 25165834 := (Prod.mk.inj heq).1
  subst hoff
  have hreach : Run.Reach (dedupStep sameCrc smallDev) (fun _ _ => True) freshSys s :=
    Run.Reach.start.exec hexec
  obtain ⟨-, hhit, hblocks⟩ := (dedup_never_aliases freshSys_mounted hreach).1 1 6 (fun _ => 0) 1024
    (fun _ _ => false) d table 25165834 hlookup (by decide)
  exact ⟨s, d, table, hreach, hlookup, hhit, hblocks⟩

theorem stagedRun_lookupZeros :
    (Run.exec (dedupStep sameCrc smallDev) freshSys (recordRun ++ [.pair 0 6 0 0 0])).bind
      lookupZeros = some (25165834, 2) := by
  decide +kernel

/-- The bulkfree has staged the block and is about to delete its marks when the lookup comes. -/
theorem dedupLookup_staged : DedupMounted freshSys ∧ ∃ s d table,
    Run.Reach (dedupStep sameCrc smallDev) (fun _ _ => True) freshSys s ∧
      dedupLookup sameCrc 1 6 s.io s.table (fun _ => 0) 1024 (fun _ _ => false) =
        some (d, table, 25165834) ∧
      (dataExtent 25165834).Touches 1536 ∧ s.fm.blk smallDev 1536 = 2 := by
  refine ⟨freshSys_mounted, ?_⟩
  obtain ⟨s, hexec, hlookup⟩ := Option.bind_eq_some_iff.mp stagedRun_lookupZeros
  obtain ⟨⟨d, table, off⟩, hlookup, heq⟩ := Option.map_eq_some_iff.mp hlookup
  obtain ⟨hoff, hblk⟩ := Prod.mk.inj heq
  subst hoff
  exact ⟨s, d, table, Run.Reach.start.exec hexec, hlookup, by decide, hblk⟩

end Hammer2
