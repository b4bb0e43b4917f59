import Hammer2.FreeSpace

namespace Hammer2

/-- `avail` is the space of the blocks in state 00. -/
def AvailExact (bmap : BmapData) : Prop := bmap.avail = freemapBlockSize * bmap.free

/-- One step of a merge stays clear of the two clamps on `avail`. -/
def PairUnclamped (m l : BitVec 64) (live : BmapData) : Prop :=
  (m &&& 3 = 0 → l &&& 3 = 2 → availFreed live.avail = live.avail + freemapBlockSize) ∧
    (m &&& 3 = 3 → l &&& 3 = 0 → availLost live.avail + freemapBlockSize = live.avail)

/-- The same for the steps of the inner loop over word `i`. -/
def ElementUnclamped (i : Nat) : Nat → Nat → BitVec 64 → BitVec 64 → SyncState → Prop
  | 0, _, _, _, _ => True
  | fuel + 1, scount, m, l, st =>
    PairUnclamped m l st.live ∧
      ElementUnclamped i fuel (scount + 2) (m >>> 2) (l >>> 2) (syncPair i scount m l st)

/-- The same for the merge of the bitmap words `i`, …, `i + fuel - 1`. -/
def ElementsUnclamped (bmap : BmapData) : Nat → Nat → SyncState → Prop
  | 0, _, _ => True
  | fuel + 1, i, st =>
    if st.live.q i = bmap.q i then ElementsUnclamped bmap fuel (i + 1) st
    else ElementUnclamped i 32 0 (bmap.q i) (st.live.q i) st ∧
      ElementsUnclamped bmap fuel (i + 1) (syncElement i 32 0 (bmap.q i) (st.live.q i) st)

/-- No clamp takes effect in a merge, and the reset of an empty segment does not change `avail`. -/
def SyncUnclamped (live bmap : BmapData) : Prop :=
  ElementsUnclamped bmap bmapElements 0 ⟨live, 0⟩ ∧
    (topElement (syncElements bmap bmapElements 0 ⟨live, 0⟩).live bmapElements = none →
      (syncElements bmap bmapElements 0 ⟨live, 0⟩).live.avail = segSize)

/-- `hammer2_freemap_init` of a leaf, `hammer2_bmap_alloc` in a segment of a leaf,
`hammer2_freemap_adjust` and `h2_bulkfree_sync_adjust` of a segment. -/
inductive AvailAction where
  | init (idx : Nat)
  | alloc (idx n cls subKey radix : Nat)
  | adjust (type dataOff radix : Nat)
  | sync (idx n : Nat) (bmap : BmapData)

/-- A leaf is set up once, when it is created; the callers of `hammer2_bmap_alloc` assert the radix. -/
def availStep (hmp : Dev) (fm : Freemap) : AvailAction → Option Freemap
  | .init idx =>
    match fm idx with
    | none => some (Function.update fm idx (some (freemapInit hmp (idx * freemapLevel1Size))))
    | some _ => none
  | .alloc idx n cls subKey radix =>
    match fm idx with
    | none => none
    | some leaf =>
      if n < freemapCount ∧ radix ≤ 16 then
        match bmapAlloc (leaf.seg n) cls subKey radix with
        | .error .panic => none
        | .error .enospc => some fm
        | .ok (bmap', _, _) => some (Function.update fm idx (some (leaf.setSeg n bmap')))
      else none
  | .adjust type dataOff radix =>
    match fm (dataOff / freemapLevel1Size) with
    | none => none
    | some leaf =>
      match freemapAdjust hmp leaf type dataOff radix with
      | .error _ => none
      | .ok (leaf', _) => some (Function.update fm (dataOff / freemapLevel1Size) (some leaf'))
  | .sync idx n bmap =>
    match fm idx with
    | none => none
    | some leaf =>
      if n < freemapCount then
        some (Function.update fm idx (some (leaf.setSeg n (syncAdjust (leaf.seg n) bmap).live)))
      else none

theorem free_le (bmap : BmapData) : bmap.free ≤ 256 := by
  have h := Finset.card_filter_le (Finset.range 256) fun b => bmap.blk b = 0
  rwa [Finset.card_range] at h

section Segment

theorem AvailExact.congr {a b : BmapData} (h : AvailExact a) (havail : b.avail = a.avail)
    (hblk : ∀ n, b.blk n = a.blk n) : AvailExact b := by
  have hfree : b.free = a.free := by
    unfold BmapData.free
    simp only [hblk]
  unfold AvailExact at h ⊢
  rw [havail, hfree, h]

/-- The subtraction of what an operation charges does not wrap. -/
theorem AvailExact.charge {a b : BmapData} (bg : Nat) (h : AvailExact a)
    (hfree : 16384 * b.free + bg = 16384 * a.free) (havail : b.avail = subU32 a.avail bg) :
    AvailExact b := by
  have hle := free_le a
  unfold AvailExact freemapBlockSize at h ⊢
  rw [havail, h]
  unfold subU32
  omega

theorem bmapAlloc_avail {bmap bmap' : BmapData} {cls subKey radix off bg : Nat}
    (h : bmapAlloc bmap cls subKey radix = .ok (bmap', off, bg)) :
    bmap'.avail = subU32 bmap.avail bg := by
  unfold bmapAlloc at h
  obtain ⟨slot, _, h⟩ := except_bind_eq_ok.mp h
  simp only [except_bind_eq_ok, kkassert_eq_ok, pure, Except.pure, Except.ok.injEq,
    Prod.mk.injEq] at h
  obtain ⟨_, _, rfl, _, rfl⟩ := h
  rfl

theorem bmapAlloc_availExact {bmap bmap' : BmapData} {cls subKey radix off bg : Nat}
    (hr : radix ≤ 16) (hex : AvailExact bmap)
    (h : bmapAlloc bmap cls subKey radix = .ok (bmap', off, bg)) : AvailExact bmap' :=
  hex.charge bg (bmapAlloc_free hr h) (bmapAlloc_avail h)

theorem adjustPair_availExact (cls : Nat) {i k : Nat} {st : AdjustState} (hi : i < 8) (hk : k < 32)
    (hex : AvailExact st.bmap) : AvailExact (adjustPair cls i (BitPair.run 64 k 1) st).bmap := by
  have hfree : 16384 * (adjustPair cls i (BitPair.run 64 k 1) st).bmap.free +
      (adjustPair cls i (BitPair.run 64 k 1) st).bgsize = 16384 * st.bmap.free + st.bgsize :=
    adjustPair_free cls hi hk
  unfold adjustPair at hfree ⊢
  split
  next hne =>
    rw [if_pos hne] at hfree
    have hav : (if st.modified then st.bmap else { st.bmap with linear := 0 }).avail =
        st.bmap.avail := by split <;> rfl
    simp only at hfree
    generalize (if st.modified then st.bmap else { st.bmap with linear := 0 }) = bmap at hav hfree ⊢
    by_cases hb : bmap.q i &&& BitPair.run 64 k 1 = 0
    · simp only [hb, if_true] at hfree ⊢
      refine hex.charge freemapBlockSize (by omega) ?_
      simp only [hav]
    · simp only [hb, if_false] at hfree ⊢
      refine hex.charge 0 (by omega) ?_
      have hle := free_le st.bmap
      unfold AvailExact freemapBlockSize at hex
      unfold subU32
      simp only [hav]
      omega
  next => exact hex

theorem adjustLoop_availExact {cls i k count : Nat} {st st' : AdjustState} (hi : i < 8)
    (hk : k + count ≤ 32) (hex : AvailExact st.bmap)
    (h : adjustLoop cls i count (BitPair.run 64 k 1) st = .ok st') : AvailExact st'.bmap := by
  induction count generalizing k st with
  | zero =>
    cases h
    exact hex
  | succ count ih =>
    unfold adjustLoop at h
    obtain ⟨_, _, h⟩ := except_bind_eq_ok.mp h
    have hshift := run_shiftLeft k 1
    simp only [Nat.mul_one] at hshift
    rw [hshift] at h
    exact ih (by omega) (adjustPair_availExact cls hi (by omega) hex) h

theorem syncPair_avail (i k : Nat) (m l : BitVec 64) (st : SyncState) :
    (syncPair i (2 * k) (m >>> (2 * k)) (l >>> (2 * k)) st).live.avail =
      if BitPair.pair m k = 0 ∧ BitPair.pair l k = 2 then availFreed st.live.avail
      else if BitPair.pair m k = 3 ∧ BitPair.pair l k = 0 then availLost st.live.avail
      else st.live.avail := by
  have h3 : ∀ x : BitVec 64, x >>> (2 * k) &&& 3 = (BitPair.pair x k).setWidth 64 :=
    fun x => BitPair.shiftRight_and_three x k
  have hm := setWidth_eq_iff (BitPair.pair m k)
  have hl := setWidth_eq_iff (BitPair.pair l k)
  have hall : ∀ p : BitVec 2, p = 0 ∨ p = 1 ∨ p = 2 ∨ p = 3 := by decide
  simp only [syncPair, h3, hm.1, hm.2.2, hl.1, hl.2.1, hl.2.2]
  rcases hall (BitPair.pair m k) with hpm | hpm | hpm | hpm <;>
    rcases hall (BitPair.pair l k) with hpl | hpl | hpl | hpl <;>
    simp [hpm, hpl]

/-- A block that the merge frees was not counted, so there is room for it below the clamp; one
that it takes was counted, so the subtraction does not go below zero. -/
theorem syncPair_availExact {i k : Nat} {m l : BitVec 64} {st : SyncState} (hi : i < 8)
    (hk : k < 32) (hcur : st.live.blk (32 * i + k) = BitPair.pair l k) (hex : AvailExact st.live) :
    AvailExact (syncPair i (2 * k) (m >>> (2 * k)) (l >>> (2 * k)) st).live ∧
      PairUnclamped (m >>> (2 * k)) (l >>> (2 * k)) st.live := by
  have hblk : ∀ b, b < 256 → _ := fun b hb => @syncPair_blk i k b m l st hi hk hb hcur
  have hself := hblk (32 * i + k) (by omega)
  rw [if_pos rfl] at hself
  have hchange := free_change (a := st.live)
    (b := (syncPair i (2 * k) (m >>> (2 * k)) (l >>> (2 * k)) st).live) (k := 32 * i + k) (by omega)
    (fun n hn hne => by rw [hblk n hn, if_neg hne])
  rw [hself, hcur] at hchange
  have havail := syncPair_avail i k m l st
  have hle := free_le (syncPair i (2 * k) (m >>> (2 * k)) (l >>> (2 * k)) st).live
  have h3 : ∀ x : BitVec 64, x >>> (2 * k) &&& 3 = (BitPair.pair x k).setWidth 64 :=
    fun x => BitPair.shiftRight_and_three x k
  have hm := setWidth_eq_iff (BitPair.pair m k)
  have hl := setWidth_eq_iff (BitPair.pair l k)
  have hfreed : BitPair.pair m k = 0 → BitPair.pair l k = 2 →
      availFreed st.live.avail = st.live.avail + freemapBlockSize := by
    intro hm0 hl2
    rw [hm0, hl2] at hchange
    simp only [mergeBlk, if_true] at hchange
    rw [if_neg (show (2 : BitVec 2) ≠ 0 by decide)] at hchange
    unfold AvailExact freemapBlockSize at hex
    unfold availFreed freemapBlockSize segSize
    omega
  have hlost : BitPair.pair m k = 3 → BitPair.pair l k = 0 →
      availLost st.live.avail + freemapBlockSize = st.live.avail := by
    intro hm3 hl0
    have hmerge : mergeBlk 3 0 = 3 := by decide
    rw [hm3, hl0, hmerge, if_pos rfl, if_neg (show (3 : BitVec 2) ≠ 0 by decide)] at hchange
    have hold := free_le st.live
    unfold AvailExact freemapBlockSize at hex
    unfold availLost subU32 freemapBlockSize
    rw [if_neg (by omega)]
    omega
  constructor
  · unfold AvailExact at hex ⊢
    have hall : ∀ p : BitVec 2, p = 0 ∨ p = 1 ∨ p = 2 ∨ p = 3 := by decide
    by_cases hf : BitPair.pair m k = 0 ∧ BitPair.pair l k = 2
    · rw [havail, if_pos hf, hfreed hf.1 hf.2, hex]
      rw [hf.1, hf.2] at hchange
      simp only [mergeBlk, if_true] at hchange
      rw [if_neg (show (2 : BitVec 2) ≠ 0 by decide)] at hchange
      unfold freemapBlockSize
      omega
    · by_cases hlo : BitPair.pair m k = 3 ∧ BitPair.pair l k = 0
      · have hmerge : mergeBlk 3 0 = 3 := by decide
        have hval := hlost hlo.1 hlo.2
        rw [hlo.1, hlo.2, hmerge, if_pos rfl, if_neg (show (3 : BitVec 2) ≠ 0 by decide)] at hchange
        rw [havail, if_neg hf, if_pos hlo]
        unfold freemapBlockSize at *
        omega
      · have hsame : mergeBlk (BitPair.pair m k) (BitPair.pair l k) = 0 ↔ BitPair.pair l k = 0 := by
          revert hf hlo
          generalize BitPair.pair m k = p
          generalize BitPair.pair l k = q
          revert p q
          decide
        simp only [hsame] at hchange
        rw [havail, if_neg hf, if_neg hlo, hex, Nat.add_right_cancel hchange]
  · unfold PairUnclamped
    simp only [h3, hm.1, hm.2.2, hl.1, hl.2.1]
    exact ⟨hfreed, hlost⟩

theorem syncElement_availExact {i fuel k : Nat} {m l : BitVec 64} {st : SyncState} (hi : i < 8)
    (hk : k + fuel = 32)
    (hcur : ∀ j, k ≤ j → j < 32 → st.live.blk (32 * i + j) = BitPair.pair l j)
    (hex : AvailExact st.live) :
    AvailExact (syncElement i fuel (2 * k) (m >>> (2 * k)) (l >>> (2 * k)) st).live ∧
      ElementUnclamped i fuel (2 * k) (m >>> (2 * k)) (l >>> (2 * k)) st := by
  induction fuel generalizing k st with
  | zero => exact ⟨hex, trivial⟩
  | succ fuel ih =>
    have hfirst := hcur k le_rfl (by omega)
    obtain ⟨hpair, hclamp⟩ := syncPair_availExact (m := m) hi (show k < 32 by omega) hfirst hex
    have hrest : ∀ j, k + 1 ≤ j → j < 32 →
        (syncPair i (2 * k) (m >>> (2 * k)) (l >>> (2 * k)) st).live.blk (32 * i + j) =
          BitPair.pair l j := by
      intro j h1 h2
      rw [syncPair_blk hi (by omega) (by omega) hfirst, if_neg (by omega)]
      exact hcur j (by omega) h2
    obtain ⟨htail, htails⟩ := ih (by omega) hrest hpair
    unfold syncElement ElementUnclamped
    rw [← BitVec.shiftRight_add, ← BitVec.shiftRight_add, show 2 * k + 2 = 2 * (k + 1) by ring]
    exact ⟨htail, hclamp, htails⟩

theorem syncElements_availExact {bmap : BmapData} {fuel i : Nat} {st : SyncState}
    (hi : i + fuel = 8) (hex : AvailExact st.live) :
    AvailExact (syncElements bmap fuel i st).live ∧ ElementsUnclamped bmap fuel i st := by
  induction fuel generalizing i st with
  | zero => exact ⟨hex, trivial⟩
  | succ fuel ih =>
    unfold syncElements ElementsUnclamped
    split
    next => exact ih (by omega) hex
    next =>
      have hword : ∀ j, 0 ≤ j → j < 32 →
          st.live.blk (32 * i + j) = BitPair.pair (st.live.q i) j := by
        intro j _ hj
        unfold BmapData.blk
        rw [show (32 * i + j) / 32 = i by omega, show (32 * i + j) % 32 = j by omega]
      obtain ⟨helem, hclamp⟩ := @syncElement_availExact i 32 0 (bmap.q i) (st.live.q i) st
        (by omega) (by omega) hword hex
      simp only [Nat.mul_zero, BitVec.ushiftRight_zero] at helem hclamp
      obtain ⟨hrest, hclamps⟩ := ih (i := i + 1) (by omega) helem
      exact ⟨hrest, hclamp, hclamps⟩

theorem topElement_none {bmap : BmapData} {n : Nat} (h : topElement bmap n = none) :
    ∀ i, i < n → bmap.q i = 0 := by
  induction n with
  | zero => intro i hi; omega
  | succ n ih =>
    unfold topElement at h
    split at h
    next => cases h
    next hz =>
      intro i hi
      rcases Nat.lt_succ_iff_lt_or_eq.mp hi with hi | rfl
      · exact ih h i hi
      · simpa using hz

theorem free_of_topElement_none {bmap : BmapData} (h : topElement bmap bmapElements = none) :
    bmap.free = 256 := by
  have hzero := topElement_none h
  have hall : ∀ b ∈ Finset.range 256, bmap.blk b = 0 := by
    intro b hb
    rw [Finset.mem_range] at hb
    unfold BmapData.blk
    rw [hzero (b / 32) (by unfold bmapElements; omega)]
    exact BitPair.pair_zero _
  unfold BmapData.free
  rw [Finset.filter_true_of_mem hall, Finset.card_range]

theorem syncLinear_avail {live : BmapData} (bmap : BmapData)
    (h : topElement live bmapElements = none → live.avail = segSize) :
    (syncLinear live bmap).avail = live.avail := by
  unfold syncLinear
  split
  next hnone => exact (h hnone).symm
  next =>
    split
    next => split <;> rfl
    next => rfl

/-- A merge keeps `avail` exact, and none of its clamps takes effect. -/
theorem syncAdjust_availExact {live : BmapData} (bmap : BmapData) (hex : AvailExact live) :
    AvailExact (syncAdjust live bmap).live ∧ SyncUnclamped live bmap := by
  obtain ⟨hwords, hclamps⟩ := @syncElements_availExact bmap bmapElements 0 ⟨live, 0⟩ (Nat.zero_add 8)
    hex
  have hempty : topElement (syncElements bmap bmapElements 0 ⟨live, 0⟩).live bmapElements = none →
      (syncElements bmap bmapElements 0 ⟨live, 0⟩).live.avail = segSize := by
    intro hnone
    unfold AvailExact at hwords
    rw [hwords, free_of_topElement_none hnone]
    rfl
  exact ⟨hwords.congr (syncLinear_avail bmap hempty) (fun n => syncLinear_blk _ _ n), hclamps, hempty⟩

end Segment

/-- Every segment of every leaf that exists has an exact `avail`. -/
def FreemapExact (fm : Freemap) : Prop :=
  ∀ idx leaf, fm idx = some leaf → ∀ n, n < freemapCount → AvailExact (leaf.seg n)

theorem FreemapExact.update {fm : Freemap} {idx : Nat} {leaf : Leaf} (h : FreemapExact fm)
    (hleaf : ∀ n, n < freemapCount → AvailExact (leaf.seg n)) :
    FreemapExact (Function.update fm idx (some leaf)) := by
  intro j leaf' hj
  by_cases hji : j = idx
  · subst hji
    rw [Function.update_self] at hj
    cases Option.some.inj hj
    exact hleaf
  · rw [Function.update_of_ne hji] at hj
    exact h j leaf' hj

theorem setSeg_availExact {leaf : Leaf} {n : Nat} {bmap : BmapData} (hn : n < freemapCount)
    (hleaf : ∀ n, n < freemapCount → AvailExact (leaf.seg n)) (hex : AvailExact bmap) (m : Nat)
    (hm : m < freemapCount) : AvailExact ((leaf.setSeg n bmap).seg m) := by
  rw [setSeg_seg hn hm]
  split
  · exact hex
  · exact hleaf m hm

theorem bmapReserved_availExact : AvailExact bmapReserved := by
  have hfull : ∀ b ∈ Finset.range 256, ¬bmapReserved.blk b = 0 := by
    intro b hb
    unfold BmapData.blk BmapData.q bmapReserved
    rw [BitPair.pair_allOnes (by omega)]
    decide
  unfold AvailExact BmapData.free
  rw [Finset.filter_false_of_mem hfull, Finset.card_empty, Nat.mul_zero]
  rfl

theorem bmapFree_availExact : AvailExact bmapFree := by
  have hfree : ∀ b ∈ Finset.range 256, bmapFree.blk b = 0 := by
    intro b hb
    unfold BmapData.blk BmapData.q bmapFree
    exact BitPair.pair_zero _
  unfold AvailExact BmapData.free
  rw [Finset.filter_true_of_mem hfree, Finset.card_range]
  rfl

theorem freemapInit_availExact (hmp : Dev) (key n : Nat) :
    AvailExact ((freemapInit hmp key).seg n) := by
  unfold freemapInit Leaf.seg
  simp only
  split
  next => exact bmapReserved_availExact
  next => exact bmapFree_availExact

theorem freemapAdjust_availExact {hmp : Dev} {leaf leaf' : Leaf} {type dataOff radix bg : Nat}
    (hleaf : ∀ n, n < freemapCount → AvailExact (leaf.seg n))
    (h : freemapAdjust hmp leaf type dataOff radix = .ok (leaf', bg)) :
    ∀ n, n < freemapCount → AvailExact (leaf'.seg n) := by
  unfold freemapAdjust at h
  simp only [except_bind_eq_ok, kkassert_eq_ok] at h
  obtain ⟨_, h0, _, hradix, h⟩ := h
  split at h
  next =>
    simp only [pure, Except.pure, Except.ok.injEq, Prod.mk.injEq] at h
    obtain ⟨rfl, rfl⟩ := h
    exact hleaf
  next =>
    simp only [except_bind_eq_ok] at h
    obtain ⟨_, _, st, hloop, h⟩ := h
    obtain ⟨rfl, rfl⟩ := Prod.mk.inj (Except.ok.inj h)
    have hc := blockCount_cases hradix
    have hn : dataOff / segSize % freemapCount < freemapCount := Nat.mod_lt _ (by decide)
    rw [Nat.mul_comm (_ &&& 15) 2, BitPair.three_shiftLeft_eq_run (by omega), and_fifteen] at hloop
    have hseg := adjustLoop_availExact (Nat.mod_lt _ (by decide)) (by omega) (hleaf _ hn) hloop
    intro m hm
    rw [setBigmask_seg]
    exact setSeg_availExact hn hleaf hseg m hm

theorem availStep_exact {hmp : Dev} {fm fm' : Freemap} {a : AvailAction} (hex : FreemapExact fm)
    (h : availStep hmp fm a = some fm') : FreemapExact fm' := by
  cases a with
  | init idx =>
    simp only [availStep] at h
    split at h
    next =>
      cases Option.some.inj h
      exact hex.update fun n _ => freemapInit_availExact _ _ n
    next => cases h
  | alloc idx n cls subKey radix =>
    simp only [availStep] at h
    split at h
    next => cases h
    next leaf hl =>
      obtain ⟨⟨hn, hr⟩, h⟩ := Option.ite_none_right_eq_some.mp h
      split at h
      next => cases h
      next =>
        cases Option.some.inj h
        exact hex
      next bmap' off bg ha =>
        cases Option.some.inj h
        have hseg := bmapAlloc_availExact hr (hex idx leaf hl n hn) ha
        exact hex.update (setSeg_availExact hn (hex idx leaf hl) hseg)
  | adjust type dataOff radix =>
    simp only [availStep] at h
    split at h
    next => cases h
    next leaf hl =>
      split at h
      next => cases h
      next leaf' bg ha =>
        cases Option.some.inj h
        exact hex.update (freemapAdjust_availExact (hex _ leaf hl) ha)
  | sync idx n bmap =>
    simp only [availStep] at h
    split at h
    next => cases h
    next leaf hl =>
      obtain ⟨hn, h⟩ := Option.ite_none_right_eq_some.mp h
      cases Option.some.inj h
      have hseg := (syncAdjust_availExact bmap (hex idx leaf hl n hn)).1
      exact hex.update (setSeg_availExact hn (hex idx leaf hl) hseg)

/-- In every run `avail` is the space in state 00, and no merge of a segment that is reached runs
into a clamp. -/
theorem avail_exact {hmp : Dev} {fm : Freemap}
    (h : Run.Reach (availStep hmp) (fun _ _ => True) (fun _ => none) fm) {idx n : Nat} {leaf : Leaf}
    (hleaf : fm idx = some leaf) (hn : n < freemapCount) :
    (leaf.seg n).avail = freemapBlockSize * (leaf.seg n).free ∧
      ∀ bmap, SyncUnclamped (leaf.seg n) bmap := by
  have hex : FreemapExact fm :=
    h.invariant (I := FreemapExact) (fun _ _ h => by cases h) (fun hi _ hs => availStep_exact hi hs)
  have hseg := hex idx leaf hleaf n hn
  exact ⟨hseg, fun bmap => (syncAdjust_availExact bmap hseg).2⟩

/-- A block of segment 6 is allocated, staged, freed and lost again by merges, and one of segment 7
is recovered. -/
def availRun : List AvailAction :=
  [.init 0, .alloc 0 6 784 0 14, .sync 0 6 bmapFree, .sync 0 6 bmapFree, .sync 0 6 bmapReserved,
    .adjust 3 29376512 14]

theorem availRun_leaf :
    ((Run.exec (availStep smallDev) (fun _ => none) availRun).bind fun fm =>
      (fm 0).map fun leaf => (leaf.seg 7).avail) = some 4177920 := by
  decide

theorem avail_exact_small :
    ∃ fm leaf, Run.Reach (availStep smallDev) (fun _ _ => True) (fun _ => none) fm ∧
      fm 0 = some leaf ∧ (leaf.seg 7).avail = 4177920 ∧
      (leaf.seg 7).avail = freemapBlockSize * (leaf.seg 7).free ∧
      ∀ bmap, SyncUnclamped (leaf.seg 7) bmap := by
  obtain ⟨fm, hfm, hseg⟩ := Option.bind_eq_some_iff.mp availRun_leaf
  obtain ⟨leaf, hleaf, havail⟩ := Option.map_eq_some_iff.mp hseg
  have hreach := Run.Reach.start.exec hfm
  obtain ⟨hexact, hclamp⟩ := avail_exact (n := 7) hreach hleaf (by decide)
  exact ⟨fm, leaf, hreach, hleaf, havail, hexact, hclamp⟩

end Hammer2
