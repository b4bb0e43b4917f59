import Hammer2.Bigmask
import Hammer2.AvailExact

namespace Hammer2

/-- A segment can serve an allocation whatever its class: behind its linear iterator, or with an
aligned run of free blocks. -/
def Satisfiable (bmap : BmapData) (radix : Nat) : Prop := LinearFits bmap radix ∨ FreeRun bmap radix

/-- A clear bit of `bigmask` does not hide space. -/
def BigmaskInv (leaf : Leaf) : Prop :=
  ∀ r, r ≤ 16 → leaf.bigmask.getLsbD r = false → ∀ n, n < freemapCount →
    ¬Satisfiable (leaf.seg n) r

/-- What `bigmask` and `avail` promise about the segments of a leaf. -/
structure HintInv (leaf : Leaf) : Prop where
  exact : ∀ n, n < freemapCount → AvailExact (leaf.seg n)
  hint : BigmaskInv leaf

/-- An allocation, a recovery and a bulkfree merge. The in-memory bitmaps of a merge may be
anything. -/
inductive HintAction where
  | alloc (req : AllocRequest)
  | recover (type dataOff radix : Nat)
  | merge (cb : Cbinfo) (ub : BitVec 32)

/-- One step of the freemap leaf at `key`. -/
def hintStep (hmp : Dev) (key : Nat) (leaf : Leaf) : HintAction → Option Leaf
  | .alloc req =>
    if 10 ≤ req.radix ∧ req.radix ≤ 16 ∧ h2fmBase req.bnext = key then
      match tryAlloc hmp key leaf req with
      | .panic => none
      | .enospc leaf' => some leaf'
      | .ok leaf' _ _ => some leaf'
    else none
  | .recover type dataOff radix =>
    if h2fmBase dataOff = key then
      match freemapAdjust hmp leaf type dataOff radix with
      | .error _ => none
      | .ok (leaf', _) => some leaf'
    else none
  | .merge cb ub => some (syncLeaf hmp cb ub key leaf freemapCount)

section Segment

variable {bmap bmap' : BmapData} {radix : Nat}

theorem freeRun_of_blk_zero {b : Nat} (hr : radix ≤ 14) (hb : b < 256) (hz : bmap.blk b = 0) :
    FreeRun bmap radix := by
  have hone : blockCount radix = 1 := by
    rcases blockCount_radix (show radix ≤ 16 by omega) with h | h | h
    · exact h.1
    · omega
    · omega
  refine ⟨b, ?_, ?_, ?_⟩
  · rw [hone, Nat.mod_one]
  · omega
  · intro b' h1 h2
    rwa [show b' = b by omega]

theorem LinearFits.radix_lt (h : LinearFits bmap radix) : radix < 14 := by
  unfold LinearFits freemapBlockSize at h
  rw [Nat.shiftLeft_eq, one_mul] at h
  exact radix_lt_of_two_pow_lt (by omega)

theorem except_bind_eq_error {ε α β : Type} {x : Except ε α} {f : α → Except ε β} {e : ε} :
    x >>= f = .error e ↔ x = .error e ∨ ∃ a, x = .ok a ∧ f a = .error e := by
  cases x <;> simp [bind, Except.bind]

@[simp]
theorem kkassert_ne_enospc (p : Prop) [Decidable p] : kkassert p ≠ .error .enospc := by
  unfold kkassert
  split <;> simp

theorem linearSlot_ne_enospc : linearSlot bmap radix ≠ .error .enospc := by
  unfold linearSlot
  simp only [ne_eq, except_bind_eq_error, kkassert_ne_enospc, false_or, not_exists, not_and]
  intro _ _ _ _ h
  cases h

theorem subKeySlot_ne_enospc {cls subKey : Nat} :
    subKeySlot bmap cls subKey radix ≠ .error .enospc := by
  unfold subKeySlot
  split
  · simp only [ne_eq, except_bind_eq_error, kkassert_ne_enospc, false_or, not_exists, not_and]
    intro _ _ _ _ _ _
    split <;> simp [pure, Except.pure]
  · simp [pure, Except.pure]

theorem bitmapSlot_enospc {cls subKey : Nat}
    (h : bitmapSlot bmap cls subKey radix = .error .enospc) :
    bitmapScan bmap radix bmapElements 0 = none := by
  unfold bitmapSlot at h
  simp only [except_bind_eq_error, subKeySlot_ne_enospc, false_or] at h
  obtain ⟨direct, _, h⟩ := h
  split at h
  next hnone => exact (Option.or_eq_none_iff.mp hnone).2
  next => simp [pure, Except.pure] at h

/-- `hammer2_bmap_alloc` gives up only on a segment that cannot serve the request. -/
theorem not_satisfiable_of_enospc {cls subKey : Nat} (hr : radix ≤ 16)
    (h : bmapAlloc bmap cls subKey radix = .error .enospc) : ¬Satisfiable bmap radix := by
  unfold bmapAlloc at h
  simp only [except_bind_eq_error, kkassert_ne_enospc, false_or] at h
  rcases h with h | ⟨slot, _, _, _, h⟩
  · unfold allocSlot at h
    split at h
    next => exact absurd h linearSlot_ne_enospc
    next hf =>
      rintro (hlin | hrun)
      · exact hf hlin
      · have hscan := (bitmapScan_isSome_iff_freeRun hr).mpr hrun
        rw [bitmapSlot_enospc h] at hscan
        cases hscan
  · simp [pure, Except.pure] at h

/-- The place that an aligned `sub_key` selects is an aligned run. -/
theorem freeRun_of_subKeySlot {cls subKey : Nat} {pick : Nat × Nat} (hr : radix ≤ 16)
    (hkey : subKey % 2 ^ radix = 0)
    (h : subKeySlot bmap cls subKey radix = .ok (some pick)) : FreeRun bmap radix := by
  have hc := blockCount_radix hr
  unfold subKeySlot at h
  split at h
  next hd =>
    simp only [except_bind_eq_ok, kkassert_eq_ok] at h
    obtain ⟨_, hi, _, _, _, hfit, h⟩ := h
    split at h
    next hz =>
      rw [bmradix_eq hr] at hfit
      rw [Nat.mul_comm _ 2, bmmask_shiftLeft hr] at hz
      unfold bmapBitsPerElement at hfit
      have hfree := (q_and_run_eq_zero_iff (by omega) (by omega)).mp hz
      unfold bmapIndexSize bmapBlocksPerElement freemapBlockSize at hfit hfree
      unfold segSize bmapElements at hi hfree
      have h14 := hd.2
      unfold freemapBlockRadix at h14
      refine ⟨_, ?_, ?_, hfree⟩
      · rcases hc with ⟨hc, hrad⟩ | ⟨hc, rfl⟩ | ⟨hc, rfl⟩ <;> rw [hc] <;> omega
      · omega
    next => simp [pure, Except.pure] at h
  next => simp [pure, Except.pure] at h

/-- `hammer2_bmap_alloc` succeeds only on a segment that can serve the request, if `sub_key` is
aligned as the logical blocks of a file are. -/
theorem satisfiable_of_bmapAlloc {cls subKey : Nat} {res : BmapData × Nat × Nat} (hr : radix ≤ 16)
    (hkey : subKey % 2 ^ radix = 0) (h : bmapAlloc bmap cls subKey radix = .ok res) :
    Satisfiable bmap radix := by
  unfold bmapAlloc at h
  obtain ⟨slot, hslot, _⟩ := except_bind_eq_ok.mp h
  unfold allocSlot at hslot
  split at hslot
  next hf => exact Or.inl hf
  next =>
    right
    unfold bitmapSlot at hslot
    obtain ⟨direct, hdirect, hpick⟩ := except_bind_eq_ok.mp hslot
    cases direct with
    | some pick => exact freeRun_of_subKeySlot hr hkey hdirect
    | none =>
      refine (bitmapScan_isSome_iff_freeRun hr).mp ?_
      cases hscan : bitmapScan bmap radix bmapElements 0 with
      | none => simp [hscan, throw, throwThe, MonadExceptOf.throw] at hpick
      | some pick => rfl

theorem FreeRun.mono {radix : Nat} (hzero : ∀ b, b < 256 → bmap'.blk b = 0 → bmap.blk b = 0)
    (h : FreeRun bmap' radix) : FreeRun bmap radix := by
  obtain ⟨b, hal, hfit, hfree⟩ := h
  exact ⟨b, hal, hfit, fun b' h1 h2 => hzero b' (by omega) (hfree b' h1 h2)⟩

/-- An allocation opens no room: blocks are only marked, and the iterator moves on in its block or
into a block that was free. -/
theorem AllocEffect.satisfiable {off r : Nat} (heff : AllocEffect bmap bmap' radix off)
    (h : Satisfiable bmap' r) : Satisfiable bmap r := by
  rcases h with hlin | hrun
  · have hr := hlin.radix_lt
    have hfits := heff.fits
    have hpos := Nat.two_pow_pos radix
    rcases heff.origin with ⟨hmid, hrad, hoff, hlin'⟩ | ⟨hal, hfree, hlin', _⟩
    · left
      unfold LinearFits freemapBlockSize segSize at hlin ⊢
      have hin := heff.shape.2 hrad
      omega
    · split at hlin'
      next hrad =>
        right
        have hcount := blockCount_of_lt hrad
        exact freeRun_of_blk_zero (by omega) (by omega) (hfree (off / 16384) le_rfl (by omega))
      next =>
        left
        unfold LinearFits at hlin ⊢
        rwa [hlin'] at hlin
  · right
    refine hrun.mono fun b hb hz => ?_
    rw [heff.marked b hb] at hz
    split at hz
    · cases hz
    · exact hz

/-- The quick check of `avail` does not pass over a segment that could serve the request. -/
theorem not_satisfiable_of_not_availchk (hr : radix ≤ 16) (hex : AvailExact bmap)
    (h : ¬Availchk bmap radix) : ¬Satisfiable bmap radix := by
  unfold Availchk at h
  push Not at h
  obtain ⟨havail, hmid⟩ := h
  rintro (hlin | ⟨b, _, hfit, hfree⟩)
  · exact hlin.2.1 (hmid hlin.radix_lt)
  · have hpos := blockCount_pos hr
    have hmem : b ∈ (Finset.range 256).filter fun b => bmap.blk b = 0 := by
      rw [Finset.mem_filter, Finset.mem_range]
      exact ⟨by omega, hfree b le_rfl (by omega)⟩
    have hcard : 0 < bmap.free := Finset.card_pos.mpr ⟨b, hmem⟩
    unfold AvailExact freemapBlockSize at hex
    omega

/-- A relaxed try of a segment fails only if the segment cannot serve the request. -/
theorem trySegment_enospc {leaf : Leaf} {req : AllocRequest} {n : Nat} (hr : req.radix ≤ 16)
    (hrel : req.relaxed = true) (hn : n < freemapCount) (hex : AvailExact (leaf.seg n))
    (h : trySegment leaf req n = .error .enospc) : ¬Satisfiable (leaf.seg n) req.radix := by
  unfold trySegment at h
  split at h
  next hc =>
    cases ha : bmapAlloc (leaf.seg n) req.cls req.key req.radix with
    | error e =>
      rw [ha] at h
      cases h
      exact not_satisfiable_of_enospc hr ha
    | ok res =>
      rw [ha] at h
      cases h
  next hc =>
    have havail : ¬Availchk (leaf.seg n) req.radix := by
      intro hav
      exact hc ⟨hn, hav, Or.inr (Or.inr hrel)⟩
    exact not_satisfiable_of_not_availchk hr hex havail

/-- A scan from the first segment that finds nothing has tried every segment. -/
theorem leafScan_enospc {leaf : Leaf} {req : AllocRequest} {fuel count : Nat}
    (h : leafScan leaf req 0 fuel count = .error .enospc) :
    ∀ n, count ≤ n → n < count + fuel → n < freemapCount →
      trySegment leaf req n = .error .enospc := by
  induction fuel generalizing count with
  | zero => intro n h1 h2; omega
  | succ fuel ih =>
    intro n h1 h2 hn
    unfold leafScan at h
    rw [if_neg (by omega), Nat.zero_add] at h
    split at h
    next hfirst =>
      split at h
      next =>
        rcases Nat.eq_or_lt_of_le h1 with rfl | hlt
        · exact hfirst
        · exact ih h n hlt (by omega) hn
      next hne => exact absurd h hne
    next hne => exact absurd h hne

end Segment

section Leaf

variable {hmp : Dev} {key : Nat} {leaf leaf' : Leaf}

theorem hintInv_init (hmp : Dev) (key : Nat) : HintInv (freemapInit hmp key) where
  exact n _ := freemapInit_availExact hmp key n
  hint r hr h := by
    have hset : (freemapInit hmp key).bigmask.getLsbD r = true := by
      unfold freemapInit
      rw [BitVec.getLsbD_allOnes, decide_eq_true_eq]
      omega
    rw [hset] at h
    cases h

/-- Setting all the bits makes any promise good. -/
theorem hintInv_allOnes (hex : ∀ n, n < freemapCount → AvailExact (leaf.seg n)) :
    HintInv (leaf.setBigmask (BitVec.allOnes 32)) where
  exact := hex
  hint r hr h := by
    unfold Leaf.setBigmask at h
    rw [BitVec.getLsbD_allOnes, decide_eq_false_iff_not] at h
    omega

theorem HintInv.setSeg {n : Nat} {bmap' : BmapData} (h : HintInv leaf) (hn : n < freemapCount)
    (hex : AvailExact bmap') (hsat : ∀ r, Satisfiable bmap' r → Satisfiable (leaf.seg n) r) :
    HintInv (leaf.setSeg n bmap') where
  exact := setSeg_availExact hn h.exact hex
  hint r hr hbit m hm := by
    rw [setSeg_seg hn hm]
    split
    · intro hs
      exact h.hint r hr hbit n hn (hsat r hs)
    · exact h.hint r hr hbit m hm

theorem tryAlloc_ok_hintInv {req : AllocRequest} {dataOff bg : Nat} (hr : req.radix ≤ 16)
    (hi : HintInv leaf) (h : tryAlloc hmp key leaf req = .ok leaf' dataOff bg) : HintInv leaf' := by
  obtain ⟨-, -, n, bmap', off, hn, rfl, -, ha⟩ := tryAlloc_bmapAlloc h
  exact hi.setSeg hn (bmapAlloc_availExact hr (hi.exact n hn) ha)
    fun r => (bmapAlloc_allocEffect hr ha).satisfiable

/-- A failed try clears a bit only after a relaxed scan of all segments. -/
theorem tryAlloc_enospc_hintInv {req : AllocRequest} (hr : req.radix ≤ 16) (hi : HintInv leaf)
    (h : tryAlloc hmp key leaf req = .enospc leaf') : HintInv leaf' := by
  unfold tryAlloc at h
  simp only at h
  split at h
  next =>
    cases h
    exact hi
  next =>
    split at h
    next => simp at h
    next =>
      split at h
      next => simp at h
      next hscan =>
        split at h
        next hfull =>
          cases h
          rw [hfull.1] at hscan
          have hall := leafScan_enospc hscan
          refine ⟨hi.exact, fun r hr' hbit n hn => ?_⟩
          by_cases hrr : r = req.radix
          · subst hrr
            rw [setBigmask_seg]
            exact trySegment_enospc hr hfull.2 hn (hi.exact n hn)
              (hall n (Nat.zero_le _) (by omega) hn)
          · refine hi.hint r hr' ?_ n hn
            unfold Leaf.setBigmask at hbit
            rw [BitVec.getLsbD_and, BitVec.getLsbD_not, ← BitVec.twoPow_eq,
              BitVec.getLsbD_twoPow] at hbit
            simpa [show r < 32 by omega, Ne.symm hrr] using hbit
        next =>
          cases h
          exact hi
      next => split at h <;> simp at h

/-- A relaxed try from the first segment fails only if no segment can serve the request. -/
theorem tryAlloc_enospc_complete {req : AllocRequest} (hr : req.radix ≤ 16) (hi : HintInv leaf)
    (hrel : req.relaxed = true) (hstart : req.bnext = key)
    (h : tryAlloc hmp key leaf req = .enospc leaf') :
    ∀ n, n < freemapCount → ¬Satisfiable (leaf.seg n) req.radix := by
  unfold tryAlloc at h
  rw [hstart, Nat.sub_self, Nat.zero_div] at h
  simp only at h
  split at h
  next hbit => exact hi.hint _ hr hbit
  next =>
    split at h
    next => simp at h
    next =>
      split at h
      next => simp at h
      next hscan =>
        intro n hn
        exact trySegment_enospc hr hrel hn (hi.exact n hn)
          (leafScan_enospc hscan n (Nat.zero_le _) (by omega) hn)
      next => split at h <;> simp at h

theorem freemapAdjust_hintInv {type dataOff radix bg : Nat} (hi : HintInv leaf)
    (h : freemapAdjust hmp leaf type dataOff radix = .ok (leaf', bg)) : HintInv leaf' := by
  have hex := freemapAdjust_availExact hi.exact h
  rcases freemapAdjust_ok h with rfl | ⟨st, heff, rfl⟩
  · exact hi
  · cases hm : st.modified with
    | true =>
      simp only [hm, if_true] at hex ⊢
      exact hintInv_allOnes hex
    | false =>
      -- nothing was marked, so the segment is put back as it was
      have hn : dataOff / 4194304 % 256 < freemapCount := Nat.mod_lt _ (by decide)
      have hsame := hi.setSeg hn (hi.exact _ hn) (fun _ hs => hs)
      rw [heff.untouched hm]
      exact hsame

theorem syncSegment_hintInv {cb : Cbinfo} {ub : BitVec 32} {n : Nat} (hn : n < freemapCount)
    (hi : HintInv leaf) : HintInv (syncSegment hmp cb ub key leaf n) := by
  unfold syncSegment
  split
  next => exact hi
  next =>
    have hseg := (syncAdjust_availExact (cb.segFor key n) (hi.exact n hn)).1
    exact hintInv_allOnes (setSeg_availExact hn hi.exact hseg)

theorem syncLeaf_hintInv {cb : Cbinfo} {ub : BitVec 32} {n : Nat} (hn : n ≤ freemapCount)
    (hi : HintInv leaf) : HintInv (syncLeaf hmp cb ub key leaf n) := by
  induction n with
  | zero => exact hi
  | succ n ih => exact syncSegment_hintInv hn (ih (by omega))

theorem hintStep_hintInv {a : HintAction} (hi : HintInv leaf)
    (h : hintStep hmp key leaf a = some leaf') : HintInv leaf' := by
  cases a with
  | alloc req =>
    obtain ⟨⟨_, hr, _⟩, h⟩ := Option.ite_none_right_eq_some.mp h
    split at h
    next => cases h
    next leaf'' ha =>
      cases Option.some.inj h
      exact tryAlloc_enospc_hintInv hr hi ha
    next leaf'' off bg ha =>
      cases Option.some.inj h
      exact tryAlloc_ok_hintInv hr hi ha
  | recover type dataOff radix =>
    obtain ⟨_, h⟩ := Option.ite_none_right_eq_some.mp h
    split at h
    next => cases h
    next leaf'' bg ha =>
      cases Option.some.inj h
      exact freemapAdjust_hintInv hi ha
  | merge cb ub =>
    cases Option.some.inj h
    exact syncLeaf_hintInv le_rfl hi

end Leaf

/-- A clear bit of `bigmask` never hides space: there is neither a free run nor room behind the
iterator, and `hammer2_bmap_alloc` succeeds in no segment. -/
theorem bigmask_never_hides {hmp : Dev} {key : Nat} {leaf : Leaf}
    (h : Run.Reach (hintStep hmp key) (fun _ _ => True) (freemapInit hmp key) leaf) {r n : Nat}
    (hr : r ≤ 16) (hbit : leaf.bigmask.getLsbD r = false) (hn : n < freemapCount) :
    ¬Satisfiable (leaf.seg n) r ∧ ∀ cls subKey res, subKey % 2 ^ r = 0 →
      bmapAlloc (leaf.seg n) cls subKey r ≠ .ok res := by
  have hi : HintInv leaf :=
    h.invariant (I := HintInv) (hintInv_init hmp key) (fun hi _ hs => hintStep_hintInv hi hs)
  have hno := hi.hint r hr hbit n hn
  exact ⟨hno, fun _ _ _ hkey ha => hno (satisfiable_of_bmapAlloc hr hkey ha)⟩

/-- On a leaf past the end of the volume a relaxed scan for an inode finds nothing, and one bit is
cleared. -/
theorem bigmask_never_hides_past_end :
    ∃ leaf, Run.Reach (hintStep smallDev 1073741824) (fun _ _ => True)
        (freemapInit smallDev 1073741824) leaf ∧
      leaf.bigmask.getLsbD 10 = false ∧ ¬Satisfiable (leaf.seg 3) 10 ∧
      ∀ cls subKey res, subKey % 2 ^ 10 = 0 → bmapAlloc (leaf.seg 3) cls subKey 10 ≠ .ok res := by
  have hrun : (Run.exec (hintStep smallDev 1073741824) (freemapInit smallDev 1073741824)
      [.alloc ⟨1, 0, 10, 1073741824, true⟩]).map (fun leaf => leaf.bigmask.getLsbD 10) =
        some false := by
    decide +kernel
  obtain ⟨leaf, hleaf, hbit⟩ := Option.map_eq_some_iff.mp hrun
  have hreach := Run.Reach.start.exec hleaf
  exact ⟨leaf, hreach, hbit, bigmask_never_hides hreach (by decide) hbit (by decide)⟩

end Hammer2
