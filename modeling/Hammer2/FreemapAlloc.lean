import Hammer2.BigmaskHint

namespace Hammer2

/-- `hammer2_fiterate`. The field `bpref` only gives the first `bnext`. -/
structure Fiterate where
  bnext : Nat
  loops : Nat
  relaxed : Bool

/-- What `hammer2_freemap_try_alloc` returns: an offset, `EAGAIN` or `ENOSPC`. -/
inductive FreemapTry where
  | panic
  | again (fm : Freemap) (iter : Fiterate)
  | enospc (fm : Freemap) (iter : Fiterate)
  | ok (fm : Freemap) (iter : Fiterate) (dataOff : Nat)

/-- `hammer2_freemap_iterate`; the flag is set for `ENOSPC`. -/
def freemapIterate (hmp : Dev) (iter : Fiterate) : Fiterate × Bool :=
  let bnext := iter.bnext / freemapLevel1Size * freemapLevel1Size + freemapLevel1Size
  if hmp.totalSize ≤ bnext then
    if 2 ≤ iter.loops + 1 then
      if iter.relaxed then (⟨0, iter.loops + 1, true⟩, true)
      else (⟨0, iter.loops + 1, true⟩, false)
    else (⟨0, iter.loops + 1, iter.relaxed⟩, false)
  else ({ iter with bnext := bnext }, false)

def Fiterate.request (iter : Fiterate) (type key radix : Nat) : AllocRequest :=
  ⟨type, key, radix, iter.bnext, iter.relaxed⟩

/-- `hammer2_freemap_try_alloc` -/
def freemapTry (hmp : Dev) (type key radix : Nat) (fm : Freemap) (iter : Fiterate) : FreemapTry :=
  let idx := iter.bnext / freemapLevel1Size
  match tryAlloc hmp (h2fmBase iter.bnext) (fm.leaf hmp idx) (iter.request type key radix) with
  | .panic => .panic
  | .ok leaf dataOff _ => .ok (Function.update fm idx (some leaf)) iter dataOff
  | .enospc leaf =>
    match freemapIterate hmp iter with
    | (iter', true) => .enospc (Function.update fm idx (some leaf)) iter'
    | (iter', false) => .again (Function.update fm idx (some leaf)) iter'

/-- The loop of `hammer2_freemap_alloc` while it gets `EAGAIN`. -/
def allocLoop (hmp : Dev) (type key radix : Nat) : Nat → Freemap → Fiterate → FreemapTry
  | 0, fm, iter => .again fm iter
  | fuel + 1, fm, iter =>
    match freemapTry hmp type key radix fm iter with
    | .again fm' iter' => allocLoop hmp type key radix fuel fm' iter'
    | result => result

/-- `hammer2_freemap_alloc` from the heuristic start `bpref`, with `hmp->freemap_relaxed`. -/
def freemapAlloc (hmp : Dev) (type key radix : Nat) (fm : Freemap) (bpref : Nat) (relaxed : Bool)
    (fuel : Nat) : FreemapTry :=
  allocLoop hmp type key radix fuel fm
    ⟨if hmp.totalSize < bpref then hmp.totalSize - 1 else bpref, 0, relaxed⟩

/-- The loop has not come to an end. -/
def FreemapTry.IsAgain : FreemapTry → Prop
  | .again _ _ => True
  | _ => False

/-- The passes over the freemap that come after this one. -/
def Fiterate.passes (iter : Fiterate) : Nat := 1 - iter.loops + if iter.relaxed then 0 else 1

/-- A bound on the calls that are still to come. -/
def Fiterate.rank (hmp : Dev) (iter : Fiterate) : Nat :=
  iter.passes * (hmp.totalSize / freemapLevel1Size + 1) +
    (hmp.totalSize / freemapLevel1Size - iter.bnext / freemapLevel1Size)

/-- No segment of leaf `idx` can serve the request. -/
def LeafFull (hmp : Dev) (fm : Freemap) (radix idx : Nat) : Prop :=
  ∀ n, n < freemapCount → ¬Satisfiable ((fm.leaf hmp idx).seg n) radix

/-- The search from `fm₀` has changed no segment, and a relaxed pass that began at the first leaf
has found the leaves behind it full. -/
structure SearchInv (hmp : Dev) (radix : Nat) (fm₀ fm : Freemap) (iter : Fiterate) : Prop where
  same : ∀ idx, (fm.leaf hmp idx).bmdata = (fm₀.leaf hmp idx).bmdata
  hint : ∀ idx, HintInv (fm.leaf hmp idx)
  passed : iter.relaxed = true → 1 ≤ iter.loops → iter.bnext % freemapLevel1Size = 0 ∧
    ∀ idx, idx < iter.bnext / freemapLevel1Size → LeafFull hmp fm₀ radix idx

section Search

variable {hmp : Dev} {type key radix : Nat} {fm₀ fm fm' : Freemap} {iter iter' : Fiterate}

theorem leafFull_congr {idx : Nat} (h : (fm.leaf hmp idx).bmdata = (fm₀.leaf hmp idx).bmdata) :
    LeafFull hmp fm radix idx ↔ LeafFull hmp fm₀ radix idx := by
  unfold LeafFull Leaf.seg
  rw [h]

theorem rank_lt_of_passes_lt (h : iter'.passes < iter.passes) : iter'.rank hmp < iter.rank hmp := by
  have hmul := Nat.mul_le_mul_right (hmp.totalSize / freemapLevel1Size + 1) (Nat.succ_le_of_lt h)
  rw [Nat.succ_mul] at hmul
  unfold Fiterate.rank
  generalize hmp.totalSize / freemapLevel1Size = last at hmul ⊢
  have hsub := Nat.sub_le last (iter'.bnext / freemapLevel1Size)
  omega

/-- Every call that is repeated gets closer to the end of its pass or ends a pass that is not the
last one. -/
theorem freemapIterate_rank (h : freemapIterate hmp iter = (iter', false)) :
    iter'.rank hmp < iter.rank hmp := by
  unfold freemapIterate at h
  simp only at h
  split at h
  next hwrap =>
    apply rank_lt_of_passes_lt
    unfold Fiterate.passes
    split at h
    next hloops =>
      cases hrel : iter.relaxed with
      | true => simp [hrel] at h
      | false =>
        simp only [hrel, Bool.false_eq_true, if_false, Prod.mk.injEq, and_true] at h
        subst h
        simp only [if_true, Bool.false_eq_true, if_false]
        omega
    next hloops =>
      cases h
      simp only
      omega
  next hin =>
    cases h
    have hnext : (iter.bnext / freemapLevel1Size * freemapLevel1Size + freemapLevel1Size) /
        freemapLevel1Size = iter.bnext / freemapLevel1Size + 1 := by
      unfold freemapLevel1Size
      omega
    have hlt : iter.bnext / freemapLevel1Size < hmp.totalSize / freemapLevel1Size := by
      unfold freemapLevel1Size at hin ⊢
      omega
    unfold Fiterate.rank Fiterate.passes
    rw [hnext]
    simp only
    omega

theorem freemapTry_again (h : freemapTry hmp type key radix fm iter = .again fm' iter') :
    freemapIterate hmp iter = (iter', false) ∧
      ∃ leaf, fm' = Function.update fm (iter.bnext / freemapLevel1Size) (some leaf) ∧
        tryAlloc hmp (h2fmBase iter.bnext) (fm.leaf hmp (iter.bnext / freemapLevel1Size))
          (iter.request type key radix) = .enospc leaf := by
  unfold freemapTry at h
  simp only at h
  split at h
  next => cases h
  next => cases h
  next leaf hal =>
    split at h
    next => cases h
    next iter'' hit =>
      cases h
      exact ⟨hit, leaf, rfl, hal⟩

theorem freemapTry_enospc (h : freemapTry hmp type key radix fm iter = .enospc fm' iter') :
    freemapIterate hmp iter = (iter', true) ∧
      ∃ leaf, fm' = Function.update fm (iter.bnext / freemapLevel1Size) (some leaf) ∧
        tryAlloc hmp (h2fmBase iter.bnext) (fm.leaf hmp (iter.bnext / freemapLevel1Size))
          (iter.request type key radix) = .enospc leaf := by
  unfold freemapTry at h
  simp only at h
  split at h
  next => cases h
  next => cases h
  next leaf hal =>
    split at h
    next iter'' hit =>
      cases h
      exact ⟨hit, leaf, rfl, hal⟩
    next => cases h

/-- The loop ends: with fuel above the rank it is not waiting for another call. -/
theorem allocLoop_terminates {fuel : Nat} (hf : iter.rank hmp < fuel) :
    ¬(allocLoop hmp type key radix fuel fm iter).IsAgain := by
  induction fuel generalizing fm iter with
  | zero => omega
  | succ fuel ih =>
    unfold allocLoop
    split
    next fm' iter' hagain =>
      have hrank := freemapIterate_rank (freemapTry_again hagain).1
      exact ih (by omega)
    next hne =>
      intro hagain
      cases hres : freemapTry hmp type key radix fm iter with
      | again fm' iter' => exact hne fm' iter' hres
      | panic => rw [hres] at hagain; exact hagain
      | enospc fm' iter' => rw [hres] at hagain; exact hagain
      | ok fm' iter' off => rw [hres] at hagain; exact hagain

/-- In a relaxed pass from the first leaf a failed try finds its leaf full. -/
theorem SearchInv.leaf_full (hi : SearchInv hmp radix fm₀ fm iter) (hr : radix ≤ 16)
    (hrel : iter.relaxed = true) (hloops : 1 ≤ iter.loops) {leaf : Leaf}
    (h : tryAlloc hmp (h2fmBase iter.bnext) (fm.leaf hmp (iter.bnext / freemapLevel1Size))
      (iter.request type key radix) = .enospc leaf) :
    LeafFull hmp fm₀ radix (iter.bnext / freemapLevel1Size) := by
  have hstart : iter.bnext = h2fmBase iter.bnext := by
    have hmod := (hi.passed hrel hloops).1
    unfold freemapLevel1Size at hmod
    unfold h2fmBase freemapLevel1Size
    omega
  have hfull := tryAlloc_enospc_complete hr (hi.hint (iter.bnext / freemapLevel1Size)) hrel hstart h
  exact (leafFull_congr (hi.same _)).mp hfull

theorem SearchInv.again (hi : SearchInv hmp radix fm₀ fm iter) (hr : radix ≤ 16)
    (h : freemapTry hmp type key radix fm iter = .again fm' iter') :
    SearchInv hmp radix fm₀ fm' iter' := by
  obtain ⟨hit, leaf, rfl, hal⟩ := freemapTry_again h
  refine ⟨?_, ?_, ?_⟩
  · intro idx
    rw [leaf_update]
    split
    next heq => rw [tryAlloc_enospc hal, hi.same, heq]
    next => exact hi.same idx
  · intro idx
    rw [leaf_update]
    split
    next => exact tryAlloc_enospc_hintInv hr (hi.hint _) hal
    next => exact hi.hint idx
  · intro hrel hloops
    unfold freemapIterate at hit
    simp only at hit
    split at hit
    next =>
      -- a new pass begins, nothing is behind it
      have hzero : iter'.bnext = 0 := by
        split at hit
        next =>
          split at hit
          next => cases hit
          next =>
            cases hit
            rfl
        next =>
          cases hit
          rfl
      rw [hzero, Nat.zero_div]
      exact ⟨Nat.zero_mod _, fun idx hidx => by omega⟩
    next hin =>
      cases hit
      have hnext : (iter.bnext / freemapLevel1Size * freemapLevel1Size + freemapLevel1Size) /
          freemapLevel1Size = iter.bnext / freemapLevel1Size + 1 := by
        unfold freemapLevel1Size
        omega
      simp only at hrel hloops ⊢
      rw [hnext]
      refine ⟨by unfold freemapLevel1Size; omega, fun idx hidx => ?_⟩
      rcases Nat.lt_succ_iff_lt_or_eq.mp hidx with hidx | rfl
      · exact (hi.passed hrel hloops).2 idx hidx
      · exact hi.leaf_full hr hrel hloops hal

/-- `ENOSPC` ends a relaxed pass over all leaves. -/
theorem SearchInv.enospc (hi : SearchInv hmp radix fm₀ fm iter) (hr : radix ≤ 16)
    (h : freemapTry hmp type key radix fm iter = .enospc fm' iter') {idx : Nat}
    (hidx : idx * freemapLevel1Size < hmp.totalSize) : LeafFull hmp fm₀ radix idx := by
  obtain ⟨hit, leaf, rfl, hal⟩ := freemapTry_enospc h
  unfold freemapIterate at hit
  simp only at hit
  split at hit
  next hend =>
    split at hit
    next hloops =>
      split at hit
      next hrel =>
        have hle : idx ≤ iter.bnext / freemapLevel1Size := by
          unfold freemapLevel1Size at hend hidx ⊢
          omega
        rcases Nat.eq_or_lt_of_le hle with rfl | hlt
        · exact hi.leaf_full hr hrel (by omega) hal
        · exact (hi.passed hrel (by omega)).2 idx hlt
      next => cases hit
    next => cases hit
  next => cases hit

theorem allocLoop_enospc {fuel : Nat} (hi : SearchInv hmp radix fm₀ fm iter) (hr : radix ≤ 16)
    (h : allocLoop hmp type key radix fuel fm iter = .enospc fm' iter') {idx : Nat}
    (hidx : idx * freemapLevel1Size < hmp.totalSize) : LeafFull hmp fm₀ radix idx := by
  induction fuel generalizing fm iter with
  | zero => cases h
  | succ fuel ih =>
    unfold allocLoop at h
    split at h
    next fm'' iter'' hagain => exact ih (hi.again hr hagain) h
    next => exact hi.enospc hr h hidx

end Search

/-- The retry loop of `hammer2_freemap_alloc` ends, and it gives up only if no segment of the volume
can serve the request. -/
theorem freemapAlloc_complete {hmp : Dev} {fm : Freemap} (type key bpref : Nat) {radix : Nat}
    (relaxed : Bool) (hr : radix ≤ 16) (hinv : ∀ idx leaf, fm idx = some leaf → HintInv leaf) :
    (∃ N, ∀ fuel, N ≤ fuel → ¬(freemapAlloc hmp type key radix fm bpref relaxed fuel).IsAgain) ∧
      ∀ fuel fm' iter', freemapAlloc hmp type key radix fm bpref relaxed fuel = .enospc fm' iter' →
        ∀ idx, idx * freemapLevel1Size < hmp.totalSize → LeafFull hmp fm radix idx := by
  constructor
  · exact ⟨_, fun fuel hf => allocLoop_terminates (Nat.lt_of_succ_le hf)⟩
  · intro fuel fm' iter' h idx hidx
    have hinit : SearchInv hmp radix fm fm
        ⟨if hmp.totalSize < bpref then hmp.totalSize - 1 else bpref, 0, relaxed⟩ := by
      refine ⟨fun _ => rfl, fun idx => ?_, fun _ hloops => by simp at hloops⟩
      unfold Freemap.leaf
      cases hleaf : fm idx with
      | none => exact hintInv_init hmp _
      | some leaf => exact hinv idx leaf hleaf
    exact allocLoop_enospc hinit hr h hidx

/-- A full 32MB volume: its leaf has no free segment left. -/
def fullFreemap : Freemap := fun idx =>
  if idx = 0 then some ⟨fun _ => bmapReserved, BitVec.allOnes 32⟩ else none

theorem freemapAlloc_complete_full :
    (∃ N, ∀ fuel, N ≤ fuel → ¬(freemapAlloc smallDev 1 0 10 fullFreemap 0 false fuel).IsAgain) ∧
      ∀ fuel fm' iter', freemapAlloc smallDev 1 0 10 fullFreemap 0 false fuel = .enospc fm' iter' →
        ∀ idx, idx * freemapLevel1Size < smallDev.totalSize →
          LeafFull smallDev fullFreemap 10 idx := by
  have hinv : ∀ idx leaf, fullFreemap idx = some leaf → HintInv leaf := by
    intro idx leaf h
    unfold fullFreemap at h
    obtain ⟨_, h⟩ := Option.ite_none_right_eq_some.mp h
    cases Option.some.inj h
    have hfull : HintInv (Leaf.setBigmask ⟨fun _ => bmapReserved, 0⟩ (BitVec.allOnes 32)) :=
      hintInv_allOnes fun _ _ => bmapReserved_availExact
    exact hfull
  exact freemapAlloc_complete 1 0 0 false (by decide) hinv

/-- The free segments of this leaf have lost their `avail`. -/
def starvedFreemap : Freemap := fun idx =>
  if idx = 0 then some ⟨fun _ => { bmapFree with avail := 0 }, BitVec.allOnes 32⟩ else none

/-- Over such a leaf the search gives up although every segment is free: a clear bit of `bigmask`
hides nothing, but `avail` does. -/
theorem freemapAlloc_starved :
    ¬∀ (hmp : Dev) (fm : Freemap) (type key bpref radix : Nat) (relaxed : Bool),
      (∀ idx leaf, fm idx = some leaf → BigmaskInv leaf) → bpref < hmp.totalSize →
      10 ≤ radix → radix ≤ 16 →
      (∃ N, ∀ fuel, N ≤ fuel → ¬(freemapAlloc hmp type key radix fm bpref relaxed fuel).IsAgain) ∧
        ∀ fuel fm' iter', freemapAlloc hmp type key radix fm bpref relaxed fuel = .enospc fm' iter' →
          ∀ idx, idx * freemapLevel1Size < hmp.totalSize → LeafFull hmp fm radix idx := by
  intro hall
  have hinv : ∀ idx leaf, starvedFreemap idx = some leaf → BigmaskInv leaf := by
    intro idx leaf h r hr hbit
    unfold starvedFreemap at h
    obtain ⟨_, h⟩ := Option.ite_none_right_eq_some.mp h
    cases Option.some.inj h
    rw [BitVec.getLsbD_allOnes, decide_eq_false_iff_not] at hbit
    omega
  have hres : (match freemapAlloc smallDev 1 0 10 starvedFreemap 0 false 3 with
      | .enospc _ _ => true
      | _ => false) = true := by decide +kernel
  obtain ⟨_, hcomplete⟩ := hall smallDev starvedFreemap 1 0 0 10 false hinv (by decide) (by decide)
    (by decide)
  split at hres
  next fm' iter' heq =>
    have hfull := hcomplete 3 fm' iter' heq 0 (by decide) 6 (by decide)
    refine hfull (Or.inr ((bitmapScan_isSome_iff_freeRun (by decide)).mp ?_))
    decide
  next => cases hres

end Hammer2
