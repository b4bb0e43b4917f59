import Hammer2.BulkfreePass
import Hammer2.SegmentInv
import Hammer2.Run

namespace Hammer2

/-- A freemap leaf, the extents handed out of it that are still referenced, and the snapshot of a
bulkfree pass that has not been merged yet. -/
structure LeafState where
  leaf : Leaf
  refs : List Extent
  snap : Option (List Extent)

inductive LeafAction where
  | alloc (req : AllocRequest)
  | recover (type dataOff radix : Nat)
  | delete (e : Extent)
  | snapshot
  | merge (scan : List (Nat × Extent)) (sbase sstop : Nat) (ub : BitVec 32)
  | abort

def leafInit (hmp : Dev) (key : Nat) : LeafState := ⟨freemapInit hmp key, [], none⟩

/-- One step of the system around the freemap leaf at `key`. -/
def leafStep (hmp : Dev) (key : Nat) (s : LeafState) : LeafAction → Option LeafState
  | .alloc req =>
    if 10 ≤ req.radix ∧ req.radix ≤ 16 ∧ h2fmBase req.bnext = key then
      match tryAlloc hmp key s.leaf req with
      | .panic => none
      | .enospc leaf => some { s with leaf := leaf }
      | .ok leaf dataOff _ => some { s with leaf := leaf, refs := ⟨dataOff, req.radix⟩ :: s.refs }
    else none
  | .recover type dataOff radix =>
    if h2fmBase dataOff = key then
      match freemapAdjust hmp s.leaf type dataOff radix with
      | .error _ => none
      | .ok (leaf, _) => some { s with leaf := leaf }
    else none
  | .delete e => some { s with refs := s.refs.erase e }
  | .snapshot => if s.snap.isNone then some { s with snap := some s.refs } else none
  | .merge scan sbase sstop ub =>
    match s.snap with
    | none => none
    | some snap =>
      if ScanOf key snap scan ∧ Window hmp sbase sstop ∧ sbase ≤ key ∧ key < sstop then
        match bulkfreeScan hmp scan (cbinfoBmapInit hmp sbase sstop) with
        | .error _ => none
        | .ok cb => some ⟨syncLeaf hmp cb ub key s.leaf freemapCount, s.refs, none⟩
      else none
  | .abort => some { s with snap := none }

/-- The merge meets a segment whose iterator a recovery has reset, although block 0 of the segment
holds a scanned fragment and an extent handed out since the snapshot. -/
def leafHazard (key : Nat) (s : LeafState) : LeafAction → Prop
  | .merge _ _ _ _ =>
    ∃ snap n, s.snap = some snap ∧ n < 256 ∧
      MergeHazard (s.leaf.seg n) (localRefs (key + n * 4194304) { e | e ∈ s.refs })
        (localRefs (key + n * 4194304) { e | e ∈ snap })
  | _ => False

structure LeafInv (hmp : Dev) (key : Nat) (s : LeafState) : Prop where
  seg : ∀ n, n < 256 → SegInv (s.leaf.seg n) (localRefs (key + n * 4194304) { e | e ∈ s.refs })
  pass : ∀ snap, s.snap = some snap → ∀ n, n < 256 →
    PassInv (s.leaf.seg n) (localRefs (key + n * 4194304) { e | e ∈ s.refs })
      (localRefs (key + n * 4194304) { e | e ∈ snap })
  placed : ∀ e ∈ s.refs, Placed hmp key e
  snap_placed : ∀ snap, s.snap = some snap → ∀ e ∈ snap, Placed hmp key e

theorem localRefs_mono {base : Nat} {refs refs' : Set Extent} (h : refs ⊆ refs') :
    localRefs base refs ⊆ localRefs base refs' :=
  fun _ he => ⟨he.1, h he.2⟩

theorem localRefs_cons_self {base off radix : Nat} {refs : List Extent} (h : off < 4194304) :
    localRefs base { e | e ∈ (⟨base + off, radix⟩ : Extent) :: refs } =
      insert ⟨off, radix⟩ (localRefs base { e | e ∈ refs }) := by
  have hset : { e | e ∈ (⟨base + off, radix⟩ : Extent) :: refs } =
      insert ⟨base + off, radix⟩ { e | e ∈ refs } := by
    ext e
    simp
  rw [hset, localRefs_insert, localRefs_singleton (by simp) (by simpa using h)]
  simp [Set.singleton_union]

theorem localRefs_cons_other {base : Nat} {e : Extent} {refs : List Extent}
    (h : e.off < base ∨ base + 4194304 ≤ e.off) :
    localRefs base { f | f ∈ e :: refs } = localRefs base { f | f ∈ refs } := by
  have hset : { f | f ∈ e :: refs } = insert e { f | f ∈ refs } := by
    ext f
    simp
  rw [hset, localRefs_insert, localRefs_singleton_empty h, Set.empty_union]

theorem segInv_bmapReserved : SegInv bmapReserved ∅ := by
  have hlin : bmapReserved.linear = 4194304 := rfl
  exact ⟨⟨by omega, by omega, by omega, by omega, by omega⟩, by simp, by simp, by simp⟩

theorem segInv_bmapFree : SegInv bmapFree ∅ := by
  have hlin : bmapFree.linear = 0 := rfl
  exact ⟨⟨by omega, by omega, by omega, by omega, by omega⟩, by simp, by simp, by simp⟩

theorem leafInit_inv (hmp : Dev) (key : Nat) : LeafInv hmp key (leafInit hmp key) := by
  refine ⟨?_, by simp [leafInit], by simp [leafInit], by simp [leafInit]⟩
  intro n _
  have hempty : localRefs (key + n * 4194304) { e | e ∈ (leafInit hmp key).refs } = ∅ := by
    ext e
    simp [localRefs, leafInit]
  rw [hempty]
  unfold leafInit Leaf.seg freemapInit
  simp only
  split
  next => exact segInv_bmapReserved
  next => exact segInv_bmapFree

theorem LeafInv.alloc {hmp : Dev} {key dataOff bg : Nat} {s : LeafState} {req : AllocRequest}
    {leaf' : Leaf} (hkey : key % 1073741824 = 0) (hmin : 10 ≤ req.radix) (hmax : req.radix ≤ 16)
    (hi : LeafInv hmp key s) (h : tryAlloc hmp key s.leaf req = .ok leaf' dataOff bg) :
    LeafInv hmp key { s with leaf := leaf', refs := ⟨dataOff, req.radix⟩ :: s.refs } := by
  obtain ⟨hbeg, hend, n, bmap', off, hn, rfl, rfl, he⟩ := tryAlloc_ok hmax h
  obtain ⟨hshape, hoff⟩ := he.shaped hmin hmax
  have hplaced : Placed hmp key ⟨key + n * 4194304 + off, req.radix⟩ := by
    obtain ⟨h1, h2, h3, h4, h5⟩ := hshape
    simp only at h1 h2 h3 h4 h5
    refine ⟨⟨h1, h2, fun h14 => ?_, fun h14 => ?_, ?_⟩, ?_, ?_, hbeg, hend⟩
    · have := h3 h14
      simp only
      omega
    · have := h4 h14
      simp only
      omega
    all_goals simp only; omega
  refine ⟨?_, ?_, ?_, hi.snap_placed⟩
  · intro m hm
    simp only
    rw [setSeg_seg hn hm]
    by_cases hmn : m = n
    · subst hmn
      rw [if_pos rfl, localRefs_cons_self hoff]
      exact (hi.seg m hm).alloc hmin hmax he
    · rw [if_neg hmn, localRefs_cons_other (by simp only; omega)]
      exact hi.seg m hm
  · intro snap hs m hm
    simp only
    rw [setSeg_seg hn hm]
    by_cases hmn : m = n
    · subst hmn
      rw [if_pos rfl, localRefs_cons_self hoff]
      exact (hi.pass snap hs m hm).alloc hmin hmax (hi.seg m hm) he
    · rw [if_neg hmn, localRefs_cons_other (by simp only; omega)]
      exact hi.pass snap hs m hm
  · intro e hmem
    rcases List.mem_cons.mp hmem with rfl | hmem
    · exact hplaced
    · exact hi.placed e hmem

theorem LeafInv.recover {hmp : Dev} {key type dataOff radix bg : Nat} {s : LeafState} {leaf' : Leaf}
    (hi : LeafInv hmp key s) (h : freemapAdjust hmp s.leaf type dataOff radix = .ok (leaf', bg)) :
    LeafInv hmp key { s with leaf := leaf' } := by
  rcases freemapAdjust_ok h with rfl | ⟨st, heff, rfl⟩
  · exact hi
  · have hn : dataOff / 4194304 % 256 < 256 := Nat.mod_lt _ (by omega)
    refine ⟨?_, ?_, hi.placed, hi.snap_placed⟩
    · intro m hm
      simp only
      rw [setBigmask_seg, setSeg_seg hn hm]
      by_cases hmn : m = dataOff / 4194304 % 256
      · rw [if_pos hmn, hmn]
        exact (hi.seg _ hn).recover heff
      · rw [if_neg hmn]
        exact hi.seg m hm
    · intro snap hs m hm
      simp only
      rw [setBigmask_seg, setSeg_seg hn hm]
      by_cases hmn : m = dataOff / 4194304 % 256
      · rw [if_pos hmn, hmn]
        exact (hi.pass snap hs _ hn).recover heff
      · rw [if_neg hmn]
        exact hi.pass snap hs m hm

theorem LeafInv.merge {hmp : Dev} {key sbase sstop : Nat} {s : LeafState} {snap : List Extent}
    {scan : List (Nat × Extent)} {ub : BitVec 32} {cb : Cbinfo} (hkey : key % 1073741824 = 0)
    (hi : LeafInv hmp key s) (hs : s.snap = some snap) (hscan : ScanOf key snap scan)
    (hw : Window hmp sbase sstop) (hlo : sbase ≤ key) (hhi : key < sstop)
    (h : bulkfreeScan hmp scan (cbinfoBmapInit hmp sbase sstop) = .ok cb)
    (hsafe : ∀ n, n < 256 → ¬MergeHazard (s.leaf.seg n)
      (localRefs (key + n * 4194304) { e | e ∈ s.refs })
      (localRefs (key + n * 4194304) { e | e ∈ snap })) :
    LeafInv hmp key ⟨syncLeaf hmp cb ub key s.leaf freemapCount, s.refs, none⟩ := by
  refine ⟨?_, by simp, hi.placed, by simp⟩
  intro n hn
  simp only
  rcases @syncLeaf_seg hmp cb ub key freemapCount n s.leaf le_rfl hn with ⟨heq, _⟩ | ⟨_, _, hm⟩
  · rw [heq]
    exact hi.seg n hn
  · have hcol := scan_collected hkey (fun e he _ _ => hi.snap_placed snap hs e he) hscan hw hlo hhi hn h
    exact (hi.seg n hn).merge (hi.pass snap hs n hn) hcol hm (hsafe n hn)

/-- Every step outside the hazard keeps the invariant. -/
theorem leafStep_inv {hmp : Dev} {key : Nat} {s s' : LeafState} {a : LeafAction}
    (hkey : key % 1073741824 = 0) (hi : LeafInv hmp key s) (hsafe : ¬leafHazard key s a)
    (h : leafStep hmp key s a = some s') : LeafInv hmp key s' := by
  cases a with
  | alloc req =>
    simp only [leafStep] at h
    split at h
    next hreq =>
      split at h
      next => simp at h
      next leaf hal =>
        cases Option.some.inj h
        have hsame : ∀ n, leaf.seg n = s.leaf.seg n := by
          intro n
          unfold Leaf.seg
          rw [tryAlloc_enospc hal]
        refine ⟨?_, ?_, hi.placed, hi.snap_placed⟩
        · intro n hn
          simp only [hsame]
          exact hi.seg n hn
        · intro snap hs n hn
          simp only [hsame]
          exact hi.pass snap hs n hn
      next hal =>
        cases Option.some.inj h
        exact hi.alloc hkey hreq.1 hreq.2.1 hal
    next => simp at h
  | recover type dataOff radix =>
    simp only [leafStep] at h
    split at h
    next =>
      split at h
      next => simp at h
      next hadj =>
        cases Option.some.inj h
        exact hi.recover hadj
    next => simp at h
  | delete e =>
    cases Option.some.inj h
    have hsub : { f | f ∈ s.refs.erase e } ⊆ { f | f ∈ s.refs } :=
      fun f hf => List.mem_of_mem_erase hf
    refine ⟨?_, ?_, ?_, hi.snap_placed⟩
    · intro n hn
      exact (hi.seg n hn).subset (localRefs_mono hsub)
    · intro snap hs n hn
      exact (hi.pass snap hs n hn).subset (localRefs_mono hsub)
    · intro f hf
      exact hi.placed f (List.mem_of_mem_erase hf)
  | snapshot =>
    simp only [leafStep] at h
    split at h
    next =>
      cases Option.some.inj h
      refine ⟨hi.seg, ?_, hi.placed, ?_⟩
      · intro snap hs n hn
        cases Option.some.inj hs
        exact (hi.seg n hn).begin
      · intro snap hs
        cases Option.some.inj hs
        exact hi.placed
    next => simp at h
  | merge scan sbase sstop ub =>
    simp only [leafStep] at h
    split at h
    next => simp at h
    next snap hs =>
      split at h
      next hc =>
        split at h
        next => simp at h
        next cb hcb =>
          cases Option.some.inj h
          refine hi.merge hkey hs hc.1 hc.2.1 hc.2.2.1 hc.2.2.2 hcb ?_
          intro n hn hz
          exact hsafe ⟨snap, n, hs, hn, hz⟩
      next => simp at h
  | abort =>
    cases Option.some.inj h
    exact ⟨hi.seg, by simp, hi.placed, by simp⟩

/-- States of a freemap leaf reached without a hazardous merge. -/
def LeafReach (hmp : Dev) (key : Nat) : LeafState → Prop :=
  Run.Reach (leafStep hmp key) (fun s a => ¬leafHazard key s a) (leafInit hmp key)

theorem LeafReach.inv {hmp : Dev} {key : Nat} {s : LeafState} (hkey : key % 1073741824 = 0)
    (h : LeafReach hmp key s) : LeafInv hmp key s :=
  Run.Reach.invariant (leafInit_inv hmp key) (leafStep_inv hkey) h

theorem LeafInv.alloc_disjoint {hmp : Dev} {key dataOff bg : Nat} {s : LeafState}
    {req : AllocRequest} {leaf' : Leaf} (hkey : key % 1073741824 = 0) (hmin : 10 ≤ req.radix)
    (hmax : req.radix ≤ 16) (hi : LeafInv hmp key s)
    (h : tryAlloc hmp key s.leaf req = .ok leaf' dataOff bg) {e : Extent} (he : e ∈ s.refs) :
    Extent.Disjoint ⟨dataOff, req.radix⟩ e := by
  obtain ⟨_, _, n, bmap', off, hn, _, rfl, heff⟩ := tryAlloc_ok hmax h
  obtain ⟨hshape, hoff⟩ := heff.shaped hmin hmax
  have hfits := heff.fits
  have hp := hi.placed e he
  have hin := hp.shaped.inside
  by_cases hseg : key + n * 4194304 ≤ e.off ∧ e.off < key + n * 4194304 + 4194304
  · have hlocal : (⟨e.off - (key + n * 4194304), e.radix⟩ : Extent) ∈
        localRefs (key + n * 4194304) { f | f ∈ s.refs } := by
      refine ⟨by simp only; omega, ?_⟩
      simp only [Nat.add_sub_cancel' hseg.1]
      exact he
    have hd := (hi.seg n hn).alloc_disjoint hmin hmax heff hlocal
    unfold Extent.Disjoint Extent.stop at hd ⊢
    simp only at hd ⊢
    omega
  · unfold Extent.Disjoint Extent.stop
    simp only
    omega

/-- In every run of allocations, recoveries, deletions and bulkfree passes that avoids the hazard,
the range that the next allocation returns overlaps nothing that is still referenced. -/
theorem alloc_disjoint_of_reach {hmp : Dev} {key : Nat} (hkey : key % 1073741824 = 0) {s : LeafState}
    (hr : LeafReach hmp key s) {req : AllocRequest} (hmin : 10 ≤ req.radix) (hmax : req.radix ≤ 16)
    {leaf' : Leaf} {dataOff bg : Nat} (h : tryAlloc hmp key s.leaf req = .ok leaf' dataOff bg) :
    ∀ e ∈ s.refs, Extent.Disjoint ⟨dataOff, req.radix⟩ e :=
  fun _ he => (hr.inv hkey).alloc_disjoint hkey hmin hmax h he

def TryResult.off? : TryResult → Option Nat
  | .ok _ dataOff _ => some dataOff
  | _ => none

theorem TryResult.off?_eq_some {r : TryResult} {dataOff : Nat} (h : r.off? = some dataOff) :
    ∃ leaf bg, r = .ok leaf dataOff bg := by
  cases r with
  | ok leaf off bg => cases Option.some.inj h; exact ⟨leaf, bg, rfl⟩
  | panic => cases h
  | enospc leaf => cases h

theorem exec_alloc_inode :
    (Run.exec (leafStep smallDev 0) (leafInit smallDev 0) [.alloc inodeRequest]).map
      (fun s => (s.refs, (tryAlloc smallDev 0 s.leaf inodeRequest).off?)) =
    some ([⟨25165824, 10⟩], some 25166848) := by
  decide

theorem alloc_disjoint_second_inode :
    ∃ s leaf' bg, LeafReach smallDev 0 s ∧ s.refs = [⟨25165824, 10⟩] ∧
      tryAlloc smallDev 0 s.leaf inodeRequest = .ok leaf' 25166848 bg ∧
      ∀ e ∈ s.refs, Extent.Disjoint ⟨25166848, 10⟩ e := by
  obtain ⟨s, hs, hres⟩ := Option.map_eq_some_iff.mp exec_alloc_inode
  obtain ⟨hrefs, hoff⟩ := Prod.mk.inj hres
  obtain ⟨leaf', bg, htry⟩ := TryResult.off?_eq_some hoff
  obtain ⟨s1, hstep, hs⟩ := Option.bind_eq_some_iff.mp hs
  cases Option.some.inj hs
  have hr : LeafReach smallDev 0 s := Run.Reach.start.next (a := .alloc inodeRequest) id hstep
  exact ⟨s, leaf', bg, hr, hrefs, htry,
    alloc_disjoint_of_reach (by decide) hr (by decide) (by decide) htry⟩

/-- Two inodes, a snapshot of them, a third inode, and a recovery of another block of the segment
before the pass is merged. -/
def resetRun : List LeafAction :=
  [.alloc inodeRequest, .alloc inodeRequest, .snapshot, .alloc inodeRequest,
    .recover 3 (25165824 + 5 * 16384) 14,
    .merge [(1, ⟨25165824, 10⟩), (1, ⟨25166848, 10⟩)] 0 33554432 0]

theorem exec_resetRun :
    (Run.exec (leafStep smallDev 0) (leafInit smallDev 0) resetRun).map
      (fun s => (s.refs, (tryAlloc smallDev 0 s.leaf inodeRequest).off?)) =
    some ([⟨25167872, 10⟩, ⟨25166848, 10⟩, ⟨25165824, 10⟩], some 25167872) := by
  decide +kernel

/-- After the run the allocator hands out the third inode's range a second time. -/
theorem alloc_overlaps_after_reset :
    ∃ s leaf' bg, Run.Reach (leafStep smallDev 0) (fun _ _ => True) (leafInit smallDev 0) s ∧
      tryAlloc smallDev 0 s.leaf inodeRequest = .ok leaf' 25167872 bg ∧
      ∃ e ∈ s.refs, ¬Extent.Disjoint ⟨25167872, inodeRequest.radix⟩ e := by
  obtain ⟨s, hs, hres⟩ := Option.map_eq_some_iff.mp exec_resetRun
  obtain ⟨hrefs, hoff⟩ := Prod.mk.inj hres
  obtain ⟨leaf', bg, htry⟩ := TryResult.off?_eq_some hoff
  exact ⟨s, leaf', bg, Run.Reach.start.exec hs, htry, ⟨25167872, 10⟩,
    by simp [hrefs], by decide⟩

end Hammer2
