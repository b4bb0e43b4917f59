import Hammer2.Freemap
import Hammer2.Run
import Hammer2.TwoStage

namespace Hammer2

/-- The freemap together with the trees that reference its blocks: the live one, the one of the last
complete flush, and the snapshot of a running bulkfree pass with the base of its next window. -/
structure TreeState where
  fm : Freemap
  live : List Extent
  flushed : List Extent
  synced : Bool
  pass : Option (List Extent × Nat)

inductive TreeAction where
  | alloc (req : AllocRequest)
  | delete (e : Extent)
  | flush
  | begin (sbase : Nat)
  | merge (scan : List (Nat × Extent)) (sstop : Nat) (ub : BitVec 32)
  | finish

/-- A fresh volume, with the extents that newfs placed below `allocator_beg`. -/
def treeInit (static : List Extent) : TreeState := ⟨fun _ => none, static, static, false, none⟩

/-- A scan visits the blockrefs of the snapshot in some order. -/
def Scans (scan : List (Nat × Extent)) (snap : List Extent) : Prop :=
  (∀ e ∈ scan.map Prod.snd, e ∈ snap) ∧ ∀ e ∈ snap, e ∈ scan.map Prod.snd

instance (scan : List (Nat × Extent)) (snap : List Extent) : Decidable (Scans scan snap) :=
  inferInstanceAs (Decidable (_ ∧ _))

/-- One step of allocation, deletion, flushing and bulkfree. `begin` is
`hammer2_ioctl_bulkfree_scan` taking its snapshot, which it only does after a complete flush made
since the last pass; `merge` handles one window of `hammer2_bulkfree_pass`. -/
def treeStep (hmp : Dev) (s : TreeState) : TreeAction → Option TreeState
  | .alloc req =>
    if 10 ≤ req.radix ∧ req.radix ≤ 16 then
      match freemapTryAlloc hmp s.fm req with
      | none => none
      | some (fm, none) => some { s with fm := fm }
      | some (fm, some e) => some { s with fm := fm, live := e :: s.live }
    else none
  | .delete e => some { s with live := s.live.erase e }
  | .flush => some { s with flushed := s.live, synced := true }
  | .begin sbase =>
    if s.pass.isNone ∧ s.synced then
      some { s with pass := some (s.flushed, h2fmBase (min sbase hmp.totalSize)) }
    else none
  | .merge scan sstop ub =>
    match s.pass with
    | none => none
    | some (snap, sbase) =>
      if Scans scan snap ∧ Window hmp sbase sstop ∧ sbase < sstop then
        match bulkfreeScan hmp scan (cbinfoBmapInit hmp sbase sstop) with
        | .error _ => none
        | .ok cb => some { s with fm := freemapSync hmp sbase sstop cb ub s.fm, pass := some (snap, sstop) }
      else none
  | .finish => if s.pass.isSome then some { s with pass := none, synced := false } else none

/-- The blocks that a tree references. -/
def touched (refs : List Extent) : Set Nat := { b | ∃ e ∈ refs, e.Touches b }

/-- The blocks of the leaves from `base` on. -/
def blocksFrom (base : Nat) : Set Nat := { b | base ≤ b / 65536 * 1073741824 }

/-- The two-stage protocol that the system implements. -/
def twoStageOf (hmp : Dev) (s : TreeState) : TwoStage.State Nat where
  free := { b | s.fm.blk hmp b = 0 }
  full := { b | s.fm.blk hmp b = 3 }
  live := touched s.live
  flushed := touched s.flushed
  synced := s.synced
  pass := s.pass.map fun p => (touched p.1, blocksFrom p.2)

/-- Every referenced extent is an allocation or was placed by newfs. -/
structure TreeWf (hmp : Dev) (s : TreeState) : Prop where
  live : ∀ e ∈ s.live, Allocated hmp e ∨ e.stop ≤ hmp.allocatorBeg
  flushed : ∀ e ∈ s.flushed, Allocated hmp e ∨ e.stop ≤ hmp.allocatorBeg
  pass : ∀ snap base, s.pass = some (snap, base) →
    ∀ e ∈ snap, Allocated hmp e ∨ e.stop ≤ hmp.allocatorBeg

theorem treeStep_wf {hmp : Dev} {s s' : TreeState} {a : TreeAction} (hw : TreeWf hmp s)
    (h : treeStep hmp s a = some s') : TreeWf hmp s' := by
  cases a with
  | alloc req =>
    simp only [treeStep] at h
    split at h
    next hr =>
      split at h
      next => simp at h
      next => cases Option.some.inj h; exact ⟨hw.live, hw.flushed, hw.pass⟩
      next fm e hal =>
        cases Option.some.inj h
        refine ⟨?_, hw.flushed, hw.pass⟩
        intro f hf
        rcases List.mem_cons.mp hf with rfl | hf
        · exact Or.inl (freemapTryAlloc_some hr.1 hr.2 hal).1
        · exact hw.live f hf
    next => simp at h
  | delete e =>
    cases Option.some.inj h
    exact ⟨fun f hf => hw.live f (List.mem_of_mem_erase hf), hw.flushed, hw.pass⟩
  | flush =>
    cases Option.some.inj h
    exact ⟨hw.live, hw.live, hw.pass⟩
  | begin sbase =>
    simp only [treeStep] at h
    split at h
    next =>
      cases Option.some.inj h
      refine ⟨hw.live, hw.flushed, ?_⟩
      intro snap base hp
      obtain ⟨rfl, _⟩ := Prod.mk.inj (Option.some.inj hp)
      exact hw.flushed
    next => simp at h
  | merge scan sstop ub =>
    simp only [treeStep] at h
    split at h
    next => simp at h
    next snap sbase hp =>
      split at h
      next =>
        split at h
        next => simp at h
        next =>
          cases Option.some.inj h
          refine ⟨hw.live, hw.flushed, ?_⟩
          intro snap' base hp'
          obtain ⟨rfl, _⟩ := Prod.mk.inj (Option.some.inj hp')
          exact hw.pass snap sbase hp
      next => simp at h
  | finish =>
    simp only [treeStep] at h
    split at h
    next => cases Option.some.inj h; exact ⟨hw.live, hw.flushed, by simp⟩
    next => simp at h

theorem blocksFrom_diff {sbase sstop : Nat} (h : sbase < sstop) :
    blocksFrom sstop = blocksFrom sbase \
      { b | sbase ≤ b / 65536 * 1073741824 ∧ b / 65536 * 1073741824 < sstop } := by
  ext b
  simp only [blocksFrom, Set.mem_ofPred_eq, Set.mem_sdiff]
  omega

/-- Allocating and deleting only raise the state of blocks. -/
theorem twoStage_mutate {hmp : Dev} {s : TreeState} {fm : Freemap} {live : List Extent}
    (hmono : ∀ b, fm.blk hmp b = 3 ∨ fm.blk hmp b = s.fm.blk hmp b)
    (hlive : ∀ e ∈ live, e ∈ s.live ∨ ∀ b, e.Touches b → fm.blk hmp b = 3) :
    TwoStage.Step (twoStageOf hmp s) (twoStageOf hmp { s with fm := fm, live := live }) := by
  refine TwoStage.Step.mutate ?_ ?_ ?_ ?_
  · intro b hb
    have hz : fm.blk hmp b = 0 := hb
    rcases hmono b with h3 | hs
    · rw [h3] at hz
      exact absurd hz (by decide)
    · exact hs.symm.trans hz
  · intro b hb
    have h3 : s.fm.blk hmp b = 3 := hb
    rcases hmono b with h | hs
    · exact h
    · exact hs.trans h3
  · rintro b ⟨e, he, ht⟩
    rcases hlive e he with hl | hf
    · exact Or.inl ⟨e, hl, ht⟩
    · exact Or.inr (hf b ht)
  · intro b hz h3
    have hz' : fm.blk hmp b = 0 := hz
    have h3' : fm.blk hmp b = 3 := h3
    rw [hz'] at h3'
    exact absurd h3' (by decide)

theorem mergeBlk_eq_zero {m l : BitVec 2} (hm : m = 0 ∨ m = 3) (h : mergeBlk m l = 0) :
    m ≠ 3 ∧ l ≠ 3 := by
  revert m l
  decide

theorem twoStage_merge {hmp : Dev} {s : TreeState} {snap : List Extent} {sbase sstop : Nat}
    {scan : List (Nat × Extent)} {cb : Cbinfo} (ub : BitVec 32) (hw : TreeWf hmp s)
    (hp : s.pass = some (snap, sbase)) (hscan : Scans scan snap) (hwin : Window hmp sbase sstop)
    (hlt : sbase < sstop) (h : bulkfreeScan hmp scan (cbinfoBmapInit hmp sbase sstop) = .ok cb) :
    TwoStage.Step (twoStageOf hmp s) (twoStageOf hmp
      { s with fm := freemapSync hmp sbase sstop cb ub s.fm, pass := some (snap, sstop) }) := by
  have hsync := @freemapSync_blk hmp s.fm cb ub sbase sstop snap scan (hw.pass snap sbase hp)
    (fun e => ⟨hscan.1 e, hscan.2 e⟩) hwin h
  have hpass : (twoStageOf hmp s).pass = some (touched snap, blocksFrom sbase) := by
    unfold twoStageOf
    rw [hp]
    rfl
  have hres : (twoStageOf hmp
      { s with fm := freemapSync hmp sbase sstop cb ub s.fm, pass := some (snap, sstop) }) =
      { twoStageOf hmp s with
        free := { b | (freemapSync hmp sbase sstop cb ub s.fm).blk hmp b = 0 }
        full := { b | (freemapSync hmp sbase sstop cb ub s.fm).blk hmp b = 3 }
        pass := some (touched snap, blocksFrom sbase \
          { b | sbase ≤ b / 65536 * 1073741824 ∧ b / 65536 * 1073741824 < sstop }) } := by
    rw [← blocksFrom_diff hlt]
    rfl
  rw [hres]
  refine TwoStage.Step.merge hpass ?_ ?_ ?_
  · intro b hb
    have hz : (freemapSync hmp sbase sstop cb ub s.fm).blk hmp b = 0 := hb
    rcases hsync b with heq | ⟨hlo, hhi, _, m, hm, hmark, heq⟩
    · exact Or.inl (heq.symm.trans hz)
    · obtain ⟨hne, hl⟩ := mergeBlk_eq_zero hm (heq.symm.trans hz)
      exact Or.inr ⟨hlo, ⟨hlo, hhi⟩, fun hs => hne (hmark hs), hl⟩
  · intro b hb
    rcases hsync b with heq | ⟨hlo, hhi, _⟩
    · exact Or.inl (heq.trans hb)
    · exact Or.inr ⟨hlo, hhi⟩
  · intro b hz h3
    have hz' : (freemapSync hmp sbase sstop cb ub s.fm).blk hmp b = 0 := hz
    have h3' : (freemapSync hmp sbase sstop cb ub s.fm).blk hmp b = 3 := h3
    rw [hz'] at h3'
    exact absurd h3' (by decide)

/-- Every step of the system is a step of the two-stage protocol. -/
theorem treeStep_twoStage {hmp : Dev} {s s' : TreeState} {a : TreeAction} (hw : TreeWf hmp s)
    (h : treeStep hmp s a = some s') :
    TwoStage.Step (twoStageOf hmp s) (twoStageOf hmp s') := by
  cases a with
  | alloc req =>
    simp only [treeStep] at h
    split at h
    next hr =>
      split at h
      next => simp at h
      next fm hal =>
        cases Option.some.inj h
        exact twoStage_mutate (fun b => Or.inr (freemapTryAlloc_none hal b)) (fun e he => Or.inl he)
      next fm e hal =>
        cases Option.some.inj h
        obtain ⟨_, hmark, hmono⟩ := freemapTryAlloc_some hr.1 hr.2 hal
        refine twoStage_mutate hmono ?_
        intro f hf
        rcases List.mem_cons.mp hf with rfl | hf
        · exact Or.inr hmark
        · exact Or.inl hf
    next => simp at h
  | delete e =>
    cases Option.some.inj h
    exact twoStage_mutate (fun b => Or.inr rfl) (fun f hf => Or.inl (List.mem_of_mem_erase hf))
  | flush =>
    cases Option.some.inj h
    exact TwoStage.Step.flush
  | begin sbase =>
    simp only [treeStep] at h
    split at h
    next hidle =>
      cases Option.some.inj h
      have hnone : (twoStageOf hmp s).pass = none := by
        unfold twoStageOf
        rw [Option.isNone_iff_eq_none.mp hidle.1]
        rfl
      exact TwoStage.Step.begin hnone hidle.2
    next => simp at h
  | merge scan sstop ub =>
    simp only [treeStep] at h
    split at h
    next => simp at h
    next snap sbase hp =>
      split at h
      next hc =>
        split at h
        next => simp at h
        next cb hcb =>
          cases Option.some.inj h
          exact twoStage_merge ub hw hp hc.1 hc.2.1 hc.2.2 hcb
      next => simp at h
  | finish =>
    simp only [treeStep] at h
    split at h
    next =>
      cases Option.some.inj h
      exact TwoStage.Step.finish
    next => simp at h

theorem bmapReserved_blk (b : Nat) : bmapReserved.blk b = 3 := by
  unfold bmapReserved BmapData.blk BmapData.q
  exact BitPair.pair_allOnes (by omega)

/-- The area below `allocator_beg` starts out allocated. -/
theorem freemapInit_blk_below {hmp : Dev} {b : Nat} (h : 16384 * b < hmp.allocatorBeg) :
    Freemap.blk hmp (fun _ => none) b = 3 := by
  have hn : b % 65536 / 256 < 256 := by omega
  have hseg : b / 65536 * 1073741824 + b % 65536 / 256 * 4194304 <
      freemapInitLokey hmp (b / 65536 * freemapLevel1Size) := by
    unfold freemapInitLokey
    refine lt_of_lt_of_le ?_ (le_max_of_le_left (le_max_left _ _))
    unfold segSize
    omega
  have hres : (freemapInit hmp (b / 65536 * freemapLevel1Size)).seg (b % 65536 / 256) =
      bmapReserved := by
    unfold freemapInit Leaf.seg
    simp only
    rw [if_pos]
    left
    simp only [Fin.ofNat, Nat.mod_eq_of_lt hn]
    exact hseg
  unfold Freemap.blk Freemap.leaf Leaf.blk
  rw [Option.getD_none, hres]
  exact bmapReserved_blk _

theorem treeInit_safe {hmp : Dev} {static : List Extent}
    (h : ∀ e ∈ static, e.stop ≤ hmp.allocatorBeg) :
    TwoStage.Safe (twoStageOf hmp (treeInit static)) := by
  have hstatic : ∀ b ∈ touched static, b ∉ (twoStageOf hmp (treeInit static)).free := by
    rintro b ⟨e, he, ht⟩ hz
    have hstop := h e he
    have hblk : Freemap.blk hmp (fun _ => none) b = 3 := by
      apply freemapInit_blk_below
      unfold Extent.Touches at ht
      omega
    have hz' : Freemap.blk hmp (fun _ => none) b = 0 := hz
    rw [hblk] at hz'
    exact absurd hz' (by decide)
  refine ⟨hstatic, hstatic, ?_, by simp [twoStageOf, treeInit], by simp [twoStageOf, treeInit]⟩
  intro b hz h3
  have hz' : Freemap.blk hmp (treeInit static).fm b = 0 := hz
  have h3' : Freemap.blk hmp (treeInit static).fm b = 3 := h3
  rw [hz'] at h3'
  exact absurd h3' (by decide)

def TreeReach (hmp : Dev) (static : List Extent) : TreeState → Prop :=
  Run.Reach (treeStep hmp) (fun _ _ => True) (treeInit static)

def TreeInv (hmp : Dev) (s : TreeState) : Prop :=
  TreeWf hmp s ∧ TwoStage.Safe (twoStageOf hmp s)

theorem TreeReach.inv {hmp : Dev} {static : List Extent} {s : TreeState}
    (hstatic : ∀ e ∈ static, e.stop ≤ hmp.allocatorBeg) (h : TreeReach hmp static s) :
    TreeInv hmp s := by
  have hinit : TreeInv hmp (treeInit static) :=
    ⟨⟨fun e he => Or.inr (hstatic e he), fun e he => Or.inr (hstatic e he),
      by simp [treeInit]⟩, treeInit_safe hstatic⟩
  refine Run.Reach.invariant hinit ?_ h
  rintro s a s' ⟨hw, hs⟩ _ hstep
  exact ⟨treeStep_wf hw hstep, (treeStep_twoStage hw hstep).safe hs⟩

/-- Whatever the order of allocations, deletions, flushes and bulkfree passes, no 16KB block that the
live or the flushed tree references is ever free in the freemap. -/
theorem referenced_block_not_free {hmp : Dev} {static : List Extent} {s : TreeState}
    (hstatic : ∀ e ∈ static, e.stop ≤ hmp.allocatorBeg) (hr : TreeReach hmp static s)
    {e : Extent} (he : e ∈ s.live ∨ e ∈ s.flushed) {b : Nat} (ht : e.Touches b) :
    s.fm.blk hmp b ≠ 0 := by
  obtain ⟨_, hs⟩ := hr.inv hstatic
  rcases he with he | he
  · exact hs.live b ⟨e, he, ht⟩
  · exact hs.flushed b ⟨e, he, ht⟩

/-- An inode is allocated and flushed, a pass starts, a second inode is packed behind the first and
the first is deleted; the pass is merged, and a second pass after another flush. -/
def twoPassRun : List TreeAction :=
  [.alloc inodeRequest, .flush, .begin 0, .alloc inodeRequest, .delete ⟨25165824, 10⟩,
    .merge [(1, ⟨20971520, 10⟩), (1, ⟨25165824, 10⟩)] 33554432 0, .finish,
    .flush, .begin 0, .merge [(1, ⟨25166848, 10⟩), (1, ⟨20971520, 10⟩)] 33554432 0, .finish]

theorem exec_twoPassRun :
    (Run.exec (treeStep smallDev) (treeInit [⟨20971520, 10⟩]) twoPassRun).map
      (fun s => (s.live, s.flushed, s.fm.blk smallDev 1536)) =
    some ([⟨25166848, 10⟩, ⟨20971520, 10⟩], [⟨25166848, 10⟩, ⟨20971520, 10⟩], 3) := by
  decide +kernel

theorem referenced_block_not_free_two_passes :
    ∃ s, TreeReach smallDev [⟨20971520, 10⟩] s ∧ ⟨25166848, 10⟩ ∈ s.live ∧
      s.fm.blk smallDev 1536 ≠ 0 := by
  obtain ⟨s, hs, hres⟩ := Option.map_eq_some_iff.mp exec_twoPassRun
  obtain ⟨hlive, _⟩ := Prod.mk.inj hres
  have hr : TreeReach smallDev [⟨20971520, 10⟩] s := Run.Reach.start.exec hs
  have he : (⟨25166848, 10⟩ : Extent) ∈ s.live := by simp [hlive]
  exact ⟨s, hr, he, referenced_block_not_free (by decide) hr (Or.inl he) (by decide)⟩

end Hammer2
