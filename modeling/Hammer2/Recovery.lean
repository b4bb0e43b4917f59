import Hammer2.Blockref
import Hammer2.Freemap

namespace Hammer2

/-- `hammer2_freemap_adjust(DORECOVER)` for a blockref. A leaf that does not exist is created. -/
def freemapRecover (hmp : Dev) (fm : Freemap) (bref : Blockref) : Except FreemapError Freemap := do
  let idx := bref.data.off / freemapLevel1Size
  let (leaf, _) ←
    freemapAdjust hmp (fm.leaf hmp idx) bref.type.code bref.data.off bref.data.radix
  return if bref.data.off < hmp.allocatorBeg then fm else Function.update fm idx (some leaf)

/-- `hammer2_chain_scan` returns a chain for such an element, and only its blockref otherwise. -/
def BrefType.recurses : BrefType → Bool
  | .inode | .indirect | .freemapNode => true
  | .data | .dirent | .freemapLeaf => false

/-- The type switch of `hammer2_recovery_scan`. -/
def Node.descends (n : Node) : Bool :=
  match n.bref.type with
  | .inode => !n.directdata
  | .indirect => true
  | .data | .dirent | .freemapNode | .freemapLeaf => false

/-- The freemap and the list of deferred subtrees. -/
structure RecoveryState where
  fm : Freemap
  list : List Node

/-- `HAMMER2_RECOVERY_MAXDEPTH` -/
def recoveryMaxdepth : Nat := 10

/-- One round of the loop of `hammer2_recovery_scan`. -/
def recoveryElement (hmp : Dev) (syncTid : Nat)
    (scan : Node → RecoveryState → Except FreemapError RecoveryState) (st : RecoveryState)
    (n : Node) : Except FreemapError RecoveryState :=
  if syncTid < n.bref.mirrorTid then
    if n.bref.type.recurses then scan n st
    else do
      let fm ← freemapRecover hmp st.fm n.bref
      return { st with fm := fm }
  else return st

def recoveryChildren (hmp : Dev) (syncTid : Nat)
    (scan : Node → RecoveryState → Except FreemapError RecoveryState) (base : List Node)
    (st : RecoveryState) : Except FreemapError RecoveryState :=
  (chainScan base).foldlM (recoveryElement hmp syncTid scan) st

/-- `hammer2_recovery_scan` on a chain below the volume root, `room` levels above the depth limit. -/
def recoveryScan (hmp : Dev) (syncTid : Nat) :
    Nat → Node → RecoveryState → Except FreemapError RecoveryState
  | 0, n, st => do
    let fm ← freemapRecover hmp st.fm n.bref
    return if n.descends then ⟨fm, st.list ++ [n]⟩ else ⟨fm, st.list⟩
  | room + 1, n, st => do
    let fm ← freemapRecover hmp st.fm n.bref
    if n.descends then
      recoveryChildren hmp syncTid (recoveryScan hmp syncTid room) n.base { st with fm := fm }
    else return { st with fm := fm }

/-- The loop of `hammer2_recovery` over the deferred subtrees; `none` if the fuel does not last. -/
def recoveryLoop (hmp : Dev) (syncTid : Nat) :
    Nat → RecoveryState → Option (Except FreemapError Freemap)
  | 0, _ => none
  | _ + 1, ⟨fm, []⟩ => some (.ok fm)
  | fuel + 1, ⟨fm, n :: list⟩ =>
    match recoveryScan hmp syncTid recoveryMaxdepth n ⟨fm, list⟩ with
    | .error e => some (.error e)
    | .ok st => recoveryLoop hmp syncTid fuel st

/-- `hammer2_recovery` of a volume whose root blockset holds `root`. -/
def recovery (hmp : Dev) (freemapTid fuel : Nat) (root : List Node) (fm : Freemap) :
    Option (Except FreemapError Freemap) :=
  match recoveryChildren hmp freemapTid (recoveryScan hmp freemapTid (recoveryMaxdepth - 1)) root
      ⟨fm, []⟩ with
  | .error e => some (.error e)
  | .ok st => recoveryLoop hmp freemapTid fuel st

/-- The assertions of `hammer2_freemap_adjust` hold. -/
structure Adjustable (hmp : Dev) (bref : Blockref) : Prop where
  radix_ne : bref.data.radix ≠ 0
  radix_le : bref.data.radix ≤ 16
  zone : hmp.allocatorBeg ≤ bref.data.off → zoneSeg ≤ bref.data.off % zoneSize

/-- The first block that `hammer2_freemap_adjust` marks. The block number in the bitmap word is cut
to 4 bits, so that an extent in the upper half of a word marks the blocks 16 below it. -/
def adjustStart (e : Extent) : Nat := e.off / 524288 * 32 + e.off / 16384 % 16

/-- The blocks that `hammer2_freemap_adjust` marks. -/
def Marks (hmp : Dev) (bref : Blockref) (b : Nat) : Prop :=
  hmp.allocatorBeg ≤ bref.data.off ∧ adjustStart bref.data ≤ b ∧
    b < adjustStart bref.data + blockCount bref.data.radix

theorem freemapRecover_ok {hmp : Dev} (fm : Freemap) {bref : Blockref} (h : Adjustable hmp bref) :
    ∃ fm', freemapRecover hmp fm bref = .ok fm' ∧
      ∀ b, fm'.blk hmp b = 3 ↔ fm.blk hmp b = 3 ∨ Marks hmp bref b := by
  unfold freemapRecover
  simp only
  by_cases hbeg : bref.data.off < hmp.allocatorBeg
  · have hadj : freemapAdjust hmp (fm.leaf hmp (bref.data.off / freemapLevel1Size)) bref.type.code
        bref.data.off bref.data.radix =
        .ok (fm.leaf hmp (bref.data.off / freemapLevel1Size), 0) := by
      unfold freemapAdjust
      simp only [except_bind_eq_ok, kkassert_eq_ok]
      exact ⟨(), h.radix_ne, (), h.radix_le, by rw [if_pos hbeg]; rfl⟩
    refine ⟨fm, except_bind_eq_ok.mpr ⟨_, hadj, ?_⟩, ?_⟩
    · rw [if_pos hbeg]
      rfl
    · intro b
      unfold Marks
      constructor
      · exact Or.inl
      · rintro (h3 | hm)
        · exact h3
        · omega
  · obtain ⟨st, heff, hadj⟩ := freemapAdjust_marks
      (fm.leaf hmp (bref.data.off / freemapLevel1Size)) bref.type.code h.radix_ne h.radix_le
      (Nat.le_of_not_lt hbeg) (h.zone (Nat.le_of_not_lt hbeg))
    refine ⟨_, except_bind_eq_ok.mpr ⟨_, hadj, rfl⟩, ?_⟩
    intro b
    rw [if_neg hbeg]
    have hc := blockCount_cases h.radix_le
    have hupd : Freemap.blk hmp (Function.update fm (bref.data.off / freemapLevel1Size)
        (some (((fm.leaf hmp (bref.data.off / freemapLevel1Size)).setSeg
          (bref.data.off / 4194304 % 256) st.bmap).setBigmask
          (if st.modified then BitVec.allOnes 32
            else (fm.leaf hmp (bref.data.off / freemapLevel1Size)).bigmask)))) b =
        Freemap.blk hmp (Function.update fm (bref.data.off / freemapLevel1Size)
          (some ((fm.leaf hmp (bref.data.off / freemapLevel1Size)).setSeg
            (bref.data.off / 4194304 % 256) st.bmap))) b := by
      unfold Freemap.blk Leaf.blk
      rw [leaf_update, leaf_update]
      split
      next => rw [setBigmask_seg]
      next => rfl
    rw [hupd, blk_update_setSeg (by omega)]
    unfold Marks adjustStart freemapLevel1Size
    split
    next hseg =>
      rw [heff.marked _ (by omega), blk_of_seg (by omega) hseg]
      unfold freemapLevel1Size
      split
      next => simp only [true_iff]; omega
      next =>
        constructor
        · exact Or.inl
        · rintro (h3 | hm)
          · exact h3
          · omega
    next hseg =>
      constructor
      · exact Or.inl
      · rintro (h3 | hm)
        · exact h3
        · omega

theorem freemapRecover_adjustable {hmp : Dev} {fm fm' : Freemap} {bref : Blockref}
    (h : freemapRecover hmp fm bref = .ok fm') : Adjustable hmp bref := by
  unfold freemapRecover at h
  obtain ⟨⟨leaf, bg⟩, hadj, _⟩ := except_bind_eq_ok.mp h
  unfold freemapAdjust at hadj
  simp only [except_bind_eq_ok, kkassert_eq_ok] at hadj
  obtain ⟨_, h0, _, hradix, hrest⟩ := hadj
  refine ⟨h0, hradix, ?_⟩
  intro hbeg
  rw [if_neg (by omega)] at hrest
  obtain ⟨_, hzone, _⟩ := except_bind_eq_ok.mp hrest
  exact kkassert_eq_ok.mp hzone

/-- The adjustments for a list of blockrefs, one after the other. -/
def adjustAll (hmp : Dev) (brefs : List Blockref) (fm : Freemap) : Except FreemapError Freemap :=
  brefs.foldlM (freemapRecover hmp) fm

theorem adjustAll_ok {hmp : Dev} {brefs : List Blockref} (fm : Freemap)
    (h : ∀ r ∈ brefs, Adjustable hmp r) :
    ∃ fm', adjustAll hmp brefs fm = .ok fm' ∧
      ∀ b, fm'.blk hmp b = 3 ↔ fm.blk hmp b = 3 ∨ ∃ r ∈ brefs, Marks hmp r b := by
  induction brefs generalizing fm with
  | nil => exact ⟨fm, rfl, by simp⟩
  | cons r brefs ih =>
    obtain ⟨fm1, hr, hblk1⟩ := freemapRecover_ok fm (h r (by simp))
    obtain ⟨fm', hrest, hblk⟩ := ih fm1 fun r' hr' => h r' (by simp [hr'])
    refine ⟨fm', ?_, ?_⟩
    · unfold adjustAll at hrest ⊢
      rw [List.foldlM_cons]
      exact except_bind_eq_ok.mpr ⟨fm1, hr, hrest⟩
    · intro b
      rw [hblk b, hblk1 b, or_assoc]
      simp only [List.mem_cons, exists_eq_or_imp]

theorem adjustAll_adjustable {hmp : Dev} {brefs : List Blockref} {fm fm' : Freemap}
    (h : adjustAll hmp brefs fm = .ok fm') : ∀ r ∈ brefs, Adjustable hmp r := by
  induction brefs generalizing fm with
  | nil => simp
  | cons r brefs ih =>
    unfold adjustAll at h
    rw [List.foldlM_cons] at h
    obtain ⟨fm1, hr, hrest⟩ := except_bind_eq_ok.mp h
    intro r' hr'
    rcases List.mem_cons.mp hr' with rfl | hr'
    · exact freemapRecover_adjustable hr
    · exact ih hrest r' hr'

end Hammer2
