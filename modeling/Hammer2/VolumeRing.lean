import Mathlib.Logic.Function.Basic
import Hammer2.Run
import Hammer2.VolumeHeader

namespace Hammer2

open ByteImage

/-- The header copies on the root volume, what a mounted system keeps of the volume header, and the
last header that was written completely. -/
structure RingState where
  media : Nat → VolumeData
  voldata : VolumeData
  volsync : VolumeData
  volhdrno : Int
  vchainTid : Nat
  modified : Bool
  volumesync : Bool
  newest : VolumeData

/-- A crash happens between two header writes (`none`) or in the middle of one, which leaves `some`
torn copy behind. -/
inductive RingAction where
  | voldataModify
  | chainModify
  | update (vd : VolumeData)
  | flushFreemap (tid : Nat)
  | growfs (size : Nat)
  | flushVolume
  | writeHeader
  | crash (torn : Option VolumeData)

/-- The header that newfs writes to every zone of the volume; `rest` has the fields that play no
part here. -/
def formatVolume (rest : VolumeData) (size : Nat) : VolumeData :=
  ((((rest.setMagic volumeIdHbo).setVoluSize size).setMirrorTid 16).setFreemapTid 16).updateIcrc

def formatMedia (vd : VolumeData) (size : Nat) : Nat → VolumeData := fun i =>
  if i * zoneBytes < size then vd else fun _ => 0#8

def mount (mediasize : Nat) (media : Nat → VolumeData) (newest : VolumeData) : Option RingState :=
  (readVolumeHeader mediasize media).map fun (zone, vd) =>
    { media, voldata := vd, volsync := vd, volhdrno := zone, vchainTid := vd.mirrorTid,
      modified := false, volumesync := false, newest }

def voldataModify (s : RingState) : RingState :=
  if s.modified then s
  else { s with modified := true, vchainTid := (s.voldata.mirrorTid + 1) % 18446744073709551616 }

/-- `hammer2_chain_modify` on the volume root. -/
def vchainModify (s : RingState) : RingState :=
  { s with modified := true, vchainTid := (s.voldata.mirrorTid + 1) % 18446744073709551616 }

/-- The FREEMAP case of `hammer2_flush_core`. -/
def flushFreemap (s : RingState) (tid : Nat) : Option RingState :=
  if s.modified then
    let voldata := s.voldata.setFreemapTid tid
    some { s with voldata := voldata.setMirrorTid (voldata.mirrorTid + 1) }
  else none

/-- The header copies that growing from `oldSize` to `size` brings into the volume are cleared. -/
def clearVolhdrs (media : Nat → VolumeData) (oldSize size : Nat) : Nat → VolumeData := fun i =>
  if i < numVolhdrs ∧ oldSize ≤ i * zoneBytes ∧ i * zoneBytes < size then fun _ => 0#8 else media i

def growfs (mediasize : Nat) (s : RingState) (size : Nat) : RingState :=
  let size := if size = 0 then mediasize else size
  if mediasize < size then s
  else
    let size := size / volumeAlign * volumeAlign
    if 0x7FFFFFFFFFFFFFFF < size ∨ size < s.voldata.voluSize ∨ size = s.voldata.voluSize then s
    else
      let delta := size - s.voldata.voluSize
      let s := voldataModify { s with media := clearVolhdrs s.media s.voldata.voluSize size }
      let vd := s.voldata.setVoluSize size
      { s with
        voldata := ((vd.setTotalSize (vd.totalSize + delta)).setAllocatorSize
          (vd.allocatorSize + delta)).setAllocatorFree (vd.allocatorFree + delta) }

/-- The VOLUME case of `hammer2_flush_core`. -/
def flushVolume (s : RingState) : RingState :=
  if s.modified then
    let vd := if s.voldata.mirrorTid < s.vchainTid then s.voldata.setMirrorTid s.vchainTid
      else s.voldata
    { s with voldata := vd.updateIcrc, volsync := vd.updateIcrc, volumesync := true,
             modified := false }
  else s

/-- The zone of the next header write. -/
def RingState.nextZone (s : RingState) : Nat := nextVolhdr s.volhdrno s.volsync.voluSize

/-- The header write that ends `hammer2_xop_inode_flush`. -/
def writeHeader (s : RingState) : RingState :=
  if s.volumesync then
    { s with media := Function.update s.media s.nextZone s.volsync, volhdrno := s.nextZone,
             volumesync := false, newest := s.volsync }
  else s

/-- The header copies that a crash leaves behind. -/
def crashMedia (s : RingState) : Option VolumeData → Option (Nat → VolumeData)
  | none => some s.media
  | some img =>
    if s.volumesync ∧ ¬ img.Intact then some (Function.update s.media s.nextZone img) else none

def ringStep (mediasize : Nat) (s : RingState) : RingAction → Option RingState
  | .voldataModify => some (voldataModify s)
  | .chainModify => some (vchainModify s)
  | .update vd =>
    if vd.magic = s.voldata.magic ∧ vd.voluSize = s.voldata.voluSize ∧
        vd.mirrorTid = s.voldata.mirrorTid then some { s with voldata := vd } else none
  | .flushFreemap tid => flushFreemap s tid
  | .growfs size => some (growfs mediasize s size)
  | .flushVolume => some (flushVolume s)
  | .writeHeader => some (writeHeader s)
  | .crash torn => (crashMedia s torn).bind fun media => mount mediasize media s.newest

/-- Transaction ids stay below the end of their 64-bit range, so that each header gets a larger one
than the header before. -/
def TidRoom (s : RingState) (_ : RingAction) : Prop :=
  s.voldata.mirrorTid + 1 < 18446744073709551616

/-- The system right after the first mount of a fresh volume. -/
def ringInit (rest : VolumeData) (size : Nat) : RingState :=
  let vd := formatVolume rest size
  { media := formatMedia vd size, voldata := vd, volsync := vd, volhdrno := 0,
    vchainTid := vd.mirrorTid, modified := false, volumesync := false, newest := vd }

abbrev RingReach (mediasize : Nat) (rest : VolumeData) (size : Nat) : RingState → Prop :=
  Run.Reach (ringStep mediasize) TidRoom (ringInit rest size)

/-- The size gives at least two header copies. -/
def TwoCopies (vd : VolumeData) : Prop := 2151677952 ≤ vd.voluSize

def IsTid (tid : Nat) : Prop := tid < 18446744073709551616

/-- The selected copy is the newest one, and both the live header and the one that waits to be
written are ahead of it. -/
structure RingInv (mediasize zone : Nat) (s : RingState) : Prop where
  volhdrno : s.volhdrno = zone
  newest : NewestBelow mediasize s.media numVolhdrs zone
  selected : s.media zone = s.newest
  inside : zone * zoneBytes < s.newest.voluSize
  magic : s.voldata.magic = volumeIdHbo
  copies : TwoCopies s.newest
  sizeSync : s.newest.voluSize ≤ s.volsync.voluSize
  sizeLive : s.volsync.voluSize ≤ s.voldata.voluSize
  sizeMedia : s.voldata.voluSize ≤ mediasize
  tidSync : s.newest.mirrorTid ≤ s.volsync.mirrorTid
  tidLive : s.volsync.mirrorTid ≤ s.voldata.mirrorTid
  isTid : IsTid s.vchainTid
  modified : s.modified = true → s.volsync.mirrorTid < s.vchainTid
  synced : s.volumesync = true → s.volsync.Intact ∧ s.newest.mirrorTid < s.volsync.mirrorTid

theorem RingInv.nextZone_spec {mediasize zone : Nat} {s : RingState}
    (h : RingInv mediasize zone s) :
    s.nextZone ≠ zone ∧ s.nextZone < numVolhdrs ∧ s.nextZone * zoneBytes < s.volsync.voluSize := by
  unfold RingState.nextZone
  rw [h.volhdrno]
  exact nextVolhdr_spec (Nat.le_trans h.copies h.sizeSync)

/-- The selection stays as it is when no other copy becomes selectable. -/
theorem NewestBelow.of_intact_eq {mediasize n zone : Nat} {media media' : Nat → VolumeData}
    (h : NewestBelow mediasize media n zone) (hzone : media' zone = media zone)
    (hother : ∀ i, (media' i).Intact → media' i = media i) :
    NewestBelow mediasize media' n zone := by
  refine ⟨h.lt, h.visible, hzone ▸ h.intact, ?_, ?_⟩
  · intro i hi hv hok
    have he := hother i hok
    rw [he] at hok
    rw [hzone, he]
    exact h.le i hi hv hok
  · intro i hi hv hok
    have he := hother i hok
    rw [he] at hok
    rw [hzone, he]
    exact h.first i hi hv hok

theorem NewestBelow.update_torn {mediasize n zone j : Nat} {media : Nat → VolumeData}
    {img : VolumeData} (h : NewestBelow mediasize media n zone) (hj : j ≠ zone)
    (himg : ¬ img.Intact) : NewestBelow mediasize (Function.update media j img) n zone := by
  refine h.of_intact_eq (Function.update_of_ne hj.symm _ _) ?_
  intro i hi
  by_cases hij : i = j
  · subst hij
    rw [Function.update_self] at hi
    exact absurd hi himg
  · exact Function.update_of_ne hij _ _

/-- A complete write of a header with a larger `mirror_tid` moves the selection to its zone. -/
theorem NewestBelow.update_newer {mediasize n zone j : Nat} {media : Nat → VolumeData}
    {vd : VolumeData} (h : NewestBelow mediasize media n zone) (hj : j < n)
    (hv : j * zoneBytes < mediasize) (hvd : vd.Intact)
    (htid : (media zone).mirrorTid < vd.mirrorTid) :
    NewestBelow mediasize (Function.update media j vd) n j := by
  have hless : ∀ i, i < n → i ≠ j → i * zoneBytes < mediasize →
      (Function.update media j vd i).Intact →
      (Function.update media j vd i).mirrorTid < vd.mirrorTid := by
    intro i hi hij hvi hok
    rw [Function.update_of_ne hij] at hok ⊢
    exact Nat.lt_of_le_of_lt (h.le i hi hvi hok) htid
  refine ⟨hj, hv, by rwa [Function.update_self], ?_, ?_⟩
  · intro i hi hvi hok
    rw [Function.update_self]
    by_cases hij : i = j
    · exact Nat.le_of_eq (by rw [hij, Function.update_self])
    · exact Nat.le_of_lt (hless i hi hij hvi hok)
  · intro i hi hvi hok
    rw [Function.update_self]
    exact hless i (by omega) (by omega) hvi hok

theorem clearVolhdrs_below {media : Nat → VolumeData} {oldSize size zone : Nat}
    (h : zone * zoneBytes < oldSize) : clearVolhdrs media oldSize size zone = media zone := by
  unfold clearVolhdrs
  rw [if_neg (by omega)]

theorem clearVolhdrs_of_intact {media : Nat → VolumeData} {oldSize size i : Nat}
    (h : (clearVolhdrs media oldSize size i).Intact) :
    clearVolhdrs media oldSize size i = media i := by
  unfold clearVolhdrs at h ⊢
  split at h
  next => exact absurd h zero_not_intact
  next hc => rw [if_neg hc]

/-- The volume root is marked modified with a transaction id beyond the one of the last flush. -/
theorem RingInv.set_modified {mediasize zone tid : Nat} {s : RingState}
    (h : RingInv mediasize zone s) (ht : IsTid tid) (hlt : s.volsync.mirrorTid < tid) :
    RingInv mediasize zone { s with modified := true, vchainTid := tid } :=
  { h with isTid := ht, modified := fun _ => hlt }

theorem vchainModify_inv {mediasize zone : Nat} {s : RingState} (h : RingInv mediasize zone s)
    (hroom : s.voldata.mirrorTid + 1 < 18446744073709551616) :
    RingInv mediasize zone (vchainModify s) := by
  unfold vchainModify
  rw [Nat.mod_eq_of_lt hroom]
  exact h.set_modified hroom (Nat.lt_succ_of_le h.tidLive)

theorem voldataModify_inv {mediasize zone : Nat} {s : RingState} (h : RingInv mediasize zone s)
    (hroom : s.voldata.mirrorTid + 1 < 18446744073709551616) :
    RingInv mediasize zone (voldataModify s) := by
  unfold voldataModify
  split
  next => exact h
  next => exact vchainModify_inv h hroom

/-- The live header may change in every other field, and may gain in size and in `mirror_tid`. -/
theorem RingInv.set_voldata {mediasize zone : Nat} {s : RingState} (h : RingInv mediasize zone s)
    {vd : VolumeData} (hmagic : vd.magic = s.voldata.magic)
    (hsize : s.voldata.voluSize ≤ vd.voluSize) (hmedia : vd.voluSize ≤ mediasize)
    (htid : s.voldata.mirrorTid ≤ vd.mirrorTid) :
    RingInv mediasize zone { s with voldata := vd } :=
  { h with
    magic := hmagic.trans h.magic
    sizeLive := Nat.le_trans h.sizeLive hsize
    sizeMedia := hmedia
    tidLive := Nat.le_trans h.tidLive htid }

theorem flushFreemap_inv {mediasize zone tid : Nat} {s s' : RingState}
    (h : RingInv mediasize zone s) (hroom : s.voldata.mirrorTid + 1 < 18446744073709551616)
    (hs : flushFreemap s tid = some s') : RingInv mediasize zone s' := by
  unfold flushFreemap at hs
  split at hs
  next =>
    cases Option.some.inj hs
    have htid := mirrorTid_setMirrorTid (s.voldata.setFreemapTid tid)
      ((s.voldata.setFreemapTid tid).mirrorTid + 1) (by simpa using hroom)
    refine h.set_voldata (by simp) (by simp) (by simpa using h.sizeMedia) ?_
    rw [htid, mirrorTid_setFreemapTid]
    omega
  next => simp at hs

theorem growfs_inv {mediasize zone size : Nat} {s : RingState} (h : RingInv mediasize zone s)
    (hroom : s.voldata.mirrorTid + 1 < 18446744073709551616) :
    RingInv mediasize zone (growfs mediasize s size) := by
  unfold growfs
  simp only
  generalize (if size = 0 then mediasize else size) = size
  split
  next => exact h
  next hle =>
    split
    next => exact h
    next hgrow =>
      have hround : size / volumeAlign * volumeAlign ≤ size := Nat.div_mul_le_self _ _
      generalize size / volumeAlign * volumeAlign = size' at hgrow hround
      have hz : zone * zoneBytes < s.voldata.voluSize :=
        Nat.lt_of_lt_of_le h.inside (Nat.le_trans h.sizeSync h.sizeLive)
      have hclear : RingInv mediasize zone
          { s with media := clearVolhdrs s.media s.voldata.voluSize size' } :=
        { h with
          newest := h.newest.of_intact_eq (clearVolhdrs_below hz) fun _ => clearVolhdrs_of_intact
          selected := (clearVolhdrs_below hz).trans h.selected }
      have hmod := voldataModify_inv hclear hroom
      generalize hs1 : voldataModify { s with media := _ } = s1 at hmod
      have hvd : s1.voldata = s.voldata := by
        rw [← hs1]
        unfold voldataModify
        split <;> rfl
      have hnew := voluSize_setVoluSize s1.voldata size' (by omega)
      refine hmod.set_voldata ?_ ?_ ?_ ?_
      · exact (getLE_setSizes _ _ _ _ (by omega)).trans (magic_setVoluSize _ _)
      · refine Nat.le_trans ?_ (Nat.le_of_eq (getLE_setSizes _ _ _ _ (by omega)).symm)
        change _ ≤ (s1.voldata.setVoluSize size').voluSize
        rw [hnew, hvd]
        omega
      · refine Nat.le_trans (Nat.le_of_eq (getLE_setSizes _ _ _ _ (by omega))) ?_
        change (s1.voldata.setVoluSize size').voluSize ≤ _
        omega
      · refine Nat.le_trans ?_ (Nat.le_of_eq (getLE_setSizes _ _ _ _ (by omega)).symm)
        exact Nat.le_of_eq (mirrorTid_setVoluSize _ _).symm

theorem flushVolume_inv {mediasize zone : Nat} {s : RingState} (h : RingInv mediasize zone s) :
    RingInv mediasize zone (flushVolume s) := by
  unfold flushVolume
  split
  next hm =>
    have hmod := h.modified hm
    have htid := h.tidSync
    generalize hvd : (if s.voldata.mirrorTid < s.vchainTid then _ else _) = vd
    have hmagic : vd.magic = s.voldata.magic := by
      rw [← hvd]
      split <;> simp
    have hsize : vd.voluSize = s.voldata.voluSize := by
      rw [← hvd]
      split <;> simp
    have hmax : s.vchainTid ≤ vd.mirrorTid := by
      rw [← hvd]
      split
      next => exact Nat.le_of_eq (mirrorTid_setMirrorTid _ _ h.isTid).symm
      next => omega
    have hsz : s.newest.voluSize ≤ vd.updateIcrc.voluSize := by
      rw [voluSize_updateIcrc, hsize]
      exact Nat.le_trans h.sizeSync h.sizeLive
    exact { h with
      magic := by simp only [magic_updateIcrc, hmagic, h.magic]
      sizeSync := hsz
      sizeLive := Nat.le_refl _
      sizeMedia := by simp only [voluSize_updateIcrc, hsize, h.sizeMedia]
      tidSync := by simp only [mirrorTid_updateIcrc]; omega
      tidLive := Nat.le_refl _
      modified := by simp
      synced := fun _ => ⟨updateIcrc_intact (hmagic.trans h.magic),
        by simp only [mirrorTid_updateIcrc]; omega⟩ }
  next => exact h

/-- A complete write of the waiting header to another zone of the volume. -/
theorem RingInv.write {mediasize zone j : Nat} {s : RingState} (h : RingInv mediasize zone s)
    (hsync : s.volumesync = true) (hj : j < numVolhdrs)
    (hv : j * zoneBytes < s.volsync.voluSize) :
    RingInv mediasize j { s with media := Function.update s.media j s.volsync, volhdrno := j,
                                 volumesync := false, newest := s.volsync } := by
  obtain ⟨hok, hlt⟩ := h.synced hsync
  have hvis : j * zoneBytes < mediasize :=
    Nat.lt_of_lt_of_le hv (Nat.le_trans h.sizeLive h.sizeMedia)
  have hlt' : (s.media zone).mirrorTid < s.volsync.mirrorTid := by
    rw [h.selected]
    exact hlt
  exact { h with
    volhdrno := rfl
    newest := h.newest.update_newer hj hvis hok hlt'
    selected := Function.update_self _ _ _
    inside := hv
    copies := Nat.le_trans h.copies h.sizeSync
    sizeSync := Nat.le_refl _
    tidSync := Nat.le_refl _
    synced := by simp }

theorem writeHeader_inv {mediasize zone : Nat} {s : RingState} (h : RingInv mediasize zone s) :
    ∃ zone', RingInv mediasize zone' (writeHeader s) := by
  unfold writeHeader
  split
  next hsync =>
    obtain ⟨_, hn, hv⟩ := h.nextZone_spec
    exact ⟨s.nextZone, h.write hsync hn hv⟩
  next => exact ⟨zone, h⟩

theorem crashMedia_newest {mediasize zone : Nat} {s : RingState} (h : RingInv mediasize zone s)
    {torn : Option VolumeData} {media : Nat → VolumeData} (hc : crashMedia s torn = some media) :
    NewestBelow mediasize media numVolhdrs zone ∧ media zone = s.newest := by
  cases torn with
  | none =>
    cases Option.some.inj hc
    exact ⟨h.newest, h.selected⟩
  | some img =>
    simp only [crashMedia] at hc
    split at hc
    next hcond =>
      cases Option.some.inj hc
      have hne := h.nextZone_spec.1
      exact ⟨h.newest.update_torn hne hcond.2,
        (Function.update_of_ne hne.symm _ _).trans h.selected⟩
    next => simp at hc

theorem mount_inv {mediasize zone : Nat} {s s' : RingState} {media : Nat → VolumeData}
    (h : RingInv mediasize zone s) (hnew : NewestBelow mediasize media numVolhdrs zone)
    (hsel : media zone = s.newest) (hs : mount mediasize media s.newest = some s') :
    RingInv mediasize zone s' := by
  unfold mount at hs
  rw [readVolumeHeader_of_newest hnew, hsel, Option.map_some] at hs
  cases Option.some.inj hs
  have hok : s.newest.Intact := hsel ▸ hnew.intact
  exact {
    volhdrno := rfl
    newest := hnew
    selected := hsel
    inside := h.inside
    magic := hok.1
    copies := h.copies
    sizeSync := Nat.le_refl _
    sizeLive := Nat.le_refl _
    sizeMedia := Nat.le_trans h.sizeSync (Nat.le_trans h.sizeLive h.sizeMedia)
    tidSync := Nat.le_refl _
    tidLive := Nat.le_refl _
    isTid := getLE_lt _ _ _
    modified := by simp
    synced := by simp }

theorem ringStep_inv {mediasize zone : Nat} {s s' : RingState} {a : RingAction}
    (h : RingInv mediasize zone s) (hroom : TidRoom s a)
    (hs : ringStep mediasize s a = some s') : ∃ zone', RingInv mediasize zone' s' := by
  cases a with
  | voldataModify =>
    cases Option.some.inj hs
    exact ⟨zone, voldataModify_inv h hroom⟩
  | chainModify =>
    cases Option.some.inj hs
    exact ⟨zone, vchainModify_inv h hroom⟩
  | update vd =>
    simp only [ringStep] at hs
    split at hs
    next hc =>
      cases Option.some.inj hs
      exact ⟨zone, h.set_voldata hc.1 (Nat.le_of_eq hc.2.1.symm)
        (Nat.le_trans (Nat.le_of_eq hc.2.1) h.sizeMedia) (Nat.le_of_eq hc.2.2.symm)⟩
    next => simp at hs
  | flushFreemap tid => exact ⟨zone, flushFreemap_inv h hroom hs⟩
  | growfs size =>
    cases Option.some.inj hs
    exact ⟨zone, growfs_inv h hroom⟩
  | flushVolume =>
    cases Option.some.inj hs
    exact ⟨zone, flushVolume_inv h⟩
  | writeHeader =>
    cases Option.some.inj hs
    exact writeHeader_inv h
  | crash torn =>
    obtain ⟨media, hc, hm⟩ := Option.bind_eq_some_iff.mp hs
    obtain ⟨hnew, hsel⟩ := crashMedia_newest h hc
    exact ⟨zone, mount_inv h hnew hsel hm⟩

theorem formatVolume_intact (rest : VolumeData) (size : Nat) : (formatVolume rest size).Intact := by
  refine updateIcrc_intact ?_
  simp only [magic_setFreemapTid, magic_setMirrorTid, magic_setVoluSize]
  exact magic_setMagic _ _ (by decide)

theorem formatVolume_voluSize (rest : VolumeData) {size : Nat} (h : size < 18446744073709551616) :
    (formatVolume rest size).voluSize = size := by
  unfold formatVolume
  simp only [voluSize_updateIcrc, voluSize_setFreemapTid, voluSize_setMirrorTid]
  exact voluSize_setVoluSize _ _ h

theorem formatVolume_mirrorTid (rest : VolumeData) (size : Nat) :
    (formatVolume rest size).mirrorTid = 16 := by
  unfold formatVolume
  simp only [mirrorTid_updateIcrc, mirrorTid_setFreemapTid]
  exact mirrorTid_setMirrorTid _ _ (by decide)

theorem formatMedia_newest {mediasize size : Nat} {vd : VolumeData} (hvd : vd.Intact)
    (h0 : 0 < size) (hsize : size ≤ mediasize) :
    NewestBelow mediasize (formatMedia vd size) numVolhdrs 0 := by
  have hzero : formatMedia vd size 0 = vd := by
    unfold formatMedia
    rw [if_pos (by omega)]
  have hintact : (formatMedia vd size 0).Intact := by
    rw [hzero]
    exact hvd
  refine ⟨by decide, by omega, hintact, ?_, by omega⟩
  intro i _ _ hok
  rw [hzero]
  unfold formatMedia at hok ⊢
  split at hok
  next hc => exact Nat.le_of_eq (by rw [if_pos hc])
  next => exact absurd hok zero_not_intact

theorem ringInit_inv {mediasize size : Nat} (rest : VolumeData) (hcopies : zoneBytes < size)
    (halign : size % volumeAlign = 0) (hmedia : size ≤ mediasize)
    (hmax : mediasize < 9223372036854775808) : RingInv mediasize 0 (ringInit rest size) := by
  have hlt : size < 18446744073709551616 := by omega
  have hsize := formatVolume_voluSize rest hlt
  have hpos : 0 < size := by omega
  have htwo : 2151677952 ≤ size := by
    unfold zoneBytes at hcopies
    unfold volumeAlign at halign
    omega
  unfold ringInit
  generalize hvd : formatVolume rest size = vd at hsize
  have hok : vd.Intact := hvd ▸ formatVolume_intact rest size
  exact {
    volhdrno := rfl
    newest := formatMedia_newest hok hpos hmedia
    selected := by
      unfold formatMedia
      exact if_pos (by omega)
    inside := by simp only [hsize]; omega
    magic := hok.1
    copies := by unfold TwoCopies; rw [hsize]; exact htwo
    sizeSync := Nat.le_refl _
    sizeLive := Nat.le_refl _
    sizeMedia := by simp only [hsize]; exact hmedia
    tidSync := Nat.le_refl _
    tidLive := Nat.le_refl _
    isTid := getLE_lt _ _ _
    modified := by simp
    synced := by simp }

/-- The first mount of a fresh volume succeeds. -/
theorem mount_formatMedia {mediasize size : Nat} (rest : VolumeData) (h0 : 0 < size)
    (hmedia : size ≤ mediasize) :
    mount mediasize (formatMedia (formatVolume rest size) size) (formatVolume rest size) =
      some (ringInit rest size) := by
  have hnew := formatMedia_newest (formatVolume_intact rest size) h0 hmedia
  have hzero : formatMedia (formatVolume rest size) size 0 = formatVolume rest size := by
    unfold formatMedia
    exact if_pos (by omega)
  unfold mount ringInit
  rw [readVolumeHeader_of_newest hnew, hzero, Option.map_some]
  rfl

theorem ringReach_inv {mediasize size : Nat} {rest : VolumeData} {s : RingState}
    (hcopies : zoneBytes < size) (halign : size % volumeAlign = 0) (hmedia : size ≤ mediasize)
    (hmax : mediasize < 9223372036854775808) (h : RingReach mediasize rest size s) :
    ∃ zone, RingInv mediasize zone s := by
  refine Run.Reach.invariant (I := fun s => ∃ zone, RingInv mediasize zone s)
    ⟨0, ringInit_inv rest hcopies halign hmedia hmax⟩ ?_ h
  rintro s a s' ⟨zone, hinv⟩ hroom hs
  exact ringStep_inv hinv hroom hs

/-- In every state of every run, whatever a crash leaves of the header write that is under way, the
next mount selects the newest completely written header, and that is not the copy that the next
flush writes. -/
theorem volume_header_survives_crash {mediasize size : Nat} {rest : VolumeData} {s : RingState}
    (hcopies : zoneBytes < size) (halign : size % volumeAlign = 0) (hmedia : size ≤ mediasize)
    (hmax : mediasize < 9223372036854775808) (h : RingReach mediasize rest size s) :
    ∃ zone : Nat, s.volhdrno = zone ∧ s.nextZone ≠ zone ∧
      ∀ torn media, crashMedia s torn = some media →
        readVolumeHeader mediasize media = some (zone, s.newest) := by
  obtain ⟨zone, hinv⟩ := ringReach_inv hcopies halign hmedia hmax h
  refine ⟨zone, hinv.volhdrno, hinv.nextZone_spec.1, ?_⟩
  intro torn media hc
  obtain ⟨hnew, hsel⟩ := crashMedia_newest hinv hc
  rw [readVolumeHeader_of_newest hnew, hsel]

/-- The volume of 4GB whose first flush has reached the header write. -/
def firstFlush : RingState := flushVolume (voldataModify (ringInit (fun _ => 0#8) 4294967296))

theorem firstFlush_reach : RingReach 4294967296 (fun _ => 0#8) 4294967296 firstFlush := by
  have htid : (ringInit (fun _ => 0#8) 4294967296).voldata.mirrorTid = 16 :=
    formatVolume_mirrorTid _ _
  have hroom : TidRoom (ringInit (fun _ => 0#8) 4294967296) .voldataModify := by
    unfold TidRoom
    rw [htid]
    decide
  have hmod : (voldataModify (ringInit (fun _ => 0#8) 4294967296)).voldata =
      (ringInit (fun _ => 0#8) 4294967296).voldata := by
    unfold voldataModify
    split <;> rfl
  have hroom' : TidRoom (voldataModify (ringInit (fun _ => 0#8) 4294967296)) .flushVolume := by
    unfold TidRoom
    rw [hmod, htid]
    decide
  exact (Run.Reach.start.next (a := .voldataModify) hroom rfl).next (a := .flushVolume) hroom' rfl

theorem volume_header_survives_first_flush :
    ∃ zone : Nat, firstFlush.volhdrno = zone ∧ firstFlush.nextZone ≠ zone ∧
      ∀ torn media, crashMedia firstFlush torn = some media →
        readVolumeHeader 4294967296 media = some (zone, firstFlush.newest) :=
  volume_header_survives_crash (by decide) (by decide) (by decide) (by decide) firstFlush_reach

end Hammer2
