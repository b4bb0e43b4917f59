import Hammer2.FsckVerdict

/-! `read_media` of fsck and of the `hammer2` command, with the bytes that it leaves in the buffer. -/

namespace Hammer2

open ByteImage

/-- The volume that `hammer2_get_volume_fd` and `hammer2_get_volume_offset` find; they mask the
radix. -/
def UserOndisk.volumeAt (fso : UserOndisk) (off : Nat) : Option UserVolume :=
  fso.getVolume (off / 64 * 64)

def UserOndisk.volumeOffset (fso : UserOndisk) (off : Nat) : Nat :=
  ((fso.volumeAt off).map (·.offset)).getD (offMod - 1)

/-- The file and the position of the `lseek`, which takes no negative position. -/
def mediaSeek (fso : UserOndisk) (ioOff ioBase : Nat) : Option (UserVolume × Nat) :=
  (fso.volumeAt ioOff).bind fun vol =>
    let pos := (ioBase + (offMod - fso.volumeOffset ioBase)) % offMod
    if 2 ^ 63 ≤ pos then none else some (vol, pos)

/-- A `read` of all `n` bytes into the front of the buffer. -/
def mediaFill (disk : UserVolume → Image) (vol : UserVolume) (pos n : Nat) (media : Image) :
    Option Image :=
  if pos + n ≤ vol.dev.size then some fun k => if k < n then disk vol (pos + k) else media k
  else none

/-- `memmove(media, media + boff, bytes)` -/
def mediaMove (boff bytes : Nat) (media : Image) : Image := fun k =>
  if k < bytes then media (boff + k) else media k

inductive MediaRead where
  | noData
  | badIoBytes
  | failed
  | ok (bytes : Nat) (media : Image)

/-- The body that both `read_media` share. `media` is what the buffer and the memory behind it hold
before. -/
def mediaRead (fso : UserOndisk) (disk : UserVolume → Image) (dataOff : BitVec 64)
    (media : Image) : MediaRead :=
  let bytes := mediaBytes dataOff
  let ioOff := dataOff.toNat / 64 * 64
  let ioBase := ioOff / 16384 * 16384
  let boff := ioOff - ioBase
  let io := ioBytes boff bytes 64 16384
  if bytes = 0 then .noData
  else if 65536 < io then .badIoBytes
  else
    match (mediaSeek fso ioOff ioBase).bind fun (vol, pos) => mediaFill disk vol pos io media with
    | none => .failed
    | some buf => .ok bytes (if boff = 0 then buf else mediaMove boff bytes buf)

/-- fsck's `read_media`: its value, `*media_bytes` and the buffer. -/
def fsckReadMedia (fso : UserOndisk) (disk : UserVolume → Image) (dataOff : BitVec 64)
    (media : Image) : Int × Nat × Image :=
  match mediaRead fso disk dataOff media with
  | .noData => (0, 0, media)
  | .badIoBytes => (-1, mediaBytes dataOff, media)
  | .failed => (-2, mediaBytes dataOff, media)
  | .ok bytes buf => (0, bytes, buf)

/-- The `read_media` of the `hammer2` command: its value and the buffer. -/
def cliReadMedia (fso : UserOndisk) (disk : UserVolume → Image) (dataOff : BitVec 64)
    (media : Image) : Nat × Image :=
  match mediaRead fso disk dataOff media with
  | .ok bytes buf => (bytes, buf)
  | _ => (0, media)

/-- The byte at an offset of the address space. -/
def UserOndisk.deviceByte (fso : UserOndisk) (disk : UserVolume → Image) (off : Nat) :
    Option (BitVec 8) :=
  (fso.volumeAt off).map fun vol => disk vol (off - vol.offset)

/-- The first bytes of a buffer are those that a `data_off` names. -/
def HoldsBlock (fso : UserOndisk) (disk : UserVolume → Image) (dataOff : BitVec 64)
    (media : Image) : Prop :=
  ∀ k < mediaBytes dataOff, fso.deviceByte disk (dataOff.toNat / 64 * 64 + k) = some (media k)

/-- The block starts on a 16KB boundary or does not cross one, and it lies in one volume. -/
structure BlockPlaced (fso : UserOndisk) (dataOff : BitVec 64) : Prop where
  buffer : dataOff.toNat / 64 * 64 % 16384 = 0 ∨
    dataOff.toNat / 64 * 64 % 16384 + mediaBytes dataOff ≤ 16384
  volume : ∀ k < mediaBytes dataOff,
    fso.volumeAt (dataOff.toNat / 64 * 64 + k) = fso.volumeAt (dataOff.toNat / 64 * 64)

section IoBytes

variable {boff bytes : Nat}

theorem ioBytes_covers {fuel io : Nat} (h : bytes ≤ io * 2 ^ fuel) :
    bytes ≤ ioBytes boff bytes fuel io + boff := by
  induction fuel generalizing io with
  | zero =>
    rw [pow_zero, Nat.mul_one] at h
    exact h.trans (Nat.le_add_right _ _)
  | succ fuel ih =>
    unfold ioBytes
    split
    next =>
      apply ih
      calc bytes ≤ io * 2 ^ (fuel + 1) := h
        _ = 2 * io * 2 ^ fuel := by ring
    next hdone => exact Nat.le_of_not_lt hdone

/-- The size of the read when the block is no larger than the buffer. -/
theorem ioBytes_eq {r : Nat} (hboff : boff < 16384) (hr : r ≤ 16) :
    ioBytes boff (2 ^ r) 64 16384 = max 16384 (2 ^ r) := by
  rcases Nat.lt_or_ge r 15 with h | h
  · have hle : 2 ^ r ≤ 2 ^ 14 := Nat.pow_le_pow_right (by decide) (by omega)
    rw [ioBytes, if_neg (by omega)]
    omega
  · obtain rfl | rfl : r = 15 ∨ r = 16 := by omega
    · rw [ioBytes, if_pos (by omega), ioBytes, if_neg (by omega)]
      rfl
    · rw [ioBytes, if_pos (by omega), ioBytes, if_pos (by omega), ioBytes, if_neg (by omega)]
      rfl

/-- The leading offset is not part of the size, so a block that crosses a boundary does not fit. -/
theorem ioBytes_fits_iff {r : Nat} (hboff : boff < 16384) (hr : r ≤ 16) :
    boff + 2 ^ r ≤ ioBytes boff (2 ^ r) 64 16384 ↔ boff = 0 ∨ boff + 2 ^ r ≤ 16384 := by
  rw [ioBytes_eq hboff hr]
  omega

end IoBytes

section Volumes

/-- The volumes that `hammer2_init_volumes` accepts lie on 16KB boundaries. -/
def UserOndisk.BufferAligned (fso : UserOndisk) : Prop :=
  ∀ i < fso.nvolumes, ∀ vol ∈ fso.volumes i, vol.offset % 16384 = 0 ∧ vol.size % 16384 = 0

theorem bufferAligned_of_init {devs : List UserDevice} {fso : UserOndisk}
    (h : userInitVolumes devs = some fso) : fso.BufferAligned := by
  obtain ⟨fso', -, h⟩ := Option.bind_eq_some_iff.mp h
  have halign : 16384 ∣ volumeAlign := ⟨512, rfl⟩
  have hlevel : 16384 ∣ freemapLevel1Size := ⟨65536, rfl⟩
  unfold verifyVolumes at h
  obtain ⟨-, h⟩ := Option.ite_none_left_eq_some.mp h
  split at h
  next =>
    obtain ⟨⟨hcount, -, hvols⟩, h⟩ := Option.ite_none_right_eq_some.mp h
    cases h
    intro i hi vol hvol
    have hids : fso.ids.length ≤ maxVolumes := by
      have hle := List.length_filter_le (fun i => (fso.volumes i).isSome) (List.range maxVolumes)
      rw [List.length_range] at hle
      exact hle
    have hmem : i ∈ fso.ids := by
      apply List.mem_filter.mpr
      exact ⟨List.mem_range.mpr (by omega), Option.isSome_iff_exists.mpr ⟨vol, hvol⟩⟩
    obtain ⟨hoff, -, hsize⟩ := hvols i hmem vol hvol
    refine ⟨mod_of_mod hoff hlevel, ?_⟩
    split at hsize
    next => exact mod_of_mod hsize.2 hlevel
    next => exact mod_of_mod hsize halign
  next =>
    obtain ⟨⟨-, -, -, hroot⟩, h⟩ := Option.ite_none_right_eq_some.mp h
    cases h
    intro i hi vol hvol
    obtain rfl : i = 0 := Nat.lt_one_iff.mp hi
    obtain ⟨hoff, hsize⟩ := hroot vol hvol
    exact ⟨by rw [hoff], mod_of_mod hsize halign⟩

theorem le_base_iff {x off : Nat} (h : x % 16384 = 0) : x ≤ off / 16384 * 16384 ↔ x ≤ off := by
  omega

theorem findSome?_congr {l : List Nat} {f g : Nat → Option UserVolume} (h : ∀ i ∈ l, f i = g i) :
    l.findSome? f = l.findSome? g := by
  induction l with
  | nil => rfl
  | cons i l ih =>
    rw [List.findSome?_cons, List.findSome?_cons, h i List.mem_cons_self,
      ih fun j hj => h j (List.mem_cons_of_mem i hj)]

/-- An aligned volume holds an offset just when it holds the boundary below it. -/
theorem volumeAt_base {fso : UserOndisk} (h : fso.BufferAligned) (off : Nat) :
    fso.volumeAt (off / 64 * 64 / 16384 * 16384) = fso.volumeAt off := by
  have hround : off / 64 * 64 / 16384 * 16384 / 64 * 64 = off / 64 * 64 / 16384 * 16384 := by
    omega
  unfold UserOndisk.volumeAt
  rw [hround]
  generalize off / 64 * 64 = x
  unfold UserOndisk.getVolume
  apply findSome?_congr
  intro i hi
  cases hvol : fso.volumes i with
  | none => rfl
  | some vol =>
    obtain ⟨hoff, hsize⟩ := h i (List.mem_range.mp hi) vol hvol
    have hend : (vol.offset + vol.size) % offMod % 16384 = 0 := by
      unfold offMod
      omega
    have hbelow : x / 16384 * 16384 < (vol.offset + vol.size) % offMod ↔
        x < (vol.offset + vol.size) % offMod := by
      omega
    simp only [Option.filter_some, le_base_iff hoff, hbelow]

end Volumes

section Read

variable {fso : UserOndisk} {disk : UserVolume → Image} {dataOff : BitVec 64} {media : Image}

theorem volumeAt_holds {off : Nat} {vol : UserVolume} (h : fso.volumeAt off = some vol) :
    vol.offset ≤ off / 64 * 64 ∧ off / 64 * 64 < (vol.offset + vol.size) % offMod := by
  unfold UserOndisk.volumeAt UserOndisk.getVolume at h
  obtain ⟨i, -, hvol⟩ := List.exists_of_findSome?_eq_some h
  have hfilter := Option.filter_eq_some_iff.mp hvol
  simpa using hfilter.2

theorem volumeAt_mask (fso : UserOndisk) (off : Nat) :
    fso.volumeAt (off / 64 * 64) = fso.volumeAt off := by
  unfold UserOndisk.volumeAt
  rw [Nat.mul_div_cancel _ (by decide)]

/-- The position of the read is that of the 16KB boundary in the volume of the block. -/
theorem seek_pos (halign : fso.BufferAligned) {off : Nat} (hoff : off < offMod) {vol : UserVolume}
    (hvol : fso.volumeAt off = some vol) :
    vol.offset ≤ off / 64 * 64 / 16384 * 16384 ∧
      (off / 64 * 64 / 16384 * 16384 +
          (offMod - fso.volumeOffset (off / 64 * 64 / 16384 * 16384))) % offMod =
        off / 64 * 64 / 16384 * 16384 - vol.offset := by
  have hbase := (volumeAt_base halign off).trans hvol
  obtain ⟨hle, -⟩ := volumeAt_holds hbase
  have hle' : vol.offset ≤ off / 64 * 64 / 16384 * 16384 := by omega
  have hvoff : fso.volumeOffset (off / 64 * 64 / 16384 * 16384) = vol.offset := by
    unfold UserOndisk.volumeOffset
    rw [hbase]
    rfl
  rw [hvoff]
  refine ⟨hle', ?_⟩
  have hlt : off / 64 * 64 / 16384 * 16384 < offMod := by omega
  generalize off / 64 * 64 / 16384 * 16384 = base at hle' hlt
  unfold offMod at hlt ⊢
  omega

/-- How far into its 16KB a block starts. -/
def leadOf (dataOff : BitVec 64) : Nat := dataOff.toNat / 64 * 64 % 16384

/-- What a successful read leaves at the front of the buffer: the block as far as it was read, and
behind it what the buffer held before. -/
theorem mediaRead_ok (halign : fso.BufferAligned) {bytes : Nat} {buf : Image}
    (h : mediaRead fso disk dataOff media = .ok bytes buf) :
    ∃ vol, fso.volumeAt (dataOff.toNat / 64 * 64) = some vol ∧ bytes = mediaBytes dataOff ∧
      bytes ≠ 0 ∧ ioBytes (leadOf dataOff) bytes 64 16384 ≤ 65536 ∧
        ∀ k < bytes, buf k =
          if leadOf dataOff + k < ioBytes (leadOf dataOff) bytes 64 16384 then
            disk vol (dataOff.toNat / 64 * 64 + k - vol.offset)
          else media (leadOf dataOff + k) := by
  have hlead : dataOff.toNat / 64 * 64 - dataOff.toNat / 64 * 64 / 16384 * 16384 =
      leadOf dataOff := by
    unfold leadOf
    omega
  unfold mediaRead at h
  dsimp only at h
  rw [hlead] at h
  split at h
  next => cases h
  next hdata =>
    split at h
    next => cases h
    next hio =>
      split at h
      next => cases h
      next filled hfill =>
        obtain ⟨⟨vol, pos⟩, hseek, hfill⟩ := Option.bind_eq_some_iff.mp hfill
        obtain ⟨vol', hvol, hseek⟩ := Option.bind_eq_some_iff.mp hseek
        obtain ⟨-, hpos⟩ := Option.ite_none_left_eq_some.mp hseek
        obtain ⟨-, hfilled⟩ := Option.ite_none_right_eq_some.mp hfill
        cases hpos
        cases hfilled
        cases h
        refine ⟨vol, hvol, rfl, hdata, Nat.le_of_not_lt hio, ?_⟩
        rw [volumeAt_mask] at hvol
        obtain ⟨hle, hpos⟩ := seek_pos halign dataOff.isLt hvol
        intro k hk
        have hpos' : ∀ n, dataOff.toNat / 64 * 64 / 16384 * 16384 - vol.offset + (leadOf dataOff + n) =
            dataOff.toNat / 64 * 64 + n - vol.offset := by
          intro n
          omega
        rw [hpos]
        split
        next hzero =>
          have hsame := hpos' k
          rw [hzero, Nat.zero_add] at hsame ⊢
          dsimp only
          rw [hsame]
        next =>
          unfold mediaMove
          rw [if_pos hk]
          dsimp only
          rw [hpos']

/-- Whether a read succeeds does not depend on what is on the disk and in the buffer. -/
theorem mediaRead_ok_any {bytes : Nat} {buf : Image}
    (h : mediaRead fso disk dataOff media = .ok bytes buf) (disk' : UserVolume → Image)
    (media' : Image) : ∃ buf', mediaRead fso disk' dataOff media' = .ok bytes buf' := by
  unfold mediaRead at h ⊢
  dsimp only at h ⊢
  split at h
  next => cases h
  next hdata =>
    split at h
    next => cases h
    next hio =>
      rw [if_neg hdata, if_neg hio]
      split at h
      next => cases h
      next filled hfill =>
        obtain ⟨⟨vol, pos⟩, hseek, hfill⟩ := Option.bind_eq_some_iff.mp hfill
        obtain ⟨hlen, -⟩ := Option.ite_none_right_eq_some.mp hfill
        cases h
        rw [hseek]
        dsimp only [Option.bind_some, mediaFill]
        rw [if_pos hlen]
        exact ⟨_, rfl⟩

theorem mediaRead_ok_bytes {bytes : Nat} {buf : Image}
    (h : mediaRead fso disk dataOff media = .ok bytes buf) :
    bytes = mediaBytes dataOff ∧ bytes ≠ 0 := by
  unfold mediaRead at h
  dsimp only at h
  split at h
  next => cases h
  next hdata =>
    split at h
    next => cases h
    next =>
      split at h
      next => cases h
      next =>
        cases h
        exact ⟨rfl, hdata⟩

theorem fsckReadMedia_iff {bytes : Nat} {buf : Image} :
    (fsckReadMedia fso disk dataOff media = (0, bytes, buf) ∧ 0 < bytes) ↔
      mediaRead fso disk dataOff media = .ok bytes buf := by
  unfold fsckReadMedia
  split
  next heq =>
    rw [heq]
    simp only [Prod.mk.injEq, true_and, reduceCtorEq, iff_false]
    omega
  next heq => simp [heq]
  next heq => simp [heq]
  next heq =>
    have hpos := (mediaRead_ok_bytes heq).2
    rw [heq]
    simp only [Prod.mk.injEq, true_and, MediaRead.ok.injEq]
    exact and_iff_left_of_imp fun h => h.1 ▸ Nat.pos_of_ne_zero hpos

theorem cliReadMedia_iff {bytes : Nat} {buf : Image} :
    (cliReadMedia fso disk dataOff media = (bytes, buf) ∧ bytes ≠ 0) ↔
      mediaRead fso disk dataOff media = .ok bytes buf := by
  unfold cliReadMedia
  split
  next heq =>
    have hpos := (mediaRead_ok_bytes heq).2
    rw [heq]
    simp only [Prod.mk.injEq, MediaRead.ok.injEq]
    exact and_iff_left_of_imp fun h => h.1 ▸ hpos
  next hno =>
    constructor
    · intro h
      cases h.1
      exact absurd rfl h.2
    · intro h
      exact absurd h (hno bytes buf)

theorem mediaBytes_eq (h : mediaBytes dataOff ≠ 0) :
    mediaBytes dataOff = 2 ^ (dataOff.toNat % 64) := by
  unfold mediaBytes at h ⊢
  split
  next hzero => exact absurd (if_pos hzero) h
  next => rfl

theorem leadOf_lt : leadOf dataOff < 16384 := Nat.mod_lt _ (by decide)

/-- A block that is read has the size of the buffer at most. -/
theorem fits_iff (hdata : mediaBytes dataOff ≠ 0)
    (hio : ioBytes (leadOf dataOff) (mediaBytes dataOff) 64 16384 ≤ 65536) :
    leadOf dataOff + mediaBytes dataOff ≤ ioBytes (leadOf dataOff) (mediaBytes dataOff) 64 16384 ↔
      leadOf dataOff = 0 ∨ leadOf dataOff + mediaBytes dataOff ≤ 16384 := by
  have hlead : leadOf dataOff < 16384 := leadOf_lt
  have hradix : dataOff.toNat % 64 < 64 := Nat.mod_lt _ (by decide)
  rw [mediaBytes_eq hdata] at hio ⊢
  have hcover : 2 ^ (dataOff.toNat % 64) ≤
      ioBytes (leadOf dataOff) (2 ^ (dataOff.toNat % 64)) 64 16384 + leadOf dataOff := by
    apply ioBytes_covers
    exact (Nat.pow_le_pow_right (by decide) hradix.le).trans
      (Nat.le_mul_of_pos_left _ (by decide))
  have hle : dataOff.toNat % 64 ≤ 16 := by
    by_contra hlarge
    have hpow : 2 ^ 17 ≤ 2 ^ (dataOff.toNat % 64) :=
      Nat.pow_le_pow_right (by decide) (Nat.lt_of_not_le hlarge)
    omega
  exact ioBytes_fits_iff hlead hle

/-- A read of a block that is placed well. -/
theorem holdsBlock_of_placed (halign : fso.BufferAligned) {bytes : Nat} {buf : Image}
    (h : mediaRead fso disk dataOff media = .ok bytes buf) (hplaced : BlockPlaced fso dataOff) :
    HoldsBlock fso disk dataOff buf := by
  obtain ⟨vol, hvol, rfl, hdata, hio, hbuf⟩ := mediaRead_ok halign h
  have hfits := (fits_iff hdata hio).mpr hplaced.buffer
  intro k hk
  unfold UserOndisk.deviceByte
  rw [hplaced.volume k hk, hvol, hbuf k hk, if_pos (by omega)]
  rfl

/-- A block that is placed badly is read wrongly from some disk into some buffer. -/
theorem placed_of_holdsBlock (halign : fso.BufferAligned) {bytes : Nat} {buf : Image}
    (h : mediaRead fso disk dataOff media = .ok bytes buf)
    (hall : ∀ disk media buf, mediaRead fso disk dataOff media = .ok bytes buf →
      HoldsBlock fso disk dataOff buf) : BlockPlaced fso dataOff := by
  constructor
  · -- the end of a block that does not fit is what a buffer of ones held before
    by_contra hbad
    obtain ⟨buf', h'⟩ := mediaRead_ok_any h (fun _ _ => 0) fun _ => 1
    obtain ⟨vol, hvol, rfl, hdata, hio, hbuf⟩ := mediaRead_ok halign h'
    have hfits := mt (fits_iff hdata hio).mp hbad
    have hlast : mediaBytes dataOff - 1 < mediaBytes dataOff := by omega
    have hheld := hall _ _ _ h' _ hlast
    obtain ⟨vol', -, hbyte⟩ := Option.map_eq_some_iff.mp hheld
    rw [hbuf _ hlast, if_neg (by omega)] at hbyte
    cases hbyte
  · -- a disk that has ones on the other volume only
    intro k hk
    obtain ⟨vol, hvol, -, -, -, -⟩ := mediaRead_ok halign h
    classical
    obtain ⟨buf', h'⟩ := mediaRead_ok_any h (fun v _ => if v = vol then 0 else 1) fun _ => 0
    obtain ⟨vol', hvol', rfl, hdata, hio, hbuf⟩ := mediaRead_ok halign h'
    have hheld := hall _ _ _ h' k hk
    obtain ⟨other, hother, hbyte⟩ := Option.map_eq_some_iff.mp hheld
    cases hvol.symm.trans hvol'
    have hzero : buf' k = 0 := by
      rw [hbuf k hk, if_pos rfl, ite_self]
    rw [hzero] at hbyte
    have hsame : other = vol := by
      by_contra hne
      dsimp only at hbyte
      rw [if_neg hne] at hbyte
      cases hbyte
    rw [hother, hvol, hsame]

end Read

/-- fsck's `read_media` leaves the block that the blockref names in the buffer whenever it returns 0
with a size. -/
def FsckReadsBlock (fso : UserOndisk) (dataOff : BitVec 64) : Prop :=
  ∀ disk media bytes buf, fsckReadMedia fso disk dataOff media = (0, bytes, buf) → 0 < bytes →
    HoldsBlock fso disk dataOff buf

def CliReadsBlock (fso : UserOndisk) (dataOff : BitVec 64) : Prop :=
  ∀ disk media bytes buf, cliReadMedia fso disk dataOff media = (bytes, buf) → bytes ≠ 0 →
    HoldsBlock fso disk dataOff buf

theorem FsckReadsBlock.placed {fso : UserOndisk} {dataOff : BitVec 64} (h : FsckReadsBlock fso dataOff)
    (halign : fso.BufferAligned) {disk : UserVolume → Image} {media : Image} {bytes : Nat}
    {buf : Image} (hok : mediaRead fso disk dataOff media = .ok bytes buf) :
    BlockPlaced fso dataOff := by
  apply placed_of_holdsBlock halign hok
  intro disk' media' buf' hok'
  obtain ⟨heq, hpos⟩ := fsckReadMedia_iff.mpr hok'
  exact h _ _ _ _ heq hpos

theorem CliReadsBlock.placed {fso : UserOndisk} {dataOff : BitVec 64} (h : CliReadsBlock fso dataOff)
    (halign : fso.BufferAligned) {disk : UserVolume → Image} {media : Image} {bytes : Nat}
    {buf : Image} (hok : mediaRead fso disk dataOff media = .ok bytes buf) :
    BlockPlaced fso dataOff := by
  apply placed_of_holdsBlock halign hok
  intro disk' media' buf' hok'
  obtain ⟨heq, hpos⟩ := cliReadMedia_iff.mpr hok'
  exact h _ _ _ _ heq hpos

/-- The tools read what a blockref names, whatever is on the disks and in the buffer, just when the
block is placed well. -/
theorem read_media_names_device_iff {devs : List UserDevice} {fso : UserOndisk}
    (hinit : userInitVolumes devs = some fso) {dataOff : BitVec 64}
    (hread : ∃ disk media, (cliReadMedia fso disk dataOff media).1 ≠ 0) :
    (FsckReadsBlock fso dataOff ↔ BlockPlaced fso dataOff) ∧
      (CliReadsBlock fso dataOff ↔ BlockPlaced fso dataOff) := by
  have halign := bufferAligned_of_init hinit
  obtain ⟨disk, media, hne⟩ := hread
  have hok := cliReadMedia_iff.mp ⟨rfl, hne⟩
  refine ⟨⟨fun h => h.placed halign hok, ?_⟩, ⟨fun h => h.placed halign hok, ?_⟩⟩
  · intro h disk' media' bytes buf heq hpos
    exact holdsBlock_of_placed halign (fsckReadMedia_iff.mp ⟨heq, hpos⟩) h
  · intro h disk' media' bytes buf heq hpos
    exact holdsBlock_of_placed halign (cliReadMedia_iff.mp ⟨heq, hpos⟩) h

section Example

def headerVolume : UserVolume := ⟨⟨(0, 1), 8589934592, goodSlots⟩, 0, 0, 8589934592⟩

theorem headerOndisk_volumeAt {off : Nat} (h : off < 8589934592) :
    (headerOndisk goodSlots).volumeAt off = some headerVolume := by
  have hlt : off / 64 * 64 < 8589934592 := by omega
  unfold UserOndisk.volumeAt UserOndisk.getVolume headerOndisk
  simp [offMod, Option.filter, headerVolume, hlt]

/-- A read from the 8GB disk, up to 128KB before its end. -/
theorem headerOndisk_read (disk : UserVolume → Image) (media : Image) (dataOff : BitVec 64)
    (hdata : mediaBytes dataOff ≠ 0)
    (hio : ioBytes (leadOf dataOff) (mediaBytes dataOff) 64 16384 ≤ 65536)
    (hend : dataOff.toNat < 8589803520) :
    (cliReadMedia (headerOndisk goodSlots) disk dataOff media).1 = mediaBytes dataOff := by
  have halign := bufferAligned_of_init (headerDisk_init goodSlots_user)
  have hvol := headerOndisk_volumeAt (show dataOff.toNat < 8589934592 by omega)
  obtain ⟨-, hpos⟩ := seek_pos halign dataOff.isLt hvol
  have hlead : dataOff.toNat / 64 * 64 - dataOff.toNat / 64 * 64 / 16384 * 16384 =
      leadOf dataOff := by
    unfold leadOf
    omega
  have hseek : mediaSeek (headerOndisk goodSlots) (dataOff.toNat / 64 * 64)
      (dataOff.toNat / 64 * 64 / 16384 * 16384) =
        some (headerVolume, dataOff.toNat / 64 * 64 / 16384 * 16384) := by
    unfold mediaSeek
    rw [volumeAt_mask, hvol, Option.bind_some, hpos, if_neg]
    · rfl
    · have hzero : headerVolume.offset = 0 := rfl
      omega
  have hlen : dataOff.toNat / 64 * 64 / 16384 * 16384 +
      ioBytes (leadOf dataOff) (mediaBytes dataOff) 64 16384 ≤ headerVolume.dev.size := by
    have hsize : headerVolume.dev.size = 8589934592 := rfl
    omega
  unfold cliReadMedia mediaRead
  rw [if_neg hdata, hlead, if_neg (Nat.not_lt.mpr hio), hseek, Option.bind_some]
  dsimp only [mediaFill]
  rw [if_pos hlen]

/-- A 16KB block in the middle of two buffers: only its first half is read. -/
def straddlingOff : BitVec 64 := 0x40200e

theorem straddlingOff_bytes : mediaBytes straddlingOff = 16384 ∧ leadOf straddlingOff = 8192 ∧
    straddlingOff.toNat < 8589803520 := by
  decide

theorem read_media_misses_second_half :
    (∀ disk media, (cliReadMedia (headerOndisk goodSlots) disk straddlingOff media).1 = 16384) ∧
      ¬ FsckReadsBlock (headerOndisk goodSlots) straddlingOff ∧
        ¬ CliReadsBlock (headerOndisk goodSlots) straddlingOff := by
  have halign := bufferAligned_of_init (headerDisk_init goodSlots_user)
  obtain ⟨hbytes, hlead, hend⟩ := straddlingOff_bytes
  have hread : ∀ disk media,
      (cliReadMedia (headerOndisk goodSlots) disk straddlingOff media).1 = 16384 := by
    intro disk media
    rw [headerOndisk_read disk media _ (by rw [hbytes]; decide) (by rw [hbytes, hlead]; decide) hend,
      hbytes]
  have hok : ∃ buf, mediaRead (headerOndisk goodSlots) (fun _ _ => 0) straddlingOff (fun _ => 0) =
      .ok 16384 buf := ⟨_, cliReadMedia_iff.mp ⟨Prod.ext (hread _ _) rfl, by decide⟩⟩
  obtain ⟨buf, hok⟩ := hok
  have hbad : ¬ BlockPlaced (headerOndisk goodSlots) straddlingOff := by
    intro h
    have hbuffer : leadOf straddlingOff = 0 ∨
        leadOf straddlingOff + mediaBytes straddlingOff ≤ 16384 := h.buffer
    rw [hlead, hbytes] at hbuffer
    omega
  exact ⟨hread, fun h => hbad (h.placed halign hok), fun h => hbad (h.placed halign hok)⟩

/-- An inode of 1KB on a 4MB boundary. -/
def inodeOff : BitVec 64 := 0x40000a

theorem inodeOff_bytes : mediaBytes inodeOff = 1024 ∧ leadOf inodeOff = 0 ∧
    inodeOff.toNat = 4194314 := by
  decide

theorem inodeOff_placed : BlockPlaced (headerOndisk goodSlots) inodeOff := by
  obtain ⟨hbytes, hlead, hoff⟩ := inodeOff_bytes
  constructor
  · exact Or.inl hlead
  · rw [hbytes, hoff]
    intro k hk
    rw [headerOndisk_volumeAt (by omega), headerOndisk_volumeAt (by omega)]

theorem read_media_names_device_inode : ∃ devs fso, userInitVolumes devs = some fso ∧
    FsckReadsBlock fso inodeOff ∧ CliReadsBlock fso inodeOff := by
  have hinit := headerDisk_init goodSlots_user
  obtain ⟨hbytes, hlead, hoff⟩ := inodeOff_bytes
  have hread := headerOndisk_read (fun _ _ => 0) (fun _ => 0) inodeOff
    (by rw [hbytes]; decide) (by rw [hbytes, hlead]; decide) (by rw [hoff]; decide)
  rw [hbytes] at hread
  have hiff := read_media_names_device_iff hinit ⟨_, _, ne_of_eq_of_ne hread (by decide)⟩
  exact ⟨_, _, hinit, hiff.1.mpr inodeOff_placed, hiff.2.mpr inodeOff_placed⟩

end Example

end Hammer2
