import Hammer2.LabelLookup

/-! When the super-root that `newfs_hammer2` writes is well formed. -/

namespace Hammer2

open ByteImage

section Labels

variable {labels labels' : List Name}

/-- A label that newfs takes. -/
structure LabelOk (label : Name) : Prop where
  pos : 0 < label.length
  lt : label.length < labelMax
  nonzero : ∀ b ∈ label, b ≠ 0#8

structure LabelsOk (labels : List Name) : Prop where
  count : labels.length ≤ maxLabels
  label : ∀ label ∈ labels, LabelOk label

theorem LabelsOk.snoc (h : LabelsOk labels) (hlt : labels.length < maxLabels) {label : Name}
    (hl : LabelOk label) : LabelsOk (labels ++ [label]) := by
  refine ⟨?_, fun l hmem => ?_⟩
  · rw [List.length_append, List.length_singleton]
    exact hlt
  · rcases List.mem_append.mp hmem with hmem | hmem
    · exact h.label l hmem
    · rw [List.mem_singleton.mp hmem]
      exact hl

theorem optionLabel_ok (h : LabelsOk labels) {optarg : CString}
    (hopt : optionLabel labels optarg = some labels') : LabelsOk labels' := by
  unfold optionLabel at hopt
  split at hopt
  · exact Option.some.inj hopt ▸ h
  · split at hopt
    · cases hopt
    next hcount =>
      split at hopt
      · cases hopt
      next hpos =>
        split at hopt
        · cases hopt
        next hlen =>
          rw [← Option.some.inj hopt]
          exact h.snoc (by omega) ⟨by omega, by omega, optarg.nonzero⟩

theorem options_ok (args : List CString) (h : LabelsOk labels)
    (hopts : args.foldlM optionLabel labels = some labels') : LabelsOk labels' := by
  induction args generalizing labels with
  | nil => exact Option.some.inj hopts ▸ h
  | cons optarg args ih =>
    obtain ⟨labels₁, hopt, hrest⟩ := Option.bind_eq_some_iff.mp hopts
    exact ih (optionLabel_ok h hopt) hrest

theorem labelLOCAL_ok : LabelsOk [labelLOCAL] := by
  refine ⟨by decide, fun label hmem => ?_⟩
  rw [List.mem_singleton.mp hmem]
  exact ⟨by decide, by decide, by decide⟩

theorem NewfsRun.labels_ok (run : NewfsRun) : LabelsOk run.labels := by
  obtain ⟨labels, hopts, hlabels⟩ := Option.map_eq_some_iff.mp run.accepted
  have hok := options_ok run.args labelLOCAL_ok hopts
  split at hlabels
  · exact hlabels ▸ hok
  next hargs =>
    rw [not_not.mp hargs] at hopts
    have hone : labels = [labelLOCAL] := (Option.some.inj hopts).symm
    have hlt : labels.length < maxLabels := by
      rw [hone]
      decide
    rw [← hlabels]
    split
    · exact hok.snoc hlt ⟨by decide, by decide, by decide⟩
    · split
      · exact hok.snoc hlt ⟨by decide, by decide, by decide⟩
      · exact hok.snoc hlt ⟨by decide, by decide, by decide⟩

end Labels

section Buffer

variable (run : NewfsRun) {base : Nat}

def labelInode (j : Nat) (label : Name) : Image :=
  rootInode run.now (run.pfsClid j) (run.pfsFsid j) label

/-- The blockref of label `j` when the super-root is at `base`. -/
def labelRef (base j : Nat) (label : Name) : InodeRef :=
  ⟨0x30, 1, dirhash label, allocDirect (base + 1024 * (j + 1)), inodeCheck (labelInode run j label)⟩

theorem allocDirect_toNat {a : Nat} (ha : a % 1024 = 0) (hlt : a < 1099511627776) :
    (allocDirect a).toNat = a + 10 := by
  have hor : a + 10 = a ||| 10 := by
    have h := Nat.two_pow_add_eq_or_of_lt (show 10 < 2 ^ 10 by decide) (a / 1024)
    rwa [show 2 ^ 10 * (a / 1024) = a by omega] at h
  unfold allocDirect
  rw [BitVec.toNat_or, BitVec.toNat_ofNat, BitVec.toNat_ofNat, Nat.mod_eq_of_lt (by omega), hor]

theorem offLo_allocDirect {a : Nat} (ha : a % 1024 = 0) (hlt : a < 1099511627776) :
    offLo (allocDirect a) = a % 65536 := by
  unfold offLo pbufBytes
  rw [allocDirect_toNat ha hlt]
  omega

theorem formatLabels_cons (label : Name) (labels : List Name) (i : Nat) (buf : Image) :
    formatLabels run (label :: labels) i (base + 1024 * (i + 1)) buf =
      (labelRef run base i label ::
        (formatLabels run labels (i + 1) (base + 1024 * (i + 1 + 1))
          (bufferInode buf (offLo (allocDirect (base + 1024 * (i + 1)))) (labelInode run i label))).1,
        (formatLabels run labels (i + 1) (base + 1024 * (i + 1 + 1))
          (bufferInode buf (offLo (allocDirect (base + 1024 * (i + 1)))) (labelInode run i label))).2) := by
  rw [show base + 1024 * (i + 1 + 1) = base + 1024 * (i + 1) + 1024 by omega]
  rfl

theorem formatLabels_refs (labels : List Name) (i : Nat) (buf : Image) :
    (formatLabels run labels i (base + 1024 * (i + 1)) buf).1 =
      (labels.zipIdx i).map fun p => labelRef run base p.2 p.1 := by
  induction labels generalizing i buf with
  | nil => rfl
  | cons label labels ih =>
    rw [List.zipIdx_cons, List.map_cons, formatLabels_cons, ih]

variable (hbase : base % 65536 = 0) (hlt : base < 1073741824)

include hbase hlt

theorem offLo_label {i : Nat} (hi : i < 63) :
    offLo (allocDirect (base + 1024 * (i + 1))) = 1024 * (i + 1) := by
  rw [offLo_allocDirect (by omega) (by omega)]
  omega

/-- The inodes before those of the labels stay. -/
theorem formatLabels_frame {labels : List Name} {i : Nat} (buf : Image) (hi : i + labels.length < 63)
    {k : Nat} (hk : k < 1024 * (i + 1)) :
    (formatLabels run labels i (base + 1024 * (i + 1)) buf).2 k = buf k := by
  induction labels generalizing i buf with
  | nil => rfl
  | cons label labels ih =>
    rw [List.length_cons] at hi
    rw [formatLabels_cons]
    have hrest := ih (bufferInode buf (offLo (allocDirect (base + 1024 * (i + 1))))
      (labelInode run i label)) (show i + 1 + labels.length < 63 by omega) (by omega)
    refine hrest.trans ?_
    unfold bufferInode
    rw [offLo_label hbase hlt (by omega), if_neg (by omega)]

/-- Every label gets its inode, after that of the super-root. -/
theorem formatLabels_inode {labels : List Name} {i : Nat} (buf : Image) (hi : i + labels.length < 63)
    {p : Name × Nat} (hp : p ∈ labels.zipIdx i) {k : Nat} (hk : k < 1024) :
    (formatLabels run labels i (base + 1024 * (i + 1)) buf).2 (1024 * (p.2 + 1) + k) =
      labelInode run p.2 p.1 k := by
  induction labels generalizing i buf with
  | nil => cases hp
  | cons label labels ih =>
    rw [List.length_cons] at hi
    rw [List.zipIdx_cons] at hp
    rw [formatLabels_cons]
    rcases List.mem_cons.mp hp with rfl | hp
    · have hframe := formatLabels_frame run hbase hlt
        (bufferInode buf (offLo (allocDirect (base + 1024 * (i + 1)))) (labelInode run i label))
        (show i + 1 + labels.length < 63 by omega) (show 1024 * (i + 1) + k < 1024 * (i + 1 + 1) by omega)
      refine hframe.trans ?_
      unfold bufferInode
      rw [offLo_label hbase hlt (by omega), if_pos (by omega), Nat.add_sub_cancel_left]
    · exact ih _ (by omega) hp

end Buffer

section Decode

theorem getLE_shift {img img' : Image} {off off' n : Nat}
    (h : ∀ k < n, img (off + k) = img' (off' + k)) : getLE img off n = getLE img' off' n := by
  induction n generalizing off off' with
  | zero => rfl
  | succ n ih =>
    have hhead : img off = img' off' := h 0 (Nat.succ_pos n)
    have htail : getLE img (off + 1) n = getLE img' (off' + 1) n := by
      apply ih
      intro k hk
      rw [Nat.add_assoc, Nat.add_assoc, Nat.add_comm 1 k]
      exact h (k + 1) (by omega)
    rw [getLE, getLE, hhead, htail]

/-- The blockref with the fields of `decodeBref`. -/
def brefOfFields (type keybits key dataOff leafCount dataCount inodeCount : Nat) : Option Bref :=
  (BrefType.ofCode type).bind fun type =>
    if h : keybits < 64 ∧ key + 2 ^ keybits ≤ 18446744073709551616 then
      some
        { type := type
          key := key
          keybits := keybits
          dataOff := dataOff
          stats := ⟨leafCount, BitVec.ofNat 64 dataCount, BitVec.ofNat 64 inodeCount⟩
          keybits_lt := h.1
          fits := h.2 }
    else none

theorem decodeBref_eq (img : Image) (off : Nat) : decodeBref img off =
    brefOfFields (getLE img off 1) (getLE img (off + 3) 1) (getLE img (off + 8) 8)
      (getLE img (off + 0x20) 8) (getLE img (off + 6) 2) (getLE img (off + 0x30) 8)
      (getLE img (off + 0x38) 8) := rfl

theorem decodeBref_congr {img img' : Image} {off off' : Nat}
    (h : ∀ k < 128, img (off + k) = img' (off' + k)) : decodeBref img off = decodeBref img' off' := by
  have hfield : ∀ d n, d + n ≤ 128 → getLE img (off + d) n = getLE img' (off' + d) n := by
    intro d n hd
    apply getLE_shift
    intro k hk
    rw [Nat.add_assoc, Nat.add_assoc]
    exact h (d + k) (by omega)
  rw [decodeBref_eq, decodeBref_eq, hfield 3 1 (by omega), hfield 8 8 (by omega),
    hfield 0x20 8 (by omega), hfield 6 2 (by omega), hfield 0x30 8 (by omega),
    hfield 0x38 8 (by omega), show getLE img off 1 = getLE img' off' 1 from hfield 0 1 (by omega)]

theorem zero_keybits_lt : 0 < 64 := by decide

theorem InodeRef.key_fits (ref : InodeRef) : ref.key.toNat + 2 ^ 0 ≤ 18446744073709551616 :=
  ref.key.isLt

/-- The element that a blockref of an inode is. -/
def InodeRef.toBref (ref : InodeRef) : Bref where
  type := .inode
  key := ref.key.toNat
  keybits := 0
  dataOff := ref.dataOff.toNat
  stats := ⟨0, 0, 0⟩
  keybits_lt := zero_keybits_lt
  fits := ref.key_fits

theorem InodeRef.decode (ref : InodeRef) : decodeBref ref.image 0 = some ref.toBref := by
  have hkey : getLE ref.image 8 8 = ref.key.toNat := by
    unfold InodeRef.image
    dsimp only
    rw [getLE_setLE_of_disjoint (by omega), getLE_setLE_of_disjoint (by omega),
      getLE_setLE_of_disjoint (by omega), getLE_setLE_self]
    exact Nat.mod_eq_of_lt ref.key.isLt
  have hoff : getLE ref.image 0x20 8 = ref.dataOff.toNat := by
    unfold InodeRef.image
    dsimp only
    rw [getLE_setLE_of_disjoint (by omega), getLE_setLE_self]
    exact Nat.mod_eq_of_lt ref.dataOff.isLt
  have htype : getLE ref.image 0 1 = 1 := by
    unfold InodeRef.image
    simp (disch := omega) only [getLE_setLE_of_disjoint, getLE_setLE_self]
    rfl
  have hzero : ∀ d n, d + n ≤ 0x40 → (d = 3 ∧ n = 1 ∨ d = 6 ∧ n = 2 ∨ 0x28 ≤ d) →
      getLE ref.image d n = 0 := by
    intro d n hd hfield
    unfold InodeRef.image
    simp (disch := omega) only [getLE_setLE_of_disjoint, getLE_zeroImage]
  rw [decodeBref_eq, htype]
  simp only [Nat.zero_add]
  rw [hkey, hoff, hzero 3 1 (by omega) (by omega), hzero 6 2 (by omega) (by omega),
    hzero 0x30 8 (by omega) (by omega), hzero 0x38 8 (by omega) (by omega)]
  unfold brefOfFields InodeRef.toBref
  exact dif_pos ⟨zero_keybits_lt, ref.key_fits⟩

theorem InodeRef.check_image (ref : InodeRef) : getLE ref.image 0x40 8 = ref.check.toNat := by
  unfold InodeRef.image
  rw [getLE_setLE_self]
  exact Nat.mod_eq_of_lt ref.check.isLt

theorem decodeBref_zero {img : Image} {off : Nat} (h : ∀ k < 128, img (off + k) = 0#8) :
    decodeBref img off = none := by
  have hzero : decodeBref img off = decodeBref zeroImage 0 := decodeBref_congr h
  rw [hzero]
  rfl

end Decode

section Inodes

theorem directoryInode_low {now mode inum nlinks nameLen nameKey compAlgo clid fsid pfsType pfsInum : Nat}
    {filename : Name} {off n : Nat} (h : off + n ≤ 0x100) :
    getLE (directoryInode now mode inum nlinks nameLen nameKey compAlgo clid fsid pfsType pfsInum
      filename) off n =
    getLE (directoryInode now mode inum nlinks nameLen nameKey compAlgo clid fsid pfsType pfsInum [])
      off n := by
  apply getLE_congr
  intro k _ hk
  unfold directoryInode
  rw [if_neg (by omega), if_neg (by omega)]

theorem directoryInode_high {now mode inum nlinks nameLen nameKey compAlgo clid fsid pfsType pfsInum : Nat}
    {filename : Name} {k : Nat} (h : 0x100 + filename.length ≤ k) :
    directoryInode now mode inum nlinks nameLen nameKey compAlgo clid fsid pfsType pfsInum filename k =
      0#8 := by
  unfold directoryInode
  rw [if_neg (by omega)]
  simp (disch := omega) only [setLE_of_outside]
  rfl

theorem directoryInode_name {now mode inum nlinks nameLen nameKey compAlgo clid fsid pfsType pfsInum : Nat}
    (filename : Name) :
    slice (directoryInode now mode inum nlinks nameLen nameKey compAlgo clid fsid pfsType pfsInum
      filename) 0x100 filename.length = filename := by
  unfold slice
  apply List.ext_getElem
  · rw [List.length_map, List.length_range]
  · intro i hi hi'
    rw [List.getElem_map, List.getElem_range]
    unfold directoryInode
    rw [if_pos (by omega), Nat.add_sub_cancel_left, ← List.getElem_eq_getD]

theorem rootInode_named {now clid fsid : Nat} {label : Name} (h : LabelOk label) :
    NamedPfs (rootInode now clid fsid label) label := by
  have hlt : label.length < 256 := h.lt
  have hlen : getLE (rootInode now clid fsid label) 0x80 2 = label.length := by
    unfold rootInode
    rw [getLE_setLE_of_disjoint (by omega), directoryInode_low (by omega)]
    unfold directoryInode
    dsimp only
    refine Eq.trans (getLE_congr fun k _ hk => if_neg (by omega)) ?_
    simp (disch := omega) only [getLE_setLE_of_disjoint, getLE_setLE_self]
    omega
  refine ⟨?_, ?_, ?_⟩
  · rw [hlen]
    unfold rootInode
    rw [slice_setLE_of_disjoint (by omega)]
    exact directoryInode_name label
  · exact getLE_setLE_self _ _ _ _
  · unfold rootInode
    rw [getLE_setLE_of_disjoint (by omega), directoryInode_low (by omega)]
    unfold directoryInode
    dsimp only
    refine Eq.trans (getLE_congr fun k _ hk => if_neg (by omega)) ?_
    simp (disch := omega) only [getLE_setLE_of_disjoint, getLE_setLE_self]
    rfl

theorem NamedPfs.nameLen {ip : Image} {label : Name} (h : NamedPfs ip label) :
    getLE ip 0x80 2 = label.length := by
  have hslice := congrArg List.length h.name
  unfold slice at hslice
  rwa [List.length_map, List.length_range] at hslice

theorem NamedPfs.congr {ip ip' : Image} {label : Name} (hlen : label.length < labelMax)
    (h : ∀ k < 1024, ip k = ip' k) (hip : NamedPfs ip' label) : NamedPfs ip label := by
  have hfield : ∀ off n, off + n ≤ 1024 → getLE ip off n = getLE ip' off n := by
    intro off n hoff
    apply getLE_congr
    intro k _ hk
    exact h k (by omega)
  refine ⟨?_, ?_, ?_⟩
  · refine Eq.trans ?_ hip.name
    rw [hfield 0x80 2 (by omega)]
    apply List.map_congr_left
    intro i hi
    rw [hip.nameLen, List.mem_range] at hi
    unfold labelMax at hlen
    exact h _ (by omega)
  · rw [hfield 0x51 1 (by omega)]
    exact hip.pfsroot
  · rw [hfield 0x87 1 (by omega)]
    exact hip.master

theorem inodeCheck_congr {ip ip' : Image} (h : ∀ k < 1024, ip k = ip' k) :
    inodeCheck ip = inodeCheck ip' := by
  have hslice : slice ip 0 1024 = slice ip' 0 1024 := by
    unfold slice
    apply List.map_congr_left
    intro i hi
    show ip (0 + i) = ip' (0 + i)
    rw [Nat.zero_add]
    exact h i (List.mem_range.mp hi)
  unfold inodeCheck
  rw [hslice]

/-- The name is followed by zeros. -/
theorem NamedPfs.strcmp {ip : Image} {label : Name} (h : NamedPfs ip label)
    (hzero : ip (0x100 + label.length) = 0#8) : strcmpFilename label ip := by
  refine ⟨?_, hzero⟩
  rw [← h.nameLen]
  exact h.name

end Inodes

section Written

variable (run : NewfsRun)

/-- `alloc_base & ~HAMMER2_PBUFMASK64` -/
def NewfsRun.base : Nat := run.allocBase / pbufBytes * pbufBytes

theorem NewfsRun.base_mod : run.base % 65536 = 0 := by
  unfold NewfsRun.base pbufBytes
  omega

theorem NewfsRun.base_lt : run.base < 1073741824 := by
  have hlt := run.allocBase_lt
  unfold freemapLevel1Size at hlt
  unfold NewfsRun.base pbufBytes
  omega

/-- The blockrefs of the labels, in the order of the labels. -/
def labelRefs : List InodeRef := run.labels.zipIdx.map fun p => labelRef run run.base p.2 p.1

theorem formatHammer2Inode_eq : formatHammer2Inode run =
    (⟨0x31, 0, 0, allocDirect run.base, inodeCheck (srootInode run (labelRefs run))⟩,
      bufferInode (formatLabels run run.labels 0 (run.base + 1024 * (0 + 1)) zeroImage).2
        (offLo (allocDirect run.base)) (srootInode run (labelRefs run)),
      run.base + 1024 * (run.labels.length + 1)) := by
  unfold labelRefs
  rw [← formatLabels_refs run run.labels 0 zeroImage]
  rfl

theorem sroot_dataOff : (formatHammer2Inode run).1.dataOff.toNat = run.base + 10 := by
  have hmod := run.base_mod
  have hlt := run.base_lt
  rw [formatHammer2Inode_eq]
  exact allocDirect_toNat (by omega) (by omega)

theorem formatHammer2Inode_sroot {k : Nat} (hk : k < 1024) :
    (formatHammer2Inode run).2.1 k = srootInode run (labelRefs run) k := by
  have hmod := run.base_mod
  have hlt := run.base_lt
  rw [formatHammer2Inode_eq]
  dsimp only
  unfold bufferInode
  rw [offLo_allocDirect (by omega) (by omega), hmod, if_pos (by omega), Nat.sub_zero]

theorem formatHammer2Inode_label {p : Name × Nat} (hp : p ∈ run.labels.zipIdx) {k : Nat}
    (hk : k < 1024) :
    (formatHammer2Inode run).2.1 (1024 * (p.2 + 1) + k) = labelInode run p.2 p.1 k := by
  have hmod := run.base_mod
  have hlt := run.base_lt
  have hcount : run.labels.length ≤ 4 := run.labels_ok.count
  rw [formatHammer2Inode_eq]
  dsimp only
  unfold bufferInode
  rw [offLo_allocDirect (by omega) (by omega), hmod, if_neg (by omega)]
  exact formatLabels_inode run hmod hlt zeroImage (by omega) hp hk

variable {run} {disk : Image} (hdisk : InodesWritten run disk)

include hdisk

theorem inodeAt_buffer (off : Nat) {k : Nat} (hoff : off % 1024 = 0) (hk : off + k < 65536) :
    inodeAt disk (run.base + off + 10) k = (formatHammer2Inode run).2.1 (off + k) := by
  have hmod := run.base_mod
  have hread := hdisk (off + k) hk
  unfold inodeAt
  rw [show (run.base + off + 10) / 64 * 64 + k = run.base + (off + k) by omega]
  exact hread

theorem inodeAt_sroot {k : Nat} (hk : k < 1024) :
    inodeAt disk (formatHammer2Inode run).1.dataOff.toNat k = srootInode run (labelRefs run) k := by
  have hread := inodeAt_buffer hdisk 0 rfl (show 0 + k < 65536 by omega)
  rw [sroot_dataOff, ← formatHammer2Inode_sroot run hk]
  rwa [Nat.zero_add] at hread

theorem inodeAt_label {p : Name × Nat} (hp : p ∈ run.labels.zipIdx) {k : Nat} (hk : k < 1024) :
    inodeAt disk (labelRef run run.base p.2 p.1).dataOff.toNat k = labelInode run p.2 p.1 k := by
  have hmod := run.base_mod
  have hlt := run.base_lt
  have hcount : run.labels.length ≤ 4 := run.labels_ok.count
  have hidx := List.snd_lt_of_mem_zipIdx hp
  have hread := inodeAt_buffer hdisk (1024 * (p.2 + 1)) (k := k) (by omega) (by omega)
  rw [← formatHammer2Inode_label run hp hk]
  refine Eq.trans ?_ hread
  rw [show (labelRef run run.base p.2 p.1).dataOff.toNat = run.base + 1024 * (p.2 + 1) + 10 from
    allocDirect_toNat (by omega) (by omega)]

end Written

section Blockset

theorem setBlockset_some {ip : Image} {refs : List InodeRef} {i k : Nat} {ref : InodeRef}
    (href : refs[i]? = some ref) (hk : k < 128) :
    setBlockset ip refs (0x200 + 128 * i + k) = ref.image k := by
  unfold setBlockset
  rw [if_pos (by omega), show (0x200 + 128 * i + k - 0x200) / 128 = i by omega, href]
  dsimp only
  rw [show (0x200 + 128 * i + k - 0x200) % 128 = k by omega]

theorem setBlockset_none {ip : Image} {refs : List InodeRef} {i k : Nat}
    (href : refs[i]? = none) (hk : k < 128) :
    setBlockset ip refs (0x200 + 128 * i + k) = ip (0x200 + 128 * i + k) := by
  unfold setBlockset
  rw [if_pos (by omega), show (0x200 + 128 * i + k - 0x200) / 128 = i by omega, href]

theorem elements_range_getElem? {α : Type} (l : List α) {n : Nat} (h : l.length ≤ n) :
    SlotList.elements ((List.range n).map fun i => l[i]?) = l := by
  induction l generalizing n with
  | nil =>
    unfold SlotList.elements
    rw [List.filterMap_map]
    apply List.filterMap_eq_nil_iff.mpr
    intro i _
    rfl
  | cons a l ih =>
    obtain ⟨m, rfl⟩ := Nat.exists_eq_add_of_le' (Nat.lt_of_lt_of_le (Nat.succ_pos l.length) h)
    rw [List.length_cons] at h
    rw [List.range_succ_eq_map, List.map_cons, List.map_map, List.getElem?_cons_zero,
      SlotList.elements_some_cons]
    exact congrArg (a :: ·) (ih (by omega))

theorem labelRefs_length (run : NewfsRun) : (sortRefs (labelRefs run)).length ≤ 4 := by
  have hperm := (List.mergeSort_perm (labelRefs run) fun a b => decide (a.key ≤ b.key)).length_eq
  have hcount : run.labels.length ≤ 4 := run.labels_ok.count
  unfold sortRefs
  rw [hperm]
  unfold labelRefs
  rwa [List.length_map, List.length_zipIdx]

theorem mem_sortRefs {run : NewfsRun} {ref : InodeRef} (h : ref ∈ sortRefs (labelRefs run)) :
    ∃ p ∈ run.labels.zipIdx, labelRef run run.base p.2 p.1 = ref := by
  unfold sortRefs at h
  rw [List.mem_mergeSort] at h
  exact List.mem_map.mp h

variable {run : NewfsRun} {disk : Image} (hdisk : InodesWritten run disk)

include hdisk

theorem inodeAt_blockref {i k : Nat} (hi : i < 4) (hk : k < 128) {ref : InodeRef}
    (href : (sortRefs (labelRefs run))[i]? = some ref) :
    inodeAt disk (formatHammer2Inode run).1.dataOff.toNat (0x200 + 128 * i + k) = ref.image k := by
  rw [inodeAt_sroot hdisk (by omega)]
  exact setBlockset_some href hk

theorem inodeAt_empty {i k : Nat} (hi : i < 4) (hk : k < 128)
    (href : (sortRefs (labelRefs run))[i]? = none) :
    inodeAt disk (formatHammer2Inode run).1.dataOff.toNat (0x200 + 128 * i + k) = 0#8 := by
  rw [inodeAt_sroot hdisk (by omega)]
  refine (setBlockset_none href hk).trans (directoryInode_high ?_)
  have hlen : labelSUPROOT.length = 7 := rfl
  omega

theorem decodeBref_sroot {i : Nat} (hi : i < 4) :
    decodeBref (inodeAt disk (formatHammer2Inode run).1.dataOff.toNat) (0x200 + 128 * i) =
      (sortRefs (labelRefs run))[i]?.map InodeRef.toBref := by
  cases href : (sortRefs (labelRefs run))[i]? with
  | none =>
    apply decodeBref_zero
    intro k hk
    exact inodeAt_empty hdisk hi hk href
  | some ref =>
    rw [Option.map_some, ← ref.decode]
    apply decodeBref_congr
    intro k hk
    rw [inodeAt_blockref hdisk hi hk href, Nat.zero_add]

theorem elements_sroot (cacheIndex : Nat) :
    SlotList.elements
        (blocksetArray (inodeAt disk (formatHammer2Inode run).1.dataOff.toNat) cacheIndex).base =
      (sortRefs (labelRefs run)).map InodeRef.toBref := by
  have hslots : (blocksetArray (inodeAt disk (formatHammer2Inode run).1.dataOff.toNat)
      cacheIndex).base =
      (List.range 4).map fun i => ((sortRefs (labelRefs run)).map InodeRef.toBref)[i]? := by
    apply List.map_congr_left
    intro i hi
    rw [List.getElem?_map]
    exact decodeBref_sroot hdisk (List.mem_range.mp hi)
  rw [hslots]
  apply elements_range_getElem?
  rw [List.length_map]
  exact labelRefs_length run

/-- What the blockref of a label leads to. -/
theorem labelRef_inode {p : Name × Nat} (hp : p ∈ run.labels.zipIdx) :
    NamedPfs (inodeAt disk (labelRef run run.base p.2 p.1).dataOff.toNat) p.1 ∧
      strcmpFilename p.1 (inodeAt disk (labelRef run run.base p.2 p.1).dataOff.toNat) ∧
      inodeCheck (inodeAt disk (labelRef run run.base p.2 p.1).dataOff.toNat) =
        (labelRef run run.base p.2 p.1).check := by
  have hok := run.labels_ok.label p.1 (List.fst_mem_of_mem_zipIdx hp)
  have hlt : p.1.length < 256 := hok.lt
  have hread := fun k hk => inodeAt_label hdisk hp (k := k) hk
  have hnamed : NamedPfs (inodeAt disk (labelRef run run.base p.2 p.1).dataOff.toNat) p.1 :=
    (rootInode_named hok).congr hok.lt hread
  refine ⟨hnamed, hnamed.strcmp ?_, inodeCheck_congr hread⟩
  rw [hread _ (by omega)]
  unfold labelInode rootInode
  rw [setLE_of_outside (by omega)]
  exact directoryInode_high (Nat.le_refl _)

end Blockset

end Hammer2
