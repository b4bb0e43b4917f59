import Hammer2.ChainCheck
import Hammer2.Dirent
import Hammer2.Newfs

/-! The super-root that `newfs_hammer2` writes: the labels of the command line and
`format_hammer2_inode`. -/

namespace Hammer2

open ByteImage

/-- `MAXLABELS` -/
def maxLabels : Nat := 4

/-- `HAMMER2_INODE_MAXNAME` -/
def labelMax : Nat := 256

/-- A string of C without its terminating zero. -/
structure CString where
  bytes : Name
  nonzero : ∀ b ∈ bytes, b ≠ 0#8

/-- `tolower` of a byte. -/
def lowerByte (b : BitVec 8) : BitVec 8 := if 0x41#8 ≤ b ∧ b ≤ 0x5a#8 then b + 0x20#8 else b

/-- `strcasecmp` returns 0. -/
def strcaseEq (s t : Name) : Bool := s.map lowerByte = t.map lowerByte

def labelLOCAL : Name := [0x4c#8, 0x4f#8, 0x43#8, 0x41#8, 0x4c#8]
def labelBOOT : Name := [0x42#8, 0x4f#8, 0x4f#8, 0x54#8]
def labelROOT : Name := [0x52#8, 0x4f#8, 0x4f#8, 0x54#8]
def labelDATA : Name := [0x44#8, 0x41#8, 0x54#8, 0x41#8]
def labelNone : Name := [0x6e#8, 0x6f#8, 0x6e#8, 0x65#8]
def labelSUPROOT : Name := [0x53#8, 0x55#8, 0x50#8, 0x52#8, 0x4f#8, 0x4f#8, 0x54#8]

/-- The option `-L`; `none` is `errx`. -/
def optionLabel (labels : List Name) (optarg : CString) : Option (List Name) :=
  if strcaseEq optarg.bytes labelNone then some labels
  else if maxLabels ≤ labels.length then none
  else if optarg.bytes.length = 0 then none
  else if labelMax ≤ optarg.bytes.length then none
  else some (labels ++ [optarg.bytes])

/-- The labels after the options: `LOCAL`, those of `-L`, and without `-L` one that goes by the last
character of the device. -/
def mkfsLabels (args : List CString) (c : BitVec 8) : Option (List Name) :=
  (args.foldlM optionLabel [labelLOCAL]).map fun labels =>
    if args ≠ [] then labels
    else if c = 0x61#8 then labels ++ [labelBOOT]
    else if c = 0x64#8 then labels ++ [labelROOT]
    else labels ++ [labelDATA]

/-- A run of `newfs_hammer2` up to `format_hammer2_inode`: the arguments of `-L`, the last character
of the first device, the labels, the time, the generated uuids and where the areas end. -/
structure NewfsRun where
  args : List CString
  lastChar : BitVec 8
  labels : List Name
  accepted : mkfsLabels args lastChar = some labels
  now : Nat
  supClid : Nat
  supFsid : Nat
  pfsClid : Nat → Nat
  pfsFsid : Nat → Nat
  allocBase : Nat
  allocBase_lt : allocBase < freemapLevel1Size

/-- The fields that the root inodes and the super-root inode both set. -/
def directoryInode (now mode inum nlinks nameLen nameKey compAlgo clid fsid pfsType pfsInum : Nat)
    (filename : Name) : Image :=
  let ip := setLE zeroImage 0x00 2 1
  let ip := setLE ip 0x10 8 now
  let ip := setLE ip 0x18 8 now
  let ip := setLE ip 0x28 8 now
  let ip := setLE ip 0x50 1 1
  let ip := setLE ip 0x54 4 mode
  let ip := setLE ip 0x58 8 inum
  let ip := setLE ip 0x68 8 nlinks
  let ip := setLE ip 0x78 8 nameKey
  let ip := setLE ip 0x80 2 nameLen
  let ip := setLE ip 0x83 1 compAlgo
  let ip := setLE ip 0x85 1 3
  let ip := setLE ip 0x87 1 pfsType
  let ip := setLE ip 0x88 8 pfsInum
  let ip := setLE ip 0x90 16 clid
  let ip := setLE ip 0xA0 16 fsid
  fun k => if 0x100 ≤ k ∧ k < 0x100 + filename.length then filename.getD (k - 0x100) 0#8 else ip k

/-- The inode of a PFS. -/
def rootInode (now clid fsid : Nat) (label : Name) : Image :=
  setLE (directoryInode now 0o755 1 1 label.length (lhcBase label)
    (if strcaseEq label labelBOOT then 1 else 2) clid fsid 6 16 label) 0x51 1 2

/-- The fields of `hammer2_blockref` that newfs sets. -/
structure InodeRef where
  methods : Nat
  flags : Nat
  key : BitVec 64
  dataOff : BitVec 64
  check : BitVec 64

/-- The 128 bytes of the blockref of an inode. -/
def InodeRef.image (ref : InodeRef) : Image :=
  let img := setLE zeroImage 0x00 1 1
  let img := setLE img 0x01 1 ref.methods
  let img := setLE img 0x02 1 0xFF
  let img := setLE img 0x04 1 10
  let img := setLE img 0x05 1 ref.flags
  let img := setLE img 0x08 8 ref.key.toNat
  let img := setLE img 0x10 8 16
  let img := setLE img 0x20 8 ref.dataOff.toNat
  setLE img 0x40 8 ref.check.toNat

/-- `data_off & HAMMER2_OFF_MASK_LO` -/
def offLo (dataOff : BitVec 64) : Nat := dataOff.toNat % pbufBytes / 64 * 64

/-- The `data_off` that `alloc_direct` gives to an inode. -/
def allocDirect (allocBase : Nat) : BitVec 64 := BitVec.ofNat 64 allocBase ||| 10#64

/-- An inode in the 64KB buffer. -/
def bufferInode (buf : Image) (off : Nat) (ip : Image) : Image := fun k =>
  if off ≤ k ∧ k < off + 1024 then ip (k - off) else buf k

/-- `XXH64` of an inode. -/
def inodeCheck (ip : Image) : BitVec 64 := xxh64 (slice ip 0 1024) xxhHammer2Seed

/-- The loop over the labels, from label `i` on. -/
def formatLabels (run : NewfsRun) : List Name → Nat → Nat → Image → List InodeRef × Image
  | [], _, _, buf => ([], buf)
  | label :: labels, i, allocBase, buf =>
    let dataOff := allocDirect allocBase
    let rawip := rootInode run.now (run.pfsClid i) (run.pfsFsid i) label
    let rest := formatLabels run labels (i + 1) (allocBase + 1024)
      (bufferInode buf (offLo dataOff) rawip)
    (⟨0x30, 1, dirhash label, dataOff, inodeCheck rawip⟩ :: rest.1, rest.2)

/-- The blockset of an inode. -/
def setBlockset (ip : Image) (refs : List InodeRef) : Image := fun k =>
  if 0x200 ≤ k then
    match refs[(k - 0x200) / 128]? with
    | some ref => ref.image ((k - 0x200) % 128)
    | none => ip k
  else ip k

/-- `qsort` with `blkrefary_cmp`. -/
def sortRefs (refs : List InodeRef) : List InodeRef := refs.mergeSort fun a b => decide (a.key ≤ b.key)

/-- The super-root inode. -/
def srootInode (run : NewfsRun) (refs : List InodeRef) : Image :=
  setBlockset (directoryInode run.now 0o700 0 2 labelSUPROOT.length 0 1 run.supClid run.supFsid 8 0
    labelSUPROOT) (sortRefs refs)

/-- `format_hammer2_inode`: the blockref of the super-root, the buffer that it writes at the start of
its 64KB, and the new `alloc_base`. -/
def formatHammer2Inode (run : NewfsRun) : InodeRef × Image × Nat :=
  let allocBase := run.allocBase / pbufBytes * pbufBytes
  let dataOff := allocDirect allocBase
  let r := formatLabels run run.labels 0 (allocBase + 1024) zeroImage
  let rawip := srootInode run r.1
  (⟨0x31, 0, 0, dataOff, inodeCheck rawip⟩, bufferInode r.2 (offLo dataOff) rawip,
    allocBase + 1024 * (run.labels.length + 1))

end Hammer2
