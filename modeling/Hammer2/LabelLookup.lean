import Hammer2.ChainFind
import Hammer2.NewfsInodes

/-! The lookup of a label under the super-root, as a mount does it. -/

namespace Hammer2

open ByteImage

def BrefType.ofCode : Nat → Option BrefType
  | 1 => some .inode
  | 2 => some .indirect
  | 3 => some .data
  | 4 => some .dirent
  | 5 => some .freemapNode
  | 6 => some .freemapLeaf
  | _ => none

/-- The blockref at an offset, which is empty or an element. -/
def decodeBref (img : Image) (off : Nat) : Option Bref :=
  (BrefType.ofCode (getLE img off 1)).bind fun type =>
    if h : getLE img (off + 3) 1 < 64 ∧
        getLE img (off + 8) 8 + 2 ^ getLE img (off + 3) 1 ≤ 18446744073709551616 then
      some
        { type := type
          key := getLE img (off + 8) 8
          keybits := getLE img (off + 3) 1
          dataOff := getLE img (off + 0x20) 8
          stats := ⟨getLE img (off + 6) 2, BitVec.ofNat 64 (getLE img (off + 0x30) 8),
            BitVec.ofNat 64 (getLE img (off + 0x38) 8)⟩
          keybits_lt := h.1
          fits := h.2 }
    else none

/-- The inode that a `data_off` names. -/
def inodeAt (disk : Image) (dataOff : Nat) : Image := fun k => disk (dataOff / 64 * 64 + k)

/-- The blockset of an inode as an array with its entries counted. -/
def blocksetArray (ip : Image) (cacheIndex : Nat) : BrefArray :=
  BrefArray.countbrefs
    { base := (List.range 4).map fun i => decodeBref ip (0x200 + 128 * i)
      liveZero := 0
      cacheIndex := cacheIndex
      stats := ⟨0, 0, 0⟩ }

/-- `strcmp` of a string and the name of an inode returns 0. -/
def strcmpFilename (label : Name) (ip : Image) : Prop :=
  slice ip 0x100 label.length = label ∧ ip (0x100 + label.length) = 0#8

instance (label : Name) (ip : Image) : Decidable (strcmpFilename label ip) :=
  inferInstanceAs (Decidable (_ ∧ _))

/-- The chain of an element gets into the tree when it is looked up. -/
def loadChain (m : Match) : List MemChain → List MemChain
  | [] => [⟨m.bref, false, true, false⟩]
  | c :: chains =>
    if m.bref.key < c.bref.key then ⟨m.bref, false, true, false⟩ :: c :: chains
    else c :: loadChain m chains

/-- The loop of `hammer2_mount` over `hammer2_chain_lookup` and `hammer2_chain_next`, for a
super-root without indirect blocks. The outer `none` is a panic, an indirect block or the end of the
fuel. -/
def labelLoop (disk : Image) (label : Name) (keyEnd : Nat) :
    Nat → BrefArray → List MemChain → Nat → Option (Option Bref)
  | 0, _, _, _ => none
  | fuel + 1, a, chains, keyBeg =>
    (combinedFind a chains keyBeg keyEnd).bind fun r =>
      let a := { a with cacheIndex := r.cacheIndex }
      match r.found with
      | none => some none
      | some m =>
        let chains := if m.chain.isSome then chains else loadChain m chains
        if m.chain.any (·.deleted) then
          if r.keyNext = 0 ∨ keyEnd < r.keyNext then some none
          else labelLoop disk label keyEnd fuel a chains r.keyNext
        else if m.bref.type = .indirect ∨ m.bref.type = .freemapNode then none
        else if m.bref.type = .inode ∧ strcmpFilename label (inodeAt disk m.bref.dataOff) then
          some (some m.bref)
        else if m.bref.next = 0 ∨ keyEnd < m.bref.next then some none
        else labelLoop disk label keyEnd fuel a chains m.bref.next

/-- The lookup in the collision space of the label. -/
def mountLookup (disk : Image) (sroot : Image) (label : Name) (fuel cacheIndex : Nat)
    (chains : List MemChain) : Option (Option Bref) :=
  labelLoop disk label (lhcBase label + dirhashLomask) fuel (blocksetArray sroot cacheIndex) chains
    (lhcBase label)

/-- Chains of a blockset that were looked up before. -/
structure Loaded (a : BrefArray) (chains : List MemChain) : Prop where
  sorted : (chains.map MemChain.bref).Pairwise Bref.Before
  element : ∀ c ∈ chains, c.bref ∈ SlotList.elements a.base ∧ c.deleted = false

/-- The inode of a PFS with a name. -/
structure NamedPfs (ip : Image) (label : Name) : Prop where
  name : slice ip 0x100 (getLE ip 0x80 2) = label
  pfsroot : getLE ip 0x51 1 = 2
  master : getLE ip 0x87 1 = 6

/-- The super-root at a blockref is in order and holds the labels. -/
structure SuperRootWellFormed (disk : Image) (sroot : InodeRef) (labels : List Name) : Prop where
  increasing : (SlotList.elements (blocksetArray (inodeAt disk sroot.dataOff.toNat) 0).base).Pairwise
    fun a b => a.key < b.key
  window : ∀ e ∈ SlotList.elements (blocksetArray (inodeAt disk sroot.dataOff.toNat) 0).base,
    ∃ label ∈ labels, NamedPfs (inodeAt disk e.dataOff) label ∧ lhcBase label ≤ e.key ∧
      e.key ≤ lhcBase label + dirhashLomask
  srootCheck : inodeCheck (inodeAt disk sroot.dataOff.toNat) = sroot.check
  check : ∀ i < 4, ∀ e, decodeBref (inodeAt disk sroot.dataOff.toNat) (0x200 + 128 * i) = some e →
    (inodeCheck (inodeAt disk e.dataOff)).toNat =
      getLE (inodeAt disk sroot.dataOff.toNat) (0x200 + 128 * i + 0x40) 8
  found : ∀ label ∈ labels, ∀ fuel cacheIndex chains,
    Loaded (blocksetArray (inodeAt disk sroot.dataOff.toNat) cacheIndex) chains →
      ∃ e, mountLookup disk (inodeAt disk sroot.dataOff.toNat) label (fuel + 1) cacheIndex chains =
        some (some e) ∧ NamedPfs (inodeAt disk e.dataOff) label

/-- The device holds the buffer of `format_hammer2_inode`. -/
def InodesWritten (run : NewfsRun) (disk : Image) : Prop :=
  ∀ k < pbufBytes, disk (run.allocBase / pbufBytes * pbufBytes + k) = (formatHammer2Inode run).2.1 k

end Hammer2
