import Hammer2.FsckTotal
import Hammer2.MediaRead

/-! `pfs-list` of the `hammer2` command: the scan of the super-root. -/

namespace Hammer2

open ByteImage

/-- The fields of a `hammer2_blockref` that `scan_bref` looks at. -/
structure ScanRef where
  type : BitVec 8
  dataOff : BitVec 64
deriving DecidableEq

def refAt (img : Image) (off : Nat) : ScanRef := ⟨img off, BitVec.ofNat 64 (getLE img (off + 32) 8)⟩

/-- `npdata[i]` of an indirect block -/
def npdataRef (media : Image) (i : Nat) : ScanRef := refAt media (128 * i)

/-- `ipdata.u.blockset.blockref[i]` -/
def blocksetRef (ipdata : Image) (i : Nat) : ScanRef := refAt ipdata (512 + 128 * i)

/-- `HAMMER2_SET_COUNT` -/
def setCount : Nat := 4

def isSuproot (ipdata : Image) : Prop := (ipdata 0x87).toNat = pfstypeSuproot

instance (ipdata : Image) : Decidable (isSuproot ipdata) := inferInstanceAs (Decidable (_ = _))

/-- The inode data that `print_pfs` is called with. -/
abbrev PrintedInode := List (BitVec 8)

/-- What a scan has printed and what it leaves in the static buffer. -/
abbrev PfsScan := Option (List PrintedInode × Image)

/-- A loop of `scan_bref`. A slot of an indirect block is looked up in the buffer when its turn
comes. -/
def scanSlots (scan : ScanRef → Image → PfsScan) (slot : Image → Nat → ScanRef) :
    Nat → Nat → Image → PfsScan
  | 0, _, media => some ([], media)
  | n + 1, i, media =>
    (scan (slot media i) media).bind fun (out, media) =>
      (scanSlots scan slot n (i + 1) media).map fun (rest, media) => (out ++ rest, media)

section

variable (fso : UserOndisk) (disk : UserVolume → Image) (stack : Image)

/-- `scan_bref` with as many frames of stack as the first argument. `stack` is what the local buffer
holds before the read. -/
def scanBref : Nat → ScanRef → Image → PfsScan
  | 0, _, _ => none
  | fuel + 1, bref, media =>
    if bref.type = 1 then
      let (bytes, ipdata) := cliReadMedia fso disk bref.dataOff stack
      if bytes = 0 then some ([], media)
      else if isSuproot ipdata then
        scanSlots (scanBref fuel) (fun _ => blocksetRef ipdata) setCount 0 media
      else some ([slice ipdata 0 1024], media)
    else if bref.type = 2 then
      let (bytes, media) := cliReadMedia fso disk bref.dataOff media
      scanSlots (scanBref fuel) npdataRef (bytes / 128) 0 media
    else some ([], media)

/-- The loop of `cmd_pfs_list` over the super-root blockset of the volume header. -/
def cmdPfsList (fuel : Nat) (sroot : Nat → ScanRef) : PfsScan :=
  scanSlots (scanBref fso disk stack fuel) (fun _ => sroot) setCount 0 fun _ => 0

end

/-- `scan_bref` does nothing. -/
def ScanRef.Silent (bref : ScanRef) : Prop := bref.type ≠ 1 ∧ bref.type ≠ 2

/-- The block that a `data_off` names, as it lies on the device. -/
def deviceBlock (fso : UserOndisk) (disk : UserVolume → Image) (dataOff : BitVec 64) : Image :=
  fun k => (fso.deviceByte disk (dataOff.toNat / 64 * 64 + k)).getD 0

mutual

/-- A tree of blocks under the super-root: a reference that leads to no inode, a PFS, a super-root
inode with its blockset, and an indirect block. -/
inductive SuperTree where
  | other (bref : ScanRef)
  | pfs (bref : ScanRef)
  | suproot (bref : ScanRef) (slots : SuperSlots)
  | indirect (bref : ScanRef) (slots : SuperSlots)

inductive SuperSlots where
  | nil
  | cons (tree : SuperTree) (slots : SuperSlots)

end

def SuperTree.bref : SuperTree → ScanRef
  | .other bref => bref
  | .pfs bref => bref
  | .suproot bref _ => bref
  | .indirect bref _ => bref

def SuperSlots.length : SuperSlots → Nat
  | .nil => 0
  | .cons _ slots => slots.length + 1

mutual

/-- The frames of stack that a scan of the tree takes. -/
def SuperTree.depth : SuperTree → Nat
  | .other _ => 1
  | .pfs _ => 1
  | .suproot _ slots => slots.depth + 1
  | .indirect _ slots => slots.depth + 1

def SuperSlots.depth : SuperSlots → Nat
  | .nil => 0
  | .cons tree slots => max tree.depth slots.depth

end

section

variable (fso : UserOndisk) (disk : UserVolume → Image) (stack : Image)

mutual

/-- The tree is the one that the references on the media span. -/
def SuperTree.Lies : SuperTree → Prop
  | .other bref => bref.Silent ∨ (bref.type = 1 ∧ (cliReadMedia fso disk bref.dataOff stack).1 = 0)
  | .pfs bref => bref.type = 1 ∧ (cliReadMedia fso disk bref.dataOff stack).1 ≠ 0 ∧
      ¬isSuproot (cliReadMedia fso disk bref.dataOff stack).2
  | .suproot bref slots => bref.type = 1 ∧ (cliReadMedia fso disk bref.dataOff stack).1 ≠ 0 ∧
      isSuproot (cliReadMedia fso disk bref.dataOff stack).2 ∧ slots.length = setCount ∧
      slots.Lie (blocksetRef (cliReadMedia fso disk bref.dataOff stack).2) 0
  | .indirect bref slots => bref.type = 2 ∧ BlockPlaced fso bref.dataOff ∧
      (∀ media, (cliReadMedia fso disk bref.dataOff media).1 = mediaBytes bref.dataOff) ∧
      slots.length = mediaBytes bref.dataOff / 128 ∧
      slots.Lie (npdataRef (deviceBlock fso disk bref.dataOff)) 0

def SuperSlots.Lie (slot : Nat → ScanRef) : Nat → SuperSlots → Prop
  | _, .nil => True
  | i, .cons tree slots => tree.bref = slot i ∧ tree.Lies ∧ slots.Lie slot (i + 1)

end

mutual

/-- The PFS inodes of the tree, in its order. -/
def SuperTree.inodes : SuperTree → List PrintedInode
  | .other _ => []
  | .pfs bref => [slice (cliReadMedia fso disk bref.dataOff stack).2 0 1024]
  | .suproot _ slots => slots.inodes
  | .indirect _ slots => slots.inodes

def SuperSlots.inodes : SuperSlots → List PrintedInode
  | .nil => []
  | .cons tree slots => tree.inodes ++ slots.inodes

end

mutual

/-- What the reads of the indirect blocks of the tree leave in the static buffer. -/
def SuperTree.after : SuperTree → Image → Image
  | .other _, media => media
  | .pfs _, media => media
  | .suproot _ slots, media => slots.after media
  | .indirect bref slots, media => slots.after (cliReadMedia fso disk bref.dataOff media).2

def SuperSlots.after : SuperSlots → Image → Image
  | .nil, media => media
  | .cons tree slots, media => slots.after (tree.after media)

end

/-- The scan makes the same of both references. -/
def ScanRef.Same (a b : ScanRef) : Prop := a = b ∨ a.Silent ∧ b.Silent

mutual

/-- Whenever a slot of an indirect block has its turn, its reference is still in the buffer into
which the indirect blocks below the slots before it have been read. -/
def SuperTree.Undisturbed : SuperTree → Image → Prop
  | .other _, _ => True
  | .pfs _, _ => True
  | .suproot _ slots, media => slots.Undisturbed media
  | .indirect bref slots, media =>
    slots.InBuffer 0 (cliReadMedia fso disk bref.dataOff media).2

/-- The slots of a blockset, which lies outside of the buffer. -/
def SuperSlots.Undisturbed : SuperSlots → Image → Prop
  | .nil, _ => True
  | .cons tree slots, media => tree.Undisturbed media ∧
      slots.Undisturbed (tree.after fso disk media)

/-- The slots of an indirect block from `i` on. -/
def SuperSlots.InBuffer : Nat → SuperSlots → Image → Prop
  | _, .nil, _ => True
  | i, .cons tree slots, media => (npdataRef media i).Same tree.bref ∧ tree.Undisturbed media ∧
      slots.InBuffer (i + 1) (tree.after fso disk media)

end

end

section

variable {fso : UserOndisk} {disk : UserVolume → Image} {stack : Image}

theorem scanBref_silent {bref : ScanRef} (h : bref.Silent) (fuel : Nat) (media : Image) :
    scanBref fso disk stack (fuel + 1) bref media = some ([], media) := by
  rw [scanBref, if_neg h.1, if_neg h.2]

/-- A tree at a silent reference has nothing in it. -/
theorem SuperTree.Lies.silent {tree : SuperTree} (h : tree.Lies fso disk stack)
    (hs : tree.bref.Silent) : ∃ bref, tree = .other bref := by
  cases tree with
  | other bref => exact ⟨bref, rfl⟩
  | pfs bref =>
    rw [SuperTree.Lies] at h
    exact absurd h.1 hs.1
  | suproot bref slots =>
    rw [SuperTree.Lies] at h
    exact absurd h.1 hs.1
  | indirect bref slots =>
    rw [SuperTree.Lies] at h
    exact absurd h.1 hs.2

mutual

/-- The scan of a tree whose references stay in the buffer, by recursion on the tree. -/
theorem scanBref_tree (tree : SuperTree) (fuel : Nat) {media : Image}
    (hlies : tree.Lies fso disk stack) (hund : tree.Undisturbed fso disk media)
    (hfuel : tree.depth ≤ fuel) :
    scanBref fso disk stack fuel tree.bref media =
      some (tree.inodes fso disk stack, tree.after fso disk media) := by
  match tree, fuel with
  | .other bref, fuel + 1 =>
    rw [SuperTree.Lies] at hlies
    rw [SuperTree.inodes, SuperTree.after, SuperTree.bref]
    rcases hlies with hs | ⟨htype, hread⟩
    · exact scanBref_silent hs fuel media
    · rw [scanBref, if_pos htype]
      exact if_pos hread
  | .pfs bref, fuel + 1 =>
    rw [SuperTree.Lies] at hlies
    obtain ⟨htype, hread, hpfs⟩ := hlies
    rw [SuperTree.inodes, SuperTree.after, SuperTree.bref, scanBref, if_pos htype]
    exact (if_neg hread).trans (if_neg hpfs)
  | .suproot bref slots, fuel + 1 =>
    rw [SuperTree.Lies] at hlies
    rw [SuperTree.Undisturbed] at hund
    rw [SuperTree.depth] at hfuel
    obtain ⟨htype, hread, hroot, hlen, hlie⟩ := hlies
    rw [SuperTree.inodes, SuperTree.after, SuperTree.bref, scanBref, if_pos htype]
    refine (if_neg hread).trans ((if_pos hroot).trans ?_)
    rw [← hlen]
    exact scanSlots_blockset slots fuel hlie hund (by omega)
  | .indirect bref slots, fuel + 1 =>
    rw [SuperTree.Lies] at hlies
    rw [SuperTree.Undisturbed] at hund
    rw [SuperTree.depth] at hfuel
    obtain ⟨htype, -, hread, hlen, hlie⟩ := hlies
    have hne : bref.type ≠ 1 := by
      rw [htype]
      decide
    rw [SuperTree.inodes, SuperTree.after, SuperTree.bref, scanBref, if_neg hne, if_pos htype]
    dsimp only
    rw [hread, ← hlen]
    exact scanSlots_npdata slots fuel hlie hund (by omega)
  | .other _, 0 | .pfs _, 0 | .suproot _ _, 0 | .indirect _ _, 0 =>
    rw [SuperTree.depth] at hfuel
    omega

/-- The loop over a blockset. -/
theorem scanSlots_blockset (slots : SuperSlots) (fuel : Nat) {i : Nat} {media : Image}
    {slot : Nat → ScanRef} (hlie : slots.Lie fso disk stack slot i)
    (hund : slots.Undisturbed fso disk media) (hfuel : slots.depth ≤ fuel) :
    scanSlots (scanBref fso disk stack fuel) (fun _ => slot) slots.length i media =
      some (slots.inodes fso disk stack, slots.after fso disk media) := by
  match slots with
  | .nil =>
    rw [SuperSlots.inodes, SuperSlots.after]
    rfl
  | .cons tree slots =>
    rw [SuperSlots.Lie] at hlie
    rw [SuperSlots.Undisturbed] at hund
    rw [SuperSlots.depth] at hfuel
    obtain ⟨hbref, htree, hrest⟩ := hlie
    have hscan := scanBref_tree tree fuel htree hund.1 (by omega)
    have hloop := scanSlots_blockset slots fuel hrest hund.2 (by omega)
    rw [SuperSlots.inodes, SuperSlots.after, SuperSlots.length, scanSlots, ← hbref, hscan,
      Option.bind_some]
    dsimp only
    rw [hloop]
    rfl

/-- The loop over an indirect block in the buffer. -/
theorem scanSlots_npdata (slots : SuperSlots) (fuel : Nat) {i : Nat} {media : Image}
    {slot : Nat → ScanRef} (hlie : slots.Lie fso disk stack slot i)
    (hbuf : slots.InBuffer fso disk i media) (hfuel : slots.depth ≤ fuel) :
    scanSlots (scanBref fso disk stack fuel) npdataRef slots.length i media =
      some (slots.inodes fso disk stack, slots.after fso disk media) := by
  match slots with
  | .nil =>
    rw [SuperSlots.inodes, SuperSlots.after]
    rfl
  | .cons tree slots =>
    rw [SuperSlots.Lie] at hlie
    rw [SuperSlots.InBuffer] at hbuf
    rw [SuperSlots.depth] at hfuel
    obtain ⟨-, htree, hrest⟩ := hlie
    obtain ⟨hsame, hund, hbuf⟩ := hbuf
    have hloop := scanSlots_npdata slots fuel hrest hbuf (by omega)
    have hscan : scanBref fso disk stack fuel (npdataRef media i) media =
        some (tree.inodes fso disk stack, tree.after fso disk media) := by
      rcases hsame with heq | ⟨hread, hown⟩
      · rw [heq]
        exact scanBref_tree tree fuel htree hund (by omega)
      · obtain ⟨bref, rfl⟩ := htree.silent hown
        rw [SuperTree.depth] at hfuel
        obtain ⟨fuel, rfl⟩ := Nat.exists_eq_add_of_le' (show 1 ≤ fuel by omega)
        rw [SuperTree.inodes, SuperTree.after]
        exact scanBref_silent hread fuel media
    rw [SuperSlots.inodes, SuperSlots.after, SuperSlots.length, scanSlots, hscan,
      Option.bind_some]
    dsimp only
    rw [hloop]
    rfl

end

/-- The indirect block that is read is there slot by slot. -/
theorem npdataRef_of_holdsBlock {dataOff : BitVec 64} {media : Image} {i : Nat}
    (h : HoldsBlock fso disk dataOff media) (hi : i < mediaBytes dataOff / 128) :
    npdataRef media i = npdataRef (deviceBlock fso disk dataOff) i := by
  have hbyte : ∀ k < mediaBytes dataOff, media k = deviceBlock fso disk dataOff k := by
    intro k hk
    show _ = Option.getD _ _
    rw [h k hk]
    rfl
  have hoff : getLE media (128 * i + 32) 8 =
      getLE (deviceBlock fso disk dataOff) (128 * i + 32) 8 :=
    getLE_congr fun k _ hk => hbyte k (by omega)
  unfold npdataRef refAt
  rw [hbyte _ (by omega), hoff]

end

mutual

def SuperTree.NoIndirect : SuperTree → Prop
  | .other _ => True
  | .pfs _ => True
  | .suproot _ slots => slots.NoIndirect
  | .indirect _ _ => False

def SuperSlots.NoIndirect : SuperSlots → Prop
  | .nil => True
  | .cons tree slots => tree.NoIndirect ∧ slots.NoIndirect

end

mutual

/-- No indirect block lies below another one. -/
def SuperTree.Flat : SuperTree → Prop
  | .other _ => True
  | .pfs _ => True
  | .suproot _ slots => slots.Flat
  | .indirect _ slots => slots.NoIndirect

def SuperSlots.Flat : SuperSlots → Prop
  | .nil => True
  | .cons tree slots => tree.Flat ∧ slots.Flat

end

section

variable {fso : UserOndisk} {disk : UserVolume → Image} {stack : Image}

mutual

theorem SuperTree.NoIndirect.quiet (tree : SuperTree) (h : tree.NoIndirect) (media : Image) :
    tree.after fso disk media = media ∧ tree.Undisturbed fso disk media := by
  match tree with
  | .other _ | .pfs _ =>
    rw [SuperTree.after, SuperTree.Undisturbed]
    exact ⟨rfl, trivial⟩
  | .suproot _ slots =>
    rw [SuperTree.NoIndirect] at h
    rw [SuperTree.after, SuperTree.Undisturbed]
    exact SuperSlots.NoIndirect.quiet slots h media
  | .indirect _ _ =>
    rw [SuperTree.NoIndirect] at h
    exact h.elim

theorem SuperSlots.NoIndirect.quiet (slots : SuperSlots) (h : slots.NoIndirect) (media : Image) :
    slots.after fso disk media = media ∧ slots.Undisturbed fso disk media := by
  match slots with
  | .nil =>
    rw [SuperSlots.after, SuperSlots.Undisturbed]
    exact ⟨rfl, trivial⟩
  | .cons tree slots =>
    rw [SuperSlots.NoIndirect] at h
    obtain ⟨hafter, hund⟩ := SuperTree.NoIndirect.quiet tree h.1 media
    rw [SuperSlots.after, SuperSlots.Undisturbed, hafter]
    obtain ⟨hafter, hrest⟩ := SuperSlots.NoIndirect.quiet slots h.2 media
    exact ⟨hafter, hund, hrest⟩

end

/-- An indirect block stays in the buffer while no other one is read. -/
theorem SuperSlots.NoIndirect.inBuffer {dataOff : BitVec 64} {media : Image} {slots : SuperSlots}
    {i : Nat} (h : slots.NoIndirect) (hheld : HoldsBlock fso disk dataOff media)
    (hlie : slots.Lie fso disk stack (npdataRef (deviceBlock fso disk dataOff)) i)
    (hlen : i + slots.length ≤ mediaBytes dataOff / 128) : slots.InBuffer fso disk i media := by
  match slots with
  | .nil =>
    rw [SuperSlots.InBuffer]
    trivial
  | .cons tree slots =>
    rw [SuperSlots.NoIndirect] at h
    rw [SuperSlots.Lie] at hlie
    rw [SuperSlots.length] at hlen
    obtain ⟨hafter, hund⟩ := SuperTree.NoIndirect.quiet tree h.1 media
    rw [SuperSlots.InBuffer, hafter]
    refine ⟨Or.inl ?_, hund, SuperSlots.NoIndirect.inBuffer h.2 hheld hlie.2.2 (by omega)⟩
    rw [hlie.1]
    exact npdataRef_of_holdsBlock hheld (by omega)

mutual

/-- In a super-root with one level of indirect blocks nothing is disturbed. -/
theorem SuperTree.Flat.undisturbed (halign : fso.BufferAligned) (tree : SuperTree) (h : tree.Flat)
    (hlies : tree.Lies fso disk stack) (media : Image) : tree.Undisturbed fso disk media := by
  match tree with
  | .other _ | .pfs _ =>
    rw [SuperTree.Undisturbed]
    trivial
  | .suproot _ slots =>
    rw [SuperTree.Flat] at h
    rw [SuperTree.Lies] at hlies
    rw [SuperTree.Undisturbed]
    exact SuperSlots.Flat.undisturbed halign slots h hlies.2.2.2.2 media
  | .indirect bref slots =>
    rw [SuperTree.Flat] at h
    rw [SuperTree.Lies] at hlies
    rw [SuperTree.Undisturbed]
    obtain ⟨-, hplaced, hread, hlen, hlie⟩ := hlies
    rcases Nat.eq_zero_or_pos (mediaBytes bref.dataOff) with hzero | hpos
    · rw [hzero] at hlen
      match slots with
      | .nil =>
        rw [SuperSlots.InBuffer]
        trivial
      | .cons _ _ => cases hlen
    · have hok := cliReadMedia_iff.mp ⟨rfl, (hread media).trans_ne (Nat.ne_of_gt hpos)⟩
      exact h.inBuffer (holdsBlock_of_placed halign hok hplaced) hlie (by omega)

theorem SuperSlots.Flat.undisturbed (halign : fso.BufferAligned) (slots : SuperSlots)
    (h : slots.Flat) {slot : Nat → ScanRef} {i : Nat} (hlie : slots.Lie fso disk stack slot i)
    (media : Image) : slots.Undisturbed fso disk media := by
  match slots with
  | .nil =>
    rw [SuperSlots.Undisturbed]
    trivial
  | .cons tree slots =>
    rw [SuperSlots.Flat] at h
    rw [SuperSlots.Lie] at hlie
    rw [SuperSlots.Undisturbed]
    obtain ⟨-, htree, hrest⟩ := hlie
    exact ⟨SuperTree.Flat.undisturbed halign tree h.1 htree media,
      SuperSlots.Flat.undisturbed halign slots h.2 hrest _⟩

end

end

section

variable (fso : UserOndisk) (disk : UserVolume → Image) (stack : Image)

/-- The slots are those of the super-root blockset of the volume header. -/
def SuperSlots.Spans (slots : SuperSlots) (sroot : Nat → ScanRef) : Prop :=
  slots.length = setCount ∧ slots.Lie fso disk stack sroot 0

/-- `pfs-list` prints every PFS of the super-root once and nothing else, as soon as the stack is
deep enough. -/
def PfsListComplete (sroot : Nat → ScanRef) (slots : SuperSlots) : Prop :=
  ∀ fuel, slots.depth ≤ fuel → ∃ out media,
    cmdPfsList fso disk stack fuel sroot = some (out, media) ∧
      out.Perm (slots.inodes fso disk stack)

variable {fso disk stack} {sroot : Nat → ScanRef} {slots : SuperSlots}

theorem pfs_list_complete_of_undisturbed (hspans : slots.Spans fso disk stack sroot)
    (hund : slots.Undisturbed fso disk fun _ => 0) :
    PfsListComplete fso disk stack sroot slots := by
  intro fuel hfuel
  have hscan := scanSlots_blockset slots fuel hspans.2 hund hfuel
  rw [hspans.1] at hscan
  exact ⟨_, _, hscan, List.Perm.refl _⟩

end

section Example

/-- Slots that are not used. -/
def SuperSlots.empty : Nat → SuperSlots
  | 0 => .nil
  | n + 1 => .cons (.other ⟨0, 0⟩) (SuperSlots.empty n)

/-- An indirect block at 64KB with another one at 80KB in its slot 0 and an inode at 96KB in its
slot 1. The other one has the inode at 112KB in its slot 0. -/
def nestedImage : Image := fun k =>
  if k = 65536 then 2 else if k = 65568 then 0x0C else if k = 65569 then 0x40
  else if k = 65570 then 1
  else if k = 65664 then 1 else if k = 65696 then 0x0A else if k = 65697 then 0x80
  else if k = 65698 then 1
  else if k = 81920 then 1 else if k = 81952 then 0x0A else if k = 81953 then 0xC0
  else if k = 81954 then 1
  else if k = 98560 then 0x50
  else if k = 114944 then 0x51
  else 0

def nestedDisk : UserVolume → Image := fun _ => nestedImage

def outerRef : ScanRef := ⟨2, 0x1000C⟩

def innerRef : ScanRef := ⟨2, 0x1400C⟩

def inodeRefP : ScanRef := ⟨1, 0x1800A⟩

def inodeRefQ : ScanRef := ⟨1, 0x1C00A⟩

def innerSlots : SuperSlots := .cons (.pfs inodeRefQ) (SuperSlots.empty 31)

def outerSlots : SuperSlots :=
  .cons (.indirect innerRef innerSlots) (.cons (.pfs inodeRefP) (SuperSlots.empty 30))

/-- A super-root blockset with one entry. -/
def srootOf (bref : ScanRef) : Nat → ScanRef := fun i => if i = 0 then bref else ⟨0, 0⟩

def srootSlots (tree : SuperTree) : SuperSlots := .cons tree (SuperSlots.empty 3)

section

variable {fso : UserOndisk} {disk : UserVolume → Image} {stack : Image}

theorem empty_length (n : Nat) : (SuperSlots.empty n).length = n := by
  induction n with
  | zero => rfl
  | succ n ih => rw [SuperSlots.empty, SuperSlots.length, ih]

theorem empty_lie {n i : Nat} {slot : Nat → ScanRef}
    (h : ∀ j, i ≤ j → j < i + n → slot j = ⟨0, 0⟩) :
    (SuperSlots.empty n).Lie fso disk stack slot i := by
  induction n generalizing i with
  | zero =>
    rw [SuperSlots.empty, SuperSlots.Lie]
    trivial
  | succ n ih =>
    have hsilent : ScanRef.Silent ⟨0, 0⟩ := ⟨by decide, by decide⟩
    rw [SuperSlots.empty, SuperSlots.Lie, SuperTree.bref, SuperTree.Lies]
    refine ⟨(h i (by omega) (by omega)).symm, Or.inl hsilent, ?_⟩
    exact ih fun j h1 h2 => h j (by omega) (by omega)

theorem empty_noIndirect (n : Nat) : (SuperSlots.empty n).NoIndirect := by
  induction n with
  | zero =>
    rw [SuperSlots.empty, SuperSlots.NoIndirect]
    trivial
  | succ n ih =>
    rw [SuperSlots.empty, SuperSlots.NoIndirect, SuperTree.NoIndirect]
    exact ⟨trivial, ih⟩

theorem srootSlots_spans {tree : SuperTree} (h : tree.Lies fso disk stack) :
    (srootSlots tree).Spans fso disk stack (srootOf tree.bref) := by
  unfold srootSlots
  constructor
  · rfl
  · rw [SuperSlots.Lie]
    refine ⟨rfl, h, empty_lie ?_⟩
    intro j hj _
    exact if_neg (by omega)

end

/-- A 4KB indirect block of the example disk. -/
theorem nestedDisk_indirect {bref : ScanRef} {slots : SuperSlots} (htype : bref.type = 2)
    (hoff : mediaBytes bref.dataOff = 4096 ∧ leadOf bref.dataOff = 0 ∧
      bref.dataOff.toNat < 131072)
    (hlen : slots.length = 32)
    (hlie : slots.Lie (headerOndisk goodSlots) nestedDisk (fun _ => 0)
      (npdataRef (deviceBlock (headerOndisk goodSlots) nestedDisk bref.dataOff)) 0) :
    (SuperTree.indirect bref slots).Lies (headerOndisk goodSlots) nestedDisk fun _ => 0 := by
  obtain ⟨hbytes, hlead, hlow⟩ := hoff
  rw [SuperTree.Lies]
  refine ⟨htype, ⟨Or.inl hlead, ?_⟩, ?_, by rw [hlen, hbytes], hlie⟩
  · rw [hbytes]
    intro k hk
    rw [headerOndisk_volumeAt (by omega), headerOndisk_volumeAt (by omega)]
  · intro media
    exact headerOndisk_read _ media _ (by rw [hbytes]; decide) (by rw [hbytes, hlead]; decide)
      (by omega)

theorem nestedDisk_inode {bref : ScanRef} (h : bref = inodeRefP ∨ bref = inodeRefQ) :
    (SuperTree.pfs bref).Lies (headerOndisk goodSlots) nestedDisk fun _ => 0 := by
  rw [SuperTree.Lies]
  rcases h with rfl | rfl <;> decide

theorem innerBlock_slots : ∀ i < 32,
    npdataRef (deviceBlock (headerOndisk goodSlots) nestedDisk innerRef.dataOff) i =
      if i = 0 then inodeRefQ else ⟨0, 0⟩ := by
  decide

theorem outerBlock_slots : ∀ i < 32,
    npdataRef (deviceBlock (headerOndisk goodSlots) nestedDisk outerRef.dataOff) i =
      if i = 0 then innerRef else if i = 1 then inodeRefP else ⟨0, 0⟩ := by
  decide

theorem innerTree_lies :
    (SuperTree.indirect innerRef innerSlots).Lies (headerOndisk goodSlots) nestedDisk
      fun _ => 0 := by
  apply nestedDisk_indirect rfl (by decide)
  · rw [innerSlots, SuperSlots.length, empty_length]
  · rw [innerSlots, SuperSlots.Lie]
    refine ⟨(innerBlock_slots 0 (by decide)).symm, nestedDisk_inode (Or.inr rfl), empty_lie ?_⟩
    intro j hj hlt
    rw [innerBlock_slots j (by omega), if_neg (by omega)]

theorem outerTree_lies :
    (SuperTree.indirect outerRef outerSlots).Lies (headerOndisk goodSlots) nestedDisk
      fun _ => 0 := by
  apply nestedDisk_indirect rfl (by decide)
  · rw [outerSlots, SuperSlots.length, SuperSlots.length, empty_length]
  · rw [outerSlots, SuperSlots.Lie, SuperSlots.Lie]
    refine ⟨(outerBlock_slots 0 (by decide)).symm, innerTree_lies,
      (outerBlock_slots 1 (by decide)).symm, nestedDisk_inode (Or.inl rfl), empty_lie ?_⟩
    intro j hj hlt
    rw [outerBlock_slots j (by omega), if_neg (by omega), if_neg (by omega)]

theorem innerTree_flat : (srootSlots (.indirect innerRef innerSlots)).Flat := by
  rw [srootSlots, SuperSlots.Flat, SuperTree.Flat, innerSlots, SuperSlots.NoIndirect,
    SuperTree.NoIndirect]
  refine ⟨⟨trivial, empty_noIndirect 31⟩, ?_⟩
  simp [SuperSlots.empty, SuperSlots.Flat, SuperTree.Flat]

/-- The inner indirect block alone is listed. -/
theorem pfs_list_complete_one_level :
    PfsListComplete (headerOndisk goodSlots) nestedDisk (fun _ => 0) (srootOf innerRef)
      (srootSlots (.indirect innerRef innerSlots)) :=
  pfs_list_complete_of_undisturbed (srootSlots_spans innerTree_lies)
    (innerTree_flat.undisturbed (bufferAligned_of_init (headerDisk_init goodSlots_user)) _
      (srootSlots_spans innerTree_lies).2 _)

theorem nested_scan_prints_one :
    (cmdPfsList (headerOndisk goodSlots) nestedDisk (fun _ => 0) 3 (srootOf outerRef)).map
      (·.1.length) = some 1 := by
  decide

theorem nested_inodes_two : ((srootSlots (.indirect outerRef outerSlots)).inodes
    (headerOndisk goodSlots) nestedDisk fun _ => 0).length = 2 := by
  decide

/-- The inode behind the inner indirect block is lost. -/
theorem pfs_list_loses_inode :
    (srootSlots (.indirect outerRef outerSlots)).Spans (headerOndisk goodSlots) nestedDisk
        (fun _ => 0) (srootOf outerRef) ∧
      ¬ PfsListComplete (headerOndisk goodSlots) nestedDisk (fun _ => 0) (srootOf outerRef)
        (srootSlots (.indirect outerRef outerSlots)) := by
  refine ⟨srootSlots_spans outerTree_lies, ?_⟩
  intro h
  obtain ⟨out, media, hscan, hperm⟩ := h 3 (by decide)
  have hone := nested_scan_prints_one
  rw [hscan] at hone
  have hlen := hperm.length_eq
  rw [nested_inodes_two] at hlen
  rw [Option.map_some, Option.some.injEq] at hone
  dsimp only at hone
  omega

end Example

end Hammer2
