import Mathlib.Tactic

namespace Hammer2

/-- The types of the elements that an indirect block can hold besides indirect blocks. -/
inductive ElemType where
  | inode
  | data
  | dirent
  | freemapLeaf
deriving DecidableEq

/-- A blockref that is not one of an indirect block: its range is `[key, key + 2^keybits)`. -/
structure Elem where
  type : ElemType
  key : Nat
  keybits : Nat
  dataOff : Nat
deriving DecidableEq

/-- Where a live child is found: in the blockref array, in the tree of chains in memory, or in both. -/
inductive KidPlace where
  | media
  | memory
  | both
deriving DecidableEq

/-- A live child of a chain: an element, or an indirect block with room for `count` blockrefs. -/
inductive BlockTree where
  | leaf (place : KidPlace) (e : Elem)
  | node (place : KidPlace) (key keybits count : Nat) (kids : List BlockTree)

/-- `hammer2_chain` types with a blockref array. -/
inductive ArrayKind where
  | directory
  | file
  | volume
  | freemap
  | indirect
  | freemapNode
deriving DecidableEq

/-- A chain that elements are created under. -/
structure BlockArray where
  kind : ArrayKind
  count : Nat
  kids : List BlockTree

namespace BlockTree

def place : BlockTree → KidPlace
  | .leaf place _ => place
  | .node place _ _ _ _ => place

def key : BlockTree → Nat
  | .leaf _ e => e.key
  | .node _ key _ _ _ => key

def keybits : BlockTree → Nat
  | .leaf _ e => e.keybits
  | .node _ _ keybits _ _ => keybits

/-- One past the last key. -/
def next (t : BlockTree) : Nat := t.key + 2 ^ t.keybits

mutual

/-- The elements that are reached through a child. -/
def leaves : BlockTree → List Elem
  | .leaf _ e => [e]
  | .node _ _ _ _ kids => leavesAll kids

def leavesAll : List BlockTree → List Elem
  | [] => []
  | t :: ts => leaves t ++ leavesAll ts

end

@[simp] theorem key_leaf (place : KidPlace) (e : Elem) : (leaf place e).key = e.key := rfl

@[simp] theorem keybits_leaf (place : KidPlace) (e : Elem) : (leaf place e).keybits = e.keybits := rfl

@[simp] theorem key_node (place : KidPlace) (key keybits count : Nat) (kids : List BlockTree) :
    (node place key keybits count kids).key = key := rfl

@[simp] theorem keybits_node (place : KidPlace) (key keybits count : Nat) (kids : List BlockTree) :
    (node place key keybits count kids).keybits = keybits := rfl

theorem leavesAll_eq_flatMap (ts : List BlockTree) : leavesAll ts = ts.flatMap leaves := by
  induction ts with
  | nil => simp [leavesAll]
  | cons t ts ih => rw [leavesAll, ih, List.flatMap_cons]

theorem leavesAll_perm {ts us : List BlockTree} (h : ts.Perm us) :
    (leavesAll ts).Perm (leavesAll us) := by
  rw [leavesAll_eq_flatMap, leavesAll_eq_flatMap]
  exact h.flatMap_right leaves

/-- The child goes where its key belongs. -/
def insertKid (t : BlockTree) : List BlockTree → List BlockTree
  | [] => [t]
  | u :: us => if t.key ≤ u.key then t :: u :: us else u :: insertKid t us

theorem insertKid_perm (t : BlockTree) (ts : List BlockTree) : (insertKid t ts).Perm (t :: ts) := by
  induction ts with
  | nil => exact List.Perm.refl _
  | cons u us ih =>
    unfold insertKid
    split
    next => exact List.Perm.refl _
    next => exact (ih.cons u).trans (List.Perm.swap t u us)

theorem leavesAll_insertKid (t : BlockTree) (ts : List BlockTree) :
    (leavesAll (insertKid t ts)).Perm (leaves t ++ leavesAll ts) :=
  leavesAll_perm (insertKid_perm t ts)

end BlockTree

/-- The elements visible under a chain. -/
def BlockArray.leaves (parent : BlockArray) : List Elem := BlockTree.leavesAll parent.kids

/-- A key is in the range of an indirect block: `rounddown2(key ^ k, 1 << keybits)` is 0. -/
def inRange (key keybits k : Nat) : Bool := k / 2 ^ keybits = key / 2 ^ keybits

section Indkey

/-- The radix of the smallest range around `key` from `nk` bits on that holds `k` as well. -/
def growBits (key k : Nat) : Nat → Nat → Nat
  | 0, nk => nk
  | fuel + 1, nk => if nk < 64 ∧ ¬inRange key nk k then growBits key k fuel (nk + 1) else nk

/-- The state of the scan in `hammer2_chain_indkey_dir`. -/
structure DirScan where
  keybits : Nat
  locount : Nat
  hicount : Nat

/-- All elements counted so far come to lie on the side of `key`. -/
def DirScan.collapse (s : DirScan) (high : Bool) : DirScan :=
  if high then { s with hicount := s.hicount + s.locount, locount := 0 }
  else { s with locount := s.locount + s.hicount, hicount := 0 }

def dirScanStep (key : Nat) (s : DirScan) (t : BlockTree) : DirScan :=
  let nkeybits := growBits key t.key 64 (max s.keybits t.keybits)
  let s :=
    if s.keybits ≠ nkeybits then
      { s.collapse (key.testBit (nkeybits - 1)) with keybits := nkeybits }
    else s
  if t.key.testBit (nkeybits - 1) then { s with hicount := s.hicount + 1 }
  else { s with locount := s.locount + 1 }

/-- The loop that makes room for at least `ncount` keys. -/
def dirExpand (key ncount : Nat) : Nat → DirScan → DirScan
  | 0, s => s
  | fuel + 1, s =>
    if 2 ^ s.keybits < ncount then
      dirExpand key ncount fuel
        { s.collapse (key.testBit (s.keybits + 1)) with keybits := s.keybits + 1 }
    else s

/-- `hammer2_chain_indkey_dir`: the radix of the new indirect block and a key in it, without the low
bits that the caller throws away. `none` is a shift by a negative number. -/
def indkeyDir (key keybits ncount : Nat) (kids : List BlockTree) : Option (Nat × Nat) :=
  let s := kids.foldl (dirScanStep key) ⟨keybits, 0, 0⟩
  if s.keybits = 0 then none
  else
    let s := dirExpand key ncount 64 { s with keybits := s.keybits - 1 }
    let base := key / 2 ^ (s.keybits + 1) * 2 ^ (s.keybits + 1)
    if s.locount < s.hicount then some (base + 2 ^ s.keybits, s.keybits)
    else some (base, s.keybits)

/-- The scan for the smallest element in `hammer2_chain_indkey_file` and
`hammer2_chain_indkey_freemap`. -/
def minElemStep (s : Nat × Nat) (t : BlockTree) : Nat × Nat :=
  if t.keybits < s.2 then (t.key, t.keybits)
  else if s.2 = t.keybits ∧ t.key < s.1 then (t.key, s.2)
  else s

def minElem (key : Nat) (kids : List BlockTree) : Nat × Nat := kids.foldl minElemStep (key, 64)

/-- `HAMMER2_IND_RADIX_*` less `HAMMER2_BLOCKREF_RADIX` -/
def indRadix (ncount : Nat) : Option Nat :=
  if ncount = 32 then some 5 else if ncount = 128 then some 7 else if ncount = 512 then some 9 else none

/-- `hammer2_chain_indkey_file` -/
def indkeyFile (key ncount : Nat) (kids : List BlockTree) : Option (Nat × Nat) :=
  (indRadix ncount).map fun nradix => ((minElem key kids).1, (minElem key kids).2 + nradix)

/-- `HAMMER2_FREEMAP_LEVEL*_RADIX`; `none` is a panic. -/
def freemapLevel (keybits : Nat) : Option Nat :=
  if keybits = 22 then some 30
  else if keybits = 30 then some 38
  else if keybits = 38 then some 46
  else if keybits = 46 then some 54
  else if keybits = 54 then some 62
  else none

/-- `hammer2_chain_indkey_freemap` -/
def indkeyFreemap (key : Nat) (kids : List BlockTree) : Option (Nat × Nat) :=
  (freemapLevel (minElem key kids).2).map fun keybits => ((minElem key kids).1, keybits)

end Indkey

end Hammer2
