import Hammer2.ChainFind
import Hammer2.ChainTree

namespace Hammer2

/-- `hammer2_chain_cmp`, where an overlap counts as a match. -/
def chainCmp (chain1 chain2 : MemChain) : Int :=
  if chain1.bref.last < chain2.bref.key then -1
  else if chain2.bref.last < chain1.bref.key then 1
  else 0

/-- `RB_INSERT` on a tree given by its chains in order. A collision fails the `KASSERTMSG` of
`hammer2_chain_insert`. -/
def chainTreeInsert (chain : MemChain) : List MemChain → Option (List MemChain)
  | [] => some [chain]
  | cur :: rest =>
    if chainCmp chain cur < 0 then some (chain :: cur :: rest)
    else if 0 < chainCmp chain cur then (chainTreeInsert chain rest).map (cur :: ·)
    else none

/-- The children of a chain: its blockref array, `core.rbtree` and `core.live_count`, with the flags
`HAMMER2_CHAIN_COUNTEDBREFS` and `HAMMER2_CHAIN_INITIAL`. -/
structure ChainCore where
  array : BrefArray
  rbtree : List MemChain
  liveCount : Int
  counted : Bool
  initial : Bool

/-- The merged view of a tree and an array: the chains, and the elements that no chain overrides. -/
def viewOf (rbtree : List MemChain) (elems : List Bref) : List Bref :=
  rbtree.map MemChain.bref ++ elems.filter fun e => ∀ chain ∈ rbtree, chain.bref.key ≠ e.key

namespace ChainCore

def count (core : ChainCore) : Nat := core.array.base.length

def elements (core : ChainCore) : List Bref := SlotList.elements core.array.base

/-- The elements below a chain, in memory or on the media. -/
def view (core : ChainCore) : List Bref := viewOf core.rbtree core.elements

/-- `hammer2_chain_countbrefs` -/
def countbrefs (core : ChainCore) : ChainCore :=
  if core.counted then core
  else if core.initial then
    { core with array := { core.array with liveZero := 0 }, counted := true }
  else
    { core with
      array := core.array.countbrefs
      liveCount := core.liveCount + core.elements.length
      counted := true }

def seek (core : ChainCore) (cacheIndex : Nat) : ChainCore :=
  { core with array := { core.array with cacheIndex := cacheIndex } }

/-- `hammer2_combined_find` up to the last key. The search asserts that the elements are counted. -/
def find (core : ChainCore) (keyBeg : Nat) : Option (ChainCore × Option Match) :=
  if core.counted then
    (combinedFind core.array core.rbtree keyBeg keyMax).map fun r => (core.seek r.cacheIndex, r.found)
  else none

/-- `RB_REMOVE` of a chain of the live view. -/
def unlink (core : ChainCore) (chain : MemChain) : ChainCore :=
  { core with rbtree := core.rbtree.erase chain, liveCount := core.liveCount - 1 }

end ChainCore

/-- What a deletion leaves: the error, the core of the parent, the chain and `*obref`. -/
structure Deletion where
  error : Nat
  parent : ChainCore
  chain : MemChain
  obref : Option Bref

/-- `_hammer2_chain_delete_helper`. `modify` is what `hammer2_chain_modify` returns for the parent. -/
def chainDeleteHelper (parent : ChainCore) (chain : MemChain) (modify : Nat) : Option Deletion :=
  if chain.blkmapped then
    if parent.initial then none
    else if modify ≠ 0 then some ⟨modify, parent, chain, none⟩
    else if parent.counted = false then none
    else
      let parent := parent.unlink chain
      match parent.array.baseDelete chain.bref chain.blkmapupd with
      | none => none
      | some (array, scan) =>
        some ⟨0, { parent with array := array }, ⟨chain.bref, true, false, false⟩, some scan⟩
  else some ⟨0, parent.unlink chain, { chain with deleted := true }, none⟩

/-- `hammer2_chain_delete` and `hammer2_chain_delete_obref` -/
def chainDelete (parent : ChainCore) (chain : MemChain) (modify : Nat) : Option Deletion :=
  if chain.deleted then some ⟨0, parent, chain, none⟩ else chainDeleteHelper parent chain modify

/-- `hammer2_chain_rename` to the same key under a parent that has room, which is what
`hammer2_chain_create` does with a chain that exists. -/
def chainRename (parent : ChainCore) (chain : MemChain) : Option ChainCore :=
  let parent := parent.countbrefs
  if parent.liveCount < 0 ∨ parent.count ≤ parent.liveCount then none
  else (chainTreeInsert { chain with deleted := false } parent.rbtree).map fun rbtree =>
    { parent with rbtree := rbtree, liveCount := parent.liveCount + 1 }

/-- `hammer2_chain_rename_obref`. The blockref goes to the new parent as it was, and what
`hammer2_chain_modify` returns is not looked at. -/
def chainRenameObref (parent : ChainCore) (chain : MemChain) : Option Bref → Option ChainCore
  | none => chainRename parent chain
  | some obref =>
    if chain.blkmapped then none
    else
      match chainRename parent
          { chain with
            blkmapped := true
            blkmapupd := chain.blkmapupd || decide (obref ≠ chain.bref) } with
      | none => none
      | some parent =>
        if parent.initial then none
        else (parent.array.baseInsert obref).map fun array => { parent with array := array }

/-- `hammer2_chain_get` of an element of the array. -/
def chainGet (parent : ChainCore) (bref : Bref) : Option (ChainCore × MemChain) :=
  (chainTreeInsert ⟨bref, false, true, false⟩ parent.rbtree).map fun rbtree =>
    ({ parent with rbtree := rbtree }, ⟨bref, false, true, false⟩)

/-- The chain of an element that `hammer2_combined_find` returned, from the tree or from the media. -/
def matchChain (parent : ChainCore) (m : Match) : Option (ChainCore × MemChain) :=
  match m.chain with
  | some chain => some (parent, chain)
  | none => chainGet parent m.bref

/-- The loop that moves elements to another parent, of `hammer2_chain_create_indirect` and
`hammer2_chain_indirect_maintenance`. An element for which `within` does not hold stays. -/
def shiftLoop (within : Bref → Bool) (modify : Nat → Nat) :
    Nat → ChainCore → ChainCore → Nat → Option (ChainCore × ChainCore)
  | 0, _, _, _ => none
  | fuel + 1, chain, parent, keyBeg =>
    match chain.find keyBeg with
    | none => none
    | some (chain, found) =>
      match found with
      | none => some (chain, parent)
      | some m =>
        let next := fun (chain parent : ChainCore) =>
          if m.bref.next = 0 then some (chain, parent)
          else shiftLoop within modify fuel chain parent m.bref.next
        if within m.bref then
          match matchChain chain m with
          | none => none
          | some (chain, sub) =>
            if sub.deleted then shiftLoop within modify fuel chain parent keyBeg
            else
              match chainDelete chain sub (modify fuel) with
              | none => none
              | some d =>
                if d.error ≠ 0 then none
                else
                  match chainRenameObref parent d.chain d.obref with
                  | none => none
                  | some parent => next d.parent parent
        else next chain parent

/-- A chain with an array of `count` empty entries and nothing in memory below it. -/
def freshCore (count : Nat) : ChainCore where
  array := ⟨List.replicate count none, 0, 0, ⟨0, 0, 0⟩⟩
  rbtree := []
  liveCount := 0
  counted := false
  initial := false

/-- What `hammer2_chain_modify` returns: for the parent, for the new indirect block, and for the
parent when an element is taken out of it. -/
structure SplitEnv where
  modifyParent : Nat
  modifyIchain : Nat
  modifySub : Nat → Nat

/-- `hammer2_chain_create_indirect` with the key range and the size of the new indirect block. The
result is the error and the cores of the parent and of the new block. -/
def chainCreateIndirect (env : SplitEnv) (parent : ChainCore) (ibref : Bref) (ncount : Nat) :
    Option (Nat × ChainCore × Option ChainCore) :=
  if env.modifyParent ≠ 0 then some (env.modifyParent, parent, none)
  else
    let parent := { parent with initial := false }
    if env.modifyIchain ≠ 0 then some (env.modifyIchain, parent, none)
    else
      match shiftLoop (fun bref => inRange ibref.key ibref.keybits bref.key) env.modifySub
          (parent.count + 1) parent (freshCore ncount) 0 with
      | none => none
      | some (parent, ichain) =>
        if parent.count ≤ parent.liveCount then none
        else
          (chainTreeInsert ⟨ibref, false, false, false⟩ parent.rbtree).map fun rbtree =>
            (0, { parent with rbtree := rbtree, liveCount := parent.liveCount + 1 }, some ichain)

end Hammer2
