import Hammer2.Blockref
import Hammer2.SlotList

namespace Hammer2

/-- `leaf_count` and the counters of `embed.stats` in a blockref. -/
structure BrefStats where
  leafCount : Nat
  dataCount : BitVec 64
  inodeCount : BitVec 64
deriving DecidableEq, Repr

/-- An element of a blockref array. Its key range lies in the 64-bit key space. -/
structure Bref where
  type : BrefType
  key : Nat
  keybits : Nat
  dataOff : Nat
  stats : BrefStats
  keybits_lt : keybits < 64
  fits : key + 2 ^ keybits ≤ 18446744073709551616
deriving DecidableEq

/-- `data_off & HAMMER2_OFF_MASK_RADIX` -/
def Bref.radix (bref : Bref) : Nat := bref.dataOff % 64

/-- The last key of the range. -/
def Bref.last (bref : Bref) : Nat := bref.key + 2 ^ bref.keybits - 1

/-- The key after the range, which wraps to 0. -/
def Bref.next (bref : Bref) : Nat := (bref.key + 2 ^ bref.keybits) % 18446744073709551616

/-- The range of `e` ends before the range of `f`. -/
def Bref.Before (e f : Bref) : Prop := e.last < f.key

instance (e f : Bref) : Decidable (e.Before f) := inferInstanceAs (Decidable (_ < _))

/-- `HAMMER2_BLOCKREF_LEAF_MAX` -/
def leafMax : Nat := 65535

def leafInc (n : Nat) : Nat := if n ≠ leafMax then n + 1 else n

def leafAdd (n k : Nat) : Nat := if n + k < leafMax then n + k else leafMax

def leafDec (n : Nat) : Nat := if n = leafMax then n else if n ≠ 0 then n - 1 else n

def leafSub (n k : Nat) : Nat := if n = leafMax then n else if n ≤ k then 0 else n - k

/-- What an element's storage adds to `data_count`. -/
def Bref.bytes (elm : Bref) : BitVec 64 := if elm.radix ≠ 0 then 1#64 <<< elm.radix else 0

/-- The update of the parent's counters in `hammer2_base_insert`. -/
def BrefStats.insert (st : BrefStats) (elm : Bref) : BrefStats :=
  let st := { st with dataCount := st.dataCount + elm.bytes }
  match elm.type with
  | .inode =>
    { leafCount := leafInc st.leafCount
      dataCount := st.dataCount + elm.stats.dataCount
      inodeCount := st.inodeCount + 1 + elm.stats.inodeCount }
  | .data => { st with leafCount := leafAdd (leafInc st.leafCount) elm.stats.leafCount }
  | .indirect =>
    { leafCount := leafAdd st.leafCount elm.stats.leafCount
      dataCount := st.dataCount + elm.stats.dataCount
      inodeCount := st.inodeCount + elm.stats.inodeCount }
  | .dirent => { st with leafCount := leafInc st.leafCount }
  | .freemapNode => st
  | .freemapLeaf => st

/-- The update of the parent's counters in `hammer2_base_delete`. -/
def BrefStats.delete (st : BrefStats) (scan : Bref) : BrefStats :=
  let st := { st with dataCount := st.dataCount - scan.bytes }
  match scan.type with
  | .inode =>
    { leafCount := leafDec st.leafCount
      dataCount := st.dataCount - scan.stats.dataCount
      inodeCount := st.inodeCount - 1 - scan.stats.inodeCount }
  | .data => { st with leafCount := leafSub (leafDec st.leafCount) scan.stats.leafCount }
  | .indirect =>
    { leafCount := leafSub st.leafCount scan.stats.leafCount
      dataCount := st.dataCount - scan.stats.dataCount
      inodeCount := st.inodeCount - scan.stats.inodeCount }
  | .dirent => { st with leafCount := leafDec st.leafCount }
  | .freemapNode => st
  | .freemapLeaf => st

/-- A parent chain as the `hammer2_base_*` functions see it: its blockref array, where a zeroed
entry is empty, `core.live_zero`, `cache_index` and the counters of its own blockref. -/
structure BrefArray where
  base : List (Option Bref)
  liveZero : Nat
  cacheIndex : Nat
  stats : BrefStats

namespace BrefArray

/-- `hammer2_chain_countbrefs` -/
def countbrefs (a : BrefArray) : BrefArray :=
  { a with liveZero := SlotList.stop a.base a.base.length }

/-- The backward search of `hammer2_base_find`. -/
def searchBackwards (base : List (Option Bref)) (keyBeg : Nat) : Nat → Nat
  | 0 => 0
  | i + 1 =>
    match SlotList.slot base (i + 1) with
    | none => searchBackwards base keyBeg i
    | some scan => if keyBeg < scan.key then searchBackwards base keyBeg i else i + 1

/-- The forward search of `hammer2_base_find`. -/
def searchForwards (base : List (Option Bref)) (limit keyBeg : Nat) : Nat → Nat → Option (Nat × Bref)
  | 0, _ => none
  | fuel + 1, i =>
    if i < base.length then
      match (SlotList.slot base i).filter fun scan => keyBeg < scan.key ∨ keyBeg ≤ scan.last with
      | some scan => some (i, scan)
      | none => if limit ≤ i then none else searchForwards base limit keyBeg fuel (i + 1)
    else none

/-- `hammer2_base_find`: the index, `cache_index` and `*key_nextp`. -/
def baseFind (a : BrefArray) (keyNext keyBeg : Nat) : Option (Nat × Nat × Nat) :=
  if a.base.length = 0 then some (a.base.length, a.cacheIndex, keyNext)
  else
    let i := if a.liveZero ≤ a.cacheIndex then a.liveZero - 1 else a.cacheIndex
    if i < a.base.length then
      let i := searchBackwards a.base keyBeg i
      match searchForwards a.base a.liveZero keyBeg (a.base.length + 1) i with
      | none => some (a.base.length, i, keyNext)
      | some (j, scan) =>
        if a.liveZero ≤ j then some (a.base.length, j, keyNext)
        else some (j, j,
          if scan.next ≠ 0 ∧ (scan.next < keyNext ∨ keyNext = 0) then scan.next else keyNext)
    else none

/-- `hammer2_base_delete` of the element that `chain` stands for, with the array's copy of it.
`blkmapupd` is `HAMMER2_CHAIN_BLKMAPUPD` of the chain. -/
def baseDelete (a : BrefArray) (elm : Bref) (blkmapupd : Bool) : Option (BrefArray × Bref) :=
  match baseFind a 0 elm.key with
  | none => none
  | some (i, cacheIndex, _) =>
    match SlotList.slot a.base i with
    | none => none
    | some scan =>
      if scan.key ≠ elm.key ∨ blkmapupd = false ∧ scan.keybits ≠ elm.keybits then none
      else
        let base := a.base.set i none
        some (⟨base, if a.liveZero = i + 1 then SlotList.stop base i else a.liveZero, cacheIndex,
          a.stats.delete scan⟩, scan)

/-- Where `hammer2_base_insert` finds an empty slot: before or after the place of the element. -/
inductive Hole where
  | before (j : Nat)
  | after (k : Nat)

/-- The search for the nearest empty slot, with `j` at `i - d` and `k` at `i + d` after `d` rounds. -/
def findHole (base : List (Option Bref)) (i : Nat) : Nat → Nat → Option Hole
  | 0, _ => none
  | fuel + 1, d =>
    if d < i ∨ i + d < base.length then
      if d + 1 ≤ i ∧ base[i - (d + 1)]? = some none then some (.before (i - (d + 1)))
      else if i + (d + 1) < base.length ∧ base[i + (d + 1)]? = some none then
        some (.after (i + (d + 1)))
      else findHole base i fuel (d + 1)
    else none

/-- The loops after `validate`, which panic if the elements are out of order. -/
def validate : Option Nat → List (Option Bref) → Bool
  | _, [] => true
  | keyNext, none :: base => validate keyNext base
  | none, some scan :: base => validate (some scan.last) base
  | some keyNext, some scan :: base => !decide (scan.key ≤ keyNext) && validate (some scan.last) base

/-- `hammer2_base_insert` -/
def baseInsert (a : BrefArray) (elm : Bref) : Option BrefArray :=
  match baseFind a 0 elm.key with
  | none => none
  | some (i, cacheIndex, _) =>
    let stats := a.stats.insert elm
    if i = a.base.length ∧ a.liveZero < a.base.length then
      some ⟨a.base.set a.liveZero (some elm), a.liveZero + 1, cacheIndex, stats⟩
    else if ((SlotList.slot a.base i).any fun scan => scan.key < elm.key ∨ scan.key ≤ elm.last) then
      none
    else
      match findHole a.base i (a.base.length + 1) 0 with
      | none => none
      | some (.before j) =>
        let base := SlotList.fillBefore a.base j i elm
        if validate none base then some ⟨base, a.liveZero, cacheIndex, stats⟩ else none
      | some (.after k) =>
        let base := SlotList.fillAfter a.base i k elm
        if validate none base then
          some ⟨base, if a.liveZero ≤ k then k + 1 else a.liveZero, cacheIndex, stats⟩
        else none

end BrefArray

end Hammer2
