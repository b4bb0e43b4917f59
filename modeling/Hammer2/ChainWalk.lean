import Hammer2.ChainFind
import Hammer2.TurnLoop

namespace Hammer2

open TurnLoop

/-- A chain as the parent of others: its blockref array, its in-memory chains, and the indirect
blocks among its elements by their keys, or its error when its data could not be loaded. -/
inductive ChainNode where
  | errored (error : Nat)
  | parent (array : BrefArray) (chains : List MemChain) (below : Nat → ChainNode)

/-- The inode or volume root at the top of a topology. `directdata` is `HAMMER2_OPFLAG_DIRECTDATA`
of an inode. -/
structure ChainTop where
  directdata : Bool
  node : ChainNode

/-- `HAMMER2_BREF_TYPE_INDIRECT` or `HAMMER2_BREF_TYPE_FREEMAP_NODE` -/
def Match.indirect (m : Match) : Bool := m.bref.type = .indirect ∨ m.bref.type = .freemapNode

/-- `HAMMER2_CHAIN_DELETED` of the chain. -/
def Match.deleted (m : Match) : Bool := m.chain.any MemChain.deleted

/-- Where `*parentp` is: the indirect blocks from there up to the top. -/
abbrev ParentPath := List (Match × ChainNode)

def ChainTop.parentAt (top : ChainTop) : ParentPath → ChainNode
  | [] => top.node
  | (_, node) :: _ => node

/-- `HAMMER2_LOOKUP_NODIRECT` and `HAMMER2_LOOKUP_MATCHIND` -/
structure LookupFlags where
  nodirect : Bool
  matchind : Bool

/-- The chain that a lookup returns: NULL, the parent itself, or an element. -/
inductive FoundChain where
  | null
  | parent
  | element (m : Match)
deriving DecidableEq

/-- What a lookup returns and leaves in `*errorp`, `*key_nextp` and `*parentp`. -/
structure LookupResult where
  found : FoundChain
  error : Nat
  keyNext : Nat
  path : ParentPath

structure LookupCursor where
  path : ParentPath
  keyBeg : Nat
  keyNext : Nat

/-- The first loop of `hammer2_chain_lookup`, up to a parent that encloses the range. -/
def enclosing (keyBeg keyEnd : Nat) : ParentPath → ParentPath
  | [] => []
  | (m, node) :: above =>
    if m.deleted = false ∧ m.bref.key ≤ keyBeg ∧ keyEnd ≤ m.bref.last then (m, node) :: above
    else enclosing keyBeg keyEnd above

/-- `HAMMER2_LOOKUP_MATCHIND` returns an indirect block whose range is the one looked up. -/
def matchesParent (flags : LookupFlags) (keyEnd : Nat) (c : LookupCursor) : Option LookupResult :=
  match c.path with
  | [] => none
  | (m, _) :: _ =>
    if flags.matchind ∧ c.keyBeg = m.bref.key ∧ keyEnd = m.bref.last then
      some ⟨.parent, 0, m.bref.next, c.path⟩
    else none

/-- The turn in which `hammer2_combined_find` found nothing: the next key is behind the parent. -/
def exhausted (keyEnd : Nat) (c : LookupCursor) : Turn LookupCursor LookupResult :=
  if c.keyBeg = keyEnd then .done ⟨.null, 0, c.keyNext, c.path⟩
  else
    match c.path with
    | [] => .done ⟨.null, 0, c.keyNext, c.path⟩
    | (m, _) :: above =>
      if m.bref.next = 0 ∨ keyEnd < m.bref.next then .done ⟨.null, 0, c.keyNext, c.path⟩
      else .again ⟨above, m.bref.next, c.keyNext⟩

/-- The rest of a turn, with what `hammer2_combined_find` found and the next key that it left. -/
def foundTurn (keyEnd : Nat) (below : Nat → ChainNode) (c : LookupCursor) :
    Option Match → Turn LookupCursor LookupResult
  | none => exhausted keyEnd c
  | some m =>
    if m.deleted then
      if c.keyNext = 0 ∨ keyEnd < c.keyNext then .done ⟨.null, 0, c.keyNext, c.path⟩
      else .again { c with keyBeg := c.keyNext }
    else if m.indirect then .again { c with path := (m, below m.bref.key) :: c.path }
    else .done ⟨.element m, 0, c.keyNext, c.path⟩

/-- A turn of the loop of `hammer2_chain_lookup` at the label `again`. Readers of other threads move
`cache_index` of the parent as they like. -/
def lookupTurn (top : ChainTop) (flags : LookupFlags) (keyEnd cacheIndex : Nat) (c : LookupCursor) :
    Option (Turn LookupCursor LookupResult) :=
  match matchesParent flags keyEnd c with
  | some r => some (.done r)
  | none =>
    match top.parentAt c.path with
    | .errored error => some (.done ⟨.null, error, c.keyNext, c.path⟩)
    | .parent array chains below =>
      if c.path.isEmpty ∧ top.directdata then
        some (.done ⟨if flags.nodirect then .null else .parent, 0,
          (keyEnd + 1) % 18446744073709551616, c.path⟩)
      else
        match combinedFind { array with cacheIndex := cacheIndex } chains c.keyBeg keyEnd with
        | none => none
        | some r => some (foundTurn keyEnd below { c with keyNext := r.keyNext } r.found)

/-- The turns before `hpanic("maxloops")`. -/
def maxLoops : Nat := 299999

/-- `hammer2_chain_lookup` -/
def chainLookup (top : ChainTop) (flags : LookupFlags) (cacheIndex : Nat → Nat) (path : ParentPath)
    (keyNext keyBeg keyEnd : Nat) : Option LookupResult :=
  run (lookupTurn top flags keyEnd) cacheIndex maxLoops
    ⟨enclosing keyBeg keyEnd path, keyBeg, keyNext⟩

/-- `hammer2_chain_next` -/
def chainNext (top : ChainTop) (flags : LookupFlags) (cacheIndex : Nat → Nat) (path : ParentPath)
    (chain : FoundChain) (keyNext keyEnd : Nat) : Option LookupResult :=
  match chain with
  | .parent => some ⟨.null, 0, keyNext, path⟩
  | .element m =>
    if m.bref.next = 0 ∨ keyEnd < m.bref.next then some ⟨.null, 0, keyNext, path⟩
    else chainLookup top flags cacheIndex path keyNext m.bref.next keyEnd
  | .null =>
    match path with
    | [] => some ⟨.null, 0, keyNext, path⟩
    | (m, _) :: above =>
      if m.bref.next = 0 ∨ keyEnd < m.bref.next then some ⟨.null, 0, keyNext, path⟩
      else chainLookup top flags cacheIndex above keyNext m.bref.next keyEnd

/-- The loop `while (chain)` around `hammer2_chain_next`, from the result of a first lookup: the
chains that it sees, and the error at the end. -/
def chainIterate (top : ChainTop) (flags : LookupFlags) (cacheIndex : Nat → Nat → Nat)
    (keyEnd : Nat) : Nat → LookupResult → Option (List FoundChain × Nat)
  | 0, _ => none
  | calls + 1, r =>
    if r.found = .null then some ([], r.error)
    else
      match chainNext top flags (cacheIndex calls) r.path r.found r.keyNext keyEnd with
      | none => none
      | some r' =>
        (chainIterate top flags cacheIndex keyEnd calls r').map fun l => (r.found :: l.1, l.2)

/-- A loop `while (chain)` over a range of keys. -/
def chainRange (top : ChainTop) (flags : LookupFlags) (cacheIndex : Nat → Nat → Nat)
    (path : ParentPath) (keyNext keyBeg keyEnd calls : Nat) : Option (List FoundChain × Nat) :=
  match chainLookup top flags (cacheIndex calls) path keyNext keyBeg keyEnd with
  | none => none
  | some r => chainIterate top flags cacheIndex keyEnd calls r

/-- The elements of the array that no chain overrides. -/
def unloadedElements (array : BrefArray) (chains : List MemChain) : List Bref :=
  (SlotList.elements array.base).filter fun e => chains.all fun c => c.bref.key ≠ e.key

/-- The elements of the merged view of an array and chains in the order of their keys. -/
def mergedView (array : BrefArray) (chains : List MemChain) : List Match :=
  (chains.map (fun c => Match.mk c.bref (some c)) ++
      (unloadedElements array chains).map fun e => Match.mk e none).mergeSort
    fun m m' => m.bref.key ≤ m'.bref.key

/-- What a topology holds below its indirect blocks: an element, or a range of keys that an error
hides. -/
inductive WalkItem where
  | element (m : Match)
  | fault (key last error : Nat)

namespace WalkItem

def key : WalkItem → Nat
  | element m => m.bref.key
  | fault key _ _ => key

def last : WalkItem → Nat
  | element m => m.bref.last
  | fault _ last _ => last

def Intersects (it : WalkItem) (keyBeg keyEnd : Nat) : Prop := keyBeg ≤ it.last ∧ it.key ≤ keyEnd

instance (it : WalkItem) (keyBeg keyEnd : Nat) : Decidable (it.Intersects keyBeg keyEnd) :=
  inferInstanceAs (Decidable (_ ∧ _))

/-- What a loop over the items sees: the elements before the first error, and that error. -/
def walked : List WalkItem → List FoundChain × Nat
  | [] => ([], 0)
  | element m :: items => (.element m :: (walked items).1, (walked items).2)
  | fault _ _ error :: _ => ([], error)

end WalkItem

namespace ChainNode

/-- What is below a parent that is for the keys from `lo` to `hi`. -/
def items : ChainNode → Nat → Nat → List WalkItem
  | errored error, lo, hi => [.fault lo hi error]
  | parent array chains below, _, _ => (mergedView array chains).flatMap fun m =>
    if m.deleted then []
    else if m.indirect then (below m.bref.key).items m.bref.key m.bref.last
    else [.element m]

/-- Every parent holds disjoint elements within its own range. -/
def WellNested : ChainNode → Nat → Nat → Prop
  | errored error, _, _ => error ≠ 0
  | parent array chains below, lo, hi =>
    MergeInv array chains ∧ ∀ m ∈ mergedView array chains, lo ≤ m.bref.key ∧ m.bref.last ≤ hi ∧
      (m.deleted = false → m.indirect = true →
        (below m.bref.key).WellNested m.bref.key m.bref.last)

/-- No indirect block ends right before `keyEnd`. -/
def ClearOf (keyEnd : Nat) : ChainNode → Prop
  | errored _ => True
  | parent array chains below => ∀ m ∈ mergedView array chains, m.deleted = false →
      m.indirect = true → keyEnd ≠ m.bref.last + 1 ∧ (below m.bref.key).ClearOf keyEnd

/-- The turns that a lookup of all keys takes when it returns nothing on its way: two for each
indirect block and one for each deleted element. -/
def turns : ChainNode → Nat
  | errored _ => 0
  | parent array chains below => ((mergedView array chains).map fun m =>
    if m.deleted then 1 else if m.indirect then (below m.bref.key).turns + 2 else 0).sum

end ChainNode

end Hammer2
