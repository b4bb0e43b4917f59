import Hammer2.SyncFlush

set_option linter.unusedSectionVars false

namespace Hammer2

open CowTree

/-- The chains below a chain as `RB_SCAN` meets them: a child with the chains below it, and the
children after it. -/
inductive Forest (ι : Type) where
  | nil
  | cons (c : ι) (kids rest : Forest ι)

/-- How `hammer2_chain_modify` comes out: an allocation that fails leaves nothing behind, while an
error of the I/O for the new block comes when the flags are set. -/
inductive ModifyOutcome where
  | done
  | noSpace
  | ioError

/-- What does not change about the chains: `HAMMER2_BREF_TYPE_INODE`, `HAMMER2_CHAIN_PFSBOUNDARY`,
`chain->pmp->mp`, `HAMMER2_BREF_FLAG_PFSROOT`, and `HAMMER2_DIRHASH_VISIBLE` in the key. -/
structure ChainKinds (ι : Type) where
  vchain : ι
  inode : ι → Bool
  pfsBoundary : ι → Bool
  mounted : ι → Bool
  pfsRoot : ι → Bool
  visible : ι → Bool
  inode_of_boundary : ∀ c, pfsBoundary c = true → inode c = true

/-- The flags of a flush, and how its modifications of parents come out, counted from its start. -/
structure FlushCall (ι : Type) where
  all : Bool
  inodeStop : Bool
  fssync : Bool
  outcome : Nat → ι → ModifyOutcome

/-- The chains in memory: their blocks with `MODIFIED` and `UPDATE`, and `chain->parent`, `ONFLUSH`,
`DESTROY` and `chain->error`. -/
structure ChainState (ι α : Type) where
  tree : Tree ι α
  parent : ι → Option ι
  onflush : ι → Bool
  destroy : ι → Bool
  chainError : ι → Bool

/-- `hammer2_flush_info_t`. The parent and the depth are arguments here. -/
structure FlushInfo (ι α : Type) extends ChainState ι α where
  error : Bool
  calls : Nat

variable {ι α : Type} [DecidableEq ι]

/-- `HAMMER2_CHAIN_FLUSH_MASK` -/
def ChainState.flagged (s : ChainState ι α) (c : ι) : Bool :=
  (s.tree.node c).modified || (s.tree.node c).update || s.onflush c || s.destroy c

def ChainState.clearOnflush (c : ι) (s : ChainState ι α) : ChainState ι α :=
  { s with onflush := Function.update s.onflush c false }

def ChainState.clearUpdate (c : ι) (s : ChainState ι α) : ChainState ι α :=
  { s with tree := s.tree.set c { s.tree.node c with update := false } }

/-- `DESTROY` goes down from the parent. -/
def ChainState.inheritDestroy (parent : Option ι) (c : ι) (s : ChainState ι α) : ChainState ι α :=
  if parent.any s.destroy then { s with destroy := Function.update s.destroy c true } else s

section

variable (kinds : ChainKinds ι)

/-- `hammer2_chain_setflush` for the first chain of a list that goes on with its parents. -/
def ChainState.setFlush : List ι → ChainState ι α → ChainState ι α
  | [], s => s
  | c :: above, s =>
    if s.onflush c then s
    else
      let s := { s with onflush := Function.update s.onflush c true }
      if kinds.inode c then s else ChainState.setFlush above s

/-- `hammer2_chain_modify` of a chain with the parents `above`, and whether it fails. The volume
root has no block of its own to allocate or to read. -/
def ChainState.modify (outcome : ModifyOutcome) (c : ι) (above : List ι) (s : ChainState ι α) :
    ChainState ι α × Bool :=
  let touched := ChainState.setFlush kinds above { s with tree := touch kinds.vchain c s.tree }
  let done := { touched with chainError := Function.update s.chainError c false }
  if c = kinds.vchain then (touched, false)
  else
    match outcome with
    | .done => (done, false)
    | .noSpace => if (s.tree.node c).modified then (done, false) else (s, true)
    | .ioError => ({ touched with chainError := Function.update s.chainError c true }, true)

variable (call : FlushCall ι)

def FlushCall.stopsAtPfs (top : Bool) (c : ι) : Bool :=
  kinds.pfsBoundary c && !call.all && !top && kinds.mounted c

def FlushCall.stopsAtInode (top : Bool) (c : ι) : Bool :=
  kinds.inode c && call.inodeStop && !call.all && !top && kinds.mounted c

/-- The block table above an inode changes in a sync of the filesystem only. -/
def FlushCall.keepsParent (c : ι) : Bool :=
  kinds.inode c && call.inodeStop && !call.fssync && !call.all && kinds.mounted c

/-- Outside of a sync the root inode of a PFS hides its inode index. -/
def FlushCall.hides (p c : ι) : Bool :=
  kinds.pfsRoot p && kinds.inode p && !call.fssync && !kinds.visible c

/-- The part of `hammer2_flush_core` that disposes of `MODIFIED`. -/
def flushModified (c : ι) (path : List ι) (s : ChainState ι α) : ChainState ι α :=
  let s := s.inheritDestroy path.head? c
  { s with tree := writeBack kinds.vchain c s.tree }

/-- The part of `hammer2_flush_core` that disposes of `UPDATE`. A parent that cannot be modified
leaves it set. -/
def flushUpdate (c : ι) (path : List ι) (r : FlushInfo ι α) : FlushInfo ι α :=
  match path with
  | [] => { r with toChainState := r.clearUpdate c }
  | p :: above =>
    if call.keepsParent kinds c then r
    else if (r.tree.node c).update then
      if r.destroy p then { r with toChainState := r.clearUpdate c }
      else
        let (s, failed) := r.modify kinds (call.outcome r.calls p) p above
        if failed then ⟨s, true, r.calls + 1⟩
        else ⟨{ s with tree := link (fun _ => p) c s.tree }, r.error, r.calls + 1⟩
    else r

/-- The bottom-up part of `hammer2_flush_core`, for a chain with the parents `path`. -/
def flushBottom (c : ι) (path : List ι) (r : FlushInfo ι α) : FlushInfo ι α :=
  if path.head?.any r.chainError || r.chainError c then { r with error := true }
  else
    flushUpdate kinds call c path
      { r with toChainState := flushModified kinds c path r.toChainState }

/-- One `RB_SCAN` over the children of `c`, with `ONFLUSH` cleared before it. -/
def flushPass (c : ι) (scanKids : FlushInfo ι α → FlushInfo ι α) (r : FlushInfo ι α) :
    FlushInfo ι α :=
  scanKids { r with toChainState := r.clearOnflush c }

/-- The downward part of `hammer2_flush_core`, with the second pass over the children. -/
def flushDown (c : ι) (path : List ι) (scanKids : FlushInfo ι α → FlushInfo ι α)
    (r : FlushInfo ι α) : FlushInfo ι α :=
  let r' := flushPass c scanKids { r with error := false }
  let r' := if r'.onflush c then flushPass c scanKids r' else r'
  let r' := if r'.error then { r' with toChainState := r'.setFlush kinds (c :: path) } else r'
  { r' with error := r'.error || r.error }

/-- `hammer2_flush_core` -/
def flushCore (top : Bool) (c : ι) (path : List ι) (scanKids : FlushInfo ι α → FlushInfo ι α)
    (r : FlushInfo ι α) : FlushInfo ι α :=
  if r.flagged c = false then r
  else if call.stopsAtPfs kinds top c then
    if r.onflush c || r.destroy c || (r.tree.node c).modified then
      { r with toChainState := r.setFlush kinds path }
    else r
  else if call.stopsAtInode kinds top c then r
  else
    flushBottom kinds call c path
      (if r.onflush c || r.destroy c then flushDown kinds c path scanKids r else r)

/-- `hammer2_flush_recurse` for the child `c` of `p` -/
def flushRecurse (p : ι) (above : List ι) (c : ι) (scanKids : FlushInfo ι α → FlushInfo ι α)
    (r : FlushInfo ι α) : FlushInfo ι α :=
  let r :=
    if r.chainError c then { r with error := true }
    else
      let r := { r with toChainState := r.inheritDestroy (some p) c }
      if call.hides kinds p c && !r.destroy c then
        if r.flagged c then { r with toChainState := r.setFlush kinds (p :: above) } else r
      else if r.flagged c then flushCore kinds call false c (p :: above) scanKids r
      else r
  if r.chainError p then { r with error := true } else r

/-- The scan over the children of `p`. -/
def flushScan : Forest ι → ι → List ι → FlushInfo ι α → FlushInfo ι α
  | .nil, _, _, r => r
  | .cons c kids rest, p, above, r =>
    flushScan rest p above
      (flushRecurse kinds call p above c (flushScan kids c (p :: above)) r)

/-- `hammer2_flush` of the chain `c` with the parents `path` and the chains `kids` below it. -/
def ChainState.flush (c : ι) (path : List ι) (kids : Forest ι) (s : ChainState ι α) :
    FlushInfo ι α :=
  flushCore kinds call true c path (flushScan kinds call kids c path) ⟨s, false, 0⟩

end

end Hammer2
