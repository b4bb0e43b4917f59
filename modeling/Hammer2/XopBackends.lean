import Hammer2.PfsNames
import Hammer2.RenameCycle
import Hammer2.SuperRoot
import Hammer2.XopFifo

/-! `hammer2_xops.c`: what each backend feeds, by how its steps come out. -/

namespace Hammer2

def errorENOTEMPTY : Nat := 0x80

def errorEISDIR : Nat := 0x400

/-- The errors with which a lookup fails. -/
inductive IoError where
  | eio
  | check
deriving DecidableEq

def IoError.code : IoError → Nat
  | .eio => errorEIO
  | .check => errorCheck

/-- The error code of a step that may fail. -/
def errorCode : Option IoError → Nat
  | none => 0
  | some e => e.code

/-- A chain as a lookup returns it. -/
structure ReadChain where
  key : UInt64
  error : Option IoError

def ReadChain.fed (chain : ReadChain) : XopChain Unit := ⟨chain.key, errorCode chain.error, ()⟩

/-- `hammer2_chain_lookup` of one key, or `hammer2_chain_inode_find`: the chain, or NULL with the
error that kept the search from reaching it. -/
inductive KeyLookup where
  | found (chain : ReadChain)
  | missing (error : Option IoError)

def KeyLookup.chain : KeyLookup → Option ReadChain
  | .found chain => some chain
  | .missing _ => none

def KeyLookup.error : KeyLookup → Option IoError
  | .found chain => chain.error
  | .missing error => error

/-- The chains of an iteration and the error with which it stops. Behind the last key of all it ends
without a further lookup. -/
structure ChainScan where
  chains : List ReadChain
  increasing : chains.Pairwise fun c c' => c.key < c'.key
  error : Option IoError
  error_none : ∀ c ∈ chains, c.key = xopKeyMax → error = none

/-- The search for a name among the chains of its hash: the entry with that name, which is a
`DIRENT` or else the inode, or none behind entries with the errors `passed`.
`hammer2_chain_dirent_test` faults on a chain whose data could not be read. -/
inductive NameLookup where
  | entry (chain : ReadChain) (dirent : Bool)
  | missing (passed : List (Option IoError)) (error : Option IoError)
  | fault

/-- The steps of `checkdirempty`: for a `DIRENT` the search for the inode, and the lookup of its
first entry. -/
structure EmptyCheck where
  inode : KeyLookup
  content : KeyLookup

/-- `checkdirempty` that finds its chains where they were; otherwise its caller starts over. -/
def checkdirempty (dirent : Bool) (c : EmptyCheck) : Nat :=
  if dirent ∧ c.inode.error ≠ none then errorCode c.inode.error
  else if dirent ∧ c.inode.chain.isNone then 0
  else match c.content with
    | .found _ => errorENOTEMPTY
    | .missing error => errorCode error

/-- What a backend does to the collector; `none` is a failed assertion or a fault. -/
abbrev Backend := XopCollector Unit → Option (XopCollector Unit)

namespace Backend

def feedLast (chain : Option ReadChain) (error : Nat) : Backend := fun xop =>
  (xop.feed (chain.map ReadChain.fed) error).map (·.1)

/-- The loop over an iteration, with the error that it leaves. -/
def feedScan : List ReadChain → Option IoError → XopCollector Unit →
    Option (XopCollector Unit × Nat)
  | [], stop, xop => some (xop, errorCode stop)
  | chain :: chains, stop, xop =>
    (xop.feed (some chain.fed) 0).bind fun (xop, error) =>
      if error ≠ 0 then some (xop, error) else feedScan chains stop xop

def feedAll (s : ChainScan) : Backend := fun xop =>
  (feedScan s.chains s.error xop).bind fun (xop, error) => feedLast none error xop

/-- `hammer2_xop_ipcluster` -/
def ipcluster : Option ReadChain → Backend
  | none => feedLast none errorEIO
  | some chain => feedLast (some chain) (errorCode chain.error)

/-- The lookups of `hammer2_xop_readdir`: one of the exact key, and one of all keys from there on if
that has found nothing. -/
inductive ReaddirLookup where
  | exact (scan : ChainScan)
  | from (error : Option IoError) (scan : ChainScan)

def ReaddirLookup.scan : ReaddirLookup → ChainScan
  | .exact scan => scan
  | .from _ scan => scan

/-- `hammer2_xop_readdir`; the error is still 0 when there is no chain. -/
def readdir : Option ReaddirLookup → Backend
  | none => feedLast none 0
  | some l => feedAll l.scan

/-- The steps of `hammer2_xop_nresolve` behind the inode chain. -/
structure Nresolve where
  name : NameLookup
  inode : KeyLookup

/-- `hammer2_xop_nresolve` -/
def nresolve : Option Nresolve → Backend
  | none => feedLast none errorEIO
  | some r => match r.name with
    | .fault => fun _ => none
    | .missing _ error => feedLast none (errorCode error)
    | .entry chain dirent =>
      if chain.error = none then
        if dirent then feedLast r.inode.chain (errorCode r.inode.error) else feedLast (some chain) 0
      else feedLast (some chain) (errorCode chain.error)

/-- What the XOP of an unlink asks for: `isdir`, and the flags `H2DOPERM_FORCE` and
`H2DOPERM_IGNINO` of `dopermanent`. -/
structure UnlinkRequest where
  isdir : Int
  doforce : Bool
  ignino : Bool

/-- The steps of `hammer2_xop_unlink` behind the inode chain, the last time that it runs through
them. `directory` is the type of the entry, `delete` the result of `hammer2_chain_delete`. -/
structure Unlink where
  name : NameLookup
  directory : Bool
  empty : EmptyCheck
  delete : Nat
  inode : KeyLookup

/-- The error of `hammer2_xop_unlink` before it looks the inode up. -/
def unlinkError (q : UnlinkRequest) (r : Unlink) (chain : ReadChain) (dirent : Bool) : Nat :=
  if chain.error ≠ none then errorCode chain.error
  else if r.directory ∧ q.doforce then r.delete
  else if r.directory ∧ q.isdir = 0 then errorEISDIR
  else if r.directory ∧ checkdirempty dirent r.empty ≠ 0 then checkdirempty dirent r.empty
  else if ¬r.directory ∧ 1 ≤ q.isdir then errorENOTDIR
  else if r.delete = 0 then errorCode chain.error
  else r.delete

/-- `hammer2_xop_unlink`; the error of the lookup of the inode is dropped. -/
def unlink (q : UnlinkRequest) : Option Unlink → Backend
  | none => feedLast none errorEIO
  | some r => match r.name with
    | .fault => fun _ => none
    | .missing _ error => feedLast none (errorCode error)
    | .entry chain dirent =>
      if dirent ∧ ¬q.ignino then feedLast r.inode.chain (unlinkError q r chain dirent)
      else feedLast (some chain) (unlinkError q r chain dirent)

/-- The inode that a rename replaces: its chain, its type, and the lookup of its first entry. -/
structure Replaced where
  chain : ReadChain
  directory : Bool
  content : KeyLookup

/-- Where `hammer2_xop_nrename` finds the entry: at the inode of the file, with its parent unless it
is being created, or by its name in the directory. -/
inductive RenameSource where
  | visible (chain : Option ReadChain) (creating parent : Bool)
  | named (name : Option NameLookup)

/-- The steps from the deletion of the old entry on: the results of `hammer2_chain_delete` and of
the changes to the chain, whether the directory has a chain, the loop over the entries that match the
new name, the lookup for the position, and the result of `hammer2_chain_create`. -/
structure RenameTarget where
  delete : Nat
  adjust : Nat
  directory : Bool
  testFault : Bool
  matching : Option IoError
  position : KeyLookup
  create : Nat

structure Nrename where
  replaced : Option (Option Replaced)
  source : RenameSource
  target : RenameTarget

/-- `hammer2_xop_nrename` from the lookup for the position on. `hammer2_chain_create` asserts that
the lookup has not ended at a parent with an error. -/
def renameCreate (t : RenameTarget) : Option Nat :=
  match t.position with
  | .missing none => some t.create
  | _ => none

/-- `hammer2_xop_nrename` from the deletion on, with or without a parent to delete from. The
`EINVAL` of `errno.h` is fed as it is. -/
def renameTo (t : RenameTarget) (parent : Bool) : Option Nat :=
  let error := if parent then t.delete else errnoEINVAL
  if error ≠ 0 then some error
  else if ¬t.directory then some errorEIO
  else if t.adjust ≠ 0 then some t.adjust
  else if t.testFault then none
  else if t.matching ≠ none then some (errorCode t.matching)
  else renameCreate t

/-- `hammer2_xop_nrename` from the search for the entry on. -/
def renameFrom (s : RenameSource) (t : RenameTarget) : Option Nat :=
  let moved := fun (chain : ReadChain) (parent : Bool) =>
    if chain.error ≠ none then some (errorCode chain.error) else renameTo t parent
  match s with
  | .visible none _ _ => some errorEIO
  | .visible (some chain) creating parent =>
    if ¬creating ∧ ¬parent then some errorEIO else moved chain ¬creating
  | .named none => some errorEIO
  | .named (some .fault) => none
  | .named (some (.missing _ error)) =>
    some (if error = none then errorENOENT else errorCode error)
  | .named (some (.entry chain _)) => moved chain true

/-- The error that `hammer2_xop_nrename` ends with. The type of the inode to replace is in its
data, which a chain with an I/O error does not have. -/
def nrenameError (r : Nrename) : Option Nat :=
  match r.replaced with
  | none => renameFrom r.source r.target
  | some none => some errorEIO
  | some (some ip) =>
    if ip.chain.error = some .eio then none
    else if ip.directory ∧ checkdirempty false ⟨.missing none, ip.content⟩ ≠ 0 then
      some (checkdirempty false ⟨.missing none, ip.content⟩)
    else renameFrom r.source r.target

/-- `hammer2_xop_nrename` -/
def nrename (r : Nrename) : Backend := fun xop =>
  (nrenameError r).bind fun error => feedLast none error xop

/-- `hammer2_xop_scanlhc` -/
def scanlhc : Option ChainScan → Backend
  | none => feedLast none errorEIO
  | some s => feedAll s

/-- The error of a lookup for a chain that should be there. -/
def lookupError (l : KeyLookup) : Nat :=
  match l with
  | .found chain => errorCode chain.error
  | .missing error => if error = none then errorENOENT else errorCode error

/-- `hammer2_xop_lookup`, which feeds nothing when there is no inode chain. -/
def lookup : Option KeyLookup → Backend
  | none => some
  | some l => feedLast l.chain (lookupError l)

/-- `hammer2_xop_delete`, with the result of `hammer2_chain_delete`. -/
def delete : Option (KeyLookup × Nat) → Backend
  | none => some
  | some (l, deleted) => feedLast none (if l.chain.isSome then deleted else lookupError l)

/-- `hammer2_xop_scanall` -/
def scanall : Option ChainScan → Backend
  | none => feedLast none 0
  | some s => feedAll s

/-- The steps of the backends that make a chain: the lookup of its key, the results of
`hammer2_chain_create`, with the key of the chain it makes, and of `hammer2_chain_modify`. -/
structure Create where
  lookup : KeyLookup
  create : Nat
  created : Option UInt64
  modify : Nat

def Create.error (r : Create) : Nat := if r.create = 0 then r.modify else r.create

/-- A chain that has just been made has no error. -/
def Create.chain (r : Create) : Option ReadChain := r.created.map fun key => ⟨key, none⟩

/-- `hammer2_xop_inode_mkdirent` and `hammer2_xop_inode_create`; `hammer2_chain_create` asserts that
the parent has no error. -/
def createUnder : Option Create → Backend
  | none => feedLast none errorEIO
  | some r => match r.lookup with
    | .found chain => feedLast (some chain) errorEEXIST
    | .missing none => feedLast r.chain r.error
    | .missing (some _) => fun _ => none

def inodeMkdirent : Option Create → Backend := createUnder

def inodeCreate : Option Create → Backend := createUnder

/-- `hammer2_xop_inode_create_det`, which makes a chain without a parent. -/
def inodeCreateDet : Option Create → Backend
  | none => feedLast none errorEIO
  | some r => match r.lookup with
    | .found chain => feedLast (some chain) errorEEXIST
    | .missing _ => feedLast r.chain r.error

/-- The steps of `hammer2_xop_inode_create_ins`: the lookup of the key, the chain of the inode and
the result of `hammer2_chain_create`. -/
structure Insert where
  lookup : KeyLookup
  chain : Option ReadChain
  create : Nat

/-- `hammer2_xop_inode_create_ins` -/
def inodeCreateIns : Option Insert → Backend
  | none => feedLast none errorEIO
  | some r => match r.lookup, r.chain with
    | .found chain, _ => feedLast (some chain) errorEEXIST
    | .missing _, none => feedLast none errorEIO
    | .missing none, some chain => feedLast (some chain) r.create
    | .missing (some _), some _ => fun _ => none

/-- `hammer2_xop_inode_destroy`: whether the inode is being created and whether its chain has a
parent. -/
def inodeDestroy : Option (Bool × Bool) → Backend
  | none => feedLast none errorEIO
  | some (creating, parent) => feedLast none (if ¬creating ∧ ¬parent then errorEIO else 0)

/-- The loop of `hammer2_xop_inode_unlinkall`. -/
def feedEach : List ReadChain → Backend
  | [], xop => some xop
  | chain :: chains, xop =>
    (xop.feed (some chain.fed) (errorCode chain.error)).bind fun (xop, _) => feedEach chains xop

/-- `hammer2_xop_inode_unlinkall` -/
def inodeUnlinkall : Option ChainScan → Backend
  | none => feedLast none errorENOENT
  | some s => fun xop =>
    (feedEach s.chains xop).bind fun xop =>
      feedLast none (if errorCode s.error = 0 then errorENOENT else errorCode s.error) xop

/-- The steps of `hammer2_xop_inode_connect`: the lookup of the key, whether the second inode has a
chain, and the results of `hammer2_chain_modify` and `hammer2_chain_create`. -/
structure Connect where
  lookup : KeyLookup
  chain : Bool
  modify : Nat
  create : Nat

/-- `hammer2_xop_inode_connect`; it modifies the chain of the second inode without a look at it. -/
def inodeConnect : Option Connect → Backend
  | none => feedLast none errorEIO
  | some r => match r.lookup with
    | .found _ => feedLast none errorEEXIST
    | .missing (some e) => feedLast none e.code
    | .missing none =>
      if ¬r.chain then fun _ => none
      else feedLast none (if r.modify = 0 then r.create else r.modify)

/-- The deletion of the blocks behind the end of a file: whether a chain is met that is none of a
file, the error that stops it, and whether the parent must be and can be found again. -/
structure Truncation where
  embedded : Bool
  error : Option IoError
  reset : Bool
  again : Bool

structure ChainSync where
  parentError : Option IoError
  truncation : Option Truncation
  modify : Nat

/-- `hammer2_xop_inode_chain_sync` -/
def inodeChainSync : Option ChainSync → Backend
  | none => feedLast none errorEIO
  | some r =>
    if r.parentError ≠ none then feedLast none (errorCode r.parentError)
    else match r.truncation with
      | none => feedLast none r.modify
      | some t =>
        if t.embedded ∨ (t.reset ∧ ¬t.again) then fun _ => none
        else feedLast none (if t.error = none then r.modify else errorCode t.error)

/-- `hammer2_xop_bmap` -/
def bmap : Option KeyLookup → Backend
  | none => feedLast none errorEIO
  | some l => feedLast l.chain (lookupError l)

end Backend

end Hammer2
