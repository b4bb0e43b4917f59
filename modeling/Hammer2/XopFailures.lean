import Hammer2.XopBackends

namespace Hammer2

open Backend

/-- A run of a backend, by how its steps come out. -/
inductive XopRun where
  | ipcluster (r : Option ReadChain)
  | readdir (r : Option ReaddirLookup)
  | nresolve (r : Option Nresolve)
  | unlink (q : UnlinkRequest) (r : Option Unlink)
  | nrename (r : Nrename)
  | scanlhc (r : Option ChainScan)
  | lookup (r : Option KeyLookup)
  | delete (r : Option (KeyLookup × Nat))
  | scanall (r : Option ChainScan)
  | inodeMkdirent (r : Option Create)
  | inodeCreate (r : Option Create)
  | inodeCreateDet (r : Option Create)
  | inodeCreateIns (r : Option Insert)
  | inodeDestroy (r : Option (Bool × Bool))
  | inodeUnlinkall (r : Option ChainScan)
  | inodeConnect (r : Option Connect)
  | inodeChainSync (r : Option ChainSync)
  | bmap (r : Option KeyLookup)

/-- The front end collects until it gets something other than 0. -/
def XopRun.stream : XopRun → Bool
  | .readdir _ | .scanlhc _ | .scanall _ | .inodeUnlinkall _ => true
  | _ => false

/-- The result of the call of `hammer2_xop_collect` with which the front end is done. -/
def Terminal (stream : Bool) (xop : XopCollector Unit) (result : Nat) : Prop :=
  ∃ n, (∃ chain, xop.collectNth n = some (chain, result)) ∧
    if stream then result ≠ 0 ∧ ∀ m < n, ∃ chain, xop.collectNth m = some (chain, 0) else n = 0

/-- The errors of an iteration. -/
def ChainScan.failures (s : ChainScan) : List IoError :=
  s.chains.filterMap (·.error) ++ s.error.toList

/-- The entries whose names could not be seen count when the name is not found behind them. -/
def NameLookup.failures : NameLookup → List IoError
  | .entry chain _ => chain.error.toList
  | .missing passed error => passed.filterMap id ++ error.toList
  | .fault => [.eio]

def checkdiremptyFailures (dirent : Bool) (c : EmptyCheck) : List IoError :=
  if dirent ∧ c.inode.error ≠ none then c.inode.error.toList
  else if dirent ∧ c.inode.chain.isNone then []
  else match c.content with
    | .found _ => []
    | .missing error => error.toList

def nresolveFailures (r : Nresolve) : List IoError :=
  r.name.failures ++ match r.name with
    | .entry ⟨_, none⟩ true => r.inode.error.toList
    | _ => []

/-- The errors of the steps before the inode is looked up. -/
def unlinkEntryFailures (q : UnlinkRequest) (r : Unlink) (chain : ReadChain) (dirent : Bool) :
    List IoError :=
  if chain.error ≠ none then chain.error.toList
  else if r.directory ∧ ¬q.doforce ∧ q.isdir ≠ 0 then checkdiremptyFailures dirent r.empty
  else []

def unlinkFailures (q : UnlinkRequest) (r : Unlink) : List IoError :=
  match r.name with
  | .entry chain dirent => unlinkEntryFailures q r chain dirent ++
      if dirent ∧ ¬q.ignino then r.inode.error.toList else []
  | name => name.failures

def renameToFailures (t : RenameTarget) (parent : Bool) : List IoError :=
  if (if parent then t.delete else errnoEINVAL) ≠ 0 then []
  else if ¬t.directory then [.eio]
  else if t.adjust ≠ 0 then []
  else if t.testFault then [.eio]
  else if t.matching ≠ none then t.matching.toList
  else t.position.error.toList

def renameFromFailures (s : RenameSource) (t : RenameTarget) : List IoError :=
  let moved := fun (chain : ReadChain) (parent : Bool) =>
    if chain.error ≠ none then chain.error.toList else renameToFailures t parent
  match s with
  | .visible none _ _ => [.eio]
  | .visible (some chain) creating parent =>
    if ¬creating ∧ ¬parent then [.eio] else moved chain ¬creating
  | .named none => [.eio]
  | .named (some (.entry chain _)) => moved chain true
  | .named (some name) => name.failures

def nrenameFailures (r : Nrename) : List IoError :=
  match r.replaced with
  | none => renameFromFailures r.source r.target
  | some none => [.eio]
  | some (some ip) =>
    if ip.chain.error = some .eio then [.eio]
    else if ip.directory ∧ checkdirempty false ⟨.missing none, ip.content⟩ ≠ 0 then
      checkdiremptyFailures false ⟨.missing none, ip.content⟩
    else renameFromFailures r.source r.target

/-- The errors with which the inode chains of a run cannot be obtained and its lookups fail. -/
def XopRun.failures : XopRun → List IoError
  | .ipcluster none | .readdir none | .nresolve none | .unlink _ none | .scanlhc none
  | .lookup none | .delete none | .scanall none | .inodeMkdirent none | .inodeCreate none
  | .inodeCreateDet none | .inodeCreateIns none | .inodeDestroy none | .inodeUnlinkall none
  | .inodeConnect none | .inodeChainSync none | .bmap none => [.eio]
  | .ipcluster (some chain) => chain.error.toList
  | .readdir (some (.exact scan)) => scan.failures
  | .readdir (some (.from error scan)) => error.toList ++ scan.failures
  | .nresolve (some r) => nresolveFailures r
  | .unlink q (some r) => unlinkFailures q r
  | .nrename r => nrenameFailures r
  | .scanlhc (some s) | .scanall (some s) | .inodeUnlinkall (some s) => s.failures
  | .lookup (some l) | .delete (some (l, _)) | .bmap (some l) => l.error.toList
  | .inodeMkdirent (some r) | .inodeCreate (some r) | .inodeCreateDet (some r) =>
    if r.lookup.chain.isSome then [] else r.lookup.error.toList
  | .inodeCreateIns (some r) =>
    if r.lookup.chain.isSome then []
    else r.lookup.error.toList ++ if r.chain.isNone then [.eio] else []
  | .inodeDestroy (some (creating, parent)) => if ¬creating ∧ ¬parent then [.eio] else []
  | .inodeConnect (some r) =>
    if r.lookup.chain.isSome then []
    else if r.lookup.error ≠ none then r.lookup.error.toList
    else if ¬r.chain then [.eio] else []
  | .inodeChainSync (some r) =>
    if r.parentError ≠ none then r.parentError.toList
    else match r.truncation with
      | none => []
      | some t =>
        if t.embedded then [] else t.error.toList ++ if t.reset ∧ ¬t.again then [.eio] else []

/-- The front end ends with one of the errors `fs`. -/
def Reports (pfsType : ClusterPfsType) (stream : Bool) (b : Backend) (fs : List IoError) : Prop :=
  ∃ xop result, b (xopAlloc pfsType) = some xop ∧ Terminal stream xop result ∧
    result ∈ fs.map IoError.code

/-- The search for a name ends with an entry or with an error. -/
def NameLookup.Reportable : NameLookup → Prop
  | .entry _ _ => True
  | .missing _ error => error ≠ none
  | .fault => False

/-- The entry is one that `hammer2_xop_unlink` goes on to delete. -/
def Backend.Unlink.Deletes (q : UnlinkRequest) (r : Unlink) (dirent : Bool) : Prop :=
  if r.directory then q.doforce ∨ q.isdir ≠ 0 ∧ checkdirempty dirent r.empty = 0 else q.isdir < 1

def unlinkReportable (q : UnlinkRequest) (r : Unlink) : Prop :=
  match r.name with
  | .entry chain dirent => unlinkEntryFailures q r chain dirent ≠ [] ∨
      r.Deletes q dirent ∧
        (r.delete = 0 ∧ r.inode.chain.isSome ∨ r.delete = errorCode r.inode.error)
  | name => name.Reportable

def renameToReportable (t : RenameTarget) : Prop :=
  ¬t.directory ∨ ¬t.testFault ∧ t.matching ≠ none

def renameFromReportable (s : RenameSource) (t : RenameTarget) : Prop :=
  match s with
  | .visible none _ _ => True
  | .visible (some chain) creating parent =>
    (¬creating ∧ ¬parent) ∨ chain.error ≠ none ∨ renameToReportable t
  | .named none => True
  | .named (some (.entry chain _)) => chain.error ≠ none ∨ renameToReportable t
  | .named (some name) => name.Reportable

def nrenameReportable (r : Nrename) : Prop :=
  match r.replaced with
  | none => renameFromReportable r.source r.target
  | some none => True
  | some (some ip) => ip.chain.error ≠ some .eio ∧
      (ip.directory ∧ checkdirempty false ⟨.missing none, ip.content⟩ ≠ 0 ∨
        renameFromReportable r.source r.target)

/-- The failures of the run are among those that the backend passes on. -/
def XopRun.Reportable : XopRun → Prop
  | .readdir none | .lookup none | .delete none | .scanall none | .inodeUnlinkall none => False
  | .readdir (some l) => l.scan.failures ≠ [] ∧ l.scan.chains.length < 2 ^ 30
  | .nresolve (some r) => r.name.Reportable
  | .unlink q (some r) => unlinkReportable q r
  | .nrename r => nrenameReportable r
  | .scanlhc (some s) | .scanall (some s) | .inodeUnlinkall (some s) => s.chains.length < 2 ^ 30
  | .delete (some (l, deleted)) => l.chain.isSome → deleted = errorCode l.error
  | .inodeMkdirent (some _) | .inodeCreate (some _) => False
  | .inodeCreateDet (some r) => r.error = errorCode r.lookup.error
  | .inodeCreateIns (some r) => r.chain.isNone
  | .inodeConnect (some r) => r.lookup.error ≠ none
  | .inodeChainSync (some r) =>
    r.parentError ≠ none ∨ ∀ t, r.truncation = some t → t.reset → t.again
  | _ => True

section

variable {pfsType : ClusterPfsType} {fs : List IoError} {chain : Option ReadChain} {error : Nat}

end

/-! The iterations, as streams of chains and a terminal result. -/

section

variable {pfsType : ClusterPfsType} {fs : List IoError}

def ChainScan.stream (s : ChainScan) : XopStream Unit where
  chains := s.chains.map ReadChain.fed
  increasing := List.pairwise_map.mpr s.increasing

variable {s : ChainScan} {n : Nat}

/-- The number of chains before the first one with an error. -/
def ChainScan.clean (s : ChainScan) : Nat := s.chains.findIdx fun c => c.error.isSome

end

/-! The backends of a single result. -/

section

variable {pfsType : ClusterPfsType} {fs : List IoError} {o : Option IoError}

section

variable {q : UnlinkRequest} {r : Unlink} {chain : ReadChain} {dirent : Bool}

end

/-! The renames. -/

/-- The error that a rename ends with is passed on as one of `fs`. -/
def Ends (error : Option Nat) (fs : List IoError) : Prop :=
  ∃ e, error = some e ∧ XopCollector.terminalResult e ∈ fs.map IoError.code

end

end Hammer2
