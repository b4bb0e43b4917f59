import Hammer2.ChainCheck
import Hammer2.CompressBlock
import Hammer2.DedupContent

/-! The write path of `hammer2_strategy.c` from `hammer2_write_file_core` on. -/

namespace Hammer2

open ByteImage ByteBuffer

def compAutozero : Nat := 1

/-- `HAMMER2_ENC_COMP(comp) + HAMMER2_ENC_CHECK(check)` -/
def encMethods (comp check : Nat) : Nat := comp % 16 + check % 16 * 16

/-- The check area of a blockref with `n` bits at its start replaced. -/
def setCode (check : BitVec 512) {n : Nat} (code : BitVec n) : BitVec 512 :=
  check >>> n <<< n ||| code.setWidth 512

/-- The check area after `hammer2_chain_setcheck`; `none` is the panic about an unknown method. -/
def chainSetcheck (methods : BitVec 8) (bytes : Nat) (bdata : Image) (check : BitVec 512) :
    Option (BitVec 512) :=
  match decCheck methods with
  | some .none => some check
  | some .disabled => some check
  | some .iscsi32 => some (setCode check (icrc32 (slice bdata 0 bytes)))
  | some .xxhash64 => some (setCode check (xxh64 (slice bdata 0 bytes) xxhHammer2Seed))
  | some .sha192 =>
    let ctx := sha256Update sha256Init (slice bdata 0 bytes)
    some (setCode check (foldDigest (sha256Final ctx)))
  | some .freemap => some (setCode check (icrc32 (slice bdata 0 bytes)))
  | none => none

/-- A chain with the check area of its blockref. -/
structure StoredBlock where
  chain : ModChain Image
  check : BitVec 512

/-- What a write of a block runs with: what `hammer2_assign_physical` and a later
`hammer2_chain_modify_ip` find, the errors of `hammer2_io_newnz` and `hammer2_chain_delete`, the check
area of the blockref, the algorithms of the inode, and what the compression runs with. -/
structure WriteEnv where
  assign : AssignEnv Image
  again : ModifyEnv Image
  newnzError : Nat
  deleteError : Nat
  check : BitVec 512
  compAlgo : Nat
  checkAlgo : Nat
  heuristic : Nat
  always : Bool
  ctx : Bool
  wbuf : Image

def WriteEnv.compress (env : WriteEnv) : CompressEnv :=
  ⟨env.compAlgo % 16, env.heuristic, env.always, env.ctx, env.wbuf⟩

/-- What `hammer2_assign_physical` finds with `*datap` pointing to `bdata`. -/
def WriteEnv.assignFor (env : WriteEnv) (bdata : Image) : AssignEnv Image :=
  { env.assign with dedup := { env.assign.dedup with data := bdata } }

/-- What a write leaves behind: the chain at `lbase`, the blocks of the device, and `*errorp`. -/
structure Written where
  block : Option StoredBlock
  media : Nat → Image
  error : Nat

/-- `hammer2_dedup_record` marks the chains that it records, those with a check code. -/
def dedupRecords (enable : Bool) (methods : Nat) : Bool :=
  enable && (methods / 16 = 2 || methods / 16 = 3 || methods / 16 = 4)

/-- `HAMMER2_OPFLAG_DIRECTDATA` in `meta.op_flags`. -/
def directData (ipdata : Image) : Bool := (ipdata 0x51).getLsbD 0

/-- The offset of `u.data` in the data of an inode. -/
def inodeDataOff : Nat := 512

section

variable (env : WriteEnv) (chain : ModChain Image) (data : Image) (mtid : Nat)

/-- The methods and the check code of a data chain whose block holds `bdata`. -/
def WriteEnv.describe (comp : Nat) (bdata : Image) : Option StoredBlock :=
  let methods := encMethods comp env.checkAlgo
  (chainSetcheck (BitVec.ofNat 8 methods) chain.bytes bdata env.check).map fun check =>
    ⟨{ chain with
        bref := { chain.bref with methods := methods }
        flags := { chain.flags with initial := false, nottested := false } }, check⟩

/-- A data chain that got a block with its data. -/
def WriteEnv.shareData (comp : Nat) : Option Written :=
  (env.describe chain comp data).map fun b => ⟨some b, env.assign.modify.media, 0⟩

/-- The case of `HAMMER2_BREF_TYPE_DATA` of a write: `n` bytes go into the buffer of the block, where
the data pointer of the chain, if it has one, points already. -/
def WriteEnv.storeData (comp n : Nat) : Option Written :=
  let media := env.assign.modify.media
  if env.newnzError ≠ 0 then some ⟨some ⟨chain, env.check⟩, media, env.newnzError⟩
  else
    let off := chain.bref.dataOff
    let bdata := splice (media off) data 0 0 n
    let chain := { chain with data := chain.data.map fun _ => bdata }
    (env.describe chain comp bdata).map fun b =>
      let dedupable := b.chain.flags.dedupable ||
        dedupRecords env.assign.dedup.env.enable b.chain.bref.methods
      ⟨some { b with chain := { b.chain with flags := { b.chain.flags with dedupable := dedupable } } },
        Function.update media off bdata, 0⟩

/-- The data go into the inode. `none` is a NULL data pointer or a failed assertion. -/
def WriteEnv.embedData (media : Nat → Image) : Option Written :=
  chain.data.bind fun ipdata =>
    if directData ipdata then
      let ipdata := splice ipdata data 0 inodeDataOff embeddedBytes
      some ⟨some ⟨{ chain with data := some ipdata }, env.check⟩,
        Function.update media chain.bref.dataOff ipdata, 0⟩
    else none

/-- `hammer2_write_bp` -/
def WriteEnv.writeBp : Option Written :=
  if chain.flags.modified = false then none
  else
    match chain.bref.type with
    | .inode => env.embedData chain data env.assign.modify.media
    | .data => env.storeData chain data compNone chain.bytes
    | _ => none

/-- `hammer2_chain_modify_ip` before the data go into the inode. -/
def WriteEnv.modifyEmbed : Option Written :=
  (ModChain.modify env.again chain mtid 0 false).bind fun r =>
    if r.error ≠ 0 then some ⟨some ⟨r.chain, env.check⟩, r.media, r.error⟩
    else env.embedData r.chain data r.media

end

section

variable (env : WriteEnv) (data : Image) (pblksize mtid : Nat)
  (found : Option (ModChain Image × Bool))

/-- `zero_write` with the chain that its lookup found. The error of the deletion is lost. -/
def WriteEnv.zeroWrite : Option Written :=
  let error := env.assign.lookupError
  match found with
  | none => some ⟨none, env.again.media, error⟩
  | some (chain, _) =>
    if chain.bref.type = .inode then
      if error ≠ 0 then some ⟨some ⟨chain, env.check⟩, env.again.media, error⟩
      else env.modifyEmbed chain (fun _ => 0) mtid
    else
      some ⟨if env.deleteError = 0 then none else some ⟨chain, env.check⟩, env.again.media, error⟩

/-- The chain that `hammer2_assign_physical` gives for the data, and whether a block with the data was
found for it, unless there is an error. -/
def WriteEnv.assignThen (size : Nat) (write : ModChain Image → Bool → Option Written) : Option Written :=
  (assignPhysical (env.assignFor data) size mtid found).bind fun a =>
    if a.error ≠ 0 then
      some ⟨a.chain.map fun chain => ⟨chain, env.check⟩, env.assign.modify.media, a.error⟩
    else a.chain.bind fun chain => write chain a.dedup

/-- The case of `HAMMER2_COMP_NONE` in `hammer2_write_file_core`. -/
def WriteEnv.writeUncompressed : Option Written :=
  env.assignThen data mtid found pblksize fun chain dedup =>
    if chain.bref.type = .inode then env.embedData chain data env.assign.modify.media
    else if dedup then env.shareData chain data compNone
    else env.writeBp chain data

/-- `hammer2_zero_check_and_write` -/
def WriteEnv.zeroCheckAndWrite : Option Written :=
  if env.checkAlgo ≠ 0 ∧ testBlockZeros data pblksize then env.zeroWrite mtid found
  else
    env.assignThen data mtid found pblksize fun chain dedup =>
      if dedup then env.shareData chain data compNone else env.writeBp chain data

/-- `hammer2_compress_and_write` -/
def WriteEnv.compressAndWrite : Option Written :=
  if ¬ pblksize / 2 ≤ 32768 then none
  else if env.checkAlgo ≠ 0 ∧ testBlockZeros data pblksize then env.zeroWrite mtid found
  else
    (compressBlock env.compress data pblksize).bind fun c =>
      let comp := if c.compSize = 0 then compNone else env.compAlgo
      let bdata := if c.compSize = 0 then data else c.buffer
      env.assignThen bdata mtid found c.compBlockSize fun chain dedup =>
        if chain.bref.type = .inode then env.modifyEmbed chain data mtid
        else if dedup then env.shareData chain bdata comp
        else if chain.flags.modified = false then none
        else if chain.bref.type = .data then env.storeData chain bdata comp c.compBlockSize
        else none

/-- `hammer2_write_file_core` -/
def WriteEnv.writeFileCore : Option Written :=
  if env.compAlgo % 16 = compNone then env.writeUncompressed data pblksize mtid found
  else if env.compAlgo % 16 = compAutozero then env.zeroCheckAndWrite data pblksize mtid found
  else env.compressAndWrite data pblksize mtid found

end

/-- A blockref as `hammer2_chain_testcheck` reads it. -/
def StoredBlock.fields (b : StoredBlock) (bref : ChainBref) : FsckBref :=
  ⟨0, BitVec.ofNat 8 bref.methods, BitVec.ofNat 64 bref.dataOff, b.check, 0⟩

/-- The test of a block against its blockref. -/
def StoredBlock.testcheck (b : StoredBlock) (bref : ChainBref) (bdata : Image) : Bool :=
  chainTestcheck ⟨b.fields bref, b.chain.bytes, b.chain.flags.nottested⟩ bdata = some true

/-- What a lookup with the load of the data finds in a chain, if the device can be read. -/
def StoredBlock.load (b : StoredBlock) (media : Nat → Image) : Option (ModChain Image) :=
  chainLoadData ⟨media, fun _ => false, fun _ => 0, b.testcheck, false, none, 0, false, .ok 0⟩ b.chain

/-- A chain as `hammer2_xop_strategy_read` takes it. -/
def fileChain (chain : ModChain Image) : FileChain where
  type :=
    match chain.bref.type with
    | .inode => .inode
    | .indirect => .indirect
    | .dirent => .dirent
    | .freemapNode => .freemapNode
    | .freemapLeaf => .freemapLeaf
    | _ => .data
  comp := chain.bref.methods % 16
  bytes := chain.bytes
  data := chain.data.map fun img =>
    if chain.bref.type = .inode then fun i => img (i + inodeDataOff) else img
  error := chain.error

/-- `hammer2_xop_strategy_read` of a block as it is on a device that can be read. -/
def readBlock (pfsType : ClusterPfsType) (rbuf : Image) (key : UInt64) (block : Option StoredBlock)
    (media : Nat → Image) (bp : LogicalBuf) (buf : Image) : Option ReadBuf :=
  match block with
  | none => xopStrategyRead pfsType (portDecoders (lz4Safe rbuf)) key (.missing 0) bp buf
  | some b => (b.load media).bind fun chain =>
      xopStrategyRead pfsType (portDecoders (lz4Safe rbuf)) key (.found (fileChain chain)) bp buf

end Hammer2
