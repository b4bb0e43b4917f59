import Hammer2.FileWriteStored
import Hammer2.Run

/-! Blocks of a file through writes, flushes and reloads, against the files of `Truncate`. -/

namespace Hammer2

open ByteImage

/-- A block of a file: the chain at its offset, the blocks of the device, and the file as it is meant
to be. `known` says that the block stands for what the file has, and `failed` that a write of it
failed, after which its chain can be modified without a block that is its own. -/
structure BlockSys where
  block : Option StoredBlock
  media : Nat → Image
  file : FileState
  known : Bool
  failed : Bool

/-- All-zeros writes make holes. -/
def WriteEnv.zeroCheck (env : WriteEnv) : Bool := env.compAlgo % 16 ≠ compNone ∧ env.checkAlgo ≠ 0

/-- The write of block `b` of a file. -/
def BlockSys.write (b : Nat) (s : BlockSys) (env : WriteEnv) (data : Image) (mtid : Nat)
    (deleted : Bool) : Option Written :=
  env.writeFileCore data (calcPhysical s.file.size (b * 65536)) mtid (foundChain deleted s.block)

/-- A hole in a file. -/
structure BlockSys.Fresh (b : Nat) (s : BlockSys) : Prop where
  block : s.block = none
  failed : s.failed = false
  zeros : ∀ i, s.file.readBlock b i = 0

/-- The block of a system stands for what the file has. -/
def BlockSys.Holds (enable : Bool) (b : Nat) (s : BlockSys) : Prop :=
  match s.block with
  | none => ∀ i, s.file.readBlock b i = 0
  | some c => c.Stored enable s.media (s.file.readBlock b)

structure BlockSys.Inv (enable : Bool) (b : Nat) (s : BlockSys) : Prop where
  found : s.failed = false → ∀ c, s.block = some c → FoundOk enable c.chain
  good : s.known = true → s.failed = false
  holds : s.known = true → s.Holds enable b

section

variable {enable : Bool} {b : Nat} {s s' : BlockSys} {c c' : StoredBlock}
  {media media' : Nat → Image} {content : Image}

theorem StoredBlock.Coded.congr {bdata bdata' : Image} (h : c.Coded bdata)
    (hmethods : c'.chain.bref.methods = c.chain.bref.methods) (hcheck : c'.check = c.check)
    (hbytes : c'.chain.bytes = c.chain.bytes) (hsame : ∀ i < c.chain.bytes, bdata' i = bdata i) :
    c'.Coded bdata' := by
  unfold StoredBlock.Coded at h ⊢
  rw [← chainTestcheck_congr hsame] at h
  unfold chainTestcheck StoredBlock.fields at h ⊢
  rw [hmethods, hcheck, hbytes]
  exact h

theorem StoredBlock.Holds.type (h : c.Holds (media c.chain.bref.dataOff) content) :
    c.chain.bref.type = .data ∨ c.chain.bref.type = .inode := by
  cases h with
  | plain type => exact Or.inl type
  | stream type => exact Or.inl type
  | embedded type => exact Or.inr type

theorem BlockSys.Holds.found (h : s.Holds enable b) (hc : s.block = some c) :
    FoundOk enable c.chain := by
  unfold BlockSys.Holds at h
  rw [hc] at h
  exact h.found

theorem BlockSys.Fresh.inv (h : s.Fresh b) : s.Inv enable b := by
  refine ⟨fun _ c hc => ?_, fun _ => h.failed, fun _ => ?_⟩
  · rw [h.block] at hc
    cases hc
  · unfold BlockSys.Holds
    rw [h.block]
    exact h.zeros

theorem BlockSys.Holds.read (h : s.Holds enable b) {pfsType : ClusterPfsType}
    (hp : pfsType = .master ∨ pfsType = .suproot) (rbuf : Image) (key : UInt64) {bp : LogicalBuf}
    (hbuf : bp.bufsize = pbufSize) (hcount : pbufSize ≤ bp.bcount) (hlt : bp.bcount < 2 ^ 63)
    (buf : Image) :
    ∃ r, readBlock pfsType rbuf key s.block s.media bp buf = some r ∧ r.failed = false ∧
      HoldsContent bp r.buf (s.file.readBlock b) := by
  unfold BlockSys.Holds at h
  cases hblock : s.block with
  | none =>
    rw [hblock] at h
    exact readBlock_hole hp h buf
  | some c =>
    rw [hblock] at h
    exact readBlock_holds hp h.ready h.holds hbuf hcount hlt buf

end

end Hammer2
