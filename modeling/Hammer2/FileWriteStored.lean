import Hammer2.FileWriteAssign
import Hammer2.FileWriteRead

/-! A write that reports no error leaves a block that reads as what was written. -/

namespace Hammer2

open ByteImage ByteBuffer

/-- The bytes that a write puts into a block of `n` bytes stand for the content. -/
def Encoded (content bdata : Image) (comp n : Nat) : Prop :=
  comp % 16 = compNone ∧ (∀ i, padZero bdata n i = content i) ∨
    comp % 16 = compLZ4 ∧ ∃ data pblksize size, HoldsStream data bdata pblksize size ∧
      size + 4 ≤ n ∧ pblksize ≤ pbufSize ∧ ∀ i, padZero data pblksize i = content i

/-- The check code is that of the bytes. -/
def StoredBlock.Coded (b : StoredBlock) (bdata : Image) : Prop :=
  chainTestcheck ⟨b.fields b.chain.bref, b.chain.bytes, false⟩ bdata = some true

/-- A block that a read can take, on a chain that the next write can take. -/
structure StoredBlock.Stored (b : StoredBlock) (enable : Bool) (media : Nat → Image)
    (content : Image) : Prop where
  ready : b.Ready media
  coded : b.chain.bref.type = .data → b.Coded (media b.chain.bref.dataOff)
  holds : b.Holds (media b.chain.bref.dataOff) content
  found : FoundOk enable b.chain

/-- What is left at `lbase` stands for the content. -/
def Written.Stores (w : Written) (enable : Bool) (content : Image) : Prop :=
  match w.block with
  | none => ∀ i, content i = 0
  | some b => b.Stored enable w.media content

/-- What writes on a mounted device run with: the blocks are what its buffers show, deletions succeed,
and blocks are shared only between files with check codes. -/
structure WriteEnv.Sound (env : WriteEnv) : Prop where
  assign : env.assign.Sound
  again : env.again.Sound
  shown : ∀ off i, env.assign.modify.media off i = env.assign.dedup.io.cache.view (ioLbase off + i)
  delete : env.deleteError = 0
  coded : env.assign.dedup.env.enable = true → dedupRecords true (encMethods 0 env.checkAlgo) = true

section

variable {env : WriteEnv} {chain : ModChain Image} {data bdata content : Image} {comp n : Nat}

theorem StoredBlock.Coded.testcheck {b : StoredBlock} (h : b.Coded bdata) :
    b.testcheck b.chain.bref bdata = true := by
  apply decide_eq_true
  cases hn : b.chain.flags.nottested with
  | true => rfl
  | false => exact h

theorem Encoded.congr {bdata' : Image} (h : Encoded content bdata comp n)
    (hbuf : ∀ i < n, bdata' i = bdata i) : Encoded content bdata' comp n := by
  rcases h with ⟨hnone, hsame⟩ | ⟨hlz4, data, pblksize, size, hstream, hfits, hle, hsame⟩
  · refine Or.inl ⟨hnone, fun i => ?_⟩
    rw [← hsame i]
    unfold padZero
    split
    next hi => exact hbuf i hi
    next => rfl
  · exact Or.inr ⟨hlz4, data, pblksize, size, hstream.congr fun i hi => hbuf i (by omega), hfits,
      hle, hsame⟩

theorem Encoded.holds {b : StoredBlock} (h : Encoded content bdata comp n)
    (htype : b.chain.bref.type = .data) (hcomp : b.chain.bref.methods % 16 = comp % 16)
    (hbytes : b.chain.bytes = n) (hn : n ≤ pbufSize) : b.Holds bdata content := by
  rcases h with ⟨hnone, hsame⟩ | ⟨hlz4, data, pblksize, size, hstream, hfits, hle, hsame⟩
  · exact .plain htype (hcomp.trans hnone) (hbytes.trans_le hn) (by rwa [hbytes])
  · exact .stream htype (hcomp.trans hlz4) hstream (by rwa [hbytes]) (hbytes.trans_le hn) hle hsame

end

section

variable {env : WriteEnv} {data content : Image} {pblksize mtid size : Nat} {deleted : Bool}
  {block : Option StoredBlock} {w : Written}

/-- What the lookup of a write finds. -/
def foundChain (deleted : Bool) (block : Option StoredBlock) : Option (ModChain Image × Bool) :=
  block.map fun b => (b.chain, deleted)

theorem WriteEnv.Sound.assignFor (hs : env.Sound) (bdata : Image) : (env.assignFor bdata).Sound :=
  ⟨hs.assign.modify, hs.assign.resize, hs.assign.resizeOff, hs.assign.table, hs.assign.buffers⟩

end

end Hammer2
