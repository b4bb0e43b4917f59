import Hammer2.FileWrite

/-! What `hammer2_assign_physical` hands to the writers of file data. -/

namespace Hammer2

open ByteImage

/-- A chain of file data of a mounted device that is not in emergency mode, where an allocation gives
storage. -/
structure ModifyEnv.Sound {δ : Type} (env : ModifyEnv δ) : Prop where
  emerg : env.emerg = false
  isRoot : env.isRoot = false
  alloc : ∀ off, env.freemapAlloc = .ok off → off / 64 ≠ 0
  fails : ∀ error, env.freemapAlloc = .error error → error ≠ 0

/-- Whenever the block of the chain is shared, a modification gives the chain another one. -/
structure ModChain.Copies {δ : Type} (chain : ModChain δ) : Prop where
  coded : chain.bref.methods / 16 ≠ 0
  dedupable : chain.flags.modified = true → chain.flags.dedupable = true

section

variable {δ : Type} {env : ModifyEnv δ} {chain : ModChain δ} {mtid dedupOff : Nat} {optdata : Bool}
  {r : Modified δ}

/-- The three ways in which a modification comes to its block: that of a dedup, a new one, or its
own. -/
inductive Settled (env : ModifyEnv δ) (chain : ModChain δ) (dedupOff : Nat) (chain' : ModChain δ) :
    Prop where
  | shared (dedup : dedupOff ≠ 0) (dataOff : chain'.bref.dataOff = dedupOff)
      (bytes : chain'.bytes = radixBytes (dedupOff % 64)) (dedupable : chain'.flags.dedupable = true)
      (modified : chain'.flags.modified = false)
  | fresh (dedup : dedupOff = 0) (storage : chain'.hasStorage = true)
      (bytes : chain'.bytes = chain.bytes) (modified : chain'.flags.modified = true)
  | kept (dedup : dedupOff = 0 ∨ ¬ chain.Copies) (had : chain.hasStorage = true)
      (dataOff : chain'.bref.dataOff = chain.bref.dataOff) (bytes : chain'.bytes = chain.bytes)
      (modified : chain'.flags.modified = true)

/-- A chain that copies shared blocks does so outside of emergency mode. -/
theorem ModChain.Copies.copyOnWrite (h : chain.Copies) (he : env.emerg = false) :
    copyOnWrite env chain = true := by
  unfold Hammer2.copyOnWrite
  cases hm : chain.flags.modified with
  | true =>
    rw [if_neg (by simp)]
    exact h.dedupable hm
  | false =>
    rw [if_pos rfl, if_neg fun hcon => h.coded hcon.2.2.2.1, he]
    simp

theorem Settled.storage {chain' : ModChain δ} (h : Settled env chain dedupOff chain')
    (hdedup : dedupOff = 0) : chain'.hasStorage = true := by
  cases h with
  | shared dedup => exact absurd hdedup dedup
  | fresh _ storage => exact storage
  | kept _ had dataOff =>
    unfold ModChain.hasStorage at had ⊢
    rwa [dataOff]

theorem Settled.own {chain' : ModChain δ} (h : Settled env chain dedupOff chain')
    (hdedup : dedupOff = 0) : chain'.bytes = chain.bytes ∧ chain'.flags.modified = true := by
  cases h with
  | shared dedup => exact absurd hdedup dedup
  | fresh _ _ bytes modified => exact ⟨bytes, modified⟩
  | kept _ _ _ bytes modified => exact ⟨bytes, modified⟩

end

/-- What `hammer2_assign_physical` runs with on a mounted device: where an allocation for a resize
succeeds there is storage, and the buffers are consistent with the handles that are out. -/
structure AssignEnv.Sound (env : AssignEnv Image) : Prop where
  modify : env.modify.Sound
  resize : env.resize.Sound
  resizeOff : env.resizeError = 0 → env.resizeOff / 64 ≠ 0
  table : ∀ i, (env.dedup.table i).Ok
  buffers : ∃ handles, IoInv env.dedup.io.cache handles ∧ ∀ p, handles.count p + 1 < 2 ^ 24

/-- What is needed of the chain that a write finds. -/
structure FoundOk (enable : Bool) (chain : ModChain Image) : Prop where
  bytes : chain.bytes ≠ 0
  copies : chain.bref.type = .data → enable = true → chain.Copies

section

variable {env : AssignEnv Image} {chain c : ModChain Image} {pblksize mtid dedupOff : Nat}
  {found : Option (ModChain Image × Bool)} {a : Assigned Image}

end

end Hammer2
