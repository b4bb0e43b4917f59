import Mathlib.Tactic

namespace Hammer2

/-- `HAMMER2_BREF_TYPE_*` of a chain. -/
inductive ChainType where
  | inode
  | indirect
  | data
  | dirent
  | freemapNode
  | freemapLeaf
  | freemap
  | volume
deriving DecidableEq

/-- `HAMMER2_ERROR_*`. -/
def chainErrorEio : Nat := 0x01
def chainErrorCheck : Nat := 0x02
def chainErrorEnospc : Nat := 0x20

/-- The flags of a chain that `hammer2_chain_modify` and the data load look at. -/
structure ChainFlags where
  modified : Bool := false
  dedupable : Bool := false
  initial : Bool := false
  update : Bool := false
  nottested : Bool := false
  testedgood : Bool := false
  blkmapped : Bool := false
  blkmapupd : Bool := false
deriving DecidableEq

/-- The fields of the blockref that they look at. -/
structure ChainBref where
  type : ChainType
  methods : Nat
  dataOff : Nat
  modifyTid : Nat
  mirrorTid : Nat
  emergMip : Bool
deriving DecidableEq

/-- A `hammer2_chain`; `data` is what `chain->data` points to. -/
structure ModChain (δ : Type) where
  flags : ChainFlags
  bref : ChainBref
  bytes : Nat
  data : Option δ
  error : Nat
deriving DecidableEq

/-- `bref.data_off & ~HAMMER2_OFF_MASK_RADIX` is not zero. -/
def ModChain.hasStorage {δ : Type} (chain : ModChain δ) : Bool := chain.bref.dataOff / 64 ≠ 0

/-- What a call finds around the chain: the blocks of the device and those that cannot be read, the
check of a block against its blockref, `HMNT2_EMERG`, `pmp->iroot->meta.pfs_lsnap_tid` if there is a
`pmp`, the next `mirror_tid`, and the answer of `hammer2_freemap_alloc`. -/
structure ModifyEnv (δ : Type) where
  media : Nat → δ
  ioError : Nat → Bool
  zero : δ
  testcheck : ChainBref → δ → Bool
  emerg : Bool
  lsnapTid : Option Nat
  nextTid : Nat
  isRoot : Bool
  freemapAlloc : Except Nat Nat

section Modify

variable {δ : Type} (env : ModifyEnv δ) (chain : ModChain δ)

/-- `hammer2_chain_load_data`; `none` is a panic. -/
def chainLoadData : Option (ModChain δ) :=
  if chain.data.isSome ∨ chain.hasStorage = false then some chain
  else if env.ioError chain.bref.dataOff then some { chain with error := chainErrorEio }
  else if chain.bref.type = .volume ∨ chain.bref.type = .freemap then none
  else
    let buf := if chain.flags.initial then env.zero else env.media chain.bref.dataOff
    let chain := { chain with error := 0, data := some buf }
    if chain.flags.initial then
      some { chain with flags := { chain.flags with initial := false, nottested := true } }
    else if chain.flags.modified || chain.flags.testedgood then some chain
    else if env.testcheck chain.bref buf then
      some { chain with flags := { chain.flags with testedgood := true } }
    else some { chain with error := chainErrorCheck }

/-- The data has to be there before the modification. -/
def needsLoad (optdata : Bool) : Bool :=
  chain.data.isNone && chain.bytes ≠ 0 && !optdata && chain.hasStorage

/-- The chain belongs to a PFS that has not been snapshotted since it was modified. -/
def afterSnapshot : Bool :=
  match env.lsnapTid with
  | none => false
  | some tid => tid < chain.bref.modifyTid

/-- `newmod`: the block must not be overwritten in place. -/
def copyOnWrite : Bool :=
  if chain.flags.modified = false then
    if (chain.bref.type = .data ∨ chain.bref.type = .dirent) ∧ chain.flags.initial = false ∧
        chain.flags.dedupable = false ∧ chain.bref.methods / 16 = 0 ∧ afterSnapshot env chain then
      false
    else if env.emerg ∧ afterSnapshot env chain then false
    else true
  else chain.flags.dedupable

/-- How a call ended. -/
inductive ModifyEnd where
  | loadFailed
  | allocFailed
  | done
deriving DecidableEq

/-- The return value and what the call leaves behind. -/
structure Modified (δ : Type) where
  how : ModifyEnd
  error : Nat
  chain : ModChain δ
  media : Nat → δ

/-- The end of a modification: a buffer for the block, with the old data if there is any. -/
def modifyBuffer (dedupOff : Nat) (wasinitial : Bool) : Option (Modified δ) :=
  if env.ioError chain.bref.dataOff then
    some ⟨.done, chainErrorEio, { chain with error := chainErrorEio, data := none }, env.media⟩
  else
    let off := chain.bref.dataOff
    let bdata := if wasinitial && dedupOff = 0 then env.zero else env.media off
    if dedupOff = 0 then
      match chain.data with
      | some old =>
        some ⟨.done, 0, { chain with error := 0, data := some old }, Function.update env.media off old⟩
      | none =>
        if wasinitial then
          some ⟨.done, 0, { chain with error := 0, data := some bdata },
            Function.update env.media off bdata⟩
        else none
    else some ⟨.done, 0, { chain with error := 0, data := some bdata }, env.media⟩

/-- `hammer2_chain_modify` once the storage is settled. -/
def modifyFinish (mtid dedupOff : Nat) (optdata : Bool) : Option (Modified δ) :=
  let chain := { chain with
    bref := { chain.bref with
      mirrorTid := env.nextTid
      modifyTid := if mtid = 0 then chain.bref.modifyTid else mtid }
    flags := { chain.flags with
      blkmapupd := chain.flags.blkmapupd || chain.flags.blkmapped } }
  if chain.bref.type = .data ∧ optdata ∧ chain.data = none ∧ dedupOff = 0 then
    some ⟨.done, chain.error, chain, env.media⟩
  else
    let wasinitial := chain.flags.initial
    let chain := { chain with flags := { chain.flags with initial := false } }
    match chain.bref.type with
    | .volume => some ⟨.done, chain.error, chain, env.media⟩
    | .freemap => some ⟨.done, chain.error, chain, env.media⟩
    | .dirent =>
      if chain.bytes = 0 then some ⟨.done, chain.error, chain, env.media⟩
      else modifyBuffer env chain dedupOff wasinitial
    | _ => modifyBuffer env chain dedupOff wasinitial

/-- The chain after the flags are set that the modification needs. -/
def markModified : ModChain δ :=
  { chain with flags := { chain.flags with modified := true, update := true } }

/-- The storage is reassigned. -/
def needsStorage : Bool :=
  !env.isRoot && chain.bytes ≠ 0 && (!chain.hasStorage || copyOnWrite env chain)

/-- A dedup hit: the chain gets the other block and is not modified itself. -/
def assignDedup (dedupOff : Nat) : ModChain δ :=
  { chain with
    bref := { chain.bref with dataOff := dedupOff }
    bytes := if dedupOff % 64 = 0 then 0 else 2 ^ (dedupOff % 64)
    error := 0
    flags := { chain.flags with modified := false, dedupable := true } }

def clearDedupable : ModChain δ := { chain with flags := { chain.flags with dedupable := false } }

/-- `chain` with the flags `modified` and `update` as they were in `chain₀`. -/
def restoreFlags (chain₀ : ModChain δ) : ModChain δ :=
  { chain with flags := { chain.flags with
    modified := chain₀.flags.modified
    update := chain₀.flags.update } }

/-- `hammer2_chain_modify`; `none` is a panic or a failed assertion. -/
def ModChain.modify (mtid dedupOff : Nat) (optdata : Bool) : Option (Modified δ) :=
  if (chain.bref.type = .freemapNode ∨ chain.bref.type = .freemapLeaf) ∧
      chain.flags.initial = false ∧ optdata then
    none
  else
    (if needsLoad chain optdata then chainLoadData env chain else some chain).bind fun chain₀ =>
      if needsLoad chain optdata ∧ chain₀.error ≠ 0 then
        some ⟨.loadFailed, chain₀.error, chain₀, env.media⟩
      else
        let chain := markModified chain₀
        if needsStorage env chain₀ then
          if dedupOff ≠ 0 then modifyFinish env (assignDedup chain dedupOff) mtid dedupOff optdata
          else
            let chain := clearDedupable chain
            match env.freemapAlloc with
            | .ok dataOff =>
              modifyFinish env
                { chain with bref := { chain.bref with dataOff := dataOff, emergMip := false } }
                mtid dedupOff optdata
            | .error error =>
              if env.emerg then
                modifyFinish env { chain with bref := { chain.bref with emergMip := true } }
                  mtid dedupOff optdata
              else some ⟨.allocFailed, error, restoreFlags chain chain₀, env.media⟩
        else modifyFinish env chain mtid dedupOff optdata

end Modify

section AllocFailed

variable {δ : Type} {env : ModifyEnv δ} {chain : ModChain δ} {mtid dedupOff : Nat} {optdata : Bool}
  {r : Modified δ}

theorem modifyBuffer_how {wasinitial : Bool} (h : modifyBuffer env chain dedupOff wasinitial = some r) :
    r.how = .done := by
  unfold modifyBuffer at h
  dsimp only at h
  split at h
  next => cases h; rfl
  next =>
    split at h
    next =>
      split at h
      next => cases h; rfl
      next =>
        split at h
        next => cases h; rfl
        next => cases h
    next => cases h; rfl

theorem modifyFinish_how (h : modifyFinish env chain mtid dedupOff optdata = some r) :
    r.how = .done := by
  unfold modifyFinish at h
  dsimp only at h
  split at h
  next => cases h; rfl
  next =>
    split at h
    next => cases h; rfl
    next => cases h; rfl
    next =>
      split at h
      next => cases h; rfl
      next => exact modifyBuffer_how h
    next => exact modifyBuffer_how h

theorem restoreFlags_clearDedupable (chain : ModChain δ) :
    restoreFlags (clearDedupable (markModified chain)) chain = clearDedupable chain := rfl

theorem clearDedupable_eq_iff : clearDedupable chain = chain ↔ chain.flags.dedupable = false := by
  constructor
  · intro h
    rw [← h]
    rfl
  · intro h
    unfold clearDedupable
    rw [← h]

theorem chainLoadData_data {chain' : ModChain δ} (hload : needsLoad chain optdata = true)
    (h : chainLoadData env chain = some chain') (herror : chain'.error = 0) :
    chain'.data.isSome = true := by
  unfold needsLoad at hload
  simp only [Bool.and_eq_true, Option.isNone_iff_eq_none] at hload
  obtain ⟨⟨⟨hdata, -⟩, -⟩, hstorage⟩ := hload
  unfold chainLoadData at h
  rw [if_neg (by simp [hdata, hstorage])] at h
  split at h
  next =>
    cases h
    cases herror
  next =>
    split at h
    next => cases h
    next =>
      dsimp only at h
      split at h
      next => cases h; rfl
      next =>
        split at h
        next => cases h; rfl
        next =>
          split at h
          next => cases h; rfl
          next => cases h; rfl

/-- What a failed allocation leaves behind: the chain with its data loaded and `DEDUPABLE` cleared. -/
theorem modChainModify_allocFailed (h : ModChain.modify env chain mtid dedupOff optdata = some r)
    (hfail : r.how = .allocFailed) :
    r.media = env.media ∧ ∃ chain₀, r.chain = clearDedupable chain₀ ∧
      if needsLoad chain optdata then
        chainLoadData env chain = some chain₀ ∧ chain₀.data.isSome = true
      else chain₀ = chain := by
  unfold ModChain.modify at h
  obtain ⟨-, h⟩ := Option.ite_none_left_eq_some.mp h
  obtain ⟨chain₀, hchain₀, h⟩ := Option.bind_eq_some_iff.mp h
  dsimp only at h
  split at h
  next =>
    cases h
    cases hfail
  next hloaded =>
    split at h
    next =>
      split at h
      next =>
        rw [modifyFinish_how h] at hfail
        cases hfail
      next =>
        split at h
        next =>
          rw [modifyFinish_how h] at hfail
          cases hfail
        next error halloc =>
          split at h
          next =>
            rw [modifyFinish_how h] at hfail
            cases hfail
          next =>
            cases h
            refine ⟨rfl, chain₀, restoreFlags_clearDedupable chain₀, ?_⟩
            split at hchain₀
            next hload =>
              rw [if_pos hload]
              refine ⟨hchain₀, chainLoadData_data hload hchain₀ ?_⟩
              by_contra hne
              exact hloaded ⟨hload, hne⟩
            next hload =>
              rw [if_neg hload]
              exact (Option.some.inj hchain₀).symm
    next =>
      rw [modifyFinish_how h] at hfail
      cases hfail

end AllocFailed

/-- A failed allocation leaves the chain as it was exactly if it was not recorded as dedupable and its
data did not have to be loaded first. -/
theorem modChainModify_untouched_iff {δ : Type} (env : ModifyEnv δ) (chain : ModChain δ)
    (mtid dedupOff : Nat) (optdata : Bool) {r : Modified δ}
    (h : ModChain.modify env chain mtid dedupOff optdata = some r) (hfail : r.how = .allocFailed) :
    r.chain = chain ↔ chain.flags.dedupable = false ∧ needsLoad chain optdata = false := by
  obtain ⟨-, chain₀, hr, hchain₀⟩ := modChainModify_allocFailed h hfail
  cases hload : needsLoad chain optdata with
  | true =>
    rw [hload, if_pos rfl] at hchain₀
    have hnone : chain.data = none := by
      unfold needsLoad at hload
      simp only [Bool.and_eq_true, Option.isNone_iff_eq_none] at hload
      exact hload.1.1.1
    refine ⟨fun heq => ?_, fun hcon => by cases hcon.2⟩
    have hdata : r.chain.data = chain₀.data := by rw [hr]; rfl
    rw [heq, hnone] at hdata
    rw [← hdata] at hchain₀
    cases hchain₀.2
  | false =>
    rw [hload, if_neg (by decide)] at hchain₀
    subst hchain₀
    rw [hr, clearDedupable_eq_iff]
    simp

/-- A full device. -/
def fullEnv : ModifyEnv Nat where
  media _ := 0
  ioError _ := false
  zero := 0
  testcheck _ _ := true
  emerg := false
  lsnapTid := some 0
  nextTid := 18
  isRoot := false
  freemapAlloc := .error chainErrorEnospc

/-- A 16KB data block at 24MB that was written in this transaction. -/
def dirtyBlock (dedupable : Bool) : ModChain Nat where
  flags := { modified := true, update := true, dedupable := dedupable }
  bref := ⟨.data, 48, 25165838, 17, 17, false⟩
  bytes := 16384
  data := some 7
  error := 0

/-- A clean block of the same kind. -/
def cleanBlock : ModChain Nat := { dirtyBlock false with flags := { testedgood := true } }

theorem cleanBlock_untouched :
    ∃ r, ModChain.modify fullEnv cleanBlock 18 0 true = some r ∧ r.how = .allocFailed ∧
      r.chain = cleanBlock := by
  have h := modChainModify_untouched_iff fullEnv cleanBlock 18 0 true rfl rfl
  exact ⟨_, rfl, rfl, h.mpr (by decide)⟩

/-- After a failed allocation for a dedupable block the next modification overwrites it in place. -/
theorem failed_modify_drops_dedupable :
    ∃ r, ModChain.modify fullEnv (dirtyBlock true) 18 0 true = some r ∧ r.how = .allocFailed ∧
      r.chain ≠ dirtyBlock true ∧ copyOnWrite fullEnv (dirtyBlock true) = true ∧
      copyOnWrite fullEnv r.chain = false :=
  ⟨_, rfl, rfl, by decide, rfl, rfl⟩

end Hammer2
