import Hammer2.CowTree
import Hammer2.Run

set_option linter.unusedSectionVars false

namespace Hammer2

open CowTree

/-- Where a chain stands: the volume root, the chains between it and the PFS root or in the freemap,
the indirect blocks of the inode index under the PFS root, the chain of an inode, or a chain in the
sub-topology of an inode. -/
inductive Place (κ : Type) where
  | vchain
  | upper
  | index
  | inode (ip : κ)
  | below (ip : κ)
deriving DecidableEq

/-- The chain topology during a sync. The lists are in the bottom-up order of the flush recursion,
which `rank` numbers. -/
structure Topology (ι κ : Type) where
  vchain : ι
  iroot : κ
  chainOf : κ → ι
  up : ι → ι
  place : ι → Place κ
  below : κ → List ι
  index : List ι
  upper : List ι
  rank : ι → Nat
  place_vchain : ∀ c, place c = .vchain ↔ c = vchain
  place_inode : ∀ c ip, place c = .inode ip ↔ c = chainOf ip
  mem_below : ∀ c ip, c ∈ below ip ↔ place c = .below ip
  mem_index : ∀ c, c ∈ index ↔ place c = .index
  mem_upper : ∀ c, c ∈ upper ↔ place c = .upper
  up_below : ∀ c ip, place c = .below ip → place (up c) = .below ip ∨ place (up c) = .inode ip
  up_inode : ∀ ip, ip ≠ iroot →
    place (up (chainOf ip)) = .index ∨ place (up (chainOf ip)) = .inode iroot
  up_index : ∀ c, place c = .index → place (up c) = .index ∨ place (up c) = .inode iroot
  up_iroot : place (up (chainOf iroot)) = .upper ∨ place (up (chainOf iroot)) = .vchain
  up_upper : ∀ c, place c = .upper → place (up c) = .upper ∨ place (up c) = .vchain
  rank_up : ∀ c, c ≠ vchain → rank c < rank (up c)
  rank_lt : ∀ c, c ≠ vchain → rank c < rank vchain
  sorted_below : ∀ ip, (below ip).Pairwise fun c d => rank c < rank d
  sorted_index : index.Pairwise fun c d => rank c < rank d
  sorted_upper : upper.Pairwise fun c d => rank c < rank d

/-- The frontend state of an inode: its meta-data and the flags `HAMMER2_INODE_MODIFIED` (or
`RESIZED`), `CREATING` and `DELETING`. -/
structure PmpInode where
  metaData : Nat
  modified : Bool
  creating : Bool
  deleting : Bool

/-- The chains and the blocks on the device, the inodes, the sync queue, `hmp->volsync` with
`CHAIN_VOLUMESYNC`, the volume header on the device, and the result of the sync. -/
structure PmpState (ι κ : Type) where
  tree : Tree ι Nat
  inodes : κ → PmpInode
  syncq : List κ
  volsync : Block ι Nat
  volumesync : Bool
  header : Block ι Nat
  returned : Option Nat

/-- The operations of the backend that can fail: the allocation in `hammer2_chain_modify`, the
insertion of an inode chain, and the write of the volume header. -/
inductive BackendOp (ι κ : Type) where
  | modify (c : ι)
  | insert (ip : κ)
  | volhdr

variable {ι κ : Type} [DecidableEq ι] [DecidableEq κ]

def PmpState.setInode (s : PmpState ι κ) (ip : κ) (x : PmpInode) : PmpState ι κ :=
  { s with inodes := Function.update s.inodes ip x }

section

variable (topo : Topology ι κ) (fails : BackendOp ι κ → Bool)

/-- `hammer2_chain_modify`. The volume root needs no allocation. -/
def chainModify (c : ι) (s : PmpState ι κ) : Option (PmpState ι κ) :=
  if c ≠ topo.vchain ∧ (s.tree.node c).modified = false ∧ fails (.modify c) = true then none
  else some { s with tree := touch topo.vchain c s.tree }

/-- The bottom-up part of `hammer2_flush_core` for a chain below the volume root, with its error. If
the parent cannot be modified `UPDATE` stays set. -/
def flushChain (c : ι) (s : PmpState ι κ) : PmpState ι κ × Bool :=
  let s := { s with tree := writeBack topo.vchain c s.tree }
  if (s.tree.node c).update then
    if (s.tree.node c).linked then
      match chainModify topo fails (topo.up c) s with
      | none => (s, true)
      | some s => ({ s with tree := link topo.up c s.tree }, false)
    else ({ s with tree := s.tree.set c { s.tree.node c with update := false } }, false)
  else (s, false)

/-- `hammer2_flush` over the chains of a sub-topology. It goes on after an error. -/
def flushChains : List ι → PmpState ι κ → PmpState ι κ × Bool
  | [], s => (s, false)
  | c :: cs, s =>
    let (s, error) := flushChain topo fails c s
    let (s, error') := flushChains cs s
    (s, error || error')

/-- `hammer2_inode_chain_des` -/
def inodeChainDes (ip : κ) (s : PmpState ι κ) : PmpState ι κ :=
  let s := s.setInode ip { s.inodes ip with deleting := false }
  if (s.tree.node (topo.chainOf ip)).linked then
    match chainModify topo fails (topo.up (topo.chainOf ip)) s with
    | none => s
    | some s => { s with tree := unlink topo.up (topo.chainOf ip) s.tree }
  else s

/-- `hammer2_inode_chain_ins` -/
def inodeChainIns (ip : κ) (s : PmpState ι κ) : PmpState ι κ :=
  let s := s.setInode ip { s.inodes ip with creating := false }
  if fails (.insert ip) then s else { s with tree := attach (topo.chainOf ip) s.tree }

/-- `hammer2_inode_chain_sync` clears the flags before it knows whether it succeeds. -/
def inodeChainSync (ip : κ) (s : PmpState ι κ) : PmpState ι κ :=
  if (s.inodes ip).modified then
    let s := s.setInode ip { s.inodes ip with modified := false }
    match chainModify topo fails (topo.chainOf ip) s with
    | none => s
    | some s => { s with tree := setData (topo.chainOf ip) (s.inodes ip).metaData s.tree }
  else s

def inodeChainPlace (ip : κ) (s : PmpState ι κ) : PmpState ι κ :=
  if (s.inodes ip).deleting then inodeChainDes topo fails ip s
  else if (s.inodes ip).creating then inodeChainIns topo fails ip s
  else s

/-- One inode of the sync queue. The PFS root is flushed without an update of its parent here. -/
def syncInode (ip : κ) (s : PmpState ι κ) : PmpState ι κ :=
  let s := inodeChainPlace topo fails ip { s with syncq := s.syncq.filter (· ≠ ip) }
  let s := inodeChainSync topo fails ip s
  let s := (flushChains topo fails (topo.below ip) s).1
  if ip = topo.iroot then { s with tree := writeBack topo.vchain (topo.chainOf ip) s.tree }
  else (flushChain topo fails (topo.chainOf ip) s).1

end

/-- What the flags and the volume header mean when the sync starts. -/
structure SyncEntry (topo : Topology ι κ) (s : PmpState ι κ) : Prop where
  coherent : Coherent topo.up topo.vchain s.tree
  synced : ∀ ip, (s.inodes ip).modified = false →
    (s.tree.node (topo.chainOf ip)).data = (s.inodes ip).metaData
  linked_inode : ∀ ip, (s.inodes ip).creating = false →
    (s.tree.node (topo.chainOf ip)).linked = true
  linked_other : ∀ c, (∀ ip, topo.place c ≠ .inode ip) → (s.tree.node c).linked = true
  iroot_alive : (s.inodes topo.iroot).creating = false ∧ (s.inodes topo.iroot).deleting = false
  header_current : (s.tree.node topo.vchain).modified = false → s.volumesync = false →
    s.header = (s.tree.node topo.vchain).toBlock
  volsync_current : (s.tree.node topo.vchain).modified = false → s.volumesync = true →
    s.volsync = (s.tree.node topo.vchain).toBlock

section

variable {topo : Topology ι κ} {fails : BackendOp ι κ → Bool}

theorem up_ne_self {c : ι} (h : topo.place c ≠ .vchain) : topo.up c ≠ c := by
  have hr := topo.rank_up c (fun heq => h ((topo.place_vchain c).mpr heq))
  intro heq
  rw [heq] at hr
  omega

theorem place_chainOf (ip : κ) : topo.place (topo.chainOf ip) = .inode ip :=
  (topo.place_inode _ ip).mpr rfl

theorem up_chainOf_ne (ip : κ) : topo.up (topo.chainOf ip) ≠ topo.chainOf ip := by
  refine up_ne_self ?_
  rw [place_chainOf]
  simp

theorem chainOf_ne_vchain (ip : κ) : topo.chainOf ip ≠ topo.vchain := by
  intro heq
  have h1 := (topo.place_vchain _).mpr heq
  rw [place_chainOf] at h1
  cases h1

theorem chainModify_ok (hf : ∀ op, fails op = false) (c : ι) (s : PmpState ι κ) :
    chainModify topo fails c s = some { s with tree := touch topo.vchain c s.tree } := by
  unfold chainModify
  rw [if_neg (by simp [hf])]

theorem flushChain_ok (hf : ∀ op, fails op = false) (c : ι) (s : PmpState ι κ) :
    flushChain topo fails c s = ({ s with tree := flush topo.up topo.vchain c s.tree }, false) := by
  unfold flushChain flush
  simp only [chainModify_ok hf]
  split
  next =>
    split
    next => rfl
    next => rfl
  next => rfl

theorem flushChains_ok (hf : ∀ op, fails op = false) (cs : List ι) (s : PmpState ι κ) :
    flushChains topo fails cs s =
      ({ s with tree := flushAll topo.up topo.vchain cs s.tree }, false) := by
  induction cs generalizing s with
  | nil => rfl
  | cons c cs ih =>
    simp only [flushChains, flushChain_ok hf, ih]
    rfl

/-- What `hammer2_inode_chain_des` or `hammer2_inode_chain_ins` make of the chain of the inode. -/
def placeInode (topo : Topology ι κ) (ip : κ) (x : PmpInode) (t : Tree ι Nat) : Tree ι Nat :=
  if x.deleting then
    if (t.node (topo.chainOf ip)).linked then
      unlink topo.up (topo.chainOf ip) (touch topo.vchain (topo.up (topo.chainOf ip)) t)
    else t
  else if x.creating then attach (topo.chainOf ip) t
  else t

/-- What `hammer2_inode_chain_sync` makes of it. -/
def storeMeta (topo : Topology ι κ) (ip : κ) (x : PmpInode) (t : Tree ι Nat) : Tree ι Nat :=
  if x.modified then setData (topo.chainOf ip) x.metaData (touch topo.vchain (topo.chainOf ip) t)
  else t

/-- The flags of the inode after its chain is placed. -/
def PmpInode.placed (x : PmpInode) : PmpInode :=
  if x.deleting then { x with deleting := false } else { x with creating := false }

/-- The chains after the turn of the inode. -/
def flushInode (topo : Topology ι κ) (ip : κ) (x : PmpInode) (t : Tree ι Nat) : Tree ι Nat :=
  let t := flushAll topo.up topo.vchain (topo.below ip) (storeMeta topo ip x (placeInode topo ip x t))
  if ip = topo.iroot then writeBack topo.vchain (topo.chainOf ip) t
  else flush topo.up topo.vchain (topo.chainOf ip) t

theorem update_same {x : PmpInode} (hm : ¬x.modified = true) : { x with modified := false } = x := by
  have : x.modified = false := by simpa using hm
  rw [← this]

theorem inodeChainSync_ok (hf : ∀ op, fails op = false) (ip : κ) (s : PmpState ι κ) :
    inodeChainSync topo fails ip s =
      { s with
        tree := storeMeta topo ip (s.inodes ip) s.tree
        inodes := Function.update s.inodes ip { s.inodes ip with modified := false } } := by
  unfold inodeChainSync storeMeta
  split
  next hm => simp only [chainModify_ok hf, PmpState.setInode, Function.update_self]
  next hm => rw [update_same hm, Function.update_eq_self]

theorem inodeChainPlace_ok (hf : ∀ op, fails op = false) (ip : κ) (s : PmpState ι κ) :
    inodeChainPlace topo fails ip s =
      { s with
        tree := placeInode topo ip (s.inodes ip) s.tree
        inodes := Function.update s.inodes ip (s.inodes ip).placed } := by
  unfold inodeChainPlace placeInode PmpInode.placed
  split
  next hd =>
    unfold inodeChainDes
    simp only [chainModify_ok hf, PmpState.setInode]
    split
    next => rfl
    next => rfl
  next hd =>
    split
    next hc =>
      unfold inodeChainIns
      rw [if_neg (by simp [hf])]
      rfl
    next hc =>
      have hx : { s.inodes ip with creating := false } = s.inodes ip := by
        have : (s.inodes ip).creating = false := by simpa using hc
        rw [← this]
      rw [hx, Function.update_eq_self]

theorem placed_keeps (x : PmpInode) : x.placed.modified = x.modified ∧ x.placed.metaData = x.metaData := by
  unfold PmpInode.placed
  split <;> exact ⟨rfl, rfl⟩

theorem storeMeta_placed (ip : κ) (x : PmpInode) (t : Tree ι Nat) :
    storeMeta topo ip x.placed t = storeMeta topo ip x t := by
  unfold storeMeta
  rw [(placed_keeps x).1, (placed_keeps x).2]

theorem syncInode_ok (hf : ∀ op, fails op = false) (ip : κ) (s : PmpState ι κ) :
    syncInode topo fails ip s =
      { s with
        tree := flushInode topo ip (s.inodes ip) s.tree
        inodes := Function.update s.inodes ip { (s.inodes ip).placed with modified := false }
        syncq := s.syncq.filter (· ≠ ip) } := by
  unfold syncInode flushInode
  simp only [flushChains_ok hf, flushChain_ok hf, inodeChainPlace_ok hf, inodeChainSync_ok hf,
    Function.update_self, Function.update_idem, storeMeta_placed]
  split
  next => rfl
  next => rfl

theorem placeInode_coherent {t : Tree ι Nat} (ip : κ) (x : PmpInode)
    (h : Coherent topo.up topo.vchain t) : Coherent topo.up topo.vchain (placeInode topo ip x t) := by
  unfold placeInode
  split
  next =>
    split
    next =>
      refine (h.touch _).unlink (up_chainOf_ne ip) ?_
      rw [touch_node, if_pos rfl]
    next => exact h
  next =>
    split
    next => exact h.set rfl rfl (fun hm => ⟨hm, rfl⟩) (fun _ hu => by cases hu) (fun hl => by cases hl)
    next => exact h

theorem storeMeta_coherent {t : Tree ι Nat} (ip : κ) (x : PmpInode)
    (h : Coherent topo.up topo.vchain t) : Coherent topo.up topo.vchain (storeMeta topo ip x t) := by
  unfold storeMeta
  split
  next =>
    refine (h.touch _).set rfl rfl ?_ (fun hl hu => ⟨hl, hu⟩) id
    intro hm
    rw [touch_node, if_pos rfl] at hm
    cases hm
  next => exact h

theorem up_below_ne (ip : κ) : ∀ c ∈ topo.below ip, topo.up c ≠ c := by
  intro c hc
  have hplace := (topo.mem_below c ip).mp hc
  refine up_ne_self ?_
  rw [hplace]
  simp

theorem flushInode_coherent {t : Tree ι Nat} (ip : κ) (x : PmpInode)
    (h : Coherent topo.up topo.vchain t) : Coherent topo.up topo.vchain (flushInode topo ip x t) := by
  have hb := (storeMeta_coherent ip x (placeInode_coherent ip x h)).flushAll (up_below_ne ip)
  unfold flushInode
  simp only
  split
  next => exact hb.writeBack _
  next => exact hb.flush (up_chainOf_ne ip)

theorem placeInode_node {ip : κ} {d : ι} (x : PmpInode) (t : Tree ι Nat)
    (h1 : d ≠ topo.chainOf ip) (h2 : x.deleting = true → d ≠ topo.up (topo.chainOf ip)) :
    (placeInode topo ip x t).node d = t.node d := by
  unfold placeInode
  split
  next hd =>
    split
    next =>
      unfold unlink
      rw [enter_node, if_neg (h2 hd), if_neg h1, touch_node, if_neg (h2 hd)]
    next => rfl
  next =>
    split
    next =>
      unfold attach
      rw [set_node, if_neg h1]
    next => rfl

theorem placeInode_keeps (ip : κ) (d : ι) (x : PmpInode) (t : Tree ι Nat) :
    ((placeInode topo ip x t).node d).data = (t.node d).data ∧
      ((placeInode topo ip x t).node d).linked =
        if d = topo.chainOf ip then
          if x.deleting then false else if x.creating then true else (t.node d).linked
        else (t.node d).linked := by
  have hup := @up_chainOf_ne _ _ _ _ topo ip
  unfold placeInode
  split
  next =>
    split
    next =>
      unfold unlink
      simp only [enter_node, touch_node]
      grind
    next => grind
  next =>
    split
    next =>
      unfold attach
      rw [set_node]
      grind
    next => grind

theorem storeMeta_node {ip : κ} {d : ι} (x : PmpInode) (t : Tree ι Nat) (h : d ≠ topo.chainOf ip) :
    (storeMeta topo ip x t).node d = t.node d := by
  unfold storeMeta
  split
  next =>
    unfold setData
    rw [set_node, if_neg h, touch_node, if_neg h]
  next => rfl

theorem storeMeta_keeps (ip : κ) (d : ι) (x : PmpInode) (t : Tree ι Nat) :
    ((storeMeta topo ip x t).node d).linked = (t.node d).linked ∧
      ((storeMeta topo ip x t).node d).data =
        if d = topo.chainOf ip ∧ x.modified = true then x.metaData else (t.node d).data := by
  unfold storeMeta
  split
  next =>
    unfold setData
    simp only [set_node, touch_node]
    grind
  next => grind

/-- Outside of its own sub-topology the turn of an inode changes at most the parent of its chain. -/
theorem flushInode_node {ip : κ} {d : ι} (x : PmpInode) (t : Tree ι Nat) (h1 : d ≠ topo.chainOf ip)
    (h2 : d = topo.up (topo.chainOf ip) → ip = topo.iroot ∧ x.deleting = false)
    (h3 : topo.place d ≠ .below ip) :
    (flushInode topo ip x t).node d = t.node d := by
  have hbelow : ∀ c ∈ topo.below ip, d ≠ c ∧ d ≠ topo.up c := by
    intro c hc
    have hplace := (topo.mem_below c ip).mp hc
    refine ⟨?_, ?_⟩
    · rintro rfl
      exact h3 hplace
    · rintro rfl
      rcases topo.up_below c ip hplace with hb | hi
      · exact h3 hb
      · exact h1 ((topo.place_inode _ ip).mp hi)
  have hall : (flushAll topo.up topo.vchain (topo.below ip)
      (storeMeta topo ip x (placeInode topo ip x t))).node d = t.node d := by
    rw [flushAll_node_other hbelow, storeMeta_node x _ h1, placeInode_node x t h1]
    intro hd hup
    rw [(h2 hup).2] at hd
    cases hd
  unfold flushInode
  simp only
  split
  next => rw [writeBack_node, if_neg h1, hall]
  next hip => rw [flush_node_other h1 (fun hup => hip (h2 hup).1), hall]

theorem flushInode_keeps (ip : κ) (d : ι) (x : PmpInode) (t : Tree ι Nat) :
    ((flushInode topo ip x t).node d).data =
        (if d = topo.chainOf ip ∧ x.modified = true then x.metaData else (t.node d).data) ∧
      ((flushInode topo ip x t).node d).linked =
        if d = topo.chainOf ip then
          if x.deleting then false else if x.creating then true else (t.node d).linked
        else (t.node d).linked := by
  have hp := @placeInode_keeps _ _ _ _ topo ip d x t
  have hm := @storeMeta_keeps _ _ _ _ topo ip d x (placeInode topo ip x t)
  have hb := flushAll_keeps topo.vchain (@up_below_ne _ _ _ _ topo ip)
    (storeMeta topo ip x (placeInode topo ip x t)) d
  rw [hp.1, ← hb.1] at hm
  rw [hp.2, ← hb.2] at hm
  unfold flushInode
  simp only
  split
  next =>
    have hw := writeBack_keeps topo.vchain (topo.chainOf ip)
      (flushAll topo.up topo.vchain (topo.below ip) (storeMeta topo ip x (placeInode topo ip x t))) d
    exact ⟨hw.1.trans hm.2, hw.2.trans hm.1⟩
  next =>
    have hf := flush_keeps topo.vchain (@up_chainOf_ne _ _ _ _ topo ip)
      (flushAll topo.up topo.vchain (topo.below ip) (storeMeta topo ip x (placeInode topo ip x t))) d
    exact ⟨hf.1.trans hm.2, hf.2.trans hm.1⟩

theorem flushInode_settled {ip : κ} (hip : ip ≠ topo.iroot) (x : PmpInode) (t : Tree ι Nat) :
    Settled (flushInode topo ip x t) (topo.chainOf ip) := by
  unfold flushInode
  simp only
  rw [if_neg hip]
  exact flush_settled (up_chainOf_ne ip) _

theorem up_chainOf_ne_inode {ip jp : κ} (hip : ip ≠ topo.iroot) :
    topo.chainOf ip ≠ topo.up (topo.chainOf jp) := by
  intro heq
  have hplace := @place_chainOf _ _ _ _ topo ip
  rw [heq] at hplace
  by_cases hjp : jp = topo.iroot
  · subst hjp
    rcases topo.up_iroot with h | h <;> rw [h] at hplace <;> cases hplace
  · rcases topo.up_inode jp hjp with h | h <;> rw [h] at hplace <;> cases hplace
    exact hip rfl

theorem chainOf_inj {ip jp : κ} (h : topo.chainOf ip = topo.chainOf jp) : ip = jp := by
  have h1 := @place_chainOf _ _ _ _ topo ip
  rw [h, place_chainOf] at h1
  cases h1
  rfl

/-- The turn of one inode leaves the chains of the others alone. -/
theorem flushInode_chainOf {ip jp : κ} (hip : ip ≠ topo.iroot) (hne : ip ≠ jp) (x : PmpInode)
    (t : Tree ι Nat) :
    (flushInode topo jp x t).node (topo.chainOf ip) = t.node (topo.chainOf ip) := by
  refine flushInode_node x t (fun h => hne (chainOf_inj h))
    (fun h => absurd h (up_chainOf_ne_inode hip)) ?_
  rw [place_chainOf]
  simp

theorem flushInode_vchain {ip : κ} {x : PmpInode} (hx : ip = topo.iroot → x.deleting = false)
    (t : Tree ι Nat) : (flushInode topo ip x t).node topo.vchain = t.node topo.vchain := by
  have hv := (topo.place_vchain topo.vchain).mpr rfl
  refine flushInode_node x t (Ne.symm (chainOf_ne_vchain ip)) ?_ (by rw [hv]; simp)
  intro hup
  by_cases hip : ip = topo.iroot
  · exact ⟨hip, hx hip⟩
  · rw [hup] at hv
    rcases topo.up_inode ip hip with h | h <;> rw [h] at hv <;> cases hv

/-- What the turns so far have done. -/
structure SyncInv (topo : Topology ι κ) (entry s : PmpState ι κ) : Prop where
  coherent : Coherent topo.up topo.vchain s.tree
  synced : ∀ ip, (s.inodes ip).modified = false →
    (s.tree.node (topo.chainOf ip)).data = (s.inodes ip).metaData
  metaData : ∀ ip, (s.inodes ip).metaData = (entry.inodes ip).metaData
  queued : ∀ ip ∈ s.syncq, s.inodes ip = entry.inodes ip ∧
    (s.tree.node (topo.chainOf ip)).linked = (entry.tree.node (topo.chainOf ip)).linked
  done : ∀ ip ∈ entry.syncq, ip ∉ s.syncq →
    (s.tree.node (topo.chainOf ip)).linked = !(entry.inodes ip).deleting ∧
      (ip ≠ topo.iroot → (s.inodes ip).modified = false ∧ Settled s.tree (topo.chainOf ip))
  linked_other : ∀ c, (∀ ip, topo.place c ≠ .inode ip) → (s.tree.node c).linked = true
  iroot_linked : (s.tree.node (topo.chainOf topo.iroot)).linked = true ∧
    (s.inodes topo.iroot).deleting = false ∧ (s.inodes topo.iroot).creating = false
  vchain_same : s.tree.node topo.vchain = entry.tree.node topo.vchain
  volume_same : s.header = entry.header ∧ s.volsync = entry.volsync ∧ s.volumesync = entry.volumesync

theorem SyncEntry.inv {s : PmpState ι κ} (h : SyncEntry topo s) : SyncInv topo s s where
  coherent := h.coherent
  synced := h.synced
  metaData := fun _ => rfl
  queued := fun _ _ => ⟨rfl, rfl⟩
  done := fun _ h1 h2 => absurd h1 h2
  linked_other := h.linked_other
  iroot_linked := ⟨h.linked_inode _ h.iroot_alive.1, h.iroot_alive.2, h.iroot_alive.1⟩
  vchain_same := rfl
  volume_same := ⟨rfl, rfl, rfl⟩

theorem SyncInv.turn {entry s : PmpState ι κ} {jp : κ} (he : SyncEntry topo entry)
    (h : SyncInv topo entry s) (hq : jp ∈ s.syncq) (hf : ∀ op, fails op = false) :
    SyncInv topo entry (syncInode topo fails jp s) := by
  obtain ⟨hsame, hlinked⟩ := h.queued jp hq
  have hkeeps := fun d => @flushInode_keeps _ _ _ _ topo jp d (s.inodes jp) s.tree
  have hplaced := placed_keeps (s.inodes jp)
  rw [syncInode_ok hf]
  refine ⟨flushInode_coherent jp _ h.coherent, ?_, ?_, ?_, ?_, ?_, ?_, ?_, h.volume_same⟩
  · intro ip hm
    simp only at hm ⊢
    rw [(hkeeps _).1]
    by_cases hip : ip = jp
    · subst hip
      rw [Function.update_self]
      simp only [hplaced.2]
      by_cases hmod : (s.inodes ip).modified = true
      · rw [if_pos ⟨trivial, hmod⟩]
      · rw [if_neg (fun hn => hmod hn.2)]
        exact h.synced ip (by simpa using hmod)
    · rw [Function.update_of_ne hip] at hm ⊢
      rw [if_neg (fun hn => hip (chainOf_inj hn.1))]
      exact h.synced ip hm
  · intro ip
    simp only
    by_cases hip : ip = jp
    · subst hip
      rw [Function.update_self]
      simp only [hplaced.2]
      exact h.metaData ip
    · rw [Function.update_of_ne hip]
      exact h.metaData ip
  · intro ip hip
    simp only [List.mem_filter, decide_eq_true_eq] at hip ⊢
    rw [Function.update_of_ne hip.2, (hkeeps _).2, if_neg (fun hn => hip.2 (chainOf_inj hn))]
    exact h.queued ip hip.1
  · intro ip hin hout
    simp only [List.mem_filter, decide_eq_true_eq, not_and, not_not] at hout ⊢
    by_cases hip : ip = jp
    · subst hip
      refine ⟨?_, ?_⟩
      · rw [(hkeeps _).2, if_pos rfl, hlinked, hsame]
        by_cases hd : (entry.inodes ip).deleting = true
        · rw [if_pos hd, hd]
          rfl
        · have hdf : (entry.inodes ip).deleting = false := by simpa using hd
          rw [if_neg hd, hdf]
          split
          next => rfl
          next hc => rw [he.linked_inode ip (by simpa using hc)]; rfl
      · intro hroot
        rw [Function.update_self]
        exact ⟨rfl, flushInode_settled hroot _ _⟩
    · have hdone := h.done ip hin (fun hmem => hip (hout hmem))
      rw [Function.update_of_ne hip, (hkeeps _).2, if_neg (fun hn => hip (chainOf_inj hn))]
      refine ⟨hdone.1, ?_⟩
      intro hroot
      unfold Settled
      rw [flushInode_chainOf hroot hip]
      exact hdone.2 hroot
  · intro c hc
    simp only
    have hne : c ≠ topo.chainOf jp := fun heq => hc jp ((topo.place_inode c jp).mpr heq)
    rw [(hkeeps _).2, if_neg hne]
    exact h.linked_other c hc
  · simp only
    rw [(hkeeps _).2]
    by_cases hip : topo.iroot = jp
    · subst hip
      have hx := h.iroot_linked
      rw [Function.update_self, if_pos rfl, hx.2.1, hx.2.2]
      unfold PmpInode.placed
      rw [hx.2.1]
      exact ⟨hx.1, rfl, rfl⟩
    · rw [Function.update_of_ne hip, if_neg (fun hn => hip (chainOf_inj hn))]
      exact h.iroot_linked
  · simp only
    rw [flushInode_vchain, h.vchain_same]
    rintro rfl
    exact h.iroot_linked.2.1

end

end Hammer2
