import Hammer2.FlushLinked
import Hammer2.SyncCommit

set_option linter.unusedSectionVars false

namespace Hammer2

open CowTree

variable {ι κ α : Type} [DecidableEq ι] [DecidableEq κ]
variable {topo : Topology ι κ} {fails : BackendOp ι κ → Bool} {kinds : ChainKinds ι}
variable {call : FlushCall ι} {s : ChainState ι Nat} {pm : PmpState ι κ} {c p : ι}
variable {path above cs : List ι} {kids : Forest ι} {r : FlushInfo ι Nat} {ip : κ}
variable {s₀ : ChainState ι Nat} {pm' : PmpState ι κ} {u : PmpState ι κ × Bool}

theorem flushOne_linked {up : ι → ι} {root : ι} {bad : ι → Bool} (c : ι) (t : Tree ι α) (d : ι) :
    ((flushOne up root bad c t).1.node d).linked = (t.node d).linked := by
  have hw := (writeBack_keeps root c t d).2
  rw [← hw]
  unfold flushOne
  dsimp only
  split
  next =>
    split
    next => rfl
    next =>
      unfold link
      rw [enter_node]
      split
      next hd =>
        rw [hd, touch_node, if_pos rfl]
      next hd =>
        split
        next hdc =>
          change ((touch root (up c) (writeBack root c t)).node c).linked = _
          rw [touch_node, hdc, if_neg (hdc ▸ hd)]
        next => rw [touch_node, if_neg hd]
  next => rfl

theorem flushEach_linked {up : ι → ι} {root : ι} {bad : ι → Bool} (cs : List ι)
    (x : Tree ι α × Bool) (d : ι) :
    ((flushEach up root bad cs x).1.node d).linked = (x.1.node d).linked := by
  induction cs generalizing x with
  | nil => rfl
  | cons c cs ih => exact (ih _).trans (flushOne_linked c x.1 d)

/-- The flush of one chain in the sync. -/
theorem flushChain_eq (hl : (pm.tree.node c).linked = true) :
    flushChain topo fails c pm =
      ({ pm with tree :=
          (flushOne topo.up topo.vchain (fun q => fails (.modify q)) c pm.tree).1 },
        (flushOne topo.up topo.vchain (fun q => fails (.modify q)) c pm.tree).2) := by
  have hw := (writeBack_keeps topo.vchain c pm.tree c).2
  unfold flushChain flushOne chainModify
  dsimp only
  by_cases hu : ((writeBack topo.vchain c pm.tree).node c).update = true
  · rw [if_pos hu, if_pos hu, if_pos (hw.trans hl)]
    by_cases hbar : topo.up c ≠ topo.vchain ∧
        ((writeBack topo.vchain c pm.tree).node (topo.up c)).modified = false ∧
          fails (.modify (topo.up c)) = true
    · simp only [if_pos hbar]
    · simp only [if_neg hbar]
  · rw [if_neg hu, if_neg hu]

theorem flushChains_eq {cs : List ι} (hl : ∀ c ∈ cs, (pm.tree.node c).linked = true) :
    flushChains topo fails cs pm =
      ({ pm with tree :=
          (flushEach topo.up topo.vchain (fun q => fails (.modify q)) cs (pm.tree, false)).1 },
        (flushEach topo.up topo.vchain (fun q => fails (.modify q)) cs (pm.tree, false)).2) := by
  induction cs generalizing pm with
  | nil => rfl
  | cons c cs ih =>
    unfold flushChains flushEach
    rw [flushChain_eq (hl c List.mem_cons_self)]
    dsimp only
    rw [ih fun d hd => (flushOne_linked c pm.tree d).trans (hl d (List.mem_cons_of_mem _ hd)),
      flushEach_error _ _ (false || _)]
    rfl

/-- The flush from the tree `t` to `r` does what the plain one does for the region of `c` and then for
`c`, whose parent it may have to keep. -/
structure PlainFlush (kinds : ChainKinds ι) (call : FlushCall ι) (up : ι → ι) (bad : ι → Bool) (c : ι)
    (kids : Forest ι) (t : Tree ι α) (r : FlushInfo ι α) : Prop where
  enters : call.keepsParent kinds c = false →
    (r.tree, r.error) =
      flushEach up kinds.vchain bad [c]
        (flushEach up kinds.vchain bad (kids.bottomUp kinds call c) (t, false))
  keeps : call.keepsParent kinds c = true →
    r.tree = writeBack kinds.vchain c
      (flushEach up kinds.vchain bad (kids.bottomUp kinds call c) (t, false)).1

theorem flush_plain {up : ι → ι} {bad : ι → Bool} (hsite : FlushSite s c (p :: above) kids)
    (hinv : s.MarkInv kinds) (hcalm : s.Calm) (hp : PlainCall call up bad s.parent)
    (hstops : ∀ d ∈ kids.nodes, call.Stops kinds d) :
    PlainFlush kinds call up bad c kids s.tree (s.flush kinds call c (p :: above) kids) := by
  have hck : c ∉ kids.nodes := fun hn => hsite.apart c hn List.mem_cons_self
  obtain ⟨hcs, hloop⟩ := Forest.bottomUp_order kinds call hp.up hsite.fits
    hsite.nodup hck
  have hscan : ∀ r₁ : FlushInfo ι Nat, r₁.parent = s.parent → r₁.ScanInv kinds [c] → r₁.Calm →
      PlainPost up kinds.vchain bad (kids.bottomUp kinds call c) r₁
        (flushScan kinds call kids c (p :: above) r₁) := fun r₁ hr₁ h₁ hcalm₁ =>
    flushScan_plain hp hstops hsite.ascends hsite.below List.mem_cons_self
      (mem_cons_of_sub fun _ hq => absurd hq List.not_mem_nil) hr₁ h₁ hcalm₁
  have hstart : (⟨s, false, 0⟩ : FlushInfo ι Nat).parent = s.parent := rfl
  have htop : true = true ∨ kinds.inode c = false := Or.inl rfl
  obtain ⟨r₁, hpost, hcase⟩ := flushCore_plain (hsite.core kinds call) hstart hinv.scanInv hcalm htop
    hloop hcs (fun d hd => Forest.mem_region_of_bottomUp hd) hscan
  have hres : (r₁.tree, r₁.error) =
      flushEach up kinds.vchain bad (kids.bottomUp kinds call c) (s.tree, false) := hpost.result
  unfold ChainState.flush
  rcases hcase with ⟨hf, rfl, heq⟩ | ⟨hf, heq⟩
  · have hset := settled_of_not_flagged hf
    refine ⟨fun _ => ?_, fun _ => ?_⟩
    · rw [← hres, heq]
      exact (flushEach_settled (fun d hd => List.mem_singleton.mp hd ▸ hset) false).symm
    · rw [← hres, heq, writeBack_eq hset.1]
  · refine ⟨fun hkeeps => ?_, fun hkeeps => ?_⟩
    · rw [heq, (flushBottom_plain hp hpost.calm hsite.ascends.1 hkeeps).result, hres]
    · rw [← hres, heq, flushBottom_calm hpost.calm]
      unfold flushUpdate
      dsimp only
      rw [if_pos hkeeps]

/-- The flush of the core chains in `hammer2_xop_inode_flush`. The chains above the inode may have
lost their marks, and get them again first. -/
def ChainState.xopInodeFlush (kinds : ChainKinds ι) (call : FlushCall ι) (c : ι) (path : List ι)
    (kids : Forest ι) (s : ChainState ι α) : FlushInfo ι α :=
  if s.flagged c then (s.setFlush kinds path).flush kinds call c path kids else ⟨s, false, 0⟩

theorem xopInodeFlush_plain {up : ι → ι} {bad : ι → Bool} (hsite : FlushSite s c (p :: above) kids)
    (hinv : s.MarkInv kinds) (hcalm : s.Calm) (hp : PlainCall call up bad s.parent)
    (hstops : ∀ d ∈ kids.nodes, call.Stops kinds d) :
    PlainFlush kinds call up bad c kids s.tree (s.xopInodeFlush kinds call c (p :: above) kids) := by
  unfold ChainState.xopInodeFlush
  by_cases hf : s.flagged c = true
  · rw [if_pos hf]
    have hparent : (s.setFlush kinds (p :: above)).parent = s.parent := by
      rw [setFlush_same]
    have hsite' : FlushSite (s.setFlush kinds (p :: above)) c (p :: above) kids :=
      ⟨hparent ▸ hsite.ascends, hparent ▸ hsite.fits, hparent ▸ hsite.all, hsite.nodup, hsite.apart,
        hsite.top⟩
    have hplain := flush_plain hsite'
      (hinv.advance (setFlush_raises kinds hsite.ascends.2).advances) (hcalm.setFlush kinds _)
      (hparent ▸ hp) hstops
    rw [setFlush_tree] at hplain
    exact hplain
  · rw [if_neg hf]
    -- without a mark the flush itself returns at once
    have hflush : s.flush kinds call c (p :: above) kids = ⟨s, false, 0⟩ := by
      unfold ChainState.flush flushCore
      rw [if_pos (by simpa using hf)]
    exact hflush ▸ flush_plain hsite hinv hcalm hp hstops

/-- The flush of the inode `ip` in a sync, with the marked chains before it. The chains in memory have
their parents from `topo`, and those below the inode are of a mounted PFS. -/
structure SyncsInode (topo : Topology ι κ) (fails : BackendOp ι κ → Bool) (kinds : ChainKinds ι)
    (call : FlushCall ι) (ip : κ) (kids : Forest ι) (s : ChainState ι Nat) : Prop where
  vchain : kinds.vchain = topo.vchain
  inode : kinds.inode (topo.chainOf ip) = true
  mounted : ∀ c ∈ topo.chainOf ip :: kids.nodes, kinds.mounted c = true
  inodeStop : call.inodeStop = true
  all : call.all = false
  outcome : ∀ n p, call.outcome n p = if fails (.modify p) then .noSpace else .done
  up : ∀ c p, s.parent c = some p → topo.up c = p
  calm : s.Calm

theorem SyncsInode.stops (h : SyncsInode topo fails kinds call ip kids s) (hc : c ∈ kids.nodes) :
    call.Stops kinds c := by
  intro hi
  have hm := h.mounted c (List.mem_cons_of_mem _ hc)
  simp [FlushCall.stopsAtInode, hi, h.inodeStop, h.all, hm]

theorem SyncsInode.keepsParent (h : SyncsInode topo fails kinds call ip kids s) :
    call.keepsParent kinds (topo.chainOf ip) = !call.fssync := by
  simp [FlushCall.keepsParent, h.inode, h.inodeStop, h.all, h.mounted _ List.mem_cons_self]

/-- The flush guided by the marks is the sync's flush of the chains `cs` of its region and then of
the inode, with or without its parent. -/
theorem SyncsInode.flushed (h : SyncsInode topo fails kinds call ip kids s) (hinv : s.MarkInv kinds)
    (hl : s.Linked) (hsite : FlushSite s (topo.chainOf ip) (p :: above) kids)
    (hcs : kids.bottomUp kinds call (topo.chainOf ip) = cs) (htree : s.tree = pm.tree)
    (hr : r = s.xopInodeFlush kinds call (topo.chainOf ip) (p :: above) kids) :
    (call.fssync = true →
      (flushChain topo fails (topo.chainOf ip) (flushChains topo fails cs pm).1).1 =
        { pm with tree := r.tree }) ∧
    (call.fssync = false →
      { (flushChains topo fails cs pm).1 with
        tree := writeBack topo.vchain (topo.chainOf ip) (flushChains topo fails cs pm).1.tree } =
        { pm with tree := r.tree }) := by
  have hplain := xopInodeFlush_plain hsite hinv h.calm ⟨h.up, h.outcome⟩ fun d hd => h.stops hd
  obtain ⟨henters, hkeeps⟩ := hplain
  rw [← hr, hcs, h.vchain, htree, h.keepsParent] at henters hkeeps
  have hlinked : ∀ c ∈ cs, (pm.tree.node c).linked = true := by
    intro c hc
    rw [← hcs] at hc
    obtain ⟨q, hq, -⟩ := hsite.fits.parent_mem
      (Forest.mem_nodes_of_region (Forest.mem_region_of_bottomUp hc))
    exact htree ▸ hl c q hq
  have hself : (pm.tree.node (topo.chainOf ip)).linked = true :=
    htree ▸ hl _ p hsite.ascends.1
  rw [flushChains_eq hlinked]
  refine ⟨fun hf => ?_, fun hf => ?_⟩
  · have htree' := (Prod.mk.inj (henters (by rw [hf]; rfl))).1
    rw [flushChain_eq ((flushEach_linked _ _ _).trans hself), htree']
  · rw [hkeeps (by rw [hf]; rfl)]

end Hammer2
