import Hammer2.FlushSettled
import Hammer2.Run

set_option linter.unusedSectionVars false

namespace Hammer2

open CowTree

variable {ι α : Type} [DecidableEq ι]

def ChainState.setParent (c : ι) (parent : Option ι) (s : ChainState ι α) : ChainState ι α :=
  { s with parent := Function.update s.parent c parent }

/-- A chain gets a parent, and a place in its block table with the next flush. -/
def ChainState.insert (c p : ι) (s : ChainState ι α) : ChainState ι α :=
  { s.setParent c (some p) with tree := s.tree.set c { s.tree.node c with linked := true } }

def ChainState.setDestroy (c : ι) (s : ChainState ι α) : ChainState ι α :=
  { s with destroy := Function.update s.destroy c true }

section

variable (kinds : ChainKinds ι)

/-- `hammer2_chain_create` of a new chain. It stays where it is when it cannot be modified. -/
def ChainState.create (c p : ι) (above : List ι) (outcome : ModifyOutcome) (s : ChainState ι α) :
    ChainState ι α :=
  ((s.insert c p).modify kinds outcome c (p :: above)).1.setFlush kinds (p :: above)

/-- `hammer2_chain_delete`. If the block table of the parent has the chain the parent is modified and
the entry cleared. -/
def ChainState.delete (c p : ι) (above : List ι) (mapped permanent : Bool)
    (outcome : ModifyOutcome) (s : ChainState ι α) : ChainState ι α :=
  let (s, failed) := if mapped then s.modify kinds outcome p above else (s, false)
  if failed then s
  else
    let s := { s with tree := unlink (fun _ => p) c s.tree }.setParent c none
    if permanent then (s.setDestroy c).setFlush kinds [c] else s

/-- `hammer2_chain_lastdrop` of a chain without children, or of one without a parent. -/
def ChainState.lastdrop (c : ι) (s : ChainState ι α) : ChainState ι α :=
  match s.parent c with
  | some _ =>
    if (s.tree.node c).modified || (s.tree.node c).update then s else s.setParent c none
  | none => if c = kinds.vchain then s.clearUpdate c else (s.setDestroy c).clearUpdate c

end

/-- The lists of a flush are what `chain->parent` and the red-black trees have. -/
structure FlushSite (s : ChainState ι α) (c : ι) (path : List ι) (kids : Forest ι) : Prop where
  ascends : Ascends s.parent (c :: path)
  fits : kids.Fits s.parent c
  all : ∀ d, s.parent d = some c → d ∈ kids.roots
  nodup : kids.nodes.Nodup
  apart : ∀ d ∈ kids.nodes, d ∉ c :: path
  top : c ∉ path

/-- The place of a chain that is inserted. What is to be destroyed stays below what is. -/
structure InsertSite (s : ChainState ι α) (c p : ι) (above : List ι) : Prop where
  free : s.parent c = none
  ascends : Ascends s.parent (p :: above)
  apart : c ∉ p :: above
  doomed : s.destroy c = true → s.destroy p = true

/-- Before the first chain is read. -/
def ChainState.Unmounted (s : ChainState ι α) : Prop := ∀ c, s.parent c = none

variable {kinds : ChainKinds ι} {call : FlushCall ι} {s s' : ChainState ι α}
variable {path above : List ι} {c d p : ι} {kids F : Forest ι}

theorem Ascends.setParent {parent : Option ι} (h : Ascends s.parent path) (hc : c ∉ path) :
    Ascends (s.setParent c parent).parent path := by
  induction path with
  | nil => trivial
  | cons a above ih =>
    refine ⟨?_, ih h.2 fun hn => hc (List.mem_cons_of_mem _ hn)⟩
    have hac : a ≠ c := fun heq => hc (heq ▸ List.mem_cons_self)
    exact (Function.update_of_ne hac _ _).trans h.1

theorem FlushSite.below (hsite : FlushSite s c path kids) :
    kids.Below s.parent [c] (c :: path) c := by
  refine ⟨hsite.fits, hsite.nodup, hsite.apart, fun q hq hqc => ?_⟩
  exact hsite.apart q hq (List.mem_singleton.mp hqc ▸ List.mem_cons_self)

theorem FlushSite.core (kinds : ChainKinds ι) (call : FlushCall ι)
    (hsite : FlushSite s c path kids) :
    CoreSite kinds call c path kids [] s.parent (flushScan (α := α) kinds call kids c path) :=
  ⟨hsite.ascends, hsite.top, List.not_mem_nil, fun _ _ => List.not_mem_nil, hsite.apart,
    fun _ hq => absurd hq List.not_mem_nil, hsite.fits, hsite.all, fun _ hr hinv =>
      flushScan_spec hsite.ascends hsite.below List.mem_cons_self
        (mem_cons_of_sub fun _ hq => absurd hq List.not_mem_nil) hr hinv⟩

theorem InsertSite.ascended (hsite : InsertSite s c p above) :
    Ascends (s.insert c p).parent (c :: p :: above) :=
  ⟨Function.update_self _ _ _, hsite.ascends.setParent hsite.apart⟩

theorem MarkInv.setParent_some (h : s.MarkInv kinds) (hsite : InsertSite s c p above) :
    (s.setParent c (some p)).ScanInv kinds [p] := by
  have hcp : p ≠ c := fun heq => hsite.apart (heq ▸ List.mem_cons_self)
  have hother : ∀ d, d ≠ c → (s.setParent c (some p)).parent d = s.parent d :=
    fun d hd => Function.update_of_ne hd _ _
  have hself : (s.setParent c (some p)).parent c = some p := Function.update_self _ _ _
  refine ⟨?_, ?_, ?_⟩
  · intro q hq d hd hi hf
    have hdc : d ≠ c := by
      rintro rfl
      rw [hself] at hd
      exact hq (List.mem_singleton.mpr (Option.some.inj hd).symm)
    exact h.marked q d ((hother d hdc).symm.trans hd) hi hf
  · intro d q hd hq hi ho
    obtain rfl := List.mem_singleton.mp hd
    refine h.marked q d ((hother d hcp).symm.trans hq) hi ?_
    rw [flagged_iff]
    exact Or.inr (Or.inr (Or.inl ho))
  · intro d q hq hi hd
    by_cases hdc : d = c
    · rw [hdc, hself] at hq
      rw [hdc] at hd
      exact Option.some.inj hq ▸ hsite.doomed hd
    · exact h.doomed d q ((hother d hdc).symm.trans hq) hi hd

theorem advances_set {x : CowTree.Node ι α} (hm : x.modified = (s.tree.node c).modified)
    (hu : x.update = (s.tree.node c).update) :
    s.Advances kinds { s with tree := s.tree.set c x } := by
  refine advances_tree (fun d hd => ?_) fun d hd => ?_
  · rw [set_node] at hd
    split at hd
    next hdc => exact hdc ▸ hm.symm.trans hd
    next => exact hd
  · rw [set_node] at hd
    split at hd
    next hdc => exact hdc ▸ hu.symm.trans hd
    next => exact hd

theorem unlink_advances (c p : ι) (s : ChainState ι α) :
    s.Advances kinds { s with tree := unlink (fun _ => p) c s.tree } := by
  have hchain : s.Advances kinds
      { s with tree := s.tree.set c { s.tree.node c with linked := false } } := advances_set rfl rfl
  refine hchain.trans (advances_set ?_ ?_)
  · rw [set_node]
    split
    next hpc => rw [hpc]
    next => rfl
  · rw [set_node]
    split
    next hpc => rw [hpc]
    next => rfl

theorem MarkInv.insert (h : s.MarkInv kinds) (hsite : InsertSite s c p above) :
    (s.insert c p).ScanInv kinds [p] :=
  (MarkInv.setParent_some h hsite).advance (advances_set rfl rfl)

theorem MarkInv.of_scanInv (h : s.ScanInv kinds [p]) (hadv : s.Advances kinds s')
    (halarm : s'.Alarm p) : s'.MarkInv kinds :=
  ((h.advance hadv).leave fun _ _ _ _ => halarm).markInv

theorem parent_of_setParent_none {q : ι} (hq : (s.setParent c none).parent d = some q) :
    s.parent d = some q := by
  by_cases hdc : d = c
  · rw [hdc] at hq
    have hself : (s.setParent c none).parent c = none := Function.update_self _ _ _
    rw [hself] at hq
    cases hq
  · exact (Function.update_of_ne hdc _ _).symm.trans hq

/-- A chain leaves its parent. -/
theorem MarkInv.setParent_none (h : s.MarkInv kinds) (c : ι) :
    (s.setParent c none).MarkInv kinds :=
  ⟨fun q _ hd hi hf => h.marked q _ (parent_of_setParent_none hd) hi hf,
    fun _ q hd hi hf => h.doomed _ q (parent_of_setParent_none hd) hi hf⟩

/-- A chain without a parent may be destroyed. -/
theorem setDestroy_advances (kinds : ChainKinds ι) (hc : s.parent c = none) :
    s.Advances kinds (s.setDestroy c) := by
  have hother : ∀ d p, s.parent d = some p → (s.setDestroy c).destroy d = s.destroy d := by
    intro d p hd
    refine Function.update_of_ne ?_ _ _
    rintro rfl
    rw [hc] at hd
    cases hd
  have hkeep : ∀ d, s.destroy d = true → (s.setDestroy c).destroy d = true := by
    intro d hd
    by_cases hdc : d = c
    · rw [hdc]
      exact Function.update_self _ _ _
    · exact (Function.update_of_ne hdc _ _).trans hd
  refine ⟨rfl, fun d hd => hd.imp id (hkeep d), fun d p hd _ hf => Or.inl ?_,
    fun _ _ _ _ ho => Or.inl ho, hkeep, fun d p hd _ hf => Or.inl ?_⟩
  · rw [flagged_iff] at hf ⊢
    rw [hother d p hd] at hf
    exact hf
  · rw [hother d p hd] at hf
    exact hf

/-- A chain that is read is clean. -/
theorem MarkInv.get (h : s.MarkInv kinds) (hclean : s.flagged c = false) (p : ι) :
    (s.setParent c (some p)).MarkInv kinds := by
  have hold : ∀ d q, (s.setParent c (some p)).parent d = some q → s.parent d = some q ∨ d = c := by
    intro d q hq
    by_cases hdc : d = c
    · exact Or.inr hdc
    · exact Or.inl ((Function.update_of_ne hdc _ _).symm.trans hq)
  refine ⟨fun q d hd hi hf => ?_, fun d q hd hi hf => ?_⟩
  · rcases hold d q hd with hd | rfl
    · exact h.marked q d hd hi hf
    · exact absurd (hf.symm.trans hclean) Bool.false_ne_true.symm
  · rcases hold d q hd with hd | rfl
    · exact h.doomed d q hd hi hf
    · have hflag : s.flagged d = true := by
        rw [flagged_iff]
        exact Or.inr (Or.inr (Or.inr hf))
      exact absurd (hflag.symm.trans hclean) Bool.false_ne_true.symm

theorem MarkInv.create (h : s.MarkInv kinds) (hsite : InsertSite s c p above)
    (outcome : ModifyOutcome) : (s.create kinds c p above outcome).MarkInv kinds := by
  have hmod := modify_advances kinds hsite.ascended outcome
  have hpath : Ascends ((s.insert c p).modify kinds outcome c (p :: above)).1.parent
      (p :: above) := hmod.parent.symm ▸ hsite.ascended.2
  have hraise := setFlush_raises kinds hpath
  exact MarkInv.of_scanInv (MarkInv.insert h hsite) (hmod.trans hraise.advances)
    (Or.inl (setFlush_head p above))

theorem MarkInv.delete (h : s.MarkInv kinds) (hpath : Ascends s.parent (p :: above))
    (c : ι) (mapped permanent : Bool) (outcome : ModifyOutcome) :
    (s.delete kinds c p above mapped permanent outcome).MarkInv kinds := by
  unfold ChainState.delete
  have hmod : s.Advances kinds
      (if mapped = true then s.modify kinds outcome p above else (s, false)).1 := by
    split
    next => exact modify_advances kinds hpath outcome
    next => exact .refl s
  generalize (if mapped = true then s.modify kinds outcome p above else (s, false)) = res at hmod
  obtain ⟨s₁, failed⟩ := res
  have h₁ := h.advance hmod
  dsimp only
  cases failed with
  | true => exact h₁
  | false =>
    rw [if_neg Bool.false_ne_true]
    have h₂ := MarkInv.setParent_none (h₁.advance (unlink_advances c p s₁)) c
    generalize ({ s₁ with tree := unlink (fun _ => p) c s₁.tree } : ChainState ι α) = s₂ at h₂
    split
    next =>
      have hfree : (s₂.setParent c none).parent c = none := Function.update_self _ _ _
      have hdest := setDestroy_advances kinds hfree
      have hpath₁ : Ascends ((s₂.setParent c none).setDestroy c).parent [c] := ⟨hfree, trivial⟩
      have hraise := setFlush_raises kinds hpath₁
      exact h₂.advance (hdest.trans hraise.advances)
    next => exact h₂

theorem MarkInv.lastdrop (h : s.MarkInv kinds) (c : ι) : (s.lastdrop kinds c).MarkInv kinds := by
  unfold ChainState.lastdrop
  split
  next =>
    split
    next => exact h
    next => exact MarkInv.setParent_none h c
  next hfree =>
    split
    next => exact h.advance (clearUpdate_advances c s)
    next => exact h.advance ((setDestroy_advances kinds hfree).trans (clearUpdate_advances c _))

theorem ChainState.Unmounted.markInv (h : s.Unmounted) : s.MarkInv kinds := by
  refine ⟨fun p c hc => ?_, fun c p hc => ?_⟩
  · rw [h c] at hc
    cases hc
  · rw [h c] at hc
    cases hc

/-- A volume with an inode, an indirect block and a block of data, one below the other. -/
inductive SmallChain where
  | volume
  | inode
  | indirect
  | data
deriving DecidableEq

instance : Fintype SmallChain := ⟨{.volume, .inode, .indirect, .data}, fun c => by cases c <;> decide⟩

def SmallChain.addr : SmallChain → Nat
  | .volume => 0
  | .inode => 1
  | .indirect => 2
  | .data => 3

end Hammer2
