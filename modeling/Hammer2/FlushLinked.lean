import Hammer2.FlushPlain

set_option linter.unusedSectionVars false

namespace Hammer2

open CowTree

variable {ι α : Type} [DecidableEq ι] {c d p : ι} {path above : List ι}

/-- Every chain in the block table of its parent stays there. -/
def KeepsLinked (t t' : Tree ι α) : Prop := ∀ d, (t'.node d).linked = (t.node d).linked

theorem KeepsLinked.trans {t t' t'' : Tree ι α} (h : KeepsLinked t t') (h' : KeepsLinked t' t'') :
    KeepsLinked t t'' := fun d => (h' d).trans (h d)

theorem keepsLinked_set {x : CowTree.Node ι α} {t : Tree ι α} (h : x.linked = (t.node c).linked) :
    KeepsLinked t (t.set c x) := by
  intro d
  rw [set_node]
  split
  next hd => rw [hd, h]
  next => rfl

theorem keepsLinked_touch (root c : ι) (t : Tree ι α) : KeepsLinked t (touch root c t) := by
  intro d
  rw [touch_node]
  split
  next hd => rw [hd]
  next => rfl

section

variable {s s' : ChainState ι α} {r r' : FlushInfo ι α} {scanKids : FlushInfo ι α → FlushInfo ι α}

theorem modify_keepsLinked (kinds : ChainKinds ι) (outcome : ModifyOutcome) (c : ι)
    (above : List ι) (s : ChainState ι α) :
    KeepsLinked s.tree (s.modify kinds outcome c above).1.tree := by
  have htouch : KeepsLinked s.tree
      (ChainState.setFlush kinds above { s with tree := touch kinds.vchain c s.tree }).tree := by
    rw [setFlush_tree]
    exact keepsLinked_touch kinds.vchain c s.tree
  unfold ChainState.modify
  dsimp only
  split
  next => exact htouch
  next =>
    cases outcome with
    | done => exact htouch
    | ioError => exact htouch
    | noSpace =>
      dsimp only
      split
      next => exact htouch
      next => exact fun _ => rfl

end

section

variable {kinds : ChainKinds ι} {s s' : ChainState ι α}

/-- A chain with a parent is in its block table, or will be with the next flush. -/
def ChainState.Linked (s : ChainState ι α) : Prop :=
  ∀ c p, s.parent c = some p → (s.tree.node c).linked = true

theorem ChainState.Linked.keep (h : s.Linked)
    (hparent : ∀ c p, s'.parent c = some p → s.parent c = some p)
    (hkeep : KeepsLinked s.tree s'.tree) : s'.Linked :=
  fun c p hp => (hkeep c).trans (h c p (hparent c p hp))

theorem ChainState.Linked.insert (h : s.Linked) (c p : ι) : (s.insert c p).Linked := by
  intro d q hq
  change ((s.tree.set c { s.tree.node c with linked := true }).node d).linked = true
  rw [set_node]
  split
  next => rfl
  next hdc => exact h d q ((Function.update_of_ne hdc _ _).symm.trans hq)

theorem ChainState.Linked.setFlush (h : s.Linked) (path : List ι) :
    (s.setFlush kinds path).Linked := by
  rw [setFlush_same]
  exact h

theorem ChainState.Linked.modify (h : s.Linked) (outcome : ModifyOutcome)
    (hpath : Ascends s.parent (c :: path)) : (s.modify kinds outcome c path).1.Linked := by
  refine h.keep (fun d p hp => ?_) (modify_keepsLinked kinds outcome c path s)
  rw [← (modify_advances kinds hpath outcome).parent]
  exact hp

theorem ChainState.Linked.delete (h : s.Linked) (hpath : Ascends s.parent (p :: above)) (c : ι)
    (mapped permanent : Bool) (outcome : ModifyOutcome) :
    (s.delete kinds c p above mapped permanent outcome).Linked := by
  unfold ChainState.delete
  have hmod : (if mapped = true then s.modify kinds outcome p above else (s, false)).1.Linked := by
    split
    next => exact h.modify outcome hpath
    next => exact h
  generalize (if mapped = true then s.modify kinds outcome p above else (s, false)) = res at hmod
  obtain ⟨s₁, failed⟩ := res
  dsimp only
  cases failed with
  | true => exact hmod
  | false =>
    rw [if_neg Bool.false_ne_true]
    have hout : ({ s₁ with tree := unlink (fun _ => p) c s₁.tree }.setParent c none).Linked := by
      intro d q hq
      have hdc : d ≠ c := by
        rintro rfl
        exact absurd ((Function.update_self _ _ _).symm.trans hq) (Option.some_ne_none q).symm
      have hl := hmod d q (parent_of_setParent_none hq)
      change ((unlink (fun _ => p) c s₁.tree).node d).linked = true
      unfold unlink
      rw [enter_node]
      rw [if_neg hdc]
      split
      next hdp => exact hdp ▸ hl
      next => exact hl
    split
    next =>
      refine ChainState.Linked.setFlush ?_ [c]
      exact hout.keep (fun _ _ hp => hp) fun _ => rfl
    next => exact hout

theorem ChainState.Linked.lastdrop (h : s.Linked) (c : ι) : (s.lastdrop kinds c).Linked := by
  unfold ChainState.lastdrop
  split
  next =>
    split
    next => exact h
    next => exact h.keep (fun _ _ hp => parent_of_setParent_none hp) fun _ => rfl
  next =>
    split
    next => exact h.keep (fun _ _ hp => hp) (keepsLinked_set rfl)
    next => exact h.keep (fun _ _ hp => hp) (keepsLinked_set rfl)

end

end Hammer2
