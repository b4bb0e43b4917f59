import Hammer2.FlushMarks

set_option linter.unusedSectionVars false

namespace Hammer2

open CowTree

variable {ι α : Type} [DecidableEq ι]
variable {kinds : ChainKinds ι} {call : FlushCall ι} {s s' : ChainState ι α} {r r' : FlushInfo ι α}
variable {active path above nodes : List ι} {c p : ι}

theorem clearUpdate_node (c d : ι) (s : ChainState ι α) : (s.clearUpdate c).tree.node d =
    if d = c then { s.tree.node c with update := false } else s.tree.node d :=
  set_node _ _ _ _

theorem clearUpdate_advances (c : ι) (s : ChainState ι α) : s.Advances kinds (s.clearUpdate c) := by
  refine advances_tree (fun d hd => ?_) fun d hd => ?_
  · rw [set_node] at hd
    split at hd
    next hdc => exact hdc ▸ hd
    next => exact hd
  · rw [set_node] at hd
    split at hd
    next => cases hd
    next => exact hd

theorem writeBack_advances (root c : ι) (s : ChainState ι α) :
    s.Advances kinds { s with tree := writeBack root c s.tree } := by
  refine advances_tree (fun d hd => ?_) fun d hd => ?_
  · rw [writeBack_node] at hd
    split at hd
    next => cases hd
    next => exact hd
  · rw [writeBack_node] at hd
    split at hd
    next hdc => exact hdc ▸ hd
    next => exact hd

theorem link_advances (c p : ι) (s : ChainState ι α) :
    s.Advances kinds { s with tree := link (fun _ => p) c s.tree } := by
  refine advances_tree (fun d hd => ?_) fun d hd => ?_
  · unfold link at hd
    rw [enter_node] at hd
    split at hd
    next hdp => exact hdp ▸ hd
    next =>
      split at hd
      next hdc => exact hdc ▸ hd
      next => exact hd
  · unfold link at hd
    rw [enter_node] at hd
    split at hd
    next hdp => exact hdp ▸ hd
    next =>
      split at hd
      next => cases hd
      next => exact hd

theorem inheritDestroy_destroy {parent : Option ι} {d : ι}
    (hd : (s.inheritDestroy parent c).destroy d = true) :
    s.destroy d = true ∨ (d = c ∧ parent.any s.destroy = true) := by
  unfold ChainState.inheritDestroy at hd
  split at hd
  next hp =>
    by_cases hdc : d = c
    · exact Or.inr ⟨hdc, hp⟩
    · exact Or.inl ((Function.update_of_ne hdc _ _).symm.trans hd)
  next => exact Or.inl hd

theorem inheritDestroy_keeps (parent : Option ι) {d : ι} (hd : s.destroy d = true) :
    (s.inheritDestroy parent c).destroy d = true := by
  unfold ChainState.inheritDestroy
  split
  next =>
    by_cases hdc : d = c
    · rw [hdc]
      exact Function.update_self _ _ _
    · exact (Function.update_of_ne hdc _ _).trans hd
  next => exact hd

theorem inheritDestroy_same (parent : Option ι) (c : ι) (s : ChainState ι α) :
    (s.inheritDestroy parent c).tree = s.tree ∧ (s.inheritDestroy parent c).parent = s.parent ∧
      (s.inheritDestroy parent c).onflush = s.onflush := by
  unfold ChainState.inheritDestroy
  split
  next => exact ⟨rfl, rfl, rfl⟩
  next => exact ⟨rfl, rfl, rfl⟩

theorem inheritDestroy_advances (kinds : ChainKinds ι) (c : ι) (s : ChainState ι α) :
    s.Advances kinds (s.inheritDestroy (s.parent c) c) := by
  obtain ⟨htree, hparent, honflush⟩ := inheritDestroy_same (s.parent c) c s
  have hdoom : ∀ d p, s.parent d = some p →
      (s.inheritDestroy (s.parent c) c).destroy d = true → s.destroy d = true ∨
        (s.inheritDestroy (s.parent c) c).destroy p = true := by
    intro d p hp hd
    rcases inheritDestroy_destroy hd with hd | ⟨rfl, hany⟩
    · exact Or.inl hd
    · rw [hp] at hany
      exact Or.inr (inheritDestroy_keeps _ hany)
  refine ⟨hparent, ?_, ?_, ?_, fun d hd => inheritDestroy_keeps _ hd,
    fun d p hp _ hd => hdoom d p hp hd⟩
  · exact fun d hd => hd.imp (fun ho => honflush ▸ ho) (inheritDestroy_keeps _)
  · intro d p hp _ hf
    rw [flagged_iff, htree, honflush] at hf
    rw [flagged_iff]
    rcases hf with hf | hf | hf | hf
    · exact Or.inl (Or.inl hf)
    · exact Or.inl (Or.inr (Or.inl hf))
    · exact Or.inl (Or.inr (Or.inr (Or.inl hf)))
    · rcases hdoom d p hp hf with hd | hd
      · exact Or.inl (Or.inr (Or.inr (Or.inr hd)))
      · exact Or.inr (Or.inr hd)
  · exact fun d p _ _ ho => Or.inl (honflush ▸ ho)

theorem inheritDestroy_within (parent : Option ι) (hc : c ∈ nodes) (path : List ι)
    (s : ChainState ι α) : s.Within nodes path (s.inheritDestroy parent c) := by
  obtain ⟨htree, hparent, honflush⟩ := inheritDestroy_same parent c s
  refine ⟨hparent, fun d _ _ => by rw [htree], fun d _ _ => by rw [honflush],
    fun d _ ho => by rw [honflush, ho], ?_⟩
  intro d hd
  unfold ChainState.inheritDestroy
  split
  next => exact Function.update_of_ne (ne_of_mem_of_not_mem hc hd).symm _ _
  next => rfl

/-- A chain that is flagged raises its parent. -/
theorem advances_raised (kinds : ChainKinds ι) {t : Tree ι α}
    (hpath : Ascends s.parent (c :: above)) (hother : ∀ d, d ≠ c → t.node d = s.tree.node d) :
    s.Advances kinds (ChainState.setFlush kinds above { s with tree := t }) := by
  have hraise := setFlush_raises kinds (s := { s with tree := t }) hpath.2
  have hhead : ∀ p, s.parent c = some p →
      (ChainState.setFlush kinds above { s with tree := t }).onflush p = true := by
    intro p hp
    rw [hpath.1] at hp
    cases above with
    | nil => cases hp
    | cons a above =>
      rw [← Option.some.inj hp]
      exact setFlush_head a above
  have hadv := hraise.advances
  refine ⟨hadv.parent, hadv.alarm, ?_, hadv.onflush, hadv.destroy, hadv.doomed⟩
  intro d p hp hi hf
  by_cases hdc : d = c
  · exact Or.inr (Or.inl (hhead p (hdc ▸ hp)))
  rcases hadv.flagged d p hp hi hf with hf | ha
  · refine Or.inl ?_
    rw [flagged_iff] at hf ⊢
    rw [hother d hdc] at hf
    exact hf
  · exact Or.inr ha

theorem touched_advances (kinds : ChainKinds ι) (hpath : Ascends s.parent (c :: above)) :
    s.Advances kinds
      (ChainState.setFlush kinds above { s with tree := touch kinds.vchain c s.tree }) :=
  advances_raised kinds hpath fun d hd => by rw [touch_node, if_neg hd]

theorem touched_within (kinds : ChainKinds ι) (hpath : Ascends s.parent (c :: above))
    (nodes : List ι) : s.Within nodes (c :: above)
      (ChainState.setFlush kinds above { s with tree := touch kinds.vchain c s.tree }) := by
  have hraise := setFlush_raises kinds
    (s := { s with tree := touch kinds.vchain c s.tree }) hpath.2
  have hw := hraise.toWithin nodes
  have htree : (ChainState.setFlush kinds above
      { s with tree := touch kinds.vchain c s.tree }).tree = touch kinds.vchain c s.tree := by
    rw [hraise.same]
  refine ⟨hw.parent, ?_, ?_, hw.keeps, hw.destroy⟩
  · intro d _ hd
    rw [htree, touch_node, if_neg]
    rintro rfl
    exact hd rfl
  · exact fun d hd hp => hw.onflush d hd fun hn => hp (List.mem_cons_of_mem _ hn)

theorem modify_advances (kinds : ChainKinds ι) (hpath : Ascends s.parent (c :: above))
    (outcome : ModifyOutcome) :
    s.Advances kinds (s.modify kinds outcome c above).1 := by
  have h := touched_advances kinds hpath
  have hset : ∀ e, s.Advances kinds { ChainState.setFlush kinds above
      { s with tree := touch kinds.vchain c s.tree } with chainError := e } :=
    fun e => ⟨h.parent, h.alarm, h.flagged, h.onflush, h.destroy, h.doomed⟩
  unfold ChainState.modify
  dsimp only
  split
  next => exact h
  next =>
    cases outcome with
    | done => exact hset _
    | ioError => exact hset _
    | noSpace =>
      dsimp only
      split
      next => exact hset _
      next => exact .refl s

theorem modify_within (kinds : ChainKinds ι) (hpath : Ascends s.parent (c :: above))
    (outcome : ModifyOutcome) (nodes : List ι) :
    s.Within nodes (c :: above) (s.modify kinds outcome c above).1 := by
  have h := touched_within kinds hpath nodes
  have hset : ∀ e, s.Within nodes (c :: above) { ChainState.setFlush kinds above
      { s with tree := touch kinds.vchain c s.tree } with chainError := e } :=
    fun e => ⟨h.parent, h.node, h.onflush, h.keeps, h.destroy⟩
  unfold ChainState.modify
  dsimp only
  split
  next => exact h
  next =>
    cases outcome with
    | done => exact hset _
    | ioError => exact hset _
    | noSpace =>
      dsimp only
      split
      next => exact hset _
      next => exact .refl nodes _ s

/-- What the bottom-up part does to a chain with the parents `path`. -/
structure BottomPost (kinds : ChainKinds ι) (call : FlushCall ι) (c : ι) (path : List ι)
    (r r' : FlushInfo ι α) : Prop where
  advances : r.Advances kinds r'.toChainState
  within : r.Within [c] path r'.toChainState
  onflush : r'.onflush c = r.onflush c
  error : r.error = true → r'.error = true
  written : r'.error = false → (r'.tree.node c).modified = false
  entered : r'.error = false → call.keepsParent kinds c = false ∨ path = [] →
    (r'.tree.node c).update = false

theorem flushModified_advances (kinds : ChainKinds ι) (hpath : s.parent c = path.head?) :
    s.Advances kinds (flushModified kinds c path s) := by
  have h := inheritDestroy_advances kinds c s
  rw [hpath] at h
  exact h.trans (writeBack_advances kinds.vchain c _)

theorem flushModified_node (c : ι) (path : List ι) (s : ChainState ι α) (d : ι) :
    (flushModified kinds c path s).tree.node d =
      if d = c then { s.tree.node c with modified := false } else s.tree.node d := by
  unfold flushModified
  dsimp only
  rw [writeBack_node, (inheritDestroy_same path.head? c s).1]

theorem flushModified_within (kinds : ChainKinds ι) (c : ι) (path : List ι) (s : ChainState ι α) :
    s.Within [c] path (flushModified kinds c path s) := by
  have h : s.Within [c] path (s.inheritDestroy path.head? c) :=
    inheritDestroy_within path.head? List.mem_cons_self path s
  refine h.trans (within_tree fun d hd _ => ?_)
  rw [writeBack_node, if_neg (ne_of_mem_of_not_mem List.mem_cons_self hd).symm]

theorem flushUpdate_spec (kinds : ChainKinds ι) (call : FlushCall ι)
    (hpath : Ascends r.parent (c :: path)) (hc : c ∉ path)
    (hmod : (r.tree.node c).modified = false) :
    BottomPost kinds call c path r (flushUpdate kinds call c path r) := by
  have hclear : BottomPost kinds call c path r { r with toChainState := r.clearUpdate c } := by
    refine ⟨clearUpdate_advances c _, within_tree fun d hd _ => ?_, rfl, id, fun _ => ?_,
      fun _ _ => ?_⟩
    · rw [set_node, if_neg (ne_of_mem_of_not_mem List.mem_cons_self hd).symm]
    · rw [clearUpdate_node, if_pos rfl]
      exact hmod
    · rw [clearUpdate_node, if_pos rfl]
  cases path with
  | nil => exact hclear
  | cons p above =>
    unfold flushUpdate
    dsimp only
    by_cases hkeep : call.keepsParent kinds c = true
    · rw [if_pos hkeep]
      refine ⟨.refl _, .refl _ _ _, rfl, id, fun _ => hmod, fun _ hno => ?_⟩
      rcases hno with hno | hno
      · rw [hkeep] at hno
        cases hno
      · cases hno
    rw [if_neg hkeep]
    by_cases hupd : (r.tree.node c).update = true
    swap
    · rw [if_neg hupd]
      exact ⟨.refl _, .refl _ _ _, rfl, id, fun _ => hmod, fun _ _ => by simpa using hupd⟩
    rw [if_pos hupd]
    by_cases hdest : r.destroy p = true
    · rw [if_pos hdest]
      exact hclear
    rw [if_neg hdest]
    have hcp : c ≠ p := fun heq => hc (heq ▸ List.mem_cons_self)
    have hadv := modify_advances kinds hpath.2 (call.outcome r.calls p)
    have hwithin := modify_within kinds hpath.2 (call.outcome r.calls p) []
    generalize r.modify kinds (call.outcome r.calls p) p above = res at hadv hwithin
    obtain ⟨s, failed⟩ := res
    dsimp only at hadv hwithin ⊢
    have honflush : s.onflush c = r.onflush c := hwithin.onflush c List.not_mem_nil hc
    have hnode : s.tree.node c = r.tree.node c :=
      hwithin.node c List.not_mem_nil fun heq => hcp (Option.some.inj heq).symm
    have hw : r.Within [c] (p :: above) s :=
      hwithin.mono fun d hd => absurd hd List.not_mem_nil
    cases failed with
    | true =>
      rw [if_pos rfl]
      exact ⟨hadv, hw, honflush, fun _ => rfl, fun h => absurd h Bool.false_ne_true.symm,
        fun h => absurd h Bool.false_ne_true.symm⟩
    | false =>
      rw [if_neg Bool.false_ne_true]
      have hlink : (link (fun _ => p) c s.tree).node c =
          { r.tree.node c with update := false } := by
        unfold link
        rw [enter_node, if_neg hcp, if_pos rfl, hnode]
      refine ⟨hadv.trans (link_advances c p s), hw.trans (within_tree fun d hd hdp => ?_), honflush,
        id, fun _ => ?_, fun _ _ => ?_⟩
      · unfold link
        rw [enter_node, if_neg fun heq => hdp (congrArg some heq.symm),
          if_neg (ne_of_mem_of_not_mem List.mem_cons_self hd).symm]
      · change ((link (fun _ => p) c s.tree).node c).modified = false
        rw [hlink]
        exact hmod
      · change ((link (fun _ => p) c s.tree).node c).update = false
        rw [hlink]

theorem flushBottom_spec (kinds : ChainKinds ι) (call : FlushCall ι)
    (hpath : Ascends r.parent (c :: path)) (hc : c ∉ path) :
    BottomPost kinds call c path r (flushBottom kinds call c path r) := by
  unfold flushBottom
  by_cases herr : (path.head?.any r.chainError || r.chainError c) = true
  · rw [if_pos herr]
    exact ⟨.refl _, .refl _ _ _, rfl, fun _ => rfl, fun h => absurd h Bool.false_ne_true.symm,
      fun h => absurd h Bool.false_ne_true.symm⟩
  rw [if_neg herr]
  have hadv := flushModified_advances kinds hpath.1
  have hwithin := flushModified_within kinds c path r.toChainState
  have hmod : ((flushModified kinds c path r.toChainState).tree.node c).modified = false := by
    rw [flushModified_node, if_pos rfl]
  have honflush : (flushModified kinds c path r.toChainState).onflush c = r.onflush c := by
    unfold flushModified
    dsimp only
    rw [(inheritDestroy_same path.head? c r.toChainState).2.2]
  have hpath' : Ascends (flushModified kinds c path r.toChainState).parent (c :: path) :=
    hadv.parent.symm ▸ hpath
  have h := flushUpdate_spec kinds call
    (r := { r with toChainState := flushModified kinds c path r.toChainState }) hpath' hc hmod
  exact ⟨hadv.trans h.advances, hwithin.trans h.within, h.onflush.trans honflush, h.error,
    h.written, h.entered⟩

end Hammer2
