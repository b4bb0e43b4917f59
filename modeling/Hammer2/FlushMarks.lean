import Hammer2.FlushCore

set_option linter.unusedSectionVars false

namespace Hammer2

open CowTree

variable {ι α : Type} [DecidableEq ι]

/-- A flush that comes to the chain goes on below it. -/
def ChainState.Alarm (s : ChainState ι α) (c : ι) : Prop := s.onflush c = true ∨ s.destroy c = true

/-- Nothing below the chain is forgotten. Inodes are left to the syncer. -/
def ChainState.Marked (kinds : ChainKinds ι) (s : ChainState ι α) (p : ι) : Prop :=
  ∀ c, s.parent c = some p → kinds.inode c = false → s.flagged c = true → s.Alarm p

/-- What is to be destroyed is to be destroyed from its inode on. -/
def ChainState.Doomed (kinds : ChainKinds ι) (s : ChainState ι α) : Prop :=
  ∀ c p, s.parent c = some p → kinds.inode c = false → s.destroy c = true → s.destroy p = true

structure ChainState.MarkInv (kinds : ChainKinds ι) (s : ChainState ι α) : Prop where
  marked : ∀ p, s.Marked kinds p
  doomed : s.Doomed kinds

/-- The invariant during a flush. The chains whose children are being scanned have lost their
`ONFLUSH`, and get it back only together with their parents. -/
structure ChainState.ScanInv (kinds : ChainKinds ι) (active : List ι) (s : ChainState ι α) :
    Prop where
  marked : ∀ p, p ∉ active → s.Marked kinds p
  raised : ∀ c p, c ∈ active → s.parent c = some p → kinds.inode c = false → s.onflush c = true →
    s.Alarm p
  doomed : s.Doomed kinds

/-- Each chain of a list has the next one as its parent, and the last one has none. -/
def Ascends (parent : ι → Option ι) : List ι → Prop
  | [] => True
  | c :: above => parent c = above.head? ∧ Ascends parent above

/-- The state changes only in marks that are set, each together with that of the parent. -/
structure ChainState.Raises (kinds : ChainKinds ι) (path : List ι) (s s' : ChainState ι α) :
    Prop where
  same : s' = { s with onflush := s'.onflush }
  keeps : ∀ c, s.onflush c = true → s'.onflush c = true
  within : ∀ c, c ∉ path → s'.onflush c = s.onflush c
  climbs : ∀ c p, s'.onflush c = true → s.onflush c = false → s.parent c = some p →
    kinds.inode c = false → s'.onflush p = true

variable {kinds : ChainKinds ι} {s s' s'' : ChainState ι α} {active path above : List ι} {c p : ι}

theorem ChainState.Raises.refl (path : List ι) (s : ChainState ι α) : s.Raises kinds path s := by
  refine ⟨rfl, fun _ h => h, fun _ _ => rfl, ?_⟩
  intro c p h h'
  rw [h] at h'
  cases h'

theorem setFlush_keeps (path : List ι) (h : s.onflush c = true) :
    (s.setFlush kinds path).onflush c = true := by
  induction path generalizing s with
  | nil => exact h
  | cons a above ih =>
    unfold ChainState.setFlush
    split
    next => exact h
    next ha =>
      have hset : Function.update s.onflush a true c = true := by
        by_cases hca : c = a
        · rw [hca]
          exact Function.update_self _ _ _
        · rw [Function.update_of_ne hca]
          exact h
      dsimp only
      split
      next => exact hset
      next => exact ih hset

theorem setFlush_head (c : ι) (above : List ι) :
    (s.setFlush kinds (c :: above)).onflush c = true := by
  unfold ChainState.setFlush
  split
  next hc => exact hc
  next =>
    have hset : Function.update s.onflush c true c = true := Function.update_self _ _ _
    dsimp only
    split
    next => exact hset
    next => exact setFlush_keeps above hset

theorem setFlush_raises (kinds : ChainKinds ι) (hpath : Ascends s.parent path) :
    s.Raises kinds path (s.setFlush kinds path) := by
  induction path generalizing s with
  | nil => exact .refl [] s
  | cons c above ih =>
    unfold ChainState.setFlush
    by_cases hc : s.onflush c = true
    · rw [if_pos hc]
      exact .refl _ s
    rw [if_neg hc]
    have hself : Function.update s.onflush c true c = true := Function.update_self _ _ _
    have hother : ∀ d, d ≠ c → Function.update s.onflush c true d = s.onflush d :=
      fun d hd => Function.update_of_ne hd _ _
    have hset : ∀ d, s.onflush d = true → Function.update s.onflush c true d = true := by
      intro d hd
      by_cases hdc : d = c
      · rw [hdc, hself]
      · rw [hother d hdc, hd]
    dsimp only
    by_cases hi : kinds.inode c = true
    · rw [if_pos hi]
      refine ⟨rfl, hset, fun d hd => hother d fun h => hd (h.symm ▸ List.mem_cons_self), ?_⟩
      intro d p hd hd' _ hnot
      by_cases hdc : d = c
      · rw [hdc, hi] at hnot
        cases hnot
      · have hd'' : s.onflush d = true := (hother d hdc).symm.trans hd
        rw [hd''] at hd'
        cases hd'
    rw [if_neg hi]
    obtain ⟨hsame, hkeeps, hwithin, hclimbs⟩ := ih
      (s := { s with onflush := Function.update s.onflush c true }) hpath.2
    refine ⟨?_, fun d hd => hkeeps d (hset d hd), ?_, ?_⟩
    · exact hsame
    · intro d hd
      rw [hwithin d fun h => hd (List.mem_cons_of_mem _ h)]
      exact hother d fun h => hd (h.symm ▸ List.mem_cons_self)
    · intro d p hd hd' hp hnot
      by_cases hdc : d = c
      · rw [hdc, hpath.1] at hp
        cases above with
        | nil => cases hp
        | cons a above =>
          rw [← Option.some.inj hp]
          exact setFlush_head a above
      · exact hclimbs d p hd ((hother d hdc).trans hd') hp hnot

/-- What a step may do to the marks: alarms stay, and what is newly flagged or to be destroyed has
its parent raised or to be destroyed as well. -/
structure ChainState.Advances (kinds : ChainKinds ι) (s s' : ChainState ι α) : Prop where
  parent : s'.parent = s.parent
  alarm : ∀ c, s.Alarm c → s'.Alarm c
  flagged : ∀ c p, s.parent c = some p → kinds.inode c = false → s'.flagged c = true →
    s.flagged c = true ∨ s'.Alarm p
  onflush : ∀ c p, s.parent c = some p → kinds.inode c = false → s'.onflush c = true →
    s.onflush c = true ∨ s'.Alarm p
  destroy : ∀ c, s.destroy c = true → s'.destroy c = true
  doomed : ∀ c p, s.parent c = some p → kinds.inode c = false → s'.destroy c = true →
    s.destroy c = true ∨ s'.destroy p = true

/-- What a flush of the chains `nodes` below `path` leaves alone. -/
structure ChainState.Within (nodes path : List ι) (s s' : ChainState ι α) : Prop where
  parent : s'.parent = s.parent
  node : ∀ c, c ∉ nodes → path.head? ≠ some c → s'.tree.node c = s.tree.node c
  onflush : ∀ c, c ∉ nodes → c ∉ path → s'.onflush c = s.onflush c
  keeps : ∀ c, c ∉ nodes → s.onflush c = true → s'.onflush c = true
  destroy : ∀ c, c ∉ nodes → s'.destroy c = s.destroy c

theorem flagged_iff : s.flagged c = true ↔ (s.tree.node c).modified = true ∨
    (s.tree.node c).update = true ∨ s.onflush c = true ∨ s.destroy c = true := by
  simp [ChainState.flagged, or_assoc]

theorem ChainState.Advances.refl (s : ChainState ι α) : s.Advances kinds s :=
  ⟨rfl, fun _ h => h, fun _ _ _ _ h => Or.inl h, fun _ _ _ _ h => Or.inl h, fun _ h => h,
    fun _ _ _ _ h => Or.inl h⟩

theorem ChainState.Advances.trans (h : s.Advances kinds s') (h' : s'.Advances kinds s'') :
    s.Advances kinds s'' := by
  refine ⟨h'.parent.trans h.parent, fun c hc => h'.alarm c (h.alarm c hc), ?_, ?_,
    fun c hc => h'.destroy c (h.destroy c hc), ?_⟩
  · intro c p hp hi hf
    rcases h'.flagged c p (h.parent ▸ hp) hi hf with hf | ha
    · exact (h.flagged c p hp hi hf).imp id (h'.alarm p)
    · exact Or.inr ha
  · intro c p hp hi hf
    rcases h'.onflush c p (h.parent ▸ hp) hi hf with hf | ha
    · exact (h.onflush c p hp hi hf).imp id (h'.alarm p)
    · exact Or.inr ha
  · intro c p hp hi hf
    rcases h'.doomed c p (h.parent ▸ hp) hi hf with hf | ha
    · exact (h.doomed c p hp hi hf).imp id (h'.destroy p)
    · exact Or.inr ha

theorem ChainState.Within.refl (nodes path : List ι) (s : ChainState ι α) : s.Within nodes path s :=
  ⟨rfl, fun _ _ _ => rfl, fun _ _ _ => rfl, fun _ _ h => h, fun _ _ => rfl⟩

theorem ChainState.Within.trans {nodes : List ι} (h : s.Within nodes path s')
    (h' : s'.Within nodes path s'') : s.Within nodes path s'' :=
  ⟨h'.parent.trans h.parent, fun c hc hp => (h'.node c hc hp).trans (h.node c hc hp),
    fun c hc hp => (h'.onflush c hc hp).trans (h.onflush c hc hp),
    fun c hc ho => h'.keeps c hc (h.keeps c hc ho),
    fun c hc => (h'.destroy c hc).trans (h.destroy c hc)⟩

theorem ChainState.Within.mono {nodes nodes' : List ι} (h : s.Within nodes path s')
    (hsub : ∀ c ∈ nodes, c ∈ nodes') : s.Within nodes' path s' :=
  ⟨h.parent, fun c hc => h.node c fun hn => hc (hsub c hn),
    fun c hc => h.onflush c fun hn => hc (hsub c hn),
    fun c hc => h.keeps c fun hn => hc (hsub c hn),
    fun c hc => h.destroy c fun hn => hc (hsub c hn)⟩

/-- What stays below a chain stays below its parent with it. -/
theorem ChainState.Within.lift {nodes : List ι} (h : s.Within nodes (c :: path) s') :
    s.Within (c :: nodes) path s' := by
  refine ⟨h.parent, ?_, ?_, ?_, ?_⟩
  · intro d hd _
    refine h.node d (fun hn => hd (List.mem_cons_of_mem _ hn)) ?_
    intro hc
    exact hd (List.mem_cons.mpr (Or.inl (Option.some.inj hc).symm))
  · intro d hd hp
    refine h.onflush d (fun hn => hd (List.mem_cons_of_mem _ hn)) ?_
    intro hc
    rcases List.mem_cons.mp hc with rfl | hc
    · exact hd List.mem_cons_self
    · exact hp hc
  · exact fun d hd => h.keeps d fun hn => hd (List.mem_cons_of_mem _ hn)
  · exact fun d hd => h.destroy d fun hn => hd (List.mem_cons_of_mem _ hn)

theorem ChainState.MarkInv.advance (h : s.MarkInv kinds) (ha : s.Advances kinds s') :
    s'.MarkInv kinds := by
  refine ⟨?_, ?_⟩
  · intro p c hp hi hf
    rw [ha.parent] at hp
    rcases ha.flagged c p hp hi hf with hf | hp'
    · exact ha.alarm p (h.marked p c hp hi hf)
    · exact hp'
  · intro c p hp hi hd
    rw [ha.parent] at hp
    rcases ha.doomed c p hp hi hd with hd | hp'
    · exact ha.destroy p (h.doomed c p hp hi hd)
    · exact hp'

theorem ChainState.ScanInv.advance (h : s.ScanInv kinds active) (ha : s.Advances kinds s') :
    s'.ScanInv kinds active := by
  refine ⟨?_, ?_, ?_⟩
  · intro p hpa c hp hi hf
    rw [ha.parent] at hp
    rcases ha.flagged c p hp hi hf with hf | hp'
    · exact ha.alarm p (h.marked p hpa c hp hi hf)
    · exact hp'
  · intro c p hc hp hi ho
    rw [ha.parent] at hp
    rcases ha.onflush c p hp hi ho with ho | hp'
    · exact ha.alarm p (h.raised c p hc hp hi ho)
    · exact hp'
  · intro c p hp hi hd
    rw [ha.parent] at hp
    rcases ha.doomed c p hp hi hd with hd | hp'
    · exact ha.destroy p (h.doomed c p hp hi hd)
    · exact hp'

theorem ChainState.MarkInv.scanInv (h : s.MarkInv kinds) : s.ScanInv kinds [] :=
  ⟨fun p _ => h.marked p, fun _ _ hc => absurd hc List.not_mem_nil, h.doomed⟩

theorem ChainState.ScanInv.markInv (h : s.ScanInv kinds []) : s.MarkInv kinds :=
  ⟨fun p => h.marked p List.not_mem_nil, h.doomed⟩

/-- The scan of a chain begins, with its `ONFLUSH` cleared. -/
theorem ChainState.ScanInv.enter {active' : List ι} (h : s.ScanInv kinds active')
    (hle : ∀ q ∈ active', q ∈ c :: active) (hge : ∀ q ∈ active, q ∈ active')
    (hkids : ∀ q ∈ active, s.parent q ≠ some c) :
    (s.clearOnflush c).ScanInv kinds (c :: active) := by
  have hother : ∀ d, d ≠ c → (s.clearOnflush c).onflush d = s.onflush d :=
    fun d hd => Function.update_of_ne hd _ _
  have hsub : ∀ d, (s.clearOnflush c).onflush d = true → d ≠ c ∧ s.onflush d = true := by
    intro d hd
    by_cases hdc : d = c
    · rw [hdc] at hd
      have hself : (s.clearOnflush c).onflush c = false := Function.update_self _ _ _
      rw [hself] at hd
      cases hd
    · exact ⟨hdc, (hother d hdc).symm.trans hd⟩
  have halarm : ∀ d, d ≠ c → s.Alarm d → (s.clearOnflush c).Alarm d := by
    intro d hd ha
    exact ha.imp (fun ho => (hother d hd).trans ho) id
  refine ⟨?_, ?_, h.doomed⟩
  · intro p hp d hd hi hf
    have hpc : p ≠ c := fun heq => hp (heq ▸ List.mem_cons_self)
    refine halarm p hpc (h.marked p (fun hn => hp (hle p hn)) d hd hi ?_)
    rw [flagged_iff] at hf ⊢
    exact hf.imp id (Or.imp id (Or.imp (fun ho => (hsub d ho).2) id))
  · intro d p hd hp hi ho
    obtain ⟨hdc, ho⟩ := hsub d ho
    have hda := (List.mem_cons.mp hd).resolve_left hdc
    have hpc : p ≠ c := fun heq => hkids d hda (heq ▸ hp)
    exact halarm p hpc (h.raised d p (hge d hda) hp hi ho)

theorem ChainState.ScanInv.leave (h : s.ScanInv kinds (c :: active)) (hm : s.Marked kinds c) :
    s.ScanInv kinds active := by
  refine ⟨?_, fun d p hd => h.raised d p (List.mem_cons_of_mem _ hd), h.doomed⟩
  intro p hp
  by_cases hpc : p = c
  · exact hpc ▸ hm
  · exact h.marked p fun hn => (List.mem_cons.mp hn).elim hpc hp

theorem ChainState.Raises.advances (h : s.Raises kinds path s') : s.Advances kinds s' := by
  have htree : s'.tree = s.tree := by rw [h.same]
  have hdestroy : s'.destroy = s.destroy := by rw [h.same]
  have hnew : ∀ c p, s.parent c = some p → kinds.inode c = false → s'.onflush c = true →
      s.onflush c = true ∨ s'.Alarm p := by
    intro c p hp hi ho
    by_cases hc : s.onflush c = true
    · exact Or.inl hc
    · exact Or.inr (Or.inl (h.climbs c p ho (by simpa using hc) hp hi))
  refine ⟨by rw [h.same], ?_, ?_, hnew, fun c hc => hdestroy ▸ hc, ?_⟩
  · exact fun c hc => hc.imp (h.keeps c) fun hd => hdestroy ▸ hd
  · intro c p hp hi hf
    rw [flagged_iff, htree, hdestroy] at hf
    rw [flagged_iff]
    rcases hf with hf | hf | hf | hf
    · exact Or.inl (Or.inl hf)
    · exact Or.inl (Or.inr (Or.inl hf))
    · exact (hnew c p hp hi hf).imp (fun ho => Or.inr (Or.inr (Or.inl ho))) id
    · exact Or.inl (Or.inr (Or.inr (Or.inr hf)))
  · exact fun c p _ _ hd => Or.inl (hdestroy ▸ hd)

theorem ChainState.Raises.toWithin (h : s.Raises kinds path s') (nodes : List ι) :
    s.Within nodes path s' := by
  have htree : s'.tree = s.tree := by rw [h.same]
  have hdestroy : s'.destroy = s.destroy := by rw [h.same]
  exact ⟨by rw [h.same], fun c _ _ => by rw [htree], fun c _ hp => h.within c hp,
    fun c _ => h.keeps c, fun c _ => by rw [hdestroy]⟩

/-- A change of the tree that flags nothing. -/
theorem advances_tree {t : Tree ι α}
    (hmod : ∀ c, (t.node c).modified = true → (s.tree.node c).modified = true)
    (hupd : ∀ c, (t.node c).update = true → (s.tree.node c).update = true) :
    s.Advances kinds { s with tree := t } := by
  refine ⟨rfl, fun _ h => h, ?_, fun _ _ _ _ h => Or.inl h, fun _ h => h,
    fun _ _ _ _ h => Or.inl h⟩
  intro c p _ _ hf
  rw [flagged_iff] at hf ⊢
  exact Or.inl (hf.imp (hmod c) (Or.imp (hupd c) id))

theorem within_tree {t : Tree ι α} {nodes : List ι}
    (h : ∀ c, c ∉ nodes → path.head? ≠ some c → t.node c = s.tree.node c) :
    s.Within nodes path { s with tree := t } :=
  ⟨rfl, h, fun _ _ _ => rfl, fun _ _ ho => ho, fun _ _ => rfl⟩

end Hammer2
