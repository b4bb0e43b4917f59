import Hammer2.SyncFlush

set_option linter.unusedSectionVars false

namespace Hammer2

open CowTree

variable {ι κ : Type} [DecidableEq ι] [DecidableEq κ]

section

variable {topo : Topology ι κ} {fails : BackendOp ι κ → Bool}

/-- The chains after stage 2, short of the volume root. -/
def finishTree (topo : Topology ι κ) (x : PmpInode) (t : Tree ι Nat) : Tree ι Nat :=
  flushAll topo.up topo.vchain topo.upper
    (flush topo.up topo.vchain (topo.chainOf topo.iroot)
      (flushAll topo.up topo.vchain (topo.index ++ topo.below topo.iroot)
        (storeMeta topo topo.iroot x t)))

/-- The chains on the way from an inode to the volume root. -/
def OnPath (topo : Topology ι κ) (c : ι) : Prop :=
  topo.place c = .index ∨ topo.place c = .inode topo.iroot ∨ topo.place c = .upper

theorem OnPath.ne_vchain {c : ι} (h : OnPath topo c) : c ≠ topo.vchain := by
  intro heq
  have hv := (topo.place_vchain c).mpr heq
  rcases h with h | h | h <;> rw [h] at hv <;> cases hv

theorem OnPath.closed {c : ι} (h : OnPath topo c) :
    topo.up c = topo.vchain ∨ OnPath topo (topo.up c) := by
  rcases h with h | h | h
  · rcases topo.up_index c h with h | h
    · exact Or.inr (Or.inl h)
    · exact Or.inr (Or.inr (Or.inl h))
  · rw [(topo.place_inode c _).mp h]
    rcases topo.up_iroot with h | h
    · exact Or.inr (Or.inr (Or.inr h))
    · exact Or.inl ((topo.place_vchain _).mp h)
  · rcases topo.up_upper c h with h | h
    · exact Or.inr (Or.inr (Or.inr h))
    · exact Or.inl ((topo.place_vchain _).mp h)

theorem mem_stage_two {c : ι} (hc : c ∈ topo.index ++ topo.below topo.iroot) :
    topo.place c = .index ∨ topo.place c = .below topo.iroot := by
  rcases List.mem_append.mp hc with h | h
  · exact Or.inl ((topo.mem_index c).mp h)
  · exact Or.inr ((topo.mem_below c _).mp h)

theorem stage_two_up {c : ι} (hc : c ∈ topo.index ++ topo.below topo.iroot) :
    topo.place (topo.up c) = .index ∨ topo.place (topo.up c) = .below topo.iroot ∨
      topo.place (topo.up c) = .inode topo.iroot := by
  rcases mem_stage_two hc with h | h
  · rcases topo.up_index c h with h | h
    · exact Or.inl h
    · exact Or.inr (Or.inr h)
  · rcases topo.up_below c _ h with h | h
    · exact Or.inr (Or.inl h)
    · exact Or.inr (Or.inr h)

theorem up_stage_two_ne : ∀ c ∈ topo.index ++ topo.below topo.iroot, topo.up c ≠ c := by
  intro c hc
  rcases mem_stage_two hc with h | h <;> refine up_ne_self ?_ <;> rw [h] <;> simp

theorem up_upper_ne : ∀ c ∈ topo.upper, topo.up c ≠ c := by
  intro c hc
  have h := (topo.mem_upper c).mp hc
  refine up_ne_self ?_
  rw [h]
  simp

theorem finishTree_keeps (d : ι) (x : PmpInode) (t : Tree ι Nat) :
    ((finishTree topo x t).node d).linked = (t.node d).linked ∧
      ((finishTree topo x t).node d).data =
        if d = topo.chainOf topo.iroot ∧ x.modified = true then x.metaData else (t.node d).data := by
  have h1 := @storeMeta_keeps _ _ _ _ topo topo.iroot d x t
  have h2 := flushAll_keeps topo.vchain (@up_stage_two_ne _ _ _ _ topo) (storeMeta topo topo.iroot x t) d
  have h3 := flush_keeps topo.vchain (@up_chainOf_ne _ _ _ _ topo topo.iroot)
    (flushAll topo.up topo.vchain (topo.index ++ topo.below topo.iroot)
      (storeMeta topo topo.iroot x t)) d
  have h4 := flushAll_keeps topo.vchain (@up_upper_ne _ _ _ _ topo)
    (flush topo.up topo.vchain (topo.chainOf topo.iroot)
      (flushAll topo.up topo.vchain (topo.index ++ topo.below topo.iroot)
        (storeMeta topo topo.iroot x t))) d
  exact ⟨(h4.2.trans h3.2).trans (h2.2.trans h1.1), (h4.1.trans h3.1).trans (h2.1.trans h1.2)⟩

/-- Stage 2 does not reach the chains of the inodes. -/
theorem finishTree_node {ip : κ} (hip : ip ≠ topo.iroot) (x : PmpInode) (t : Tree ι Nat) :
    (finishTree topo x t).node (topo.chainOf ip) = t.node (topo.chainOf ip) := by
  have hplace := @place_chainOf _ _ _ _ topo ip
  have hne : topo.chainOf ip ≠ topo.chainOf topo.iroot := fun h => hip (chainOf_inj h)
  have h1 : ∀ c ∈ topo.upper, topo.chainOf ip ≠ c ∧ topo.chainOf ip ≠ topo.up c := by
    intro c hc
    have hc := (topo.mem_upper c).mp hc
    refine ⟨?_, ?_⟩
    · intro heq
      rw [heq, hc] at hplace
      cases hplace
    · intro heq
      rw [heq] at hplace
      rcases topo.up_upper c hc with h | h <;> rw [h] at hplace <;> cases hplace
  have h2 : ∀ c ∈ topo.index ++ topo.below topo.iroot,
      topo.chainOf ip ≠ c ∧ topo.chainOf ip ≠ topo.up c := by
    intro c hc
    refine ⟨?_, ?_⟩
    · intro heq
      rw [heq] at hplace
      rcases mem_stage_two hc with h | h <;> rw [h] at hplace <;> cases hplace
    · intro heq
      rw [heq] at hplace
      rcases stage_two_up hc with h | h | h <;> rw [h] at hplace <;> cases hplace
      exact hip rfl
  unfold finishTree
  rw [flushAll_node_other h1, flush_node_other hne (up_chainOf_ne_inode hip),
    flushAll_node_other h2, storeMeta_node x t hne]

/-- Stage 2 from the PFS root up leaves the inode index alone. -/
theorem finishTree_index {c : ι} (hc : topo.place c = .index) (x : PmpInode) (t : Tree ι Nat) :
    (finishTree topo x t).node c =
      (flushAll topo.up topo.vchain topo.index (storeMeta topo topo.iroot x t)).node c := by
  have h1 : ∀ d ∈ topo.upper, c ≠ d ∧ c ≠ topo.up d := by
    intro d hd
    have hd := (topo.mem_upper d).mp hd
    refine ⟨?_, ?_⟩
    · rintro rfl
      rw [hc] at hd
      cases hd
    · rintro rfl
      rcases topo.up_upper d hd with h | h <;> rw [h] at hc <;> cases hc
  have h2 : c ≠ topo.chainOf topo.iroot := by
    rintro rfl
    rw [place_chainOf] at hc
    cases hc
  have h3 : c ≠ topo.up (topo.chainOf topo.iroot) := by
    rintro rfl
    rcases topo.up_iroot with h | h <;> rw [h] at hc <;> cases hc
  have h4 : ∀ d ∈ topo.below topo.iroot, c ≠ d ∧ c ≠ topo.up d := by
    intro d hd
    have hd := (topo.mem_below d _).mp hd
    refine ⟨?_, ?_⟩
    · rintro rfl
      rw [hc] at hd
      cases hd
    · rintro rfl
      rcases topo.up_below d _ hd with h | h <;> rw [h] at hc <;> cases hc
  unfold finishTree
  rw [flushAll_node_other h1, flush_node_other h2 h3, flushAll_append, flushAll_node_other h4]

theorem finishTree_settled {c : ι} (hc : OnPath topo c) (x : PmpInode) (t : Tree ι Nat) :
    Settled (finishTree topo x t) c := by
  rcases hc with hc | hc | hc
  · unfold Settled
    rw [finishTree_index hc]
    refine flushAll_settled topo.sorted_index ?_ _ c ((topo.mem_index c).mpr hc)
    intro d hd
    exact topo.rank_up d (OnPath.ne_vchain (Or.inl ((topo.mem_index d).mp hd)))
  · have h1 : ∀ d ∈ topo.upper, c ≠ d ∧ c ≠ topo.up d := by
      intro d hd
      have hd := (topo.mem_upper d).mp hd
      refine ⟨?_, ?_⟩
      · rintro rfl
        rw [hc] at hd
        cases hd
      · rintro rfl
        rcases topo.up_upper d hd with h | h <;> rw [h] at hc <;> cases hc
    unfold Settled finishTree
    rw [flushAll_node_other h1, (topo.place_inode c _).mp hc]
    exact flush_settled (up_chainOf_ne _) _
  · refine flushAll_settled topo.sorted_upper ?_ _ c ((topo.mem_upper c).mpr hc)
    intro d hd
    exact topo.rank_up d (OnPath.ne_vchain (Or.inr (Or.inr ((topo.mem_upper d).mp hd))))

/-- The chains that the sync leaves settled: those on the way up, and those of the dirty inodes. -/
def Flushed (topo : Topology ι κ) (entry : PmpState ι κ) (c : ι) : Prop :=
  OnPath topo c ∨ ∃ ip ∈ entry.syncq, ip ≠ topo.iroot ∧ (entry.inodes ip).deleting = false ∧
    c = topo.chainOf ip

theorem Flushed.ne_vchain {entry : PmpState ι κ} {c : ι} (h : Flushed topo entry c) :
    c ≠ topo.vchain := by
  rcases h with h | ⟨ip, _, _, _, rfl⟩
  · exact h.ne_vchain
  · exact chainOf_ne_vchain ip

theorem onPath_up_chainOf {ip : κ} (hip : ip ≠ topo.iroot) :
    OnPath topo (topo.up (topo.chainOf ip)) := by
  rcases topo.up_inode ip hip with h | h
  · exact Or.inl h
  · exact Or.inr (Or.inl h)

theorem Flushed.closed {entry : PmpState ι κ} {c : ι} (h : Flushed topo entry c) :
    topo.up c = topo.vchain ∨ Flushed topo entry (topo.up c) := by
  rcases h with h | ⟨ip, _, hip, _, rfl⟩
  · exact h.closed.imp_right Or.inl
  · exact Or.inr (Or.inl (onPath_up_chainOf hip))

theorem SyncInv.onPath_linked {entry s : PmpState ι κ} (h : SyncInv topo entry s) {c : ι}
    (hc : OnPath topo c) : (s.tree.node c).linked = true := by
  rcases hc with hc | hc | hc
  · exact h.linked_other c (fun ip => by rw [hc]; simp)
  · rw [(topo.place_inode c _).mp hc]
    exact h.iroot_linked.1
  · exact h.linked_other c (fun ip => by rw [hc]; simp)

theorem SyncInv.flushed {entry s : PmpState ι κ} (h : SyncInv topo entry s) (hq : s.syncq = []) {c : ι}
    (hc : Flushed topo entry c) :
    ((finishTree topo (s.inodes topo.iroot) s.tree).node c).linked = true ∧
      Settled (finishTree topo (s.inodes topo.iroot) s.tree) c := by
  rw [(finishTree_keeps c _ _).1]
  rcases hc with hc | ⟨ip, hin, hip, hdel, rfl⟩
  · exact ⟨h.onPath_linked hc, finishTree_settled hc _ _⟩
  · obtain ⟨hlinked, hset⟩ := h.done ip hin (by rw [hq]; simp)
    refine ⟨by rw [hlinked, hdel]; rfl, ?_⟩
    unfold Settled
    rw [finishTree_node hip]
    exact (hset hip).2

end

/-- There is no space for a new copy of the inode. -/
def inodeFails : BackendOp (Fin 4) (Fin 2) → Bool
  | .modify c => c = 3
  | _ => false

end Hammer2
