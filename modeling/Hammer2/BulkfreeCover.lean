import Hammer2.BulkfreeTree

namespace Hammer2

/-- No error but `HAMMER2_ERROR_CHECK`, and possibly the end of the scan. -/
def Clean (error : BitVec 32) : Prop := error &&& ~~~(errCheck ||| errEof) = 0

instance (error : BitVec 32) : Decidable (Clean error) := inferInstanceAs (Decidable (_ = _))

@[simp]
theorem clean_or {a b : BitVec 32} : Clean (a ||| b) ↔ Clean a ∧ Clean b := by
  unfold Clean
  rw [BitVec.and_or_distrib_right]
  exact BitVec.or_eq_zero_iff

@[simp]
theorem clean_and_not_eof {a : BitVec 32} : Clean (a &&& ~~~errEof) ↔ Clean a := by
  have hmask : ~~~errEof &&& ~~~(errCheck ||| errEof) = ~~~(errCheck ||| errEof) := by decide
  unfold Clean
  rw [BitVec.and_assoc, hmask]

theorem Clean.not_aborted {a : BitVec 32} (h : Clean a) : a &&& errAborted = 0 := by
  have hmask : ~~~(errCheck ||| errEof) &&& errAborted = errAborted := by decide
  unfold Clean at h
  rw [← hmask, ← BitVec.and_assoc, h]
  exact BitVec.zero_and

theorem not_fatal_iff {a : BitVec 32} : ¬Fatal a ↔ Clean a ∧ a &&& errEof = 0 := by
  have hsplit : ~~~(errCheck ||| errEof) ||| errEof = ~~~errCheck := by decide
  unfold Fatal Clean
  rw [not_not, ← hsplit, BitVec.and_or_distrib_left]
  exact BitVec.or_eq_zero_iff

theorem fatal_or_aborted (a : BitVec 32) : Fatal (a ||| errAborted) := by
  by_contra hno
  exact absurd (clean_or.mp (not_fatal_iff.mp hno).1).2 (by decide)

theorem or_and_eof {a b : BitVec 32} (ha : a &&& errEof = 0) (hb : b &&& errEof = 0) :
    (a ||| b) &&& errEof = 0 := by
  rw [BitVec.and_or_distrib_right, ha, hb]
  exact BitVec.or_zero

theorem and_not_eof_and_eof (a : BitVec 32) : (a &&& ~~~errEof) &&& errEof = 0 := by
  have hmask : ~~~errEof &&& errEof = 0 := by decide
  rw [BitVec.and_assoc, hmask]
  exact BitVec.and_zero

/-- The blocks that the scan may enter: a block with a check error is entered, what lies below it
is not. -/
inductive BlockGraph.Block (graph : BlockGraph) : Extent → Prop
  | root : graph.Block volumeData
  | child {x : Extent} {bref : Blockref} : graph.Block x → graph.error x &&& errCheck = 0 →
      bref ∈ graph.base x → bref.data.off ≠ 0 → bref.type.recurses = true → graph.Block bref.data

/-- A blockref with storage that is reachable from the root of the snapshot, not below a block with
a check error. -/
def BlockGraph.Reaches (graph : BlockGraph) (bref : Blockref) : Prop :=
  ∃ x, graph.Block x ∧ graph.error x &&& errCheck = 0 ∧ bref ∈ graph.base x ∧ bref.data.off ≠ 0

/-- Blockref arrays are in key order, extents are shaped as the allocator makes them, and the
blockrefs that share a block agree on whether it holds blockrefs itself. -/
structure BlockGraph.WellFormed (graph : BlockGraph) : Prop where
  ordered : ∀ x, graph.Block x →
    KeyOrdered ((graph.base x).map fun bref => Node.mk bref false [])
  shaped : ∀ bref, graph.Reaches bref → bref.data.Shaped
  typed : ∀ bref, graph.Reaches bref → graph.Block bref.data → bref.type.recurses = true

theorem BlockGraph.WellFormed.scan_eq {graph : BlockGraph} {x : Extent} (h : graph.WellFormed)
    (hx : graph.Block x) : graph.scan x = graph.base x := by
  unfold BlockGraph.scan
  rw [chainScan_eq (h.ordered x hx), List.map_map]
  exact List.map_id _

/-- Everything that the block refers to has been passed to the callback. -/
def BlockGraph.Complete (graph : BlockGraph) (x : Extent) (done : List (Nat × Extent)) : Prop :=
  ∀ bref ∈ graph.base x, bref.data.off ≠ 0 → bref.data ∈ scanned done

theorem BlockGraph.Complete.mono {graph : BlockGraph} {x : Extent} {done done' : List (Nat × Extent)}
    (h : graph.Complete x done) (hsub : scanned done ⊆ scanned done') : graph.Complete x done' :=
  fun bref hmem hoff => hsub (h bref hmem hoff)

theorem scanned_concat (done : List (Nat × Extent)) (type : Nat) (e : Extent) :
    scanned (done ++ [(type, e)]) = insert e (scanned done) := by
  ext f
  simp only [scanned, List.mem_append, List.mem_singleton, Prod.mk.injEq, Set.mem_ofPred_eq,
    Set.mem_insert_iff]
  constructor
  · rintro ⟨t, h | ⟨_, rfl⟩⟩
    · exact Or.inr ⟨t, h⟩
    · exact Or.inl rfl
  · rintro (rfl | ⟨t, h⟩)
    · exact ⟨type, Or.inr ⟨rfl, rfl⟩⟩
    · exact ⟨t, Or.inl h⟩

theorem bulkfreeScan_concat {hmp : Dev} {done : List (Nat × Extent)} {type : Nat} {e : Extent}
    {cb0 cb cb' : Cbinfo} (h : bulkfreeScan hmp done cb0 = .ok cb)
    (hcall : bulkfreeCallback hmp cb type e = .ok cb') :
    bulkfreeScan hmp (done ++ [(type, e)]) cb0 = .ok cb' := by
  induction done generalizing cb0 with
  | nil =>
    cases h
    exact except_bind_eq_ok.mpr ⟨cb', hcall, rfl⟩
  | cons p rest ih =>
    obtain ⟨t, f⟩ := p
    obtain ⟨cb1, hfirst, hrest⟩ := except_bind_eq_ok.mp h
    exact except_bind_eq_ok.mpr ⟨cb1, hfirst, ih hrest⟩

/-- The invariant of the scan. `done` is what the callback has been given so far and `entered` are
the blocks whose loops are under way; every other block met is complete or waits on the list. -/
structure ScanInv (hmp : Dev) (graph : BlockGraph) (cb0 : Cbinfo) (entered : Set Extent)
    (done : List (Nat × Extent)) (info : BulkInfo) : Prop where
  marks : bulkfreeScan hmp done cb0 = .ok info.cb
  reached : ∀ e ∈ scanned done, ∃ bref, graph.Reaches bref ∧ bref.data = e
  cached : ∀ i, (info.dedup i).data.off = 0 ∨ (info.dedup i).data ∈ scanned done
  saved : ∀ p ∈ info.list, graph.Block p.2 ∧ p.2 ∈ scanned done
  entered_done : ∀ x ∈ entered, x.off = 0 ∨ x ∈ scanned done
  closed : ∀ x ∈ scanned done, graph.Block x → graph.error x &&& errCheck = 0 →
    graph.Complete x done ∨ x ∈ info.list.map Prod.snd ∨ x ∈ entered
  fresh : ∀ p ∈ info.list, p.1 < info.saves
  nodup : (info.list.map Prod.fst).Nodup

/-- The scan has only put elements in front of `base`, and `backout` is one of them. -/
def ListAbove (base : List (Nat × Extent)) (info : BulkInfo) : Prop :=
  ∃ new, info.list = new ++ base ∧ ∀ id, info.backout = some id → id ∈ new.map Prod.fst

theorem ListAbove.of_eq {base : List (Nat × Extent)} {info : BulkInfo} (hlist : info.list = base)
    (h : info.backout = none) : ListAbove base info :=
  ⟨[], hlist, by simp [h]⟩

theorem ListAbove.trans {base : List (Nat × Extent)} {info info' : BulkInfo}
    (h : ListAbove base info) (h' : ListAbove info.list info') : ListAbove base info' := by
  obtain ⟨new, hnew, _⟩ := h
  obtain ⟨more, hmore, hid⟩ := h'
  refine ⟨more ++ new, by rw [hmore, hnew, List.append_assoc], fun id hb => ?_⟩
  rw [List.map_append]
  exact List.mem_append_left _ (hid id hb)

section

variable {hmp : Dev} {graph : BlockGraph} {cb0 : Cbinfo} {entered : Set Extent} {x : Extent}
  {done : List (Nat × Extent)} {info info' : BulkInfo}

/-- The invariant looks at the bitmap, the keys of the cache and the list only. -/
theorem ScanInv.congr (h : ScanInv hmp graph cb0 entered done info) (hcb : info'.cb = info.cb)
    (hdedup : ∀ i, (info'.dedup i).data = (info.dedup i).data) (hlist : info'.list = info.list)
    (hsaves : info'.saves = info.saves) : ScanInv hmp graph cb0 entered done info' := by
  refine ⟨hcb ▸ h.marks, h.reached, ?_, hlist ▸ h.saved, h.entered_done, hlist ▸ h.closed, ?_,
    hlist ▸ h.nodup⟩
  · intro i
    rw [hdedup]
    exact h.cached i
  · rw [hlist, hsaves]
    exact h.fresh

/-- A block may be left once it is complete or deferred, or was not to be entered at all. -/
theorem ScanInv.leave (h : ScanInv hmp graph cb0 (insert x entered) done info)
    (hx : graph.Block x → graph.error x &&& errCheck = 0 →
      graph.Complete x done ∨ x ∈ info.list.map Prod.snd) :
    ScanInv hmp graph cb0 entered done info := by
  refine { h with
    entered_done := fun y hy => h.entered_done y (Set.mem_insert_of_mem _ hy)
    closed := fun y hy hblock hcheck => ?_ }
  rcases h.closed y hy hblock hcheck with hc | hl | he
  · exact Or.inl hc
  · exact Or.inr (Or.inl hl)
  · rcases Set.mem_insert_iff.mp he with rfl | he
    · rcases hx hblock hcheck with hc | hl
      · exact Or.inl hc
      · exact Or.inr (Or.inl hl)
    · exact Or.inr (Or.inr he)

/-- The callback on a new blockref, which also has a slot of the cache now. -/
theorem ScanInv.visit {bref : Blockref} {cb : Cbinfo}
    (h : ScanInv hmp graph cb0 entered done info) (hreach : graph.Reaches bref)
    (hcall : bulkfreeCallback hmp info.cb bref.type.code bref.data = .ok cb) (hcb : info'.cb = cb)
    (hdedup : ∀ i, (info'.dedup i).data = (info.dedup i).data ∨ (info'.dedup i).data = bref.data)
    (hlist : info'.list = info.list) (hsaves : info'.saves = info.saves) :
    ScanInv hmp graph cb0 (insert bref.data entered) (done ++ [(bref.type.code, bref.data)])
      info' := by
  have hsub : scanned done ⊆ scanned (done ++ [(bref.type.code, bref.data)]) := by
    rw [scanned_concat]
    exact Set.subset_insert _ _
  have hmem : bref.data ∈ scanned (done ++ [(bref.type.code, bref.data)]) := by
    rw [scanned_concat]
    exact Set.mem_insert _ _
  refine ⟨?_, ?_, ?_, ?_, ?_, ?_, ?_, ?_⟩
  · rw [hcb]
    exact bulkfreeScan_concat h.marks hcall
  · intro e he
    rw [scanned_concat] at he
    rcases Set.mem_insert_iff.mp he with rfl | he
    · exact ⟨bref, hreach, rfl⟩
    · exact h.reached e he
  · intro i
    rcases hdedup i with heq | heq
    · rw [heq]
      exact (h.cached i).imp_right fun hd => hsub hd
    · rw [heq]
      exact Or.inr hmem
  · rw [hlist]
    exact fun p hp => ⟨(h.saved p hp).1, hsub (h.saved p hp).2⟩
  · intro y hy
    rcases Set.mem_insert_iff.mp hy with rfl | hy
    · exact Or.inr hmem
    · exact (h.entered_done y hy).imp_right fun hd => hsub hd
  · intro y hy hblock hcheck
    rw [hlist]
    rw [scanned_concat] at hy
    rcases Set.mem_insert_iff.mp hy with rfl | hy
    · exact Or.inr (Or.inr (Set.mem_insert _ _))
    · rcases h.closed y hy hblock hcheck with hc | hl | he
      · exact Or.inl (hc.mono hsub)
      · exact Or.inr (Or.inl hl)
      · exact Or.inr (Or.inr (Set.mem_insert_of_mem _ he))
  · rw [hlist, hsaves]
    exact h.fresh
  · rw [hlist]
    exact h.nodup

/-- The head of the list is taken off to be scanned. -/
theorem ScanInv.pop {save : Nat × Extent} {rest : List (Nat × Extent)}
    (h : ScanInv hmp graph cb0 entered done info) (hlist : info.list = save :: rest)
    (hcb : info'.cb = info.cb) (hdedup : info'.dedup = info.dedup) (hrest : info'.list = rest)
    (hsaves : info'.saves = info.saves) :
    ScanInv hmp graph cb0 (insert save.2 entered) done info' := by
  have hmem : ∀ p ∈ rest, p ∈ info.list := fun p hp => by
    rw [hlist]
    exact List.mem_cons_of_mem _ hp
  have hhead : save ∈ info.list := by
    rw [hlist]
    exact List.mem_cons_self
  have hnodup := h.nodup
  rw [hlist, List.map_cons, List.nodup_cons] at hnodup
  refine ⟨hcb ▸ h.marks, h.reached, hdedup ▸ h.cached, ?_, ?_, ?_, ?_, ?_⟩
  · rw [hrest]
    exact fun p hp => h.saved p (hmem p hp)
  · intro y hy
    rcases Set.mem_insert_iff.mp hy with rfl | hy
    · exact Or.inr (h.saved save hhead).2
    · exact h.entered_done y hy
  · intro y hy hblock hcheck
    rw [hrest]
    rcases h.closed y hy hblock hcheck with hc | hl | he
    · exact Or.inl hc
    · rw [hlist, List.map_cons, List.mem_cons] at hl
      rcases hl with rfl | hl
      · exact Or.inr (Or.inr (Set.mem_insert _ _))
      · exact Or.inr (Or.inl hl)
    · exact Or.inr (Or.inr (Set.mem_insert_of_mem _ he))
  · rw [hrest, hsaves]
    exact fun p hp => h.fresh p (hmem p hp)
  · rw [hrest]
    exact hnodup.2

theorem dedupProbe_inl {dedup : Nat → DedupEntry} {data : Extent} {slots : List Nat} {best i : Nat}
    (h : dedupProbe dedup data slots best = .inl i) : (dedup i).data = data := by
  induction slots generalizing best with
  | nil => cases h
  | cons j rest ih =>
    unfold dedupProbe at h
    split at h
    next heq => cases h; exact heq
    next => exact ih h

/-- `h2_bulkfree_test` changes the cache only, and enters no key but the one it is asked for. -/
theorem bulkfreeTest_dedup {env : ScanEnv} {data : Extent} {pri : Nat} {err e : BitVec 32}
    (h : bulkfreeTest env info data pri err = (e, info')) :
    ∃ dedup, info' = { info with dedup := dedup } ∧
      ∀ i, (dedup i).data = (info.dedup i).data ∨ (dedup i).data = data := by
  unfold bulkfreeTest at h
  simp only at h
  split at h
  next i _ =>
    cases h
    refine ⟨_, rfl, fun j => Or.inl ?_⟩
    rcases eq_or_ne j i with rfl | hne
    · rw [Function.update_self]
    · rw [Function.update_of_ne hne]
  next best _ =>
    cases h
    refine ⟨_, rfl, fun j => ?_⟩
    rcases eq_or_ne j best with rfl | hne
    · right
      rw [Function.update_self]
    · left
      rw [Function.update_of_ne hne]

/-- A hit means that the key has been entered before. -/
theorem bulkfreeTest_hit {env : ScanEnv} {data : Extent} {pri : Nat} {err e : BitVec 32}
    (h : bulkfreeTest env info data pri err = (e, info')) (he : e ≠ 0) :
    (∃ i, (info.dedup i).data = data) ∧ ∀ i, (info'.dedup i).data = (info.dedup i).data := by
  unfold bulkfreeTest at h
  simp only at h
  split at h
  next i hprobe =>
    cases h
    refine ⟨⟨i, dedupProbe_inl hprobe⟩, fun j => ?_⟩
    simp only
    rcases eq_or_ne j i with rfl | hne
    · rw [Function.update_self]
    · rw [Function.update_of_ne hne]
  next =>
    cases h
    exact absurd rfl he

/-- Entering a key that has been scanned, or that no blockref has, is safe. -/
theorem ScanInv.test {env : ScanEnv} {data : Extent} {pri : Nat} {err e : BitVec 32}
    (h : ScanInv hmp graph cb0 entered done info)
    (htest : bulkfreeTest env info data pri err = (e, info'))
    (hdata : data.off = 0 ∨ data ∈ scanned done) :
    ScanInv hmp graph cb0 entered done info' := by
  obtain ⟨dedup, rfl, hkeys⟩ := bulkfreeTest_dedup htest
  refine { h with cached := fun i => ?_ }
  rcases hkeys i with heq | heq
  · simp only [heq]
    exact h.cached i
  · simp only [heq]
    exact hdata

theorem ListAbove.test {env : ScanEnv} {data : Extent} {pri : Nat} {err : BitVec 32}
    {base : List (Nat × Extent)} (h : ListAbove base info) :
    ListAbove base (bulkfreeTest env info data pri err).2 := by
  cases htest : bulkfreeTest env info data pri err with
  | mk e info' =>
    obtain ⟨dedup, rfl, _⟩ := bulkfreeTest_dedup htest
    exact h

theorem scanCallback_cases {env : ScanEnv} {bref : Blockref} {e : BitVec 32}
    (h : scanCallback env info bref = some (e, info')) :
    e = errAborted ∨ e = 0 ∧
      ∃ cb, bulkfreeCallback env.hmp info.cb bref.type.code bref.data = .ok cb ∧
        info' = { info with calls := info.calls + 1, cb := cb } := by
  unfold scanCallback at h
  split at h
  next => cases h; exact Or.inl rfl
  next =>
    split at h
    next cb hcall => cases h; exact Or.inr ⟨rfl, cb, hcall, rfl⟩
    next => cases h

theorem insertAfter_append {id : Nat} {save : Nat × Extent} {new base : List (Nat × Extent)}
    (h : id ∈ new.map Prod.fst) :
    insertAfter id save (new ++ base) = insertAfter id save new ++ base := by
  induction new with
  | nil => cases h
  | cons p rest ih =>
    rw [List.cons_append]
    unfold insertAfter
    split
    next => rfl
    next hne =>
      rw [List.map_cons, List.mem_cons] at h
      rw [ih (h.resolve_left fun heq => hne heq.symm)]
      rfl

theorem insertAfter_perm {id : Nat} {save : Nat × Extent} {l : List (Nat × Extent)}
    (h : id ∈ l.map Prod.fst) : (insertAfter id save l).Perm (save :: l) := by
  induction l with
  | nil => cases h
  | cons p rest ih =>
    unfold insertAfter
    split
    next => exact List.Perm.swap _ _ _
    next hne =>
      rw [List.map_cons, List.mem_cons] at h
      have hrest := ih (h.resolve_left fun heq => hne heq.symm)
      exact (hrest.cons p).trans (List.Perm.swap _ _ _)

/-- A deferred chain ends up on the list, in front of what was there before the scan. -/
theorem deferChain_spec {base : List (Nat × Extent)} {data : Extent} (h : ListAbove base info) :
    ListAbove base (deferChain info data) ∧
      (deferChain info data).list.Perm ((info.saves, data) :: info.list) := by
  obtain ⟨new, hnew, hid⟩ := h
  cases hb : info.backout with
  | none =>
    have hlist : (deferChain info data).list = (info.saves, data) :: info.list := by
      simp only [deferChain, hb]
    refine ⟨⟨(info.saves, data) :: new, by rw [hlist, hnew]; rfl, ?_⟩, by rw [hlist]⟩
    intro id heq
    cases Option.some.inj heq
    exact List.mem_cons_self
  | some id =>
    have hlist : (deferChain info data).list = insertAfter id (info.saves, data) info.list := by
      simp only [deferChain, hb]
    have hin := hid id hb
    refine ⟨⟨insertAfter id (info.saves, data) new, ?_, ?_⟩, ?_⟩
    · rw [hlist, hnew, insertAfter_append hin]
    · intro id' heq
      cases Option.some.inj heq
      exact ((insertAfter_perm hin).map Prod.fst).mem_iff.mpr List.mem_cons_self
    · rw [hlist]
      refine insertAfter_perm ?_
      rw [hnew, List.map_append]
      exact List.mem_append_left _ hin

theorem ScanInv.defer {base : List (Nat × Extent)} {data : Extent}
    (h : ScanInv hmp graph cb0 (insert data entered) done info) (hbase : ListAbove base info)
    (hblock : graph.Block data) (hdone : data ∈ scanned done) :
    ScanInv hmp graph cb0 entered done (deferChain info data) := by
  have hperm : (deferChain info data).list.Perm ((info.saves, data) :: info.list) :=
    (deferChain_spec hbase).2
  have hin : data ∈ (deferChain info data).list.map Prod.snd :=
    (hperm.map Prod.snd).mem_iff.mpr List.mem_cons_self
  refine ScanInv.leave (x := data) ?_ fun _ _ => Or.inr hin
  refine ⟨h.marks, h.reached, h.cached, ?_, h.entered_done, ?_, ?_, ?_⟩
  · intro p hp
    rcases List.mem_cons.mp (hperm.mem_iff.mp hp) with rfl | hp
    · exact ⟨hblock, hdone⟩
    · exact h.saved p hp
  · intro y hy hyb hcheck
    rcases h.closed y hy hyb hcheck with hc | hl | he
    · exact Or.inl hc
    · exact Or.inr (Or.inl ((hperm.map Prod.snd).mem_iff.mpr (List.mem_cons_of_mem _ hl)))
    · exact Or.inr (Or.inr he)
  · intro p hp
    change p.1 < info.saves + 1
    rcases List.mem_cons.mp (hperm.mem_iff.mp hp) with rfl | hp
    · exact Nat.lt_succ_self _
    · exact Nat.lt_succ_of_lt (h.fresh p hp)
  · refine (hperm.map Prod.fst).nodup_iff.mpr ?_
    rw [List.map_cons, List.nodup_cons]
    refine ⟨fun hmem => ?_, h.nodup⟩
    obtain ⟨p, hp, heq⟩ := List.mem_map.mp hmem
    have := h.fresh p hp
    omega

/-- What the scan of one block achieves when it ends without a fatal error. -/
def ScanSpec (hmp : Dev) (graph : BlockGraph) (cb0 : Cbinfo)
    (scan : Extent → BulkInfo → Option (BitVec 32 × BulkInfo)) : Prop :=
  ∀ {x info e info' entered done}, scan x info = some (e, info') → Clean e → graph.Block x →
    ScanInv hmp graph cb0 (insert x entered) done info → info.backout = none →
    ∃ done', scanned done ⊆ scanned done' ∧ ScanInv hmp graph cb0 entered done' info' ∧
      ListAbove info.list info' ∧ (graph.error x &&& errCheck = 0 → graph.Complete x done')

/-- A block below the current one is skipped for a check error, deferred or scanned. -/
theorem scanChild_spec {env : ScanEnv} {scan : Extent → BulkInfo → Option (BitVec 32 × BulkInfo)}
    {base : List (Nat × Extent)} {data : Extent} {e : BitVec 32}
    (hscan : ScanSpec hmp graph cb0 scan) (h : scanChild env graph scan info data = some (e, info'))
    (he : Clean e) (hblock : graph.Block data) (hdone : data ∈ scanned done)
    (hinv : ScanInv hmp graph cb0 (insert data entered) done info) (hbase : ListAbove base info) :
    ∃ done', scanned done ⊆ scanned done' ∧ ScanInv hmp graph cb0 entered done' info' ∧
      ListAbove base info' := by
  unfold scanChild at h
  simp only at h
  split at h
  next hknown =>
    cases h
    refine ⟨done, subset_rfl, ?_, hbase⟩
    exact (hinv.leave fun _ hcheck => absurd hcheck hknown.2).congr rfl (fun _ => rfl) rfl rfl
  next =>
    split at h
    next =>
      cases h
      have hdeep : ScanInv hmp graph cb0 (insert data entered) done
          { info with depth := info.depth + 1 } := hinv.congr rfl (fun _ => rfl) rfl rfl
      have hdeepBase : ListAbove base { info with depth := info.depth + 1 } := hbase
      have hdefer := hdeep.defer hdeepBase hblock hdone
      have habove : ListAbove base (deferChain { info with depth := info.depth + 1 } data) :=
        (deferChain_spec hdeepBase).1
      exact ⟨done, subset_rfl, hdefer.congr rfl (fun _ => rfl) rfl rfl, habove⟩
    next hnow =>
      obtain ⟨⟨e', after⟩, hrec, h⟩ := Option.map_eq_some_iff.mp h
      cases h
      have hnone : info.backout = none := by
        cases hb : info.backout with
        | none => rfl
        | some id => exact absurd (Or.inr (Or.inl (by simp [hb]))) hnow
      obtain ⟨done', hsub, hinv', habove, _⟩ := hscan hrec he hblock
        (hinv.congr rfl (fun _ => rfl) rfl rfl) hnone
      exact ⟨done', hsub, hinv'.congr rfl (fun _ => rfl) rfl rfl, hbase.trans habove⟩

/-- Neither of the two error variables has more than a check error. -/
def LoopState.Clean (st : LoopState) : Prop := Hammer2.Clean st.error ∧ Hammer2.Clean st.rup

section

variable {env : ScanEnv} {scan : Extent → BulkInfo → Option (BitVec 32 × BulkInfo)}
  {parent : Extent} {bref : Blockref} {st st' : LoopState} {stop : Bool}

/-- Errors only accumulate. -/
theorem scanStep_clean (h : scanStep env graph scan parent bref st = some (stop, st'))
    (hst : st'.Clean) : st.Clean := by
  obtain ⟨herr, hrup⟩ := hst
  unfold scanStep at h
  simp only at h
  split at h
  next =>
    cases h
    exact ⟨(clean_or.mp herr).1, hrup⟩
  next =>
    split at h
    next =>
      cases h
      exact ⟨(clean_or.mp herr).1, hrup⟩
    next =>
      split at h
      next =>
        cases h
        exact ⟨(clean_or.mp (clean_or.mp herr).1).1, hrup⟩
      next =>
        obtain ⟨⟨e, info1⟩, _, h⟩ := Option.bind_eq_some_iff.mp h
        simp only at h
        split at h
        next =>
          cases h
          exact ⟨(clean_or.mp (clean_or.mp herr).1).1, hrup⟩
        next =>
          split at h
          next =>
            cases h
            exact ⟨(clean_or.mp (clean_or.mp herr).1).1, hrup⟩
          next =>
            obtain ⟨⟨e', info2⟩, _, h⟩ := Option.map_eq_some_iff.mp h
            cases h
            exact ⟨(clean_or.mp (clean_or.mp herr).1).1, (clean_or.mp hrup).1⟩

theorem scanLoop_clean {brefs : List Blockref}
    (h : scanLoop env graph scan parent brefs st = some st') (hst : st'.Clean) : st.Clean := by
  induction brefs generalizing st with
  | nil =>
    cases h
    exact ⟨(clean_or.mp hst.1).1, hst.2⟩
  | cons bref rest ih =>
    unfold scanLoop at h
    split at h
    next => cases h
    next hstep =>
      cases h
      exact scanStep_clean hstep hst
    next hstep => exact scanStep_clean hstep (ih h)

/-- A round that leaves no fatal error goes on, and its blockref has been passed to the callback by
now or earlier. -/
theorem scanStep_spec {base : List (Nat × Extent)} (hgraph : graph.WellFormed)
    (hscan : ScanSpec env.hmp graph cb0 scan)
    (h : scanStep env graph scan parent bref st = some (stop, st')) (hst : st'.Clean)
    (hblock : graph.Block parent) (hcheck : graph.error parent &&& errCheck = 0)
    (hmem : bref ∈ graph.base parent) (heof : st.error &&& errEof = 0)
    (hinv : ScanInv env.hmp graph cb0 entered done st.info) (hbase : ListAbove base st.info) :
    stop = false ∧ st'.error &&& errEof = 0 ∧ ∃ done', scanned done ⊆ scanned done' ∧
      ScanInv env.hmp graph cb0 entered done' st'.info ∧ ListAbove base st'.info ∧
      (bref.data.off ≠ 0 → bref.data ∈ scanned done') := by
  obtain ⟨herr, hrup⟩ := hst
  have heof1 := or_and_eof heof (graph.error_eof parent)
  unfold scanStep at h
  simp only at h
  split at h
  next hfatal =>
    cases h
    exact absurd hfatal (not_fatal_iff.mpr ⟨herr, heof1⟩)
  next =>
    split at h
    next hoff =>
      cases h
      exact ⟨rfl, heof1, done, subset_rfl, hinv, hbase, fun hne => absurd hoff hne⟩
    next hoff =>
      have hreach : graph.Reaches bref := ⟨parent, hblock, hcheck, hmem, hoff⟩
      cases htest : bulkfreeTest env { st.info with pri := st.info.pri + 1 } bref.data 1 0 with
      | mk e2 info1 =>
      rw [htest] at h
      simp only at h
      have hinv1 : ScanInv env.hmp graph cb0 entered done
          { st.info with pri := st.info.pri + 1 } := hinv.congr rfl (fun _ => rfl) rfl rfl
      obtain ⟨dedup, rfl, hkeys⟩ := bulkfreeTest_dedup htest
      split at h
      next hhit =>
        cases h
        obtain ⟨⟨i, hi⟩, _⟩ := bulkfreeTest_hit htest hhit
        have hdone : bref.data ∈ scanned done := by
          rcases hinv.cached i with h0 | hd
          · exact absurd (hi ▸ h0) hoff
          · exact hi ▸ hd
        exact ⟨rfl, or_and_eof heof1 (and_not_eof_and_eof e2), done, subset_rfl,
          hinv1.test htest (Or.inr hdone), hbase, fun _ => hdone⟩
      next =>
        obtain ⟨⟨e, info2⟩, hcall, h⟩ := Option.bind_eq_some_iff.mp h
        simp only at h
        rcases scanCallback_cases hcall with rfl | ⟨rfl, cb, hcb, rfl⟩
        · -- the pending signal shows in the result
          rw [if_pos (fatal_or_aborted _)] at h
          cases h
          exact absurd (clean_or.mp herr).2 (by decide)
        · have hinv2 : ScanInv env.hmp graph cb0 (insert bref.data entered)
              (done ++ [(bref.type.code, bref.data)]) { st.info with
                pri := st.info.pri + 1, dedup := dedup, calls := st.info.calls + 1, cb := cb } :=
            hinv.visit hreach hcb rfl hkeys rfl rfl
          have hsub : scanned done ⊆ scanned (done ++ [(bref.type.code, bref.data)]) := by
            rw [scanned_concat]
            exact Set.subset_insert _ _
          have hdone : bref.data ∈ scanned (done ++ [(bref.type.code, bref.data)]) := by
            rw [scanned_concat]
            exact Set.mem_insert _ _
          have heof2 := or_and_eof heof1 (show 0 &&& errEof = 0 by decide)
          split at h
          next hfatal =>
            cases h
            exact absurd hfatal (not_fatal_iff.mpr ⟨herr, heof2⟩)
          next =>
            split at h
            next hleaf =>
              cases h
              refine ⟨rfl, heof2, _, hsub, hinv2.leave fun hb _ => ?_, hbase, fun _ => hdone⟩
              rw [hgraph.typed bref hreach hb] at hleaf
              cases hleaf
            next hrec =>
              obtain ⟨⟨e', info3⟩, hchild, h⟩ := Option.map_eq_some_iff.mp h
              cases h
              have hchildBlock : graph.Block bref.data :=
                hblock.child hcheck hmem hoff (by simpa using hrec)
              obtain ⟨done', hsub', hinv3, hbase3⟩ := scanChild_spec hscan hchild
                (clean_or.mp hrup).2 hchildBlock hdone hinv2 hbase
              exact ⟨by simp [hrup.not_aborted], heof2, done', hsub.trans hsub', hinv3, hbase3,
                fun _ => hsub' hdone⟩

/-- The loop completes the block. -/
theorem scanLoop_spec {base : List (Nat × Extent)} {brefs : List Blockref}
    (hgraph : graph.WellFormed) (hscan : ScanSpec env.hmp graph cb0 scan)
    (h : scanLoop env graph scan parent brefs st = some st') (hst : st'.Clean)
    (hblock : graph.Block parent) (hcheck : graph.error parent &&& errCheck = 0)
    (hmem : ∀ bref ∈ brefs, bref ∈ graph.base parent) (heof : st.error &&& errEof = 0)
    (hinv : ScanInv env.hmp graph cb0 entered done st.info) (hbase : ListAbove base st.info) :
    ∃ done', scanned done ⊆ scanned done' ∧ ScanInv env.hmp graph cb0 entered done' st'.info ∧
      ListAbove base st'.info ∧
      ∀ bref ∈ brefs, bref.data.off ≠ 0 → bref.data ∈ scanned done' := by
  induction brefs generalizing st done with
  | nil =>
    cases h
    exact ⟨done, subset_rfl, hinv, hbase, by simp⟩
  | cons bref rest ih =>
    unfold scanLoop at h
    have hbref := hmem bref List.mem_cons_self
    split at h
    next => cases h
    next hstep =>
      cases h
      have hgo := (scanStep_spec hgraph hscan hstep hst hblock hcheck hbref heof hinv hbase).1
      cases hgo
    next st1 hstep =>
      obtain ⟨_, heof1, done1, hsub1, hinv1, hbase1, hdone1⟩ := scanStep_spec hgraph hscan hstep
        (scanLoop_clean h hst) hblock hcheck hbref heof hinv hbase
      obtain ⟨done2, hsub2, hinv2, hbase2, hdone2⟩ :=
        ih h (fun b hb => hmem b (List.mem_cons_of_mem _ hb)) heof1 hinv1 hbase1
      refine ⟨done2, hsub1.trans hsub2, hinv2, hbase2, fun b hb hoff => ?_⟩
      rcases List.mem_cons.mp hb with rfl | hb
      · exact hsub2 (hdone1 hoff)
      · exact hdone2 b hb hoff

theorem replayPfs_clean {tail : Option Nat} {fuel : Nat}
    (h : replayPfs scan tail fuel st = some st') (hst : st'.Clean) : st.Clean := by
  induction fuel generalizing st with
  | zero => cases h
  | succ fuel ih =>
    unfold replayPfs at h
    split at h
    next => cases h; exact hst
    next =>
      split at h
      next => cases h
      next =>
        obtain ⟨⟨e, next⟩, _, h⟩ := Option.bind_eq_some_iff.mp h
        obtain ⟨herr, hrup⟩ := ih h
        exact ⟨herr, (clean_or.mp hrup).1⟩

/-- The replay of a PFS ends with the list as it was before the PFS. -/
theorem replayPfs_spec {base : List (Nat × Extent)} {fuel : Nat}
    (hscan : ScanSpec hmp graph cb0 scan)
    (h : replayPfs scan (base.head?.map Prod.fst) fuel st = some st') (hst : st'.Clean)
    (hinv : ScanInv hmp graph cb0 entered done st.info) (hbase : ListAbove base st.info) :
    ∃ done', scanned done ⊆ scanned done' ∧ ScanInv hmp graph cb0 entered done' st'.info ∧
      ListAbove base st'.info := by
  induction fuel generalizing st done with
  | zero => cases h
  | succ fuel ih =>
    unfold replayPfs at h
    split at h
    next =>
      cases h
      exact ⟨done, subset_rfl, hinv, hbase⟩
    next hhead =>
      obtain ⟨new, hnew, _⟩ := hbase
      cases new with
      | nil => exact absurd (by rw [hnew]; rfl) hhead
      | cons save new =>
        rw [List.cons_append] at hnew
        rw [hnew] at h
        obtain ⟨⟨e, next⟩, hrec, h⟩ := Option.bind_eq_some_iff.mp h
        have hclean := replayPfs_clean h hst
        obtain ⟨hblock, _⟩ := hinv.saved save (by rw [hnew]; exact List.mem_cons_self)
        obtain ⟨done1, hsub1, hinv1, ⟨more, hmore, hid⟩, _⟩ := hscan hrec
          (clean_or.mp hclean.2).2 hblock (hinv.pop hnew rfl rfl rfl rfl) rfl
        have hbase1 : ListAbove base { next with pri := st.info.pri } := by
          refine ⟨more ++ new, by rw [List.append_assoc]; exact hmore, fun id hb => ?_⟩
          rw [List.map_append]
          exact List.mem_append_left _ (hid id hb)
        obtain ⟨done2, hsub2, hinv2, hbase2⟩ := ih h
          (hinv1.congr rfl (fun _ => rfl) rfl rfl) hbase1
        exact ⟨done2, hsub1.trans hsub2, hinv2, hbase2⟩

end

/-- The scan of a block completes it and accounts for every block met on the way. -/
theorem hammer2BulkfreeScan_spec {env : ScanEnv} (hgraph : graph.WellFormed) (fuel : Nat) :
    ScanSpec env.hmp graph cb0 (hammer2BulkfreeScan env graph fuel) := by
  induction fuel with
  | zero =>
    intro x info e info' entered done h
    cases h
  | succ fuel ih =>
    intro x info e info' entered done h he hblock hinv hnone
    unfold hammer2BulkfreeScan at h
    simp only at h
    split at h
    next hcheck =>
      cases h
      exact ⟨done, subset_rfl,
        (hinv.leave fun _ hno => absurd hno hcheck).congr rfl (fun _ => rfl) rfl rfl,
        ListAbove.of_eq rfl hnone, fun hno => absurd hno hcheck⟩
    next hcheck =>
      obtain ⟨st, hloop, h⟩ := Option.bind_eq_some_iff.mp h
      obtain ⟨st', hpfs, h⟩ := Option.map_eq_some_iff.mp h
      cases h
      rw [clean_and_not_eof, clean_or] at he
      have hst : st.Clean := by
        split at hpfs
        next => exact replayPfs_clean hpfs he
        next => cases hpfs; exact he
      have hcheck := not_not.mp hcheck
      rw [hgraph.scan_eq hblock] at hloop
      obtain ⟨done1, hsub1, hinv1, hbase1, hdone1⟩ := scanLoop_spec hgraph ih hloop hst hblock
        hcheck (fun _ hb => hb) BitVec.zero_and (hinv.congr rfl (fun _ => rfl) rfl rfl)
        (ListAbove.of_eq rfl hnone)
      have hreplay : ∃ done2, scanned done1 ⊆ scanned done2 ∧
          ScanInv env.hmp graph cb0 (insert x entered) done2 st'.info ∧
          ListAbove info.list st'.info := by
        split at hpfs
        next => exact replayPfs_spec ih hpfs he hinv1 hbase1
        next => cases hpfs; exact ⟨done1, subset_rfl, hinv1, hbase1⟩
      obtain ⟨done2, hsub2, hinv2, hbase2⟩ := hreplay
      have hcomplete : graph.Complete x done2 := fun b hb hoff => hsub2 (hdone1 b hb hoff)
      have hx := hinv2.entered_done x (Set.mem_insert _ _)
      refine ⟨done2, hsub1.trans hsub2, ?_, ?_, fun _ => hcomplete⟩
      · exact (hinv2.leave fun _ _ => Or.inl hcomplete).test rfl hx
      · exact hbase2.test

theorem passReplay_clean {env : ScanEnv} {fuel n : Nat} {error error' : BitVec 32}
    (h : passReplay env graph fuel n error info = some (error', info')) (herr : Clean error') :
    Clean error := by
  induction n generalizing error info with
  | zero => cases h
  | succ n ih =>
    unfold passReplay at h
    split at h
    next => cases h; exact herr
    next =>
      split at h
      next => cases h; exact herr
      next =>
        obtain ⟨⟨e, next⟩, _, h⟩ := Option.bind_eq_some_iff.mp h
        exact (clean_or.mp (ih h)).1

/-- The pass empties the list unless it meets a fatal error. -/
theorem passReplay_spec {env : ScanEnv} {fuel n : Nat} {error error' : BitVec 32}
    (hgraph : graph.WellFormed)
    (h : passReplay env graph fuel n error info = some (error', info')) (herr : ¬Fatal error')
    (hinv : ScanInv env.hmp graph cb0 ∅ done info) :
    ∃ done', scanned done ⊆ scanned done' ∧ ScanInv env.hmp graph cb0 ∅ done' info' ∧
      info'.list = [] := by
  induction n generalizing error info done with
  | zero => cases h
  | succ n ih =>
    unfold passReplay at h
    split at h
    next hlist =>
      cases h
      exact ⟨done, subset_rfl, hinv, hlist⟩
    next save rest hlist =>
      split at h
      next hfatal => cases h; exact absurd hfatal herr
      next =>
        obtain ⟨⟨e, next⟩, hscan, h⟩ := Option.bind_eq_some_iff.mp h
        have hclean := passReplay_clean h (not_fatal_iff.mp herr).1
        obtain ⟨hblock, _⟩ := hinv.saved save (by rw [hlist]; exact List.mem_cons_self)
        obtain ⟨done1, hsub1, hinv1, _⟩ := hammer2BulkfreeScan_spec hgraph fuel hscan
          (clean_or.mp hclean).2 hblock (hinv.pop hlist rfl rfl rfl rfl) rfl
        obtain ⟨done2, hsub2, hinv2, hnil⟩ := ih h hinv1
        exact ⟨done2, hsub1.trans hsub2, hinv2, hnil⟩

/-- With nothing left to scan, everything that the snapshot reaches has been passed to the
callback. -/
theorem ScanInv.scanned_eq (h : ScanInv hmp graph cb0 ∅ done info) (hlist : info.list = [])
    (hroot : graph.error volumeData &&& errCheck = 0 → graph.Complete volumeData done) (e : Extent) :
    e ∈ scanned done ↔ ∃ bref, graph.Reaches bref ∧ bref.data = e := by
  have hcomplete : ∀ x, graph.Block x → graph.error x &&& errCheck = 0 →
      graph.Complete x done := by
    intro x hx
    induction hx with
    | root => exact hroot
    | @child x bref hblock hcheck hmem hoff hrec ih =>
      intro hok
      have hdone := ih hcheck bref hmem hoff
      rcases h.closed bref.data hdone (hblock.child hcheck hmem hoff hrec) hok with hc | hl | he
      · exact hc
      · rw [hlist] at hl
        cases hl
      · exact absurd he (Set.notMem_empty _)
  constructor
  · exact h.reached e
  · rintro ⟨bref, ⟨x, hx, hcheck, hmem, hoff⟩, rfl⟩
    exact hcomplete x hx hcheck bref hmem hoff

/-- The scan of a window passes to the callback what the snapshot reaches, and nothing else. -/
theorem bulkfreeWindow_scanned {env : ScanEnv} {fuel sbase sstop depth : Nat}
    {error error' : BitVec 32} (hgraph : graph.WellFormed)
    (h : bulkfreeWindow env graph fuel error (windowInfo env.hmp sbase sstop depth) =
      some (error', info')) (herr : ¬Fatal error') :
    ∃ done, bulkfreeScan env.hmp done (cbinfoBmapInit env.hmp sbase sstop) = .ok info'.cb ∧
      ∀ e, e ∈ scanned done ↔ ∃ bref, graph.Reaches bref ∧ bref.data = e := by
  obtain ⟨⟨e, info1⟩, hscan, h⟩ := Option.bind_eq_some_iff.mp h
  obtain ⟨⟨error2, info2⟩, hpass, h⟩ := Option.map_eq_some_iff.mp h
  cases h
  have hstart : ScanInv env.hmp graph (cbinfoBmapInit env.hmp sbase sstop) {volumeData} []
      (windowInfo env.hmp sbase sstop depth) := by
    refine ⟨rfl, ?_, fun _ => Or.inl rfl, ?_, ?_, ?_, ?_, List.nodup_nil⟩
    · rintro e ⟨_, he⟩
      cases he
    · intro p hp
      cases hp
    · rintro x rfl
      exact Or.inl rfl
    · rintro x ⟨_, hx⟩
      cases hx
    · intro p hp
      cases hp
  have hclean := passReplay_clean hpass (not_fatal_iff.mp herr).1
  rw [show ({volumeData} : Set Extent) = insert volumeData ∅ from (insert_empty_eq _).symm] at hstart
  obtain ⟨done1, _, hinv1, _, hroot⟩ := hammer2BulkfreeScan_spec hgraph fuel hscan
    (clean_or.mp hclean).2 .root hstart rfl
  obtain ⟨done2, hsub2, hinv2, hnil⟩ := passReplay_spec hgraph hpass herr hinv1
  exact ⟨done2, hinv2.marks, hinv2.scanned_eq hnil fun hcheck => (hroot hcheck).mono hsub2⟩

end

end Hammer2
