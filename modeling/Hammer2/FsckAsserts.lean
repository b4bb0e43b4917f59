import Hammer2.FsckTotal

namespace Hammer2

open ByteImage DepthFirst

/-- What the assertions of `verify_blockref` rule out: storage behind an empty blockref, unless it
is counted, and, when every blockref is cached, a `data_off` without a radix. -/
def VerifyRefuses (opts : FsckOpts) (img : FsckImage) (n : FsckNode) : Prop :=
  (opts.countEmpty = false ∧ n.1.kind = .empty ∧ ∃ media, readMedia img n.1.dataOff = .ok media) ∨
    (opts.blockrefCacheCount = 1 ∧ n.1.kind ≠ .invalid ∧ n.1.dataOff ≠ 0 ∧
      mediaBytes n.1.dataOff = 0)

/-- The blockref can be read, is of a known type and has a good check code. -/
def VerifySound (opts : FsckOpts) (img : FsckImage) (n : FsckNode) : Prop :=
  brefStop opts img n.1 = none ∧ brefFailed img n.1 = false

/-- What the assertion of `init_pfs_blockref` rules out: an inode that is neither the super-root
nor the root of a PFS. -/
def PfsRefuses (img : FsckImage) (bref : FsckBref) : Prop :=
  ∃ media, readMedia img bref.dataOff = .ok media ∧ bref.kind = .inode ∧
    media.pfsType ≠ pfstypeSuproot ∧ media.pfsroot = false

/-- The blockref can be read. -/
def PfsSound (img : FsckImage) (bref : FsckBref) : Prop :=
  readMedia img bref.dataOff ≠ .badIoBytes ∧ readMedia img bref.dataOff ≠ .failed

section Verify

variable {opts : FsckOpts} {img : FsckImage}

/-- Everything from the node on is sound, and no assertion is in the way. -/
def VerifyGood (opts : FsckOpts) (img : FsckImage) (n : FsckNode) : Prop :=
  Intact (verifyTable opts img) (VerifySound opts img) n ∧
    Free (verifyTable opts img) (VerifySound opts img) (VerifyRefuses opts img) n

/-- What is in the cache may be skipped. -/
def CacheGood (opts : FsckOpts) (img : FsckImage) (norecurse : Bool)
    (droot : List (FsckBref × DeltaStats)) : Prop :=
  ∀ m ∈ droot, VerifyGood opts img (m.1, norecurse)

/-- How a scan of the node may end. -/
def VerifyOutcome (opts : FsckOpts) (img : FsckImage) (n : FsckNode) : Verdict → Prop
  | .ok => VerifyGood opts img n
  | .fail => ¬ Intact (verifyTable opts img) (VerifySound opts img) n ∧
    Free (verifyTable opts img) (VerifySound opts img) (VerifyRefuses opts img) n
  | .abort => ∃ x, Reaches (verifyTable opts img) (VerifySound opts img) n x ∧
    VerifyRefuses opts img x

/-- How the loop over children may end. -/
def ScanOutcome (opts : FsckOpts) (img : FsckImage) (l : List FsckNode) : Verdict → Prop
  | .ok => ∀ c ∈ l, VerifyGood opts img c
  | .fail => (∃ c ∈ l, ¬ Intact (verifyTable opts img) (VerifySound opts img) c) ∧
    ∀ x, Among (verifyTable opts img) (VerifySound opts img) l x → ¬ VerifyRefuses opts img x
  | .abort => ∃ x, Among (verifyTable opts img) (VerifySound opts img) l x ∧
    VerifyRefuses opts img x

/-- The children with which a mode goes on are the same in both modes, or there are none. -/
theorem verifyTable_mode {bref : FsckBref} {norecurse : Bool}
    (h : verifyTable opts img (bref, norecurse) ≠ []) (other : Bool) :
    verifyTable opts img (bref, other) = verifyTable opts img (bref, norecurse) ∨
      verifyTable opts img (bref, other) = [] := by
  unfold verifyTable scannedTable at *
  dsimp only at *
  by_cases ho : (other && !opts.forceOpt) = true
  · rw [if_pos ho]
    exact Or.inr rfl
  · have hn : ¬ (norecurse && !opts.forceOpt) = true := by
      intro hn
      rw [if_pos hn] at h
      exact h rfl
    rw [if_neg ho, if_neg hn]
    exact Or.inl rfl

theorem VerifyGood.of_table {bref : FsckBref} {a b : Bool} (h : VerifyGood opts img (bref, a))
    (ht : verifyTable opts img (bref, b) = verifyTable opts img (bref, a) ∨
      verifyTable opts img (bref, b) = []) : VerifyGood opts img (bref, b) := by
  have hbad : ¬ VerifyRefuses opts img (bref, b) := h.2 (bref, a) (.self _)
  rcases ht with ht | ht
  · refine ⟨.node h.1.isSound ?_, .of_children hbad ?_⟩
    · intro c hc
      exact h.1.child (ht ▸ hc)
    · intro x hx
      rw [ht] at hx
      exact h.2 x (.inside hx)
  · refine ⟨.node h.1.isSound ?_, .of_children hbad ?_⟩
    · intro c hc
      rw [ht] at hc
      cases hc
    · intro x hx
      rw [ht] at hx
      exact absurd hx not_among_nil

/-- A cache that serves scans in depth serves those that are cut short. -/
theorem VerifyGood.mode {bref : FsckBref} (h : VerifyGood opts img (bref, false))
    (norecurse : Bool) : VerifyGood opts img (bref, norecurse) := by
  by_cases hne : verifyTable opts img (bref, false) = []
  · apply h.of_table
    unfold verifyTable scannedTable at *
    dsimp only at *
    split
    next => exact Or.inr rfl
    next => exact Or.inl rfl
  · exact h.of_table (verifyTable_mode hne norecurse)

theorem CacheGood.enter {bref : FsckBref} {norecurse : Bool} {droot : List (FsckBref × DeltaStats)}
    (h : CacheGood opts img norecurse droot)
    (hne : scannedTable opts img bref norecurse ≠ []) (failed : Bool) :
    CacheGood opts img failed droot := by
  have hdeep : (norecurse && !opts.forceOpt) = false := by
    unfold scannedTable at hne
    split at hne
    next => exact absurd rfl hne
    next hr => simpa using hr
  intro m hm
  have hgood : VerifyGood opts img (m.1, false) := by
    apply (h m hm).of_table
    apply Or.inl
    unfold verifyTable scannedTable
    dsimp only
    rw [hdeep, Bool.false_and]
  exact hgood.mode failed

theorem scanTable_outcome {v : FsckBref → FsckState → Option (Verdict × FsckState × DeltaStats)}
    {failed : Bool} {table : List FsckBref} {st st' : FsckState} {ds ds' : DeltaStats}
    {verdict : Verdict}
    (hv : ∀ c st verdict st' d, CacheGood opts img failed st.droot → v c st = some (verdict, st', d) →
      VerifyOutcome opts img (c, failed) verdict ∧
        (verdict = .ok → CacheGood opts img failed st'.droot))
    (hcache : CacheGood opts img failed st.droot)
    (h : scanTable v failed table st ds = some (verdict, st', ds')) :
    ScanOutcome opts img (table.map fun c => (c, failed)) verdict ∧
      (verdict = .ok → CacheGood opts img failed st'.droot) := by
  induction table generalizing st ds with
  | nil =>
    cases Option.some.inj h
    refine ⟨?_, fun _ => hcache⟩
    intro c hc
    cases hc
  | cons c table ih =>
    unfold scanTable at h
    cases hc : v c st with
    | none => simp [hc] at h
    | some r =>
      obtain ⟨verdict₁, st₁, d⟩ := r
      obtain ⟨hone, hcache₁⟩ := hv c st verdict₁ st₁ d hcache hc
      rw [hc] at h
      cases verdict₁ with
      | ok =>
        obtain ⟨hrest, hcache'⟩ := ih (hcache₁ rfl) h
        refine ⟨?_, hcache'⟩
        cases verdict with
        | ok =>
          intro n hn
          rcases List.mem_cons.mp hn with rfl | hn
          · exact hone
          · exact hrest n hn
        | fail =>
          obtain ⟨⟨n, hn, hbad⟩, hfree⟩ := hrest
          refine ⟨⟨n, List.mem_cons_of_mem _ hn, hbad⟩, ?_⟩
          intro x hx
          rcases among_cons.mp hx with hx | ⟨-, hx⟩
          · exact hone.2 x hx
          · exact hfree x hx
        | abort =>
          obtain ⟨x, hx, hbad⟩ := hrest
          exact ⟨x, .tail hone.1 hx, hbad⟩
      | fail =>
        cases Option.some.inj h
        refine ⟨⟨⟨_, List.mem_cons_self, hone.1⟩, ?_⟩, fun hok => Verdict.noConfusion hok⟩
        intro x hx
        rcases among_cons.mp hx with hx | ⟨hc, -⟩
        · exact hone.2 x hx
        · exact absurd hc hone.1
      | abort =>
        cases Option.some.inj h
        obtain ⟨x, hx, hbad⟩ := hone
        exact ⟨⟨x, .head hx, hbad⟩, fun hok => Verdict.noConfusion hok⟩

/-- A blockref at which a visit stops has nothing below it. -/
theorem scannedTable_stop {bref : FsckBref} {norecurse : Bool} {r : Verdict}
    (h : brefStop opts img bref = some r) : scannedTable opts img bref norecurse = [] := by
  unfold brefStop at h
  unfold scannedTable brefTable
  cases hread : readMedia img bref.dataOff with
  | badIoBytes => exact ite_self _
  | failed => exact ite_self _
  | noData => exact ite_self _
  | ok media =>
    rw [hread] at h
    dsimp only at h ⊢
    split at h
    next hempty =>
      rw [hempty.2]
      exact ite_self _
    next => cases h

/-- The assertion on empty blockrefs is in the way where the visit says so. -/
theorem brefStop_abort_iff {bref : FsckBref} : brefStop opts img bref = some .abort ↔
    opts.countEmpty = false ∧ bref.kind = .empty ∧ ∃ media, readMedia img bref.dataOff = .ok media := by
  unfold brefStop
  cases hread : readMedia img bref.dataOff with
  | badIoBytes => simp
  | failed => simp
  | noData => simp
  | ok media => simp

/-- A `data_off` without a radix leads nowhere, so that nothing stops its visit. -/
theorem brefStop_noData {bref : FsckBref} (h : mediaBytes bref.dataOff = 0) :
    brefStop opts img bref = none ∧ (brefFailed img bref = true → bref.kind = .invalid) := by
  have hread : readMedia img bref.dataOff = .noData := by
    unfold readMedia
    exact if_pos h
  unfold brefStop brefFailed
  rw [hread]
  simp

/-- A failed blockref is not the one that an assertion stumbles on. -/
theorem not_refuses_of_failed {bref : FsckBref} {norecurse : Bool}
    (hstop : brefStop opts img bref ≠ some .abort)
    (hfailed : brefStop opts img bref ≠ none ∨ brefFailed img bref = true) :
    ¬ VerifyRefuses opts img (bref, norecurse) := by
  rintro (hempty | ⟨-, hkind, -, hbytes⟩)
  · exact hstop (brefStop_abort_iff.mpr hempty)
  · obtain ⟨hnone, hinvalid⟩ := @brefStop_noData opts img bref hbytes
    rcases hfailed with hne | hfailed
    · exact hne hnone
    · exact hkind (hinvalid hfailed)

/-- The children of a blockref without storage add nothing to its count. -/
theorem scanTable_noData_count
    {v : FsckBref → FsckState → Option (Verdict × FsckState × DeltaStats)} {failed : Bool}
    {bref : FsckBref} {norecurse : Bool} {st st' : FsckState} {ds ds' : DeltaStats}
    {verdict : Verdict} (hcount : ds.count = 0) (hbytes : mediaBytes bref.dataOff = 0)
    (h : scanTable v failed (scannedTable opts img bref norecurse) st
      (accumulateDeltaStats ds (ownDelta opts img bref)) = some (verdict, st', ds')) :
    verdict = .ok ∧ ds'.count = 0 := by
  rw [scannedTable_noData hbytes] at h
  cases Option.some.inj h
  refine ⟨rfl, ?_⟩
  show ds.count + (ownDelta opts img bref).count = 0
  rw [hcount, ownDelta_count]
  exact BitVec.add_zero 0

/-- The end of a visit whose children have all returned 0. -/
theorem verifyEnd_outcome {bref : FsckBref} {norecurse : Bool} {st st' : FsckState}
    {ds ds' : DeltaStats} {verdict : Verdict} (hstop : brefStop opts img bref = none)
    (hds : mediaBytes bref.dataOff = 0 → ds.count = 0)
    (htable : ∀ c ∈ verifyTable opts img (bref, norecurse), VerifyGood opts img c)
    (hcache : brefFailed img bref = false → CacheGood opts img norecurse st.droot)
    (h : verifyEnd opts bref (brefFailed img bref) (mediaBytes bref.dataOff) st ds =
      (verdict, st', ds')) :
    VerifyOutcome opts img (bref, norecurse) verdict ∧
      (verdict = .ok → CacheGood opts img norecurse st'.droot) := by
  have hbelow : ∀ x, Among (verifyTable opts img) (VerifySound opts img)
      (verifyTable opts img (bref, norecurse)) x → ¬ VerifyRefuses opts img x :=
    fun x hx => not_bad_of_free (fun c hc => (htable c hc).2) hx
  unfold verifyEnd at h
  split at h
  next hfailed =>
    cases h
    refine ⟨⟨?_, .of_children ?_ hbelow⟩, nofun⟩
    · intro hintact
      have hsound := hintact.isSound.2
      rw [hfailed] at hsound
      cases hsound
    · apply not_refuses_of_failed
      · rw [hstop]
        exact nofun
      · exact Or.inr hfailed
  next hfailed =>
    have hok : brefFailed img bref = false := Bool.not_eq_true _ ▸ hfailed
    have hintact : Intact (verifyTable opts img) (VerifySound opts img) (bref, norecurse) :=
      .node ⟨hstop, hok⟩ fun c hc => (htable c hc).1
    have hkind : bref.kind ≠ .invalid := by
      intro hinv
      unfold brefFailed at hok
      rw [hinv] at hok
      cases hok
    have hone : (0 + 1 : BitVec 64).toInt = 1 := by decide
    dsimp only at h
    split at h
    next hadd =>
      obtain ⟨hoff, hpos, hle⟩ := hadd
      split at h
      next hbytes =>
        cases h
        rw [hds hbytes, hone] at hle
        exact ⟨⟨_, .self _, Or.inr ⟨by omega, hkind, hoff, hbytes⟩⟩, nofun⟩
      next hbytes =>
        cases h
        have hgood : VerifyGood opts img (bref, norecurse) := by
          refine ⟨hintact, .of_children ?_ hbelow⟩
          rintro (hempty | ⟨-, -, -, hnone⟩)
          · rw [brefStop_abort_iff.mpr hempty] at hstop
            cases hstop
          · exact hbytes hnone
        refine ⟨hgood, fun _ m hm => ?_⟩
        rcases List.mem_append.mp hm with hm | hm
        · exact hcache hok m hm
        · rw [List.mem_singleton.mp hm]
          exact hgood
    next hadd =>
      cases h
      refine ⟨⟨hintact, .of_children ?_ hbelow⟩, fun _ => hcache hok⟩
      rintro (hempty | ⟨hcacheOne, -, hoff, hbytes⟩)
      · rw [brefStop_abort_iff.mpr hempty] at hstop
        cases hstop
      · apply hadd
        rw [hds hbytes, hone, hcacheOne]
        exact ⟨hoff, by decide, le_rfl⟩

/-- What `verify_blockref` returns, and what it leaves in the cache for the next. -/
theorem verifyBlockref_outcome {fuel : Nat} {bref : FsckBref} {norecurse : Bool}
    {st st' : FsckState} {ds ds' : DeltaStats} {verdict : Verdict} (hcount : ds.count = 0)
    (hcache : CacheGood opts img norecurse st.droot)
    (h : verifyBlockref opts img fuel bref norecurse st ds = some (verdict, st', ds')) :
    VerifyOutcome opts img (bref, norecurse) verdict ∧
      (verdict = .ok → CacheGood opts img norecurse st'.droot) := by
  induction fuel generalizing bref norecurse st st' ds ds' verdict with
  | zero => cases h
  | succ fuel ih =>
    unfold verifyBlockref at h
    cases hfind : findDelta st.droot bref with
    | some d =>
      obtain ⟨m, hm, rfl, -⟩ := findDelta_mem hfind
      rw [hfind] at h
      cases Option.some.inj h
      exact ⟨hcache m hm, fun _ => hcache⟩
    | none =>
      simp only [hfind, visitBlockref_eq] at h
      cases hstop : brefStop opts img bref with
      | some r =>
        rw [hstop] at h
        cases Option.some.inj h
        refine ⟨?_, ?_⟩
        · have htable : verifyTable opts img (bref, norecurse) = [] := by
            unfold verifyTable
            rw [scannedTable_stop hstop]
            rfl
          cases verdict with
          | ok => exact absurd hstop brefStop_ne_ok
          | fail =>
            refine ⟨?_, .of_children ?_ ?_⟩
            · intro hintact
              have hsound := hintact.isSound.1
              rw [hstop] at hsound
              cases hsound
            · apply not_refuses_of_failed
              · rw [hstop]
                exact fun habort => Verdict.noConfusion (Option.some.inj habort)
              · exact Or.inl (by rw [hstop]; exact Option.some_ne_none _)
            · intro x hx
              rw [htable] at hx
              exact absurd hx not_among_nil
          | abort => exact ⟨_, .self _, Or.inl (brefStop_abort_iff.mp hstop)⟩
        · rintro rfl
          exact absurd hstop brefStop_ne_ok
      | none =>
        simp only [hstop] at h
        cases hscan : scanTable (fun c st => verifyBlockref opts img fuel c (brefFailed img bref) st
            .zero) (brefFailed img bref) (scannedTable opts img bref norecurse)
            (st.visit opts img bref) (accumulateDeltaStats ds (ownDelta opts img bref)) with
        | none => simp [hscan] at h
        | some r =>
          obtain ⟨verdict₁, st₁, ds₁⟩ := r
          rw [hscan] at h
          -- the children run in their own mode, which matters only if there are any
          have hloop : ScanOutcome opts img (verifyTable opts img (bref, norecurse)) verdict₁ ∧
              (verdict₁ = .ok → brefFailed img bref = false →
                CacheGood opts img norecurse st₁.droot) := by
            by_cases hne : scannedTable opts img bref norecurse = []
            · unfold verifyTable
              dsimp only
              rw [hne] at hscan ⊢
              cases Option.some.inj hscan
              refine ⟨?_, fun _ _ => hcache⟩
              intro c hc
              cases hc
            · have hentered : CacheGood opts img (brefFailed img bref)
                  (st.visit opts img bref).droot := hcache.enter hne _
              obtain ⟨hout, hcache₁⟩ := scanTable_outcome
                (fun c st verdict st' d hc hv => ih rfl hc hv) hentered hscan
              refine ⟨hout, fun hok hfailed m hm => ?_⟩
              have hdeep := hcache₁ hok m hm
              rw [hfailed] at hdeep
              exact hdeep.mode norecurse
          have hself : mediaBytes bref.dataOff = 0 → verdict₁ = .ok ∧ ds₁.count = 0 :=
            fun hbytes => scanTable_noData_count hcount hbytes hscan
          cases verdict₁ with
          | ok =>
            exact verifyEnd_outcome hstop (fun hbytes => (hself hbytes).2) hloop.1
              (hloop.2 rfl) (Option.some.inj h)
          | fail =>
            cases Option.some.inj h
            obtain ⟨⟨c, hc, hbad⟩, hfree⟩ := hloop.1
            refine ⟨⟨fun hintact => hbad (hintact.child hc), .of_children ?_ hfree⟩,
              fun hok => Verdict.noConfusion hok⟩
            rintro (hempty | ⟨-, -, -, hbytes⟩)
            · rw [brefStop_abort_iff.mpr hempty] at hstop
              cases hstop
            · cases (hself hbytes).1
          | abort =>
            cases Option.some.inj h
            obtain ⟨x, hx, hbad⟩ := hloop.1
            exact ⟨⟨x, .inside hx, hbad⟩, fun hok => Verdict.noConfusion hok⟩

end Verify

section Pfs

variable {img : FsckImage}

/-- How `init_pfs_blockref` may end. -/
def PfsOutcome (img : FsckImage) (bref : FsckBref) : Verdict → Prop
  | .ok => Intact (pfsTable img) (PfsSound img) bref ∧
    Free (pfsTable img) (PfsSound img) (PfsRefuses img) bref
  | .fail => ¬ Intact (pfsTable img) (PfsSound img) bref ∧
    Free (pfsTable img) (PfsSound img) (PfsRefuses img) bref
  | .abort => ∃ x, Reaches (pfsTable img) (PfsSound img) bref x ∧ PfsRefuses img x

/-- How its loop may end. -/
def PfsScanOutcome (img : FsckImage) (l : List FsckBref) : Verdict → Prop
  | .ok => ∀ c ∈ l, Intact (pfsTable img) (PfsSound img) c ∧
    Free (pfsTable img) (PfsSound img) (PfsRefuses img) c
  | .fail => (∃ c ∈ l, ¬ Intact (pfsTable img) (PfsSound img) c) ∧
    ∀ x, Among (pfsTable img) (PfsSound img) l x → ¬ PfsRefuses img x
  | .abort => ∃ x, Among (pfsTable img) (PfsSound img) l x ∧ PfsRefuses img x

theorem scanPfsTable_outcome
    {v : FsckBref → List (FsckBref × FsckMedia) → Option (Verdict × List (FsckBref × FsckMedia))}
    {table : List FsckBref} {blist blist' : List (FsckBref × FsckMedia)} {verdict : Verdict}
    (hv : ∀ c blist verdict blist', v c blist = some (verdict, blist') → PfsOutcome img c verdict)
    (h : scanPfsTable v table blist = some (verdict, blist')) :
    PfsScanOutcome img table verdict := by
  induction table generalizing blist with
  | nil =>
    cases Option.some.inj h
    intro c hc
    cases hc
  | cons c table ih =>
    unfold scanPfsTable at h
    cases hc : v c blist with
    | none => simp [hc] at h
    | some r =>
      obtain ⟨verdict₁, blist₁⟩ := r
      have hone := hv c blist verdict₁ blist₁ hc
      rw [hc] at h
      cases verdict₁ with
      | ok =>
        have hrest := ih h
        cases verdict with
        | ok =>
          intro n hn
          rcases List.mem_cons.mp hn with rfl | hn
          · exact hone
          · exact hrest n hn
        | fail =>
          obtain ⟨⟨n, hn, hbad⟩, hfree⟩ := hrest
          refine ⟨⟨n, List.mem_cons_of_mem _ hn, hbad⟩, ?_⟩
          intro x hx
          rcases among_cons.mp hx with hx | ⟨-, hx⟩
          · exact hone.2 x hx
          · exact hfree x hx
        | abort =>
          obtain ⟨x, hx, hbad⟩ := hrest
          exact ⟨x, .tail hone.1 hx, hbad⟩
      | fail =>
        cases Option.some.inj h
        refine ⟨⟨_, List.mem_cons_self, hone.1⟩, ?_⟩
        intro x hx
        rcases among_cons.mp hx with hx | ⟨hc, -⟩
        · exact hone.2 x hx
        · exact absurd hc hone.1
      | abort =>
        cases Option.some.inj h
        obtain ⟨x, hx, hbad⟩ := hone
        exact ⟨x, .head hx, hbad⟩

theorem pfsStop_none {bref : FsckBref} (h : pfsStop img bref = none) :
    PfsSound img bref ∧ ¬ PfsRefuses img bref := by
  unfold pfsStop at h
  unfold PfsSound PfsRefuses
  cases hread : readMedia img bref.dataOff with
  | badIoBytes => simp [hread] at h
  | failed => simp [hread] at h
  | noData => simp
  | ok media =>
    rw [hread] at h
    dsimp only at h
    split at h
    next => cases h
    next hnot =>
      refine ⟨⟨nofun, nofun⟩, ?_⟩
      rintro ⟨media', heq, hrefuses⟩
      cases heq
      exact hnot hrefuses

theorem pfsStop_some {bref : FsckBref} {verdict : Verdict} (h : pfsStop img bref = some verdict) :
    PfsOutcome img bref verdict := by
  unfold pfsStop at h
  cases hread : readMedia img bref.dataOff with
  | noData => simp [hread] at h
  | badIoBytes =>
    rw [hread] at h
    cases Option.some.inj h
    refine ⟨fun hintact => hintact.isSound.1 hread, .of_children ?_ ?_⟩
    · rintro ⟨media, hok, -⟩
      rw [hread] at hok
      cases hok
    · intro x hx
      unfold pfsTable at hx
      rw [hread] at hx
      exact absurd hx not_among_nil
  | failed =>
    rw [hread] at h
    cases Option.some.inj h
    refine ⟨fun hintact => hintact.isSound.2 hread, .of_children ?_ ?_⟩
    · rintro ⟨media, hok, -⟩
      rw [hread] at hok
      cases hok
    · intro x hx
      unfold pfsTable at hx
      rw [hread] at hx
      exact absurd hx not_among_nil
  | ok media =>
    rw [hread] at h
    dsimp only at h
    split at h
    next hrefuses =>
      cases Option.some.inj h
      exact ⟨_, .self _, media, hread, hrefuses⟩
    next => cases h

/-- What `init_pfs_blockref` returns. -/
theorem initPfsBlockref_outcome {fuel : Nat} {bref : FsckBref}
    {blist blist' : List (FsckBref × FsckMedia)} {verdict : Verdict}
    (h : initPfsBlockref img fuel bref blist = some (verdict, blist')) :
    PfsOutcome img bref verdict := by
  induction fuel generalizing bref blist blist' verdict with
  | zero => cases h
  | succ fuel ih =>
    rw [initPfsBlockref_succ] at h
    cases hstop : pfsStop img bref with
    | some r =>
      rw [hstop] at h
      cases Option.some.inj h
      exact pfsStop_some hstop
    | none =>
      rw [hstop] at h
      obtain ⟨hsound, hnot⟩ := pfsStop_none hstop
      have hloop : PfsScanOutcome img (pfsTable img bref) verdict :=
        scanPfsTable_outcome (fun c blist verdict blist' hv => ih hv) h
      cases verdict with
      | ok =>
        refine ⟨.node hsound fun c hc => (hloop c hc).1, .of_children hnot ?_⟩
        exact fun x hx => not_bad_of_free (fun c hc => (hloop c hc).2) hx
      | fail =>
        obtain ⟨⟨c, hc, hbad⟩, hfree⟩ := hloop
        exact ⟨fun hintact => hbad (hintact.child hc), .of_children hnot hfree⟩
      | abort =>
        obtain ⟨x, hx, hbad⟩ := hloop
        exact ⟨x, .inside hx, hbad⟩

end Pfs

/-- `verify_blockref` returns 0 or -1. -/
def VerifyReturns (opts : FsckOpts) (img : FsckImage) (type : FsckTree) (bref : FsckBref) : Prop :=
  ∃ fuel r, verifyBlockref opts img fuel bref false ⟨initBlockrefStats type, []⟩ .zero = some r ∧
    r.1 ≠ .abort

/-- `init_pfs_blockref` returns 0 or -1. -/
def InitPfsReturns (img : FsckImage) (bref : FsckBref) : Prop :=
  ∃ fuel r, initPfsBlockref img fuel bref [] = some r ∧ r.1 ≠ .abort

/-- On an image without cycles the scans of fsck give a verdict exactly when none of the blockrefs
that they come to is one that an assertion refuses. -/
theorem fsck_returns_iff (opts : FsckOpts) (img : FsckImage) (type : FsckTree) (bref : FsckBref)
    (hverify : AcyclicFrom (verifyTable opts img) (bref, false))
    (hpfs : AcyclicFrom (pfsTable img) bref) :
    (VerifyReturns opts img type bref ↔
        ∀ x, Reaches (verifyTable opts img) (VerifySound opts img) (bref, false) x →
          ¬ VerifyRefuses opts img x) ∧
      (InitPfsReturns img bref ↔
        ∀ x, Reaches (pfsTable img) (PfsSound img) bref x → ¬ PfsRefuses img x) := by
  obtain ⟨fuel, hfuel⟩ := verifyBlockref_total hverify
  obtain ⟨⟨verdict, st, ds⟩, hrun⟩ := hfuel ⟨initBlockrefStats type, []⟩ .zero
  obtain ⟨pfsFuel, hpfsFuel⟩ := initPfsBlockref_total hpfs
  obtain ⟨⟨pfsVerdict, blist⟩, hpfsRun⟩ := hpfsFuel []
  have hempty : CacheGood opts img false [] := by
    intro m hm
    cases hm
  have hout := (verifyBlockref_outcome rfl hempty hrun).1
  have hpfsOut := initPfsBlockref_outcome hpfsRun
  constructor
  · constructor
    · rintro ⟨g, ⟨verdict', r⟩, hg, hne⟩
      have hout' := (verifyBlockref_outcome rfl hempty hg).1
      cases verdict' with
      | ok => exact hout'.2
      | fail => exact hout'.2
      | abort => exact absurd rfl hne
    · intro hfree
      refine ⟨fuel, _, hrun, ?_⟩
      rintro rfl
      obtain ⟨x, hx, hbad⟩ := hout
      exact hfree x hx hbad
  · constructor
    · rintro ⟨g, ⟨verdict', r⟩, hg, hne⟩
      have hout' := initPfsBlockref_outcome hg
      cases verdict' with
      | ok => exact hout'.2
      | fail => exact hout'.2
      | abort => exact absurd rfl hne
    · intro hfree
      refine ⟨pfsFuel, _, hpfsRun, ?_⟩
      rintro rfl
      obtain ⟨x, hx, hbad⟩ := hpfsOut
      exact hfree x hx hbad

theorem fsck_returns_iff_shared :
    (VerifyReturns cacheOne sharedImage .volume (initRootBlockref .volume 0) ↔
        ∀ x, Reaches (verifyTable cacheOne sharedImage) (VerifySound cacheOne sharedImage)
          (initRootBlockref .volume 0, false) x → ¬ VerifyRefuses cacheOne sharedImage x) ∧
      (InitPfsReturns sharedImage (initRootBlockref .volume 0) ↔
        ∀ x, Reaches (pfsTable sharedImage) (PfsSound sharedImage) (initRootBlockref .volume 0) x →
          ¬ PfsRefuses sharedImage x) :=
  fsck_returns_iff cacheOne sharedImage .volume (initRootBlockref .volume 0)
    (sharedImage_flat.acyclic _ _) (sharedImage_flat.pfs_acyclic _)

/-- A blockref of the given type with a block of 1KB and no check code. -/
def strayBref (type : BitVec 8) : FsckBref where
  type := type
  methods := 0
  dataOff := 0x80000a
  check := 0
  rest := 0

/-- The blockset of the super-root holds an empty blockref with storage and an inode that is
neither the super-root nor the root of a PFS. -/
def strayImage : FsckImage where
  read _ := some {
    buf := fun _ => 0
    directdata := false
    blockset := []
    npdata := fun _ => emptyBref
    srootBlockset := [strayBref 0, strayBref 1, emptyBref, emptyBref]
    freemapBlockset := [] }
  icrc32 _ _ := 0
  xxh64 _ _ := 0
  sha192 := none

theorem strayImage_flat : FlatImage strayImage where
  blockset := by
    rintro off media h
    cases h
    rfl
  freemap := by
    rintro off media h
    cases h
    rfl
  npdata := by
    rintro off media h i
    cases h
    show flatRank emptyBref < 2
    decide
  sroot := by
    rintro off media h
    cases h
    show ∀ c ∈ [strayBref 0, strayBref 1, emptyBref, emptyBref], flatRank c < 3
    decide

/-- Both scans of this image end in a failed assertion. -/
theorem fsck_asserts :
    (AcyclicFrom (verifyTable cacheOne strayImage) (initRootBlockref .volume 0, false) ∧
        ¬ VerifyReturns cacheOne strayImage .volume (initRootBlockref .volume 0)) ∧
      AcyclicFrom (pfsTable strayImage) (initRootBlockref .volume 0) ∧
        ¬ InitPfsReturns strayImage (initRootBlockref .volume 0) := by
  refine ⟨⟨strayImage_flat.acyclic _ _, ?_⟩, strayImage_flat.pfs_acyclic _, ?_⟩
  · rintro ⟨fuel, r, hr, hne⟩
    have hrun : (verifyBlockref cacheOne strayImage 2 (initRootBlockref .volume 0) false
        ⟨initBlockrefStats .volume, []⟩ .zero).map Prod.fst = some .abort := by decide
    obtain ⟨r', hr', habort⟩ := Option.map_eq_some_iff.mp hrun
    have hlong := verifyBlockref_mono (Nat.le_max_left fuel 2) hr
    rw [verifyBlockref_mono (Nat.le_max_right fuel 2) hr'] at hlong
    cases Option.some.inj hlong
    exact hne habort
  · rintro ⟨fuel, r, hr, hne⟩
    have hrun : (initPfsBlockref strayImage 2 (initRootBlockref .volume 0) []).map Prod.fst =
        some .abort := by decide
    obtain ⟨r', hr', habort⟩ := Option.map_eq_some_iff.mp hrun
    have hlong := initPfsBlockref_mono (Nat.le_max_left fuel 2) hr
    rw [initPfsBlockref_mono (Nat.le_max_right fuel 2) hr'] at hlong
    cases Option.some.inj hlong
    exact hne habort

end Hammer2
