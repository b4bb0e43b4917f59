import Hammer2.CcmsRun

namespace Hammer2

section

variable {τ : Type} [Fintype τ] [DecidableEq τ] {s s' : CcmsSys τ} {t u : τ} {n : Nat}
  {upgraded : Bool}

theorem CcmsTurn.Sound.inv {turn : CcmsTurn τ} (h : turn.Sound s t) (hi : s.Inv)
    (hw : (s.pc t).waking = false) : (s.put t turn).Inv where
  count := by
    have hsum := sum_eq_of_eq_off (f := fun u => (s.hold u).weight)
      (g := fun u => ((s.put t turn).hold u).weight) t fun u hu => by
        simp [CcmsSys.put, Function.update_of_ne hu]
    have hcount := h.count
    rw [hi.count] at hcount
    simp only [CcmsSys.put, Function.update_self] at hsum ⊢
    omega
  upgrade := by
    have hsum := sum_eq_of_eq_off (f := fun u => ccmsUpgrades (s.hold u) (s.pc u))
      (g := fun u => ccmsUpgrades ((s.put t turn).hold u) ((s.put t turn).pc u)) t fun u hu => by
        simp [CcmsSys.put, Function.update_of_ne hu]
    have hup := h.upgrade
    rw [hi.upgrade] at hup
    simp only [CcmsSys.put, Function.update_self] at hsum ⊢
    omega
  alone := by
    intro u v hu hv
    simp only [CcmsSys.put] at hu ⊢
    by_cases hut : u = t
    · subst hut
      rw [Function.update_self] at hu
      rw [Function.update_of_ne hv]
      exact h.alone v hv hu
    · rw [Function.update_of_ne hut] at hu
      by_cases hvt : v = t
      · subst hvt
        rw [Function.update_self]
        exact h.other u hut hu
      · rw [Function.update_of_ne hvt]
        exact hi.alone u v hu hv
  td := by
    intro u
    simp only [CcmsSys.put]
    by_cases hut : u = t
    · subst hut
      rw [Function.update_self]
      exact h.own
    · rw [Function.update_of_ne hut]
      exact h.td u hut
  fits := by
    intro u
    simp only [CcmsSys.put]
    by_cases hut : u = t
    · subst hut
      rw [Function.update_self, Function.update_self]
      exact h.fits
    · rw [Function.update_of_ne hut, Function.update_of_ne hut]
      exact hi.fits u
  deep := by
    intro u n upgraded hu
    simp only [CcmsSys.put] at hu
    by_cases hut : u = t
    · subst hut
      rw [Function.update_self] at hu
      exact h.deep n upgraded hu
    · rw [Function.update_of_ne hut] at hu
      exact hi.deep u n upgraded hu
  waits := by
    intro u hu
    simp only [CcmsSys.put] at hu ⊢
    by_cases hut : u = t
    · subst hut
      rw [Function.update_self] at hu ⊢
      exact .inl (h.sleeps hu)
    · rw [Function.update_of_ne hut] at hu ⊢
      rcases hi.waits u hu with ⟨hk, hb⟩ | hrung | ⟨v, hv⟩
      · rcases h.waits (s.pc u) hu hk hb with hkeep | hwake
        · exact .inl hkeep
        · exact .inr (.inr ⟨t, by rw [Function.update_self]; exact hwake⟩)
      · exact .inr (.inl (by rw [Function.update_of_ne hut]; exact hrung))
      · have hvt : v ≠ t := fun he => by
          rw [he, hw] at hv
          cases hv
        exact .inr (.inr ⟨v, by rw [Function.update_of_ne hvt]; exact hv⟩)

theorem CcmsSys.Inv.step_lock (hi : s.Inv) {state : CcmsState} {turn : CcmsTurn τ}
    (hpc : s.pc t = .lockSpin state)
    (h : CcmsTurn.step t ⟨s.cst, s.hold t, .lockSpin state⟩ = some turn) : turn.Sound s t := by
  have hfits := hi.fits t
  rw [hpc] at hfits
  obtain ⟨hstate, hex⟩ := hfits
  have hup : ccmsUpgrades (s.hold t) (s.pc t) = 0 := ccmsUpgrades_eq_zero hex (by rw [hpc]; rfl)
  cases hbusy : s.cst.busy state with
  | true =>
    simp only [CcmsTurn.step, hbusy, ↓reduceIte, Option.some.injEq] at h
    rw [← h]
    exact hi.sound_sleep ⟨hstate, hex⟩ (by rw [hup, ccmsUpgrades_eq_zero hex rfl]) hbusy
  | false =>
    obtain ⟨cst, hgrant, hsound⟩ := hi.sound_grant .done hstate hex hup hbusy
    simp only [CcmsTurn.step, hbusy, Bool.false_eq_true, ↓reduceIte, hgrant, Option.some.injEq] at h
    rw [← h]
    exact hsound

theorem CcmsSys.Inv.step_nonblock (hi : s.Inv) {state : CcmsState} {turn : CcmsTurn τ}
    (hpc : s.pc t = .nonblockSpin state)
    (h : CcmsTurn.step t ⟨s.cst, s.hold t, .nonblockSpin state⟩ = some turn) :
    turn.Sound s t := by
  have hfits := hi.fits t
  rw [hpc] at hfits
  obtain ⟨hstate, hex⟩ := hfits
  have hup : ccmsUpgrades (s.hold t) (s.pc t) = 0 := ccmsUpgrades_eq_zero hex (by rw [hpc]; rfl)
  cases hbusy : s.cst.busy state with
  | true =>
    simp only [CcmsTurn.step, hbusy, ↓reduceIte, Option.some.injEq] at h
    rw [← h]
    exact hi.sound_goto trivial (by rw [hup, ccmsUpgrades_eq_zero hex rfl]) rfl
  | false =>
    obtain ⟨cst, hgrant, hsound⟩ := hi.sound_grant .done hstate hex hup hbusy
    simp only [CcmsTurn.step, hbusy, Bool.false_eq_true, ↓reduceIte, hgrant, Option.some.injEq] at h
    rw [← h]
    exact hsound

/-- The loop of an upgrade that already counts in `upgrade`. -/
theorem CcmsSys.Inv.step_upgrade (hi : s.Inv) {turn : CcmsTurn τ} (hpc : s.pc t = .upgradeAwake)
    (h : CcmsTurn.step t ⟨s.cst, s.hold t, .upgradeAwake⟩ = some turn) : turn.Sound s t := by
  have hex : (s.hold t).isExclusive = false := by
    have hfits := hi.fits t
    rw [hpc] at hfits
    exact hfits
  obtain ⟨n, ht⟩ := CcmsHold.exists_shared hex
  simp only [CcmsTurn.step, CcmsTurn.upgradeLoop, Option.some.injEq] at h
  rw [← h]
  split
  next hne => exact hi.sound_sleep hex (by rw [ht, hpc]; rfl) hne
  next hz =>
    have hzero := hi.shared_zero (not_not.mp hz)
    refine CcmsCst.sound_exclusive ?_ (fun u _ => hzero u) rfl rfl rfl ?_
    · rw [not_not.mp hz, hzero t]
      rfl
    · rw [hpc, hzero t]
      simp [ccmsUpgrades, CcmsHold.isUpgraded, CcmsPc.upgrading]

theorem CcmsSys.Inv.step_upgradeSpin (hi : s.Inv) {turn : CcmsTurn τ}
    (hpc : s.pc t = .upgradeSpin)
    (h : CcmsTurn.step t ⟨s.cst, s.hold t, .upgradeSpin⟩ = some turn) : turn.Sound s t := by
  have hfits := hi.fits t
  rw [hpc] at hfits
  obtain ⟨n, ht⟩ := hfits
  have hup : ccmsUpgrades (s.hold t) (s.pc t) = 0 := by
    rw [ht, hpc]
    rfl
  simp only [CcmsTurn.step, CcmsTurn.upgradeLoop, Option.some.injEq] at h
  rw [← h]
  split
  next hne =>
    rw [ht]
    exact hi.sound_upgrade ht hup hne
  next hz =>
    have hle := hi.count_shared ht
    have hcount : s.cst.count = ((n + 1 : Nat) : Int) := by
      push_cast
      omega
    refine CcmsCst.sound_exclusive ?_ (fun u hu => hi.alone_of_count ht hcount hu) rfl rfl rfl ?_
    · rw [hcount, ht]
      rfl
    · rw [hup]
      simp [ccmsUpgrades, CcmsHold.isUpgraded, CcmsPc.upgrading]

theorem CcmsSys.Inv.step_unlock (hi : s.Inv) {ret : CcmsRet} {turn : CcmsTurn τ}
    (hpc : s.pc t = .unlockTest ret)
    (h : CcmsTurn.step t ⟨s.cst, s.hold t, .unlockTest ret⟩ = some turn) : turn.Sound s t := by
  have hcan : (s.hold t).CanUnlock := by
    have hfits := hi.fits t
    rw [hpc] at hfits
    exact hfits
  have hmove (pc : CcmsPc) (hup : pc.upgrading = false) :
      ccmsUpgrades (s.hold t) pc = ccmsUpgrades (s.hold t) (s.pc t) :=
    ccmsUpgrades_congr _ hup (by rw [hpc]; rfl)
  cases ht : s.hold t with
  | shared n =>
    rw [ht] at hcan
    obtain ⟨m, rfl⟩ := Nat.exists_eq_add_of_lt hcan
    rw [Nat.zero_add] at ht
    have hle := hi.count_shared ht
    simp only [CcmsTurn.step, if_neg (show ¬s.cst.count < 0 by omega),
      if_pos (show 0 < s.cst.count by omega), Option.some.injEq] at h
    rw [← h]
    exact hi.sound_goto ⟨m, ht⟩ (hmove _ rfl) rfl
  | exclusive n upgraded =>
    have hcount := hi.count_exclusive ht
    have hn := hi.deep t n upgraded ht
    have htd : s.cst.td = some t := (hi.td t).mpr (by rw [ht]; rfl)
    simp only [CcmsTurn.step, if_pos (show s.cst.count < 0 by omega), htd, ne_eq,
      not_true_eq_false, ↓reduceIte] at h
    by_cases hone : s.cst.count < -1
    · rw [if_pos hone] at h
      cases h
      have hc : s.cst.count + 1 = -((n - 1 : Nat) : Int) := by omega
      rw [hc, ht, ← htd]
      exact hi.sound_nest ht (by omega) (by rw [← hmove (.out ret) rfl, ht]; rfl)
    · rw [if_neg hone] at h
      cases h
      have hn1 : n = 1 := by omega
      subst hn1
      refine hi.sound_goto ?_ (hmove _ rfl) rfl
      cases upgraded with
      | false => exact ht
      | true =>
        rw [ht] at hcan
        exact absurd (hcan rfl) (Nat.lt_irrefl 1)

theorem CcmsSys.Inv.step_release (hi : s.Inv) {turn : CcmsTurn τ} (hpc : s.pc t = .releaseTest)
    (h : CcmsTurn.step t ⟨s.cst, s.hold t, .releaseTest⟩ = some turn) : turn.Sound s t := by
  have hcan : (s.hold t).CanUnlock := by
    have hfits := hi.fits t
    rw [hpc] at hfits
    exact hfits
  simp only [CcmsTurn.step, CcmsTurn.goto, Option.some.injEq] at h
  rw [← h]
  refine hi.sound_goto ?_ (ccmsUpgrades_congr _ ?_ (by rw [hpc]; rfl)) ?_
  · split
    · exact hcan
    · split
      · exact hcan
      · trivial
  · split
    · rfl
    · split <;> rfl
  · split
    · rfl
    · split <;> rfl

theorem CcmsSys.Inv.step_upgradeTest (hi : s.Inv) {turn : CcmsTurn τ} (hpc : s.pc t = .upgradeTest)
    (h : CcmsTurn.step t ⟨s.cst, s.hold t, .upgradeTest⟩ = some turn) : turn.Sound s t := by
  have hne : s.hold t ≠ .shared 0 := by
    have hfits := hi.fits t
    rw [hpc] at hfits
    exact hfits
  have hmove {pc : CcmsPc} (hup : pc.upgrading = false) :
      ccmsUpgrades (s.hold t) pc = ccmsUpgrades (s.hold t) (s.pc t) :=
    ccmsUpgrades_congr _ hup (by rw [hpc]; rfl)
  cases ht : s.hold t with
  | shared n =>
    cases n with
    | zero => exact absurd ht hne
    | succ n =>
      have hle := hi.count_shared ht
      simp only [CcmsTurn.step, if_neg (show ¬s.cst.count < 0 by omega),
        if_pos (show 0 < s.cst.count by omega), Option.some.injEq] at h
      rw [← h]
      exact hi.sound_goto ⟨n, ht⟩ (hmove rfl) rfl
  | exclusive n upgraded =>
    have hneg := hi.count_neg_of_exclusive (t := t) (by rw [ht]; rfl)
    have htd : s.cst.td = some t := (hi.td t).mpr (by rw [ht]; rfl)
    simp only [CcmsTurn.step, if_pos hneg, if_pos htd, Option.some.injEq] at h
    rw [← h]
    exact hi.sound_goto trivial (hmove rfl) rfl

/-- `ccms_thread_lock_downgrade` and `ccms_thread_unlock_upgraded` begin the same way. -/
theorem CcmsSys.Inv.sound_upgradedTest (hi : s.Inv) {ostate : CcmsState} {pc pc' : CcmsPc}
    (hpc : (s.pc t).upgrading = false)
    (hup : pc.upgrading = false ∧ pc'.upgrading = false ∧ pc.asleep = false ∧ pc'.asleep = false)
    (hshared : ostate = .shared → s.hold t = .exclusive 1 true ∧ (s.hold t).Fits pc)
    (hother : ostate ≠ .shared → (s.hold t).Fits pc') :
    CcmsTurn.Sound s t ⟨s.cst, s.hold t, if ostate = .shared then
      if s.cst.td = some t ∧ s.cst.count = -1 then pc else .panic else pc'⟩ := by
  obtain ⟨h1, h2, h3, h4⟩ := hup
  by_cases hs : ostate = .shared
  · obtain ⟨ht, hfits⟩ := hshared hs
    have htd : s.cst.td = some t := (hi.td t).mpr (by rw [ht]; rfl)
    have hcount := hi.count_exclusive ht
    rw [if_pos hs, if_pos ⟨htd, hcount⟩]
    exact hi.sound_goto hfits (ccmsUpgrades_congr _ h1 hpc) h3
  · rw [if_neg hs]
    exact hi.sound_goto (hother hs) (ccmsUpgrades_congr _ h2 hpc) h4

/-- A step of a thread keeps what the lock and its threads agree on. -/
theorem CcmsSys.Inv.step_sound (hi : s.Inv) (hw : (s.pc t).waking = false) {turn : CcmsTurn τ}
    (h : CcmsTurn.step t ⟨s.cst, s.hold t, s.pc t⟩ = some turn) : turn.Sound s t := by
  have hfits := hi.fits t
  cases hpc : s.pc t with
  | out ret | lockSleep state | upgradeSleep | panic =>
    rw [hpc] at h
    cases h
  | wakeup ret =>
    rw [hpc] at hw
    cases hw
  | lockTest state | nonblockTest state =>
    rw [hpc] at h hfits
    cases h
    refine hi.sound_goto ?_ (ccmsUpgrades_congr _ ?_ (by rw [hpc]; rfl)) ?_
    · split
      next => exact hfits
      next hneg => exact ⟨hfits, hi.isExclusive_false (not_lt.mp hneg) t⟩
    · split <;> rfl
    · split <;> rfl
  | lockOwner state | nonblockOwner state =>
    rw [hpc] at h hfits
    simp only [CcmsTurn.step] at h
    by_cases htd : s.cst.td = some t
    · rw [if_pos htd] at h
      cases h
      exact hi.sound_relock htd (by rw [hpc]; rfl)
    · rw [if_neg htd] at h
      cases h
      exact hi.sound_goto ⟨hfits, hi.not_owner htd⟩
        (ccmsUpgrades_congr _ rfl (by rw [hpc]; rfl)) rfl
  | lockSpin state =>
    rw [hpc] at h
    exact hi.step_lock hpc h
  | nonblockSpin state =>
    rw [hpc] at h
    exact hi.step_nonblock hpc h
  | releaseTest =>
    rw [hpc] at h
    exact hi.step_release hpc h
  | upgradeTest =>
    rw [hpc] at h
    exact hi.step_upgradeTest hpc h
  | upgradeSpin =>
    rw [hpc] at h
    exact hi.step_upgradeSpin hpc h
  | upgradeAwake =>
    rw [hpc] at h
    exact hi.step_upgrade hpc h
  | downgradeTest ostate =>
    rw [hpc] at h hfits
    cases h
    exact hi.sound_upgradedTest (by rw [hpc]; rfl) ⟨rfl, rfl, rfl, rfl⟩
      (fun hs => ⟨hfits hs, hfits hs⟩) fun _ => trivial
  | upgradedTest ostate =>
    rw [hpc] at h hfits
    cases h
    refine hi.sound_upgradedTest (by rw [hpc]; rfl) ⟨rfl, rfl, rfl, rfl⟩ (fun hs => ?_) fun hs => ?_
    · rw [CcmsHold.Fits, if_pos hs] at hfits
      exact ⟨hfits, hfits⟩
    · rw [CcmsHold.Fits, if_neg hs] at hfits
      exact hfits
  | downgradeSpin =>
    rw [hpc] at h hfits
    cases h
    exact hi.sound_exclusive_release hfits (by rw [hpc]; rfl) rfl rfl rfl rfl rfl
  | upgradedSpin =>
    rw [hpc] at h hfits
    cases h
    exact hi.sound_exclusive_release hfits (by rw [hpc]; rfl) rfl rfl rfl rfl rfl
  | unlockTest ret =>
    rw [hpc] at h
    exact hi.step_unlock hpc h
  | unlockExclusive ret =>
    rw [hpc] at h hfits
    have hcount : s.cst.count = -1 := hi.count_exclusive hfits
    simp only [CcmsTurn.step, if_pos hcount] at h
    cases h
    exact hi.sound_exclusive_release hfits (by rw [hpc]; rfl) rfl rfl rfl (sub_zero _).symm rfl
  | unlockShared ret =>
    rw [hpc] at h hfits
    obtain ⟨n, ht⟩ := hfits
    have hup : ccmsUpgrades (s.hold t) (s.pc t) = 0 := by
      rw [ht, hpc]
      rfl
    simp only [CcmsTurn.step] at h
    by_cases hz : s.cst.count - 1 = 0
    · rw [if_pos hz] at h
      cases h
      have hle := hi.count_shared ht
      refine CcmsTurn.sound_release (n := n) (by rw [ht]; rfl) (hi.td_none (by omega))
        (fun u _ => hi.no_exclusive_beside ht u) ?_ ?_ rfl
      · rw [ht]
        simp [CcmsHold.weight]
      · rw [hup]
        simp
    · rw [if_neg hz] at h
      cases h
      rw [ht]
      exact hi.sound_drop ht hup hz

/-- A wakeup is called for every sleeper. -/
theorem CcmsSys.Inv.ring (hi : s.Inv) {ret : CcmsRet} (hpc : s.pc t = .wakeup ret) :
    (s.ring.put t ⟨s.cst, s.hold t, .out ret⟩).Inv := by
  have hhold : (s.ring.put t ⟨s.cst, s.hold t, .out ret⟩).hold = s.hold :=
    Function.update_eq_self t s.hold
  have hpcs : ∀ u, u ≠ t → (s.ring.put t ⟨s.cst, s.hold t, .out ret⟩).pc u = s.pc u :=
    fun u hu => Function.update_of_ne hu _ _
  have hself : (s.ring.put t ⟨s.cst, s.hold t, .out ret⟩).pc t = .out ret :=
    Function.update_self _ _ _
  have hup : ∀ u, ccmsUpgrades (s.hold u) ((s.ring.put t ⟨s.cst, s.hold t, .out ret⟩).pc u) =
      ccmsUpgrades (s.hold u) (s.pc u) := by
    intro u
    by_cases hu : u = t
    · rw [hu, hself]
      exact ccmsUpgrades_congr _ rfl (by rw [hpc]; rfl)
    · rw [hpcs u hu]
  exact {
    count := by
      rw [hhold]
      exact hi.count
    upgrade := by
      rw [hhold, Finset.sum_congr rfl fun u _ => hup u]
      exact hi.upgrade
    alone := by
      rw [hhold]
      exact hi.alone
    td := by
      rw [hhold]
      exact hi.td
    fits := by
      intro u
      rw [hhold]
      by_cases hu : u = t
      · rw [hu, hself]
        trivial
      · rw [hpcs u hu]
        exact hi.fits u
    deep := by
      rw [hhold]
      exact hi.deep
    waits := by
      intro u hu
      by_cases hut : u = t
      · rw [hut, hself] at hu
        cases hu
      · rw [hpcs u hut] at hu
        refine .inr (.inl ?_)
        simp [CcmsSys.put, CcmsSys.ring, Function.update_of_ne hut, hu] }

theorem CcmsSys.Inv.setPc (hi : s.Inv) {pc : CcmsPc} (hfits : (s.hold t).Fits pc)
    (hup : pc.upgrading = (s.pc t).upgrading) (hsleep : pc.asleep = false)
    (hw : (s.pc t).waking = false) : (s.setPc t pc).Inv := by
  have hsound : CcmsTurn.Sound s t ⟨s.cst, s.hold t, pc⟩ :=
    hi.sound_goto hfits (by unfold ccmsUpgrades; rw [hup]) hsleep
  have hinv := hsound.inv hi hw
  unfold CcmsSys.put at hinv
  rw [Function.update_eq_self] at hinv
  refine { hinv with waits := fun u hu => ?_ }
  refine (hinv.waits u hu).imp_right (Or.imp_left fun hrung => ?_)
  by_cases hut : u = t
  · rw [hut] at hrung
    simp at hrung
  · rw [← hrung]
    exact (Function.update_of_ne hut _ _).symm

theorem CcmsSys.Inv.call (hi : s.Inv) {call : CcmsCall} (hout : (s.pc t).isOut = true)
    (hfair : call.Fair (s.hold t)) : (s.setPc t call.start).Inv := by
  have hpc : (s.pc t).upgrading = false ∧ (s.pc t).waking = false := by
    cases hpc : s.pc t <;> rw [hpc] at hout <;> cases hout
    exact ⟨rfl, rfl⟩
  refine hi.setPc ?_ ?_ ?_ hpc.2
  · cases call <;> exact hfair
  · rw [hpc.1]
    cases call <;> rfl
  · cases call <;> rfl

theorem CcmsSys.Inv.timeout (hi : s.Inv) (hsleep : (s.pc t).asleep = true) :
    (s.setPc t (s.pc t).woken).Inv := by
  have hfits := hi.fits t
  cases hpc : s.pc t <;> rw [hpc] at hsleep <;> cases hsleep
  all_goals
    rw [hpc] at hfits
    exact hi.setPc hfits (by rw [hpc]; rfl) rfl (by rw [hpc]; rfl)

/-- The lock goes from its owner to another thread. -/
theorem CcmsSys.Inv.setown (hi : s.Inv) {owner : τ} (hown : s.hold owner = .exclusive n upgraded)
    (hout : (s.pc owner).isOut = true) (ht : (s.pc t).isOut = true)
    (hfree : t ≠ owner → s.hold t = .shared 0) {hold : τ → CcmsHold}
    (hself : hold t = s.hold owner) (hother : ∀ u, u ≠ t → hold u = .shared 0) :
    (CcmsSys.mk { s.cst with td := some t } hold s.pc s.rung).Inv := by
  have hex : (s.hold owner).isExclusive = true := by
    rw [hown]
    rfl
  have hzero : ∀ u, u ≠ owner → s.hold u = .shared 0 := fun u hu => hi.alone owner u hex hu
  have hpcs : (s.pc t).upgrading = false ∧ (s.pc owner).upgrading = false := by
    constructor
    · cases hpc : s.pc t <;> rw [hpc] at ht <;> cases ht
      rfl
    · cases hpc : s.pc owner <;> rw [hpc] at hout <;> cases hout
      rfl
  have hswap : ∀ u, ccmsUpgrades (hold u) (s.pc u) =
      ccmsUpgrades (s.hold (Equiv.swap t owner u)) (s.pc (Equiv.swap t owner u)) := by
    intro u
    by_cases hut : u = t
    · rw [hut, hself, Equiv.swap_apply_left]
      exact ccmsUpgrades_congr _ hpcs.1 hpcs.2
    · rw [hother u hut]
      by_cases huo : u = owner
      · rw [huo, Equiv.swap_apply_right, hfree fun hto => hut (huo.trans hto.symm)]
        exact ccmsUpgrades_congr _ hpcs.2 hpcs.1
      · rw [Equiv.swap_apply_of_ne_of_ne hut huo, hzero u huo]
  exact {
    count := by
      show s.cst.count = ∑ u, (hold u).weight
      rw [Finset.sum_eq_single t (fun u _ hu => by rw [hother u hu]; rfl)
        (fun hu => absurd (Finset.mem_univ t) hu), hself, hown]
      exact hi.count_exclusive hown
    upgrade := by
      show s.cst.upgrade = ∑ u, ccmsUpgrades (hold u) (s.pc u)
      rw [Finset.sum_congr rfl fun u _ => hswap u,
        Equiv.sum_comp (Equiv.swap t owner) fun u => ccmsUpgrades (s.hold u) (s.pc u)]
      exact hi.upgrade
    alone := by
      intro u v hu hv
      by_cases hut : u = t
      · exact hother v (by rw [← hut]; exact hv)
      · have hz : (hold u).isExclusive = false := by
          rw [hother u hut]
          rfl
        exact absurd hu (by rw [hz]; exact Bool.false_ne_true)
    td := by
      intro u
      show some t = some u ↔ (hold u).isExclusive = true
      by_cases hut : u = t
      · rw [hut, hself]
        exact iff_of_true rfl hex
      · rw [hother u hut]
        exact iff_of_false (fun he => hut (Option.some.inj he).symm)
          (by simp [CcmsHold.isExclusive])
    fits := by
      intro u
      show (hold u).Fits (s.pc u)
      by_cases hut : u = t
      · rw [hut]
        cases hpc : s.pc t <;> rw [hpc] at ht <;> cases ht
        trivial
      · by_cases huo : u = owner
        · rw [huo]
          cases hpc : s.pc owner <;> rw [hpc] at hout <;> cases hout
          trivial
        · rw [hother u hut, ← hzero u huo]
          exact hi.fits u
    deep := by
      intro u m up hu
      by_cases hut : u = t
      · subst hut
        exact hi.deep owner m up (hself.symm.trans hu)
      · cases (hother u hut).symm.trans hu
    waits := by
      intro u hu
      refine (hi.waits u hu).imp_left fun hk => ⟨?_, hk.2⟩
      show CcmsCst.Keeps { s.cst with td := some t } (s.pc u)
      cases hpc : s.pc u <;> rw [hpc] at hk <;> exact hk.1 }

theorem CcmsSys.Inv.act (hi : s.Inv) {a : CcmsAct τ} (hfair : s.Fair a) (h : s.act a = some s') :
    s'.Inv := by
  cases a with
  | call t call =>
    obtain ⟨hout, hs⟩ := Option.ite_none_right_eq_some.mp h
    cases hs
    exact hi.call hout hfair
  | timeout t =>
    obtain ⟨hsleep, hs⟩ := Option.ite_none_right_eq_some.mp h
    cases hs
    exact hi.timeout hsleep
  | run t =>
    obtain ⟨turn, hturn, rfl⟩ := Option.map_eq_some_iff.mp h
    cases hw : (s.pc t).waking with
    | false => exact (hi.step_sound hw hturn).inv hi hw
    | true =>
      cases hpc : s.pc t <;> rw [hpc] at hw <;> cases hw
      rw [hpc] at hturn
      cases hturn
      exact hi.ring hpc
  | setown t owner =>
    obtain ⟨⟨n, upgraded, hown⟩, hout, hfree⟩ := hfair
    obtain ⟨ht, h⟩ := Option.ite_none_right_eq_some.mp h
    rw [if_pos (hi.count_neg_of_exclusive (t := owner) (by rw [hown]; rfl))] at h
    cases h
    refine hi.setown hown hout ht hfree (Function.update_self _ _ _) fun u hu => ?_
    rw [Function.update_of_ne hu]
    by_cases huo : u = owner
    · rw [huo, Function.update_self]
    · rw [Function.update_of_ne huo]
      exact hi.alone owner u (by rw [hown]; rfl) huo

theorem ccmsStart_inv (τ : Type) [Fintype τ] : (ccmsStart τ).Inv where
  count := by simp [ccmsStart, ccmsCstInit, CcmsHold.weight]
  upgrade := by simp [ccmsStart, ccmsCstInit, ccmsUpgrades, CcmsHold.isUpgraded, CcmsPc.upgrading]
  alone _ _ h := by cases h
  td _ := by simp [ccmsStart, ccmsCstInit, CcmsHold.isExclusive]
  fits _ := trivial
  deep _ _ _ h := by cases h
  waits _ h := by cases h

/-- States of a lock in use, from `ccms_cst_init` on. -/
abbrev CcmsReach (s : CcmsSys τ) : Prop := Run.Reach CcmsSys.act CcmsSys.Fair (ccmsStart τ) s

theorem CcmsReach.inv (h : CcmsReach s) : s.Inv :=
  h.invariant (ccmsStart_inv τ) fun hi hfair hact => hi.act hfair hact

/-- No run reaches a failed assertion or a panic. A thread that has the lock exclusively is the only
one that has anything of it, and `count` counts what the threads have. -/
theorem ccms_lock_safe (h : CcmsReach s) :
    (∀ t, s.pc t ≠ .panic) ∧
      (∀ t u, s.cst.owned t = true → u ≠ t → s.hold u = .shared 0) ∧
      (∀ t, s.cst.owned t = true ↔ (s.hold t).isExclusive = true) ∧
      s.cst.count = ∑ t, (s.hold t).weight ∧
      s.cst.upgrade = ∑ t, ccmsUpgrades (s.hold t) (s.pc t) := by
  have hi := CcmsReach.inv h
  have howned : ∀ t, s.cst.owned t = true ↔ (s.hold t).isExclusive = true := by
    intro t
    unfold CcmsCst.owned
    rw [decide_eq_true_eq, hi.td t]
    exact and_iff_right_of_imp fun hex => hi.count_neg_of_exclusive hex
  refine ⟨fun t hpc => ?_, fun t u ht hu => hi.alone t u ((howned t).mp ht) hu, howned, hi.count,
    hi.upgrade⟩
  have hfits := hi.fits t
  rw [hpc] at hfits
  exact hfits

/-- The thread gets a lock as soon as its sleep is over. -/
def CcmsSys.TakesNext (s : CcmsSys τ) (t : τ) : Prop :=
  ∃ s₁ s₂, s.act (.timeout t) = some s₁ ∧ s₁.act (.run t) = some s₂ ∧ s₂.hold t ≠ .shared 0

omit [Fintype τ] in
theorem upgrade_takesNext (hcount : s.cst.count = 0) (ht : s.pc t = .upgradeSleep) :
    s.TakesNext t := by
  have h1 : s.act (.timeout t) = some (s.setPc t .upgradeAwake) := by
    simp [CcmsSys.act, ht, CcmsPc.asleep, CcmsPc.woken]
  have h2 : (s.setPc t .upgradeAwake).act (.run t) = some ((s.setPc t .upgradeAwake).put t
      (CcmsTurn.upgradeLoop ⟨s.cst, s.hold t, .upgradeAwake⟩ t)) := by
    simp [CcmsSys.act, CcmsSys.setPc, CcmsPc.waking, CcmsTurn.step]
  refine ⟨_, _, h1, h2, ?_⟩
  simp [CcmsSys.put, CcmsTurn.upgradeLoop, hcount]

theorem CcmsSys.Inv.lock_takesNext (hi : s.Inv) {state : CcmsState} (hcount : s.cst.count = 0)
    (hfree : s.cst.upgrade = 0) (ht : s.pc t = .lockSleep state) : s.TakesNext t := by
  have h1 : s.act (.timeout t) = some (s.setPc t (.lockSpin state)) := by
    simp [CcmsSys.act, ht, CcmsPc.asleep, CcmsPc.woken]
  have hi1 : (s.setPc t (.lockSpin state)).Inv := hi.act (a := CcmsAct.timeout t) trivial h1
  have hpc : (s.setPc t (.lockSpin state)).pc t = .lockSpin state := Function.update_self _ _ _
  have hfits := hi1.fits t
  rw [hpc] at hfits
  have hbusy : s.cst.busy state = false := by
    cases state <;> simp [CcmsCst.busy, hcount, hfree]
  obtain ⟨cst, hgrant, -⟩ := hi1.sound_grant .done hfits.1 hfits.2
    (ccmsUpgrades_eq_zero hfits.2 (by rw [hpc]; rfl)) hbusy
  have hgrant' : s.cst.grant t state = some cst := hgrant
  have h2 : (s.setPc t (.lockSpin state)).act (.run t) =
      some ((s.setPc t (.lockSpin state)).put t ⟨cst, (s.hold t).take state, .out .done⟩) := by
    simp [CcmsSys.act, CcmsPc.waking, CcmsTurn.step, CcmsSys.setPc, hbusy, hgrant']
  refine ⟨_, _, h1, h2, ?_⟩
  rw [hi.shared_zero hcount t]
  cases state <;> simp [CcmsSys.put, CcmsHold.take]

/-- `wakeup` is called for every sleeper that need not sleep on: while it has not been called, the
sleeper has to wait, and `blocked` asks the release for the call. When the threads are all outside
or asleep, one of them has a lock, or one of the sleepers gets it next. -/
theorem ccms_lock_wakes (h : CcmsReach s) (hsleep : (s.pc t).asleep = true) :
    ((s.cst.Keeps (s.pc t) ∧ s.cst.blocked = true) ∨ s.rung t = true ∨
        ∃ u, (s.pc u).waking = true) ∧
      ((∀ u, (s.pc u).isOut = true ∨ (s.pc u).asleep = true) →
        (∃ u, s.hold u ≠ .shared 0) ∨ ∃ u, s.TakesNext u) := by
  have hi := CcmsReach.inv h
  refine ⟨hi.waits t hsleep, fun hquiet => ?_⟩
  by_cases hsome : ∃ u, s.hold u ≠ .shared 0
  · exact .inl hsome
  push Not at hsome
  have hcount : s.cst.count = 0 := by
    rw [hi.count, Finset.sum_eq_zero fun u _ => by rw [hsome u]; rfl]
  by_cases hup : ∃ u, s.pc u = .upgradeSleep
  · -- an upgrade goes first
    obtain ⟨u, hu⟩ := hup
    exact .inr ⟨u, upgrade_takesNext hcount hu⟩
  have hfree : s.cst.upgrade = 0 := by
    rw [hi.upgrade]
    refine Finset.sum_eq_zero fun u _ => ?_
    rw [hsome u]
    cases hpc : s.pc u with
    | upgradeSleep => exact absurd ⟨u, hpc⟩ hup
    | upgradeAwake => rcases hquiet u with ho | ho <;> rw [hpc] at ho <;> cases ho
    | _ => rfl
  cases hpc : s.pc t <;> rw [hpc] at hsleep <;> cases hsleep
  next state => exact .inr ⟨t, hi.lock_takesNext hcount hfree hpc⟩
  next => exact absurd ⟨t, hpc⟩ hup

/-- Two readers, the second of which waits for its upgrade. -/
theorem upgrade_waits_reach : ∃ s : CcmsSys (Fin 2), CcmsReach s ∧
    s.hold = ![.shared 1, .shared 0] ∧ s.pc = ![.out .done, .upgradeSleep] := by
  have h0 : CcmsReach (ccmsStart (Fin 2)) := .start
  have h1 := h0.next (a := CcmsAct.call 0 (.lock .shared)) (fun h => by cases h) rfl
  have h2 := h1.next (a := CcmsAct.run 0) trivial rfl
  have h3 := h2.next (a := CcmsAct.run 0) trivial rfl
  have h4 := h3.next (a := CcmsAct.call 1 (.lock .shared)) (fun h => by cases h) rfl
  have h5 := h4.next (a := CcmsAct.run 1) trivial rfl
  have h6 := h5.next (a := CcmsAct.run 1) trivial rfl
  have h7 := h6.next (a := CcmsAct.call 1 .lockUpgrade) (fun h => by cases h) rfl
  have h8 := h7.next (a := CcmsAct.run 1) trivial rfl
  have h9 := h8.next (a := CcmsAct.run 1) trivial rfl
  exact ⟨_, h9, by decide, by decide⟩

theorem ccms_lock_safe_upgrade : ∃ s : CcmsSys (Fin 2), CcmsReach s ∧
    s.pc 1 = .upgradeSleep ∧ (∀ t, s.pc t ≠ .panic) ∧ s.cst.count = 1 ∧ s.cst.upgrade = 1 := by
  obtain ⟨s, hs, hhold, hpc⟩ := upgrade_waits_reach
  obtain ⟨hsafe, -, -, hcount, hup⟩ := ccms_lock_safe hs
  refine ⟨s, hs, by rw [hpc]; rfl, hsafe, ?_, ?_⟩
  · rw [hcount, Fin.sum_univ_two, hhold]
    rfl
  · rw [hup, Fin.sum_univ_two, hhold, hpc]
    rfl

theorem ccms_lock_wakes_upgrade : ∃ s : CcmsSys (Fin 2), CcmsReach s ∧
    ((s.cst.count ≠ 0 ∧ s.cst.blocked = true) ∨ s.rung 1 = true ∨ ∃ u, (s.pc u).waking = true) ∧
    ∃ u, s.hold u ≠ .shared 0 := by
  obtain ⟨s, hs, hhold, hpc⟩ := upgrade_waits_reach
  have hpc1 : s.pc 1 = .upgradeSleep := by
    rw [hpc]
    rfl
  obtain ⟨hkeep, -⟩ := ccms_lock_wakes (t := 1) hs (by rw [hpc1]; rfl)
  rw [hpc1] at hkeep
  exact ⟨s, hs, hkeep, 0, by rw [hhold]; decide⟩

end

end Hammer2
