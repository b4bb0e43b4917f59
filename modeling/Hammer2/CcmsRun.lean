import Hammer2.CcmsLock

namespace Hammer2

/-- What a thread's locks are worth in `count`. -/
def CcmsHold.weight : CcmsHold → Int
  | .shared n => n
  | .exclusive n _ => -n

def CcmsHold.isExclusive : CcmsHold → Bool
  | .shared _ => false
  | .exclusive _ _ => true

def CcmsHold.isUpgraded : CcmsHold → Bool
  | .shared _ => false
  | .exclusive _ upgraded => upgraded

/-- The thread waits in the loop of an upgrade. -/
def CcmsPc.upgrading : CcmsPc → Bool
  | .upgradeSleep | .upgradeAwake => true
  | _ => false

/-- What a thread is worth in `upgrade`: the upgrade that it waits for or the one that it has. -/
def ccmsUpgrades (hold : CcmsHold) (pc : CcmsPc) : Int :=
  if hold.isUpgraded || pc.upgrading then 1 else 0

/-- What is known of a thread's locks where the thread is. -/
def CcmsHold.Fits (hold : CcmsHold) : CcmsPc → Prop
  | .out _ | .wakeup _ => True
  | .lockTest state | .lockOwner state | .nonblockTest state | .nonblockOwner state =>
    state ≠ .invalid
  | .lockSpin state | .lockSleep state | .nonblockSpin state =>
    state ≠ .invalid ∧ hold.isExclusive = false
  | .releaseTest | .unlockTest _ => hold.CanUnlock
  | .upgradeTest => hold ≠ .shared 0
  | .upgradeSpin | .unlockShared _ => ∃ n, hold = .shared (n + 1)
  | .upgradeSleep | .upgradeAwake => hold.isExclusive = false
  | .downgradeTest ostate => ostate = .shared → hold = .exclusive 1 true
  | .downgradeSpin | .upgradedSpin => hold = .exclusive 1 true
  | .unlockExclusive _ => hold = .exclusive 1 false
  | .upgradedTest ostate =>
    if ostate = .shared then hold = .exclusive 1 true else hold.CanUnlock
  | .panic => False

section

variable {τ : Type}

/-- What a sleeper waits for is still there. -/
def CcmsCst.Keeps (cst : CcmsCst τ) : CcmsPc → Prop
  | .lockSleep state => cst.busy state = true
  | .upgradeSleep => cst.count ≠ 0
  | _ => True

variable [Fintype τ]

/-- The lock and its threads agree, and nobody sleeps for nothing. -/
structure CcmsSys.Inv (s : CcmsSys τ) : Prop where
  count : s.cst.count = ∑ t, (s.hold t).weight
  upgrade : s.cst.upgrade = ∑ t, ccmsUpgrades (s.hold t) (s.pc t)
  alone : ∀ t u, (s.hold t).isExclusive = true → u ≠ t → s.hold u = .shared 0
  td : ∀ t, s.cst.td = some t ↔ (s.hold t).isExclusive = true
  fits : ∀ t, (s.hold t).Fits (s.pc t)
  deep : ∀ t n upgraded, s.hold t = .exclusive n upgraded → 0 < n
  waits : ∀ t, (s.pc t).asleep = true →
    (s.cst.Keeps (s.pc t) ∧ s.cst.blocked = true) ∨ s.rung t = true ∨
      ∃ u, (s.pc u).waking = true

variable {s s' : CcmsSys τ} {t u : τ} {n : Nat} {upgraded : Bool}

theorem CcmsHold.weight_nonneg {hold : CcmsHold} (h : hold.isExclusive = false) :
    0 ≤ hold.weight := by
  cases hold with
  | shared n => exact Int.natCast_nonneg n
  | exclusive n upgraded => cases h

theorem CcmsHold.exists_of_isExclusive {hold : CcmsHold} (h : hold.isExclusive = true) :
    ∃ n upgraded, hold = .exclusive n upgraded := by
  cases hold with
  | shared n => cases h
  | exclusive n upgraded => exact ⟨n, upgraded, rfl⟩

theorem CcmsSys.Inv.count_exclusive (hi : s.Inv) (h : s.hold t = .exclusive n upgraded) :
    s.cst.count = -n := by
  rw [hi.count, Finset.sum_eq_single t, h]
  · rfl
  · intro u _ hu
    rw [hi.alone t u (by rw [h]; rfl) hu]
    rfl
  · intro ht
    exact absurd (Finset.mem_univ t) ht

theorem CcmsSys.Inv.count_neg_of_exclusive (hi : s.Inv) (h : (s.hold t).isExclusive = true) :
    s.cst.count < 0 := by
  obtain ⟨n, upgraded, ht⟩ := CcmsHold.exists_of_isExclusive h
  have hn := hi.deep t n upgraded ht
  rw [hi.count_exclusive ht]
  omega

theorem CcmsSys.Inv.isExclusive_false (hi : s.Inv) (h : 0 ≤ s.cst.count) (t : τ) :
    (s.hold t).isExclusive = false := by
  by_contra hne
  have := hi.count_neg_of_exclusive (Bool.eq_true_of_not_eq_false hne)
  omega

theorem CcmsSys.Inv.td_none (hi : s.Inv) (h : 0 ≤ s.cst.count) : s.cst.td = none := by
  cases htd : s.cst.td with
  | none => rfl
  | some t =>
    have hex := (hi.td t).mp htd
    rw [hi.isExclusive_false h t] at hex
    cases hex

theorem CcmsSys.Inv.no_exclusive_beside (hi : s.Inv) (h : s.hold t = .shared (n + 1)) (u : τ) :
    (s.hold u).isExclusive = false := by
  by_contra hne
  have hex := Bool.eq_true_of_not_eq_false hne
  by_cases hu : t = u
  · subst hu
    rw [h] at hex
    cases hex
  · have hz := hi.alone u t hex hu
    rw [h] at hz
    cases hz

theorem CcmsSys.Inv.count_shared (hi : s.Inv) (h : s.hold t = .shared (n + 1)) :
    (n : Int) + 1 ≤ s.cst.count := by
  rw [hi.count]
  have hle := Finset.single_le_sum (f := fun u => (s.hold u).weight)
    (fun u _ => CcmsHold.weight_nonneg (hi.no_exclusive_beside h u)) (Finset.mem_univ t)
  simp only [h] at hle
  exact hle

theorem CcmsSys.Inv.shared_zero (hi : s.Inv) (h : s.cst.count = 0) (t : τ) :
    s.hold t = .shared 0 := by
  cases ht : s.hold t with
  | exclusive n upgraded =>
    have hf := hi.isExclusive_false (le_of_eq h.symm) t
    rw [ht] at hf
    cases hf
  | shared n =>
    cases n with
    | zero => rfl
    | succ n =>
      have hle := hi.count_shared ht
      omega

theorem sum_eq_of_eq_off [DecidableEq τ] {f g : τ → Int} (t : τ) (h : ∀ u, u ≠ t → g u = f u) :
    ∑ u, g u = (∑ u, f u) + (g t - f t) := by
  rw [← Finset.add_sum_erase _ g (Finset.mem_univ t),
    ← Finset.add_sum_erase _ f (Finset.mem_univ t),
    Finset.sum_congr rfl fun u hu => h u (Finset.ne_of_mem_erase hu)]
  ring

/-- What a step of a thread has to keep. -/
structure CcmsTurn.Sound (s : CcmsSys τ) (t : τ) (turn : CcmsTurn τ) : Prop where
  count : turn.cst.count - s.cst.count = turn.hold.weight - (s.hold t).weight
  upgrade : turn.cst.upgrade - s.cst.upgrade =
    ccmsUpgrades turn.hold turn.pc - ccmsUpgrades (s.hold t) (s.pc t)
  alone : ∀ u, u ≠ t → turn.hold.isExclusive = true → s.hold u = .shared 0
  other : ∀ u, u ≠ t → (s.hold u).isExclusive = true → turn.hold = .shared 0
  own : turn.cst.td = some t ↔ turn.hold.isExclusive = true
  td : ∀ u, u ≠ t → (turn.cst.td = some u ↔ (s.hold u).isExclusive = true)
  fits : turn.hold.Fits turn.pc
  deep : ∀ n upgraded, turn.hold = .exclusive n upgraded → 0 < n
  sleeps : turn.pc.asleep = true → turn.cst.Keeps turn.pc ∧ turn.cst.blocked = true
  waits : ∀ pc : CcmsPc, pc.asleep = true → s.cst.Keeps pc → s.cst.blocked = true →
    (turn.cst.Keeps pc ∧ turn.cst.blocked = true) ∨ turn.pc.waking = true

theorem ccmsUpgrades_congr (hold : CcmsHold) {pc pc' : CcmsPc} (h : pc.upgrading = false)
    (h' : pc'.upgrading = false) : ccmsUpgrades hold pc = ccmsUpgrades hold pc' := by
  unfold ccmsUpgrades
  rw [h, h']

theorem ccmsUpgrades_out (hold : CcmsHold) {pc : CcmsPc} (h : pc.upgrading = false) :
    ccmsUpgrades hold pc = ccmsUpgrades hold (.out .done) := ccmsUpgrades_congr hold h rfl

theorem ccmsUpgrades_eq_zero {hold : CcmsHold} {pc : CcmsPc} (hex : hold.isExclusive = false)
    (h : pc.upgrading = false) : ccmsUpgrades hold pc = 0 := by
  cases hold with
  | shared n =>
    unfold ccmsUpgrades
    rw [h]
    rfl
  | exclusive n upgraded => cases hex

theorem ccmsUpgrades_nonneg (hold : CcmsHold) (pc : CcmsPc) : 0 ≤ ccmsUpgrades hold pc := by
  unfold ccmsUpgrades
  split <;> decide

theorem CcmsSys.Inv.upgrade_nonneg (hi : s.Inv) : 0 ≤ s.cst.upgrade := by
  rw [hi.upgrade]
  exact Finset.sum_nonneg fun u _ => ccmsUpgrades_nonneg _ _

/-- A shared lock that makes up the whole count is the only one. -/
theorem CcmsSys.Inv.alone_of_count (hi : s.Inv) (h : s.hold t = .shared n)
    (hn : s.cst.count = n) {u : τ} (hu : u ≠ t) : s.hold u = .shared 0 := by
  have hex := hi.isExclusive_false (t := u) (by omega)
  cases hm : s.hold u with
  | exclusive m upgraded =>
    rw [hm] at hex
    cases hex
  | shared m =>
    classical
    have hsum := hi.count
    rw [← Finset.add_sum_erase _ _ (Finset.mem_univ t), h, hn] at hsum
    have hle := Finset.single_le_sum (f := fun v => (s.hold v).weight)
      (fun v _ => CcmsHold.weight_nonneg (hi.isExclusive_false (by omega) v))
      (Finset.mem_erase.mpr ⟨hu, Finset.mem_univ u⟩)
    simp only [hm, CcmsHold.weight] at hle hsum
    have hz : m = 0 := by omega
    rw [hz]

omit [Fintype τ] in
theorem CcmsCst.Keeps.of_neg {cst cst' : CcmsCst τ} {pc : CcmsPc} (h : cst.Keeps pc)
    (hneg : cst'.count < 0) : cst'.Keeps pc := by
  cases pc with
  | lockSleep state =>
    cases state with
    | invalid => exact h
    | shared => simp [CcmsCst.Keeps, CcmsCst.busy, hneg]
    | exclusive => simp [CcmsCst.Keeps, CcmsCst.busy, hneg.ne]
  | upgradeSleep => exact hneg.ne
  | _ => trivial

section Sound

variable {ret : CcmsRet} {state : CcmsState}

theorem CcmsSys.Inv.sound_goto (hi : s.Inv) {pc : CcmsPc} (hfits : (s.hold t).Fits pc)
    (hup : ccmsUpgrades (s.hold t) pc = ccmsUpgrades (s.hold t) (s.pc t))
    (hsleep : pc.asleep = false) : CcmsTurn.Sound s t ⟨s.cst, s.hold t, pc⟩ where
  count := by simp
  upgrade := by simp [hup]
  alone u hu h := hi.alone t u h hu
  other u hu h := hi.alone u t h hu.symm
  own := hi.td t
  td u _ := hi.td u
  fits := hfits
  deep := hi.deep t
  sleeps h := by
    rw [hsleep] at h
    cases h
  waits _ _ hk hb := .inl ⟨hk, hb⟩

theorem CcmsSys.Inv.sound_sleep (hi : s.Inv) {pc : CcmsPc} (hfits : (s.hold t).Fits pc)
    (hup : ccmsUpgrades (s.hold t) pc = ccmsUpgrades (s.hold t) (s.pc t))
    (hkeep : s.cst.Keeps pc) :
    CcmsTurn.Sound s t ⟨{ s.cst with blocked := true }, s.hold t, pc⟩ where
  count := by simp
  upgrade := by simp [hup]
  alone u hu h := hi.alone t u h hu
  other u hu h := hi.alone u t h hu.symm
  own := hi.td t
  td u _ := hi.td u
  fits := hfits
  deep := hi.deep t
  sleeps _ := ⟨hkeep, rfl⟩
  waits _ _ hk _ := .inl ⟨hk, rfl⟩

/-- The owner locks or unlocks once more. -/
theorem CcmsSys.Inv.sound_nest (hi : s.Inv) {m : Nat} (h : s.hold t = .exclusive n upgraded)
    (hm : 0 < m) (hup : ccmsUpgrades (s.hold t) (s.pc t) =
      ccmsUpgrades (.exclusive m upgraded) (.out ret)) :
    CcmsTurn.Sound s t
      ⟨{ s.cst with count := -m }, .exclusive m upgraded, .out ret⟩ where
  count := by
    rw [h, hi.count_exclusive h]
    rfl
  upgrade := by
    rw [hup]
    simp
  alone u hu _ := hi.alone t u (by rw [h]; rfl) hu
  other u hu he := by
    have := hi.alone t u (by rw [h]; rfl) hu
    rw [this] at he
    cases he
  own := by
    have htd := hi.td t
    rw [h] at htd
    exact htd
  td u _ := hi.td u
  fits := trivial
  deep _ _ he := by
    cases he
    exact hm
  sleeps he := by cases he
  waits _ _ hk hb := .inl ⟨hk.of_neg (by simpa using hm), hb⟩

theorem CcmsSys.Inv.sound_shared (hi : s.Inv) (h : s.hold t = .shared n)
    (hup : ccmsUpgrades (s.hold t) (s.pc t) = 0) (hcount : 0 ≤ s.cst.count)
    (hfree : s.cst.upgrade = 0) :
    CcmsTurn.Sound s t
      ⟨{ s.cst with count := s.cst.count + 1 }, .shared (n + 1), .out ret⟩ where
  count := by
    rw [h]
    simp [CcmsHold.weight]
  upgrade := by
    rw [hup]
    simp [ccmsUpgrades, CcmsHold.isUpgraded, CcmsPc.upgrading]
  alone _ _ he := by cases he
  other u _ he := by
    rw [hi.isExclusive_false hcount u] at he
    cases he
  own := by
    rw [hi.td_none hcount]
    exact iff_of_false (by simp) (by simp [CcmsHold.isExclusive])
  td u _ := hi.td u
  fits := trivial
  deep _ _ he := by cases he
  sleeps he := by cases he
  waits pc _ hk hb := by
    refine .inl ⟨?_, hb⟩
    cases pc with
    | lockSleep state =>
      cases state <;> simp [CcmsCst.Keeps, CcmsCst.busy, hfree] at hk ⊢ <;> omega
    | upgradeSleep =>
      simp only [CcmsCst.Keeps] at hk ⊢
      omega
    | _ => trivial

omit [Fintype τ] in
/-- A thread that is alone takes the lock exclusively. -/
theorem CcmsCst.sound_exclusive {cst : CcmsCst τ} (hcount : s.cst.count = (s.hold t).weight)
    (halone : ∀ u, u ≠ t → s.hold u = .shared 0) (h1 : cst.count = -1) (h2 : cst.td = some t)
    (h3 : cst.blocked = s.cst.blocked)
    (hup : cst.upgrade - s.cst.upgrade =
      ccmsUpgrades (.exclusive 1 upgraded) (.out ret) - ccmsUpgrades (s.hold t) (s.pc t)) :
    CcmsTurn.Sound s t ⟨cst, .exclusive 1 upgraded, .out ret⟩ where
  count := by
    rw [h1, hcount]
    rfl
  upgrade := hup
  alone u hu _ := halone u hu
  other u hu he := by
    rw [halone u hu] at he
    cases he
  own := by
    rw [h2]
    exact iff_of_true rfl rfl
  td u hu := by
    rw [h2, halone u hu]
    exact ⟨fun he => absurd (Option.some.inj he).symm hu, fun he => by cases he⟩
  fits := trivial
  deep _ _ he := by
    cases he
    exact Nat.one_pos
  sleeps he := by cases he
  waits _ _ hk hb := .inl ⟨hk.of_neg (by rw [h1]; decide), by rw [h3]; exact hb⟩

omit [Fintype τ] in
/-- A thread gives locks back; who sleeps is woken. -/
theorem CcmsTurn.sound_release {turn : CcmsTurn τ} (hold : turn.hold = .shared n)
    (htd : turn.cst.td = none) (hex : ∀ u, u ≠ t → (s.hold u).isExclusive = false)
    (hcount : turn.cst.count - s.cst.count = n - (s.hold t).weight)
    (hup : turn.cst.upgrade - s.cst.upgrade = -ccmsUpgrades (s.hold t) (s.pc t))
    (hb : turn.cst.blocked = s.cst.blocked) : (turn.release ret).Sound s t := by
  have hrel : turn.release ret = ⟨{ turn.cst with blocked := false }, .shared n,
      if turn.cst.blocked then .wakeup ret else .out ret⟩ := by
    unfold CcmsTurn.release
    cases h : turn.cst.blocked with
    | true => rw [if_pos rfl, if_pos rfl, hold]
    | false => rw [if_neg Bool.false_ne_true, if_neg Bool.false_ne_true, hold, ← h]
  rw [hrel]
  exact {
    count := hcount
    upgrade := by
      rw [hup]
      split <;> simp [ccmsUpgrades, CcmsHold.isUpgraded, CcmsPc.upgrading]
    alone := fun _ _ he => by cases he
    other := fun u hu he => by
      rw [hex u hu] at he
      cases he
    own := by
      rw [htd]
      exact iff_of_false (by simp) (by simp [CcmsHold.isExclusive])
    td := fun u hu => by
      rw [htd, hex u hu]
      exact iff_of_false (by simp) (by simp)
    fits := by split <;> trivial
    deep := fun _ _ he => by cases he
    sleeps := fun he => by
      split at he <;> cases he
    waits := fun _ _ _ hblocked => by
      rw [hb, hblocked]
      exact .inr rfl }

/-- One of several shared locks is given back. -/
theorem CcmsSys.Inv.sound_drop (hi : s.Inv) (h : s.hold t = .shared (n + 1))
    (hup : ccmsUpgrades (s.hold t) (s.pc t) = 0) (hne : s.cst.count - 1 ≠ 0) :
    CcmsTurn.Sound s t
      ⟨{ s.cst with count := s.cst.count - 1 }, .shared n, .out ret⟩ where
  count := by
    rw [h]
    simp [CcmsHold.weight]
  upgrade := by
    rw [hup]
    simp [ccmsUpgrades, CcmsHold.isUpgraded, CcmsPc.upgrading]
  alone _ _ he := by cases he
  other u _ he := by
    rw [hi.no_exclusive_beside h u] at he
    cases he
  own := by
    have htd := hi.td t
    rw [h] at htd
    exact htd
  td u _ := hi.td u
  fits := trivial
  deep _ _ he := by cases he
  sleeps he := by cases he
  waits pc _ hk hb := by
    have hle := hi.count_shared h
    refine .inl ⟨?_, hb⟩
    cases pc with
    | lockSleep state =>
      cases state with
      | invalid => exact hk
      | shared =>
        simp only [CcmsCst.Keeps, CcmsCst.busy, decide_eq_true_eq] at hk ⊢
        omega
      | exclusive =>
        simp only [CcmsCst.Keeps, CcmsCst.busy, decide_eq_true_eq] at hk ⊢
        omega
    | upgradeSleep => exact hne
    | _ => trivial

/-- An upgrade begins while others hold shared locks. -/
theorem CcmsSys.Inv.sound_upgrade (hi : s.Inv) (h : s.hold t = .shared (n + 1))
    (hup : ccmsUpgrades (s.hold t) (s.pc t) = 0) (hne : s.cst.count - 1 ≠ 0) :
    CcmsTurn.Sound s t
      ⟨⟨s.cst.upgrade + 1, s.cst.count - 1, true, s.cst.td⟩, .shared n, .upgradeSleep⟩ where
  count := by
    rw [h]
    simp [CcmsHold.weight]
  upgrade := by
    rw [hup]
    simp [ccmsUpgrades, CcmsHold.isUpgraded, CcmsPc.upgrading]
  alone _ _ he := by cases he
  other u _ he := by
    rw [hi.no_exclusive_beside h u] at he
    cases he
  own := by
    have htd := hi.td t
    rw [h] at htd
    exact htd
  td u _ := hi.td u
  fits := rfl
  deep _ _ he := by cases he
  sleeps _ := ⟨hne, rfl⟩
  waits pc _ hk _ := by
    have hnonneg := hi.upgrade_nonneg
    refine .inl ⟨?_, rfl⟩
    cases pc with
    | lockSleep state =>
      cases state with
      | invalid => exact hk
      | shared =>
        simp only [CcmsCst.Keeps, CcmsCst.busy, decide_eq_true_eq]
        omega
      | exclusive =>
        simp only [CcmsCst.Keeps, CcmsCst.busy, decide_eq_true_eq]
        omega
    | upgradeSleep => exact hne
    | _ => trivial

end Sound

/-- The owner is the one whose hold is exclusive. -/
theorem CcmsSys.Inv.owner (hi : s.Inv) (h : s.cst.td = some t) :
    ∃ n upgraded, s.hold t = .exclusive n upgraded ∧ s.cst.count = -n ∧ 0 < n := by
  obtain ⟨n, upgraded, ht⟩ := CcmsHold.exists_of_isExclusive ((hi.td t).mp h)
  exact ⟨n, upgraded, ht, hi.count_exclusive ht, hi.deep t n upgraded ht⟩

theorem CcmsSys.Inv.not_owner (hi : s.Inv) (h : s.cst.td ≠ some t) :
    (s.hold t).isExclusive = false :=
  Bool.eq_false_of_not_eq_true fun he => h ((hi.td t).mpr he)

theorem CcmsHold.exists_shared {hold : CcmsHold} (h : hold.isExclusive = false) :
    ∃ n, hold = .shared n := by
  cases hold with
  | shared n => exact ⟨n, rfl⟩
  | exclusive n upgraded => cases h

/-- A grant that does not have to wait. -/
theorem CcmsSys.Inv.sound_grant (hi : s.Inv) {state : CcmsState} (ret : CcmsRet)
    (hstate : state ≠ .invalid) (hex : (s.hold t).isExclusive = false)
    (hup : ccmsUpgrades (s.hold t) (s.pc t) = 0) (hbusy : s.cst.busy state = false) :
    ∃ cst, s.cst.grant t state = some cst ∧
      CcmsTurn.Sound s t ⟨cst, (s.hold t).take state, .out ret⟩ := by
  obtain ⟨n, ht⟩ := CcmsHold.exists_shared hex
  cases state with
  | invalid => exact absurd rfl hstate
  | shared =>
    have hfree : 0 ≤ s.cst.count ∧ s.cst.upgrade = 0 := by
      simpa [CcmsCst.busy] using hbusy
    refine ⟨{ s.cst with count := s.cst.count + 1 }, ?_, ?_⟩
    · simp [CcmsCst.grant, hi.td_none hfree.1]
    · rw [ht]
      exact hi.sound_shared ht hup hfree.1 hfree.2
  | exclusive =>
    have hfree : s.cst.count = 0 ∧ s.cst.upgrade = 0 := by
      simpa [CcmsCst.busy] using hbusy
    have hz := hi.shared_zero hfree.1
    refine ⟨{ s.cst with count := -1, td := some t }, rfl, ?_⟩
    refine CcmsCst.sound_exclusive ?_ (fun u _ => hz u) rfl rfl rfl ?_
    · rw [hfree.1, hz t]
      rfl
    · rw [hup]
      simp [ccmsUpgrades, CcmsHold.isUpgraded, CcmsPc.upgrading]

/-- The owner may lock again without the spinlock. -/
theorem CcmsSys.Inv.sound_relock (hi : s.Inv) (h : s.cst.td = some t)
    (hpc : (s.pc t).upgrading = false) : CcmsTurn.Sound s t
      ⟨{ s.cst with count := s.cst.count - 1 }, (s.hold t).take .shared, .out .done⟩ := by
  obtain ⟨n, upgraded, ht, hcount, hn⟩ := hi.owner h
  have hsound : CcmsTurn.Sound s t
      ⟨{ s.cst with count := -((n + 1 : Nat) : Int) }, .exclusive (n + 1) upgraded, .out .done⟩ :=
    hi.sound_nest ht (Nat.succ_pos n) (by rw [ht, ccmsUpgrades_out _ hpc]; rfl)
  rw [ht, hcount]
  have hc : -(n : Int) - 1 = -((n + 1 : Nat) : Int) := by
    push_cast
    ring
  rw [hc]
  exact hsound

/-- An exclusive lock is given back, with the shared lock of a downgrade or without. -/
theorem CcmsSys.Inv.sound_exclusive_release (hi : s.Inv) {turn : CcmsTurn τ} {ret : CcmsRet}
    (ht : s.hold t = .exclusive 1 upgraded) (hpc : (s.pc t).upgrading = false)
    (hold : turn.hold = .shared n) (hcount : turn.cst.count = n) (htd : turn.cst.td = none)
    (hup : turn.cst.upgrade = s.cst.upgrade - if upgraded then 1 else 0)
    (hb : turn.cst.blocked = s.cst.blocked) : (turn.release ret).Sound s t := by
  refine CcmsTurn.sound_release hold htd (fun u hu => ?_) ?_ ?_ hb
  · rw [hi.alone t u (by rw [ht]; rfl) hu]
    rfl
  · rw [hcount, hi.count_exclusive ht, ht]
    rfl
  · rw [hup, ccmsUpgrades_out _ hpc, ht]
    cases upgraded <;> simp [ccmsUpgrades, CcmsHold.isUpgraded, CcmsPc.upgrading]

end

end Hammer2
