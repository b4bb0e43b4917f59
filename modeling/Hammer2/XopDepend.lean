import Hammer2.Run
import Mathlib.Logic.Function.Basic
import Mathlib.Tactic

namespace Hammer2

/-- The inodes an XOP names, by their numbers. -/
structure XopHead where
  ip1 : Option Nat
  ip2 : Option Nat
  ip3 : Option Nat
  ip4 : Option Nat
deriving DecidableEq

def XopHead.slot (h : XopHead) : Nat → Option Nat
  | 0 => h.ip1
  | 1 => h.ip2
  | 2 => h.ip3
  | 3 => h.ip4
  | _ => none

def XopHead.clear (h : XopHead) : Nat → XopHead
  | 0 => { h with ip1 := none }
  | 1 => { h with ip2 := none }
  | 2 => { h with ip3 := none }
  | 3 => { h with ip4 := none }
  | _ => h

/-- The inode that is set or unset for a slot. The third and the fourth slot are passed over when they
hold the inode of the first and of the second. -/
def XopHead.named (h : XopHead) : Nat → Option Nat
  | 0 => h.ip1
  | 1 => h.ip2
  | 2 => if h.ip3 ≠ h.ip1 then h.ip3 else none
  | 3 => if h.ip4 ≠ h.ip2 then h.ip4 else none
  | _ => none

/-- `HAMMER2_IHASH_SIZE` -/
def ihashSize : Nat := 32

def ipdepIdx (ip : Nat) : Nat := ip % ihashSize

/-- `xop_unset_ipdep` -/
def xopUnsetIpdep (ipdep : List Nat) (ip : Nat) : List Nat := ipdep.erase ip

/-- Where an XOP stands: at a slot of `hammer2_xop_start`, in its backend, or at a slot of
`hammer2_xop_retire`. -/
inductive XopPc where
  | free
  | start (k : Nat)
  | running
  | retire (k : Nat)
deriving DecidableEq

/-- The dependency lists and the XOPs, with the dependencies each XOP has set and not removed. -/
structure XopState where
  ipdepLists : Nat → List Nat
  head : Nat → XopHead
  pc : Nat → XopPc
  deps : Nat → List Nat

/-- The part of `hammer2_xop_retire` that is about slot `k` of XOP `x`. -/
def xopRelease (s : XopState) (x k : Nat) : XopState :=
  let pc := Function.update s.pc x (if k = 3 then .free else .retire (k + 1))
  let head := Function.update s.head x ((s.head x).clear k)
  match (s.head x).named k with
  | none => { s with pc := pc, head := head }
  | some ip =>
    let l := xopUnsetIpdep (s.ipdepLists (ipdepIdx ip)) ip
    { ipdepLists := Function.update s.ipdepLists (ipdepIdx ip) l
      head := head
      pc := pc
      deps := Function.update s.deps x ((s.deps x).filter (· ≠ ip)) }

/-- `begin` allocates and starts an XOP; without a chain in the cluster of its first inode the backend
is not run and nothing is set. -/
inductive XopAction where
  | begin (x : Nat) (head : XopHead) (chain : Bool)
  | step (x : Nat)

/-- What an XOP has set, by where it stands. -/
def XopHolds (h : XopHead) (deps : List Nat) : XopPc → Prop
  | .free => deps = []
  | .start k => k ≤ 3 ∧ (∀ j ip, j < k → h.slot j = some ip → ip ∈ deps) ∧
      ∀ ip ∈ deps, ∃ j, h.slot j = some ip
  | .running => (∀ j ip, h.slot j = some ip → ip ∈ deps) ∧ ∀ ip ∈ deps, ∃ j, h.slot j = some ip
  | .retire k => k ≤ 3 ∧ (∀ j, j < k → h.slot j = none) ∧
      ∀ ip ∈ deps, ∃ j, k ≤ j ∧ h.slot j = some ip

/-- An inode is on its list when an XOP has set it, and then only one has. -/
structure XopInv (s : XopState) : Prop where
  listed : ∀ ip, ip ∈ s.ipdepLists (ipdepIdx ip) ↔ ∃ x, ip ∈ s.deps x
  single : ∀ x y ip, ip ∈ s.deps x → ip ∈ s.deps y → x = y
  nodup : ∀ b, (s.ipdepLists b).Nodup
  holds : ∀ x, XopHolds (s.head x) (s.deps x) (s.pc x)

theorem XopHead.slot_lt {h : XopHead} {j ip : Nat} (hs : h.slot j = some ip) : j < 4 := by
  unfold XopHead.slot at hs
  split at hs <;> first | omega | cases hs

theorem XopHead.named_slot {h : XopHead} {k ip : Nat} (hn : h.named k = some ip) :
    h.slot k = some ip := by
  unfold XopHead.named at hn
  split at hn
  · exact hn
  · exact hn
  · split at hn
    · exact hn
    · cases hn
  · split at hn
    · exact hn
    · cases hn
  · cases hn

/-- A slot that is passed over is empty or names the inode of an earlier slot. -/
theorem XopHead.named_none {h : XopHead} {k : Nat} (hk : k ≤ 3) (hn : h.named k = none) :
    h.slot k = none ∨ ∃ j, j < k ∧ h.slot j = h.slot k := by
  obtain rfl | rfl | rfl | rfl : k = 0 ∨ k = 1 ∨ k = 2 ∨ k = 3 := by omega
  · exact Or.inl hn
  · exact Or.inl hn
  · simp only [XopHead.named] at hn
    split at hn
    next => exact Or.inl hn
    next he => exact Or.inr ⟨0, by omega, (not_not.mp he).symm⟩
  · simp only [XopHead.named] at hn
    split at hn
    next => exact Or.inl hn
    next he => exact Or.inr ⟨1, by omega, (not_not.mp he).symm⟩

theorem XopHead.slot_clear (h : XopHead) {k : Nat} (hk : k ≤ 3) (j : Nat) :
    (h.clear k).slot j = if j = k then none else h.slot j := by
  obtain rfl | rfl | rfl | rfl : k = 0 ∨ k = 1 ∨ k = 2 ∨ k = 3 := by omega
  all_goals
    unfold XopHead.clear XopHead.slot
    split <;> simp_all

/-- Changing only XOP `x`. -/
theorem holds_update {s : XopState} (hi : XopInv s) {x : Nat} {h : XopHead} {d : List Nat}
    {p : XopPc} (hx : XopHolds h d p) (y : Nat) :
    XopHolds (Function.update s.head x h y) (Function.update s.deps x d y)
      (Function.update s.pc x p y) := by
  by_cases hy : y = x
  · subst y
    simpa only [Function.update_self] using hx
  · simpa only [Function.update_of_ne hy] using hi.holds y

/-- The lists when only the list of `ip` changes, and in it only `ip`. -/
theorem mem_update_iff {lists : Nat → List Nat} {ip : Nat} {l : List Nat}
    (hl : ∀ i, i ≠ ip → (i ∈ l ↔ i ∈ lists (ipdepIdx ip))) {i : Nat} (hi : i ≠ ip) :
    i ∈ Function.update lists (ipdepIdx ip) l (ipdepIdx i) ↔ i ∈ lists (ipdepIdx i) := by
  by_cases hb : ipdepIdx i = ipdepIdx ip
  · rw [hb, Function.update_self]
    exact hl i hi
  · rw [Function.update_of_ne hb]

/-- What an XOP still has to remove is in the slots that follow. -/
theorem xopRelease_holds {h : XopHead} {d : List Nat} {k : Nat} (hx : XopHolds h d (.retire k))
    {e : List Nat} (hd : ∀ ip ∈ e, ip ∈ d ∧ h.slot k ≠ some ip) :
    XopHolds (h.clear k) e (if k = 3 then .free else .retire (k + 1)) := by
  obtain ⟨hk, hnone, hsub⟩ := hx
  have hlater : ∀ ip ∈ e, ∃ j, k + 1 ≤ j ∧ (h.clear k).slot j = some ip := by
    intro ip hip
    obtain ⟨hm, hne⟩ := hd ip hip
    obtain ⟨j, hj, hs⟩ := hsub ip hm
    have hjk : j ≠ k := by
      rintro rfl
      exact hne hs
    refine ⟨j, by omega, ?_⟩
    rw [h.slot_clear hk, if_neg hjk]
    exact hs
  split
  next h3 =>
    refine List.eq_nil_iff_forall_not_mem.mpr ?_
    intro ip hip
    obtain ⟨j, hj, hs⟩ := hlater ip hip
    have hlt := XopHead.slot_lt hs
    omega
  next h3 =>
    refine ⟨by omega, ?_, hlater⟩
    intro j hj
    rw [h.slot_clear hk]
    split
    next => rfl
    next hjk => exact hnone j (by omega)

/-- An XOP that removes an inode it has removed before finds it with nobody. -/
def XopSafe (s : XopState) : XopAction → Prop
  | .begin _ _ _ => True
  | .step x => ∀ k ip, s.pc x = .retire k → (s.head x).named k = some ip → ip ∉ s.deps x →
      ∀ y, ip ∉ s.deps y

theorem xopRelease_inv {s : XopState} (hi : XopInv s) {x k : Nat} (hpc : s.pc x = .retire k)
    (hsafe : XopSafe s (.step x)) : XopInv (xopRelease s x k) := by
  have hx := hi.holds x
  rw [hpc] at hx
  unfold xopRelease
  dsimp only
  split
  next hn =>
    refine ⟨hi.listed, hi.single, hi.nodup, ?_⟩
    have hslot : (s.head x).slot k = none := by
      rcases XopHead.named_none hx.1 hn with h0 | ⟨j, hj, he⟩
      · exact h0
      · rw [← he]
        exact hx.2.1 j hj
    have hnext := xopRelease_holds hx (e := s.deps x) (by simp [hslot])
    intro y
    simpa only [Function.update_eq_self] using holds_update (x := x) hi hnext y
  next ip hn =>
    have hslot := XopHead.named_slot hn
    have hother : ∀ y, ip ∈ s.deps y → y = x := by
      intro y hy
      by_cases hxip : ip ∈ s.deps x
      · exact hi.single y x ip hy hxip
      · exact absurd hy (hsafe k ip hpc hn hxip y)
    have hmem : ∀ y i, i ∈ Function.update s.deps x ((s.deps x).filter (· ≠ ip)) y ↔
        i ∈ s.deps y ∧ i ≠ ip := by
      intro y i
      by_cases hy : y = x
      · subst y
        simp
      · have hne : i ∈ s.deps y → i ≠ ip := by
          rintro hm rfl
          exact hy (hother y hm)
        simp only [Function.update_of_ne hy]
        exact ⟨fun hm => ⟨hm, hne hm⟩, fun hm => hm.1⟩
    refine ⟨?_, ?_, ?_, ?_⟩
    · intro i
      simp only [hmem]
      by_cases hii : i = ip
      · subst i
        simp only [Function.update_self, ne_eq, not_true_eq_false, and_false, exists_false, iff_false]
        exact (hi.nodup _).not_mem_erase
      · rw [mem_update_iff _ hii, hi.listed i]
        · simp [hii]
        · intro i hne
          exact List.mem_erase_of_ne hne
    · intro y z i hy hz
      rw [hmem] at hy hz
      exact hi.single y z i hy.1 hz.1
    · intro b
      by_cases hb : b = ipdepIdx ip
      · subst b
        simp only [Function.update_self]
        exact (hi.nodup _).erase ip
      · simp only [Function.update_of_ne hb]
        exact hi.nodup b
    · have hnext := xopRelease_holds hx (e := (s.deps x).filter (· ≠ ip)) (by
        intro i hm
        obtain ⟨hm, hne⟩ := List.mem_filter.mp hm
        refine ⟨hm, ?_⟩
        rw [hslot]
        rintro ⟨⟩
        simp at hne)
      exact holds_update hi hnext

/-- Two XOPs that both have set their inodes name different ones, an inode is on its list as long as
an XOP that has set it has not removed it, and a step of `hammer2_xop_retire` takes off the lists
what the XOP had set. -/
structure XopExclusive (s : XopState) : Prop where
  exclusive : ∀ x y ip j k, x ≠ y → s.pc x = .running → s.pc y = .running →
    (s.head x).slot j = some ip → (s.head y).slot k ≠ some ip
  listed : ∀ ip, ip ∈ s.ipdepLists (ipdepIdx ip) ↔ ∃ x, ip ∈ s.deps x
  removed : ∀ x k ip, s.pc x = .retire k → XopSafe s (.step x) →
    (ip ∈ s.ipdepLists (ipdepIdx ip) ∧ ip ∉ (xopRelease s x k).ipdepLists (ipdepIdx ip) ↔
      ip ∈ s.deps x ∧ ip ∉ (xopRelease s x k).deps x)
  retired : ∀ x, s.pc x = .free → s.deps x = []

theorem xopRelease_deps_of_ne (s : XopState) {x y : Nat} (k : Nat) (h : y ≠ x) :
    (xopRelease s x k).deps y = s.deps y := by
  unfold xopRelease
  dsimp only
  split
  · rfl
  · exact Function.update_of_ne h _ _

theorem XopInv.exclusive {s : XopState} (hi : XopInv s) : XopExclusive s := by
  refine ⟨?_, hi.listed, ?_, ?_⟩
  · intro x y ip j k hne hx hy hj hk
    have hhx := hi.holds x
    have hhy := hi.holds y
    rw [hx] at hhx
    rw [hy] at hhy
    exact hne (hi.single x y ip (hhx.1 j ip hj) (hhy.1 k ip hk))
  · intro x k ip hpc hsafe
    have hi' := xopRelease_inv hi hpc hsafe
    rw [hi.listed, hi'.listed]
    constructor
    · rintro ⟨⟨y, hy⟩, hno⟩
      have hyx : y = x := by
        by_contra hne
        exact hno ⟨y, by rw [xopRelease_deps_of_ne s k hne]; exact hy⟩
      subst y
      exact ⟨hy, fun hm => hno ⟨x, hm⟩⟩
    · rintro ⟨hx, hno⟩
      refine ⟨⟨x, hx⟩, ?_⟩
      rintro ⟨y, hy⟩
      by_cases hyx : y = x
      · exact hno (hyx ▸ hy)
      · rw [xopRelease_deps_of_ne s k hyx] at hy
        exact hyx (hi.single y x ip hy hx)
  · intro x hx
    have hhx := hi.holds x
    rw [hx] at hhx
    exact hhx

end Hammer2
