import Hammer2.Run
import Mathlib.Logic.Function.Basic
import Mathlib.Tactic

namespace Hammer2

/-- Where the flush of a PFS stands: not running, about to move inodes from `depq` to `syncq`, or
running through `syncq` with at most one inode removed from it. -/
inductive SyncerPc (ι : Type) where
  | idle
  | move
  | drain (ip : Option ι)

/-- The dependency records and queues of a PFS. A `hammer2_depend_t` is always the `depend_static` of
an inode and is named by it. -/
structure DependState (ι : Type) where
  isSideq : ι → Bool
  isSyncq : ι → Bool
  isPass2 : ι → Bool
  depend : ι → Option ι
  sideq : ι → List ι
  count : ι → Nat
  pass2 : ι → Bool
  depq : List ι
  syncq : List ι
  sideqCount : Int
  rescan : Bool
  panic : Bool
  syncer : SyncerPc ι
  dorestart : Bool

variable {ι : Type} [DecidableEq ι]

/-- The second argument and the result of `hammer2_inode_setdepend_locked`: `NULL`, `(void *)-1` or
a dependency. -/
inductive DependArg (ι : Type) where
  | null
  | syncq
  | group (d : ι)

open Function (update)

/-- The loop that moves the inodes of `dtmp` to `d`, with its sanity check for `ip`. -/
def mergeDepend (s : DependState ι) (ip dtmp d : ι) : DependState ι :=
  { s with
    sideq := update (update s.sideq d (s.sideq d ++ s.sideq dtmp)) dtmp []
    depend := fun i => if i ∈ s.sideq dtmp then some d else s.depend i
    panic := s.panic || decide (ip ∉ s.sideq dtmp)
    count := update (update s.count d (s.count d + s.count dtmp)) dtmp 0
    pass2 := update (update s.pass2 d (s.pass2 d || s.pass2 dtmp)) dtmp false
    depq := s.depq.erase dtmp }

/-- Puts an inode on the `sideq` of a dependency. -/
def enterSideq (s : DependState ι) (ip d : ι) : DependState ι :=
  { s with
    isSideq := update s.isSideq ip true
    sideq := update s.sideq d (s.sideq d ++ [ip])
    depend := update s.depend ip (some d)
    count := update s.count d (s.count d + 1)
    sideqCount := s.sideqCount + 1 }

def setPass2 (s : DependState ι) (d : ι) : DependState ι := { s with pass2 := update s.pass2 d true }

/-- Puts the `depend_static` of an inode on `depq`. -/
def useStatic (s : DependState ι) (ip : ι) : DependState ι := { s with depq := s.depq ++ [ip] }

/-- The end of `hammer2_inode_setdepend_locked`, which propagates `pass2`. -/
def propagatePass2 (s : DependState ι) (ip d : ι) : DependState ι :=
  let s := if s.isPass2 ip then setPass2 s d else s
  { s with rescan := s.rescan || s.pass2 d }

/-- `hammer2_inode_setdepend_locked` -/
def setdependLocked (s : DependState ι) (ip : ι) (arg : DependArg ι) :
    DependState ι × DependArg ι :=
  if s.isSyncq ip then
    match arg with
    | .null => (s, .syncq)
    | .syncq => (s, .syncq)
    | .group d => ({ setPass2 s d with rescan := true }, .group d)
  else if s.isSideq ip then
    match s.depend ip with
    | none => ({ s with panic := true }, arg)
    | some d =>
      match arg with
      | .null => (propagatePass2 s ip d, .group d)
      | .syncq => (propagatePass2 (setPass2 s d) ip d, .group d)
      | .group d' =>
        if d' = d then (propagatePass2 s ip d', .group d')
        else (propagatePass2 (mergeDepend s ip d d') ip d', .group d')
  else
    match arg with
    | .null => (propagatePass2 (enterSideq (useStatic s ip) ip ip) ip ip, .group ip)
    | .syncq =>
      (propagatePass2 (enterSideq (useStatic (setPass2 s ip) ip) ip ip) ip ip, .group ip)
    | .group d => (propagatePass2 (enterSideq s ip d) ip d, .group d)

/-- `hammer2_inode_delayed_sideq`. The flags are tested before the lock is taken, so that the outcome
`clear` of the test may be out of date. -/
def delayedSideq (s : DependState ι) (ip : ι) (clear : Bool) : DependState ι :=
  if clear then (setdependLocked s ip .null).1 else s

/-- `hammer2_inode_depend` -/
def inodeDepend (s : DependState ι) (ip1 ip2 : ι) : DependState ι :=
  let r := setdependLocked s ip1 .null
  (setdependLocked r.1 ip2 r.2).1

/-- An inode on `syncq` is moved to its head. -/
def syncqToHead (s : DependState ι) (ip : ι) : DependState ι :=
  if s.isSyncq ip then { s with syncq := ip :: s.syncq.erase ip } else s

/-- The loop of `hammer2_inode_lock4`, which runs under one hold of the spin lock. -/
def lock4Loop : DependState ι → DependArg ι → List ι → DependState ι
  | s, _, [] => s
  | s, arg, ip :: ips =>
    let r := setdependLocked s ip arg
    lock4Loop (syncqToHead r.1 ip) r.2 ips

/-- The syncer moves the inodes of a dependency to `syncq` and releases the dependency. -/
def moveDepend (s : DependState ι) (d : ι) : DependState ι :=
  { s with
    panic := s.panic || (s.sideq d).any fun i => !s.isSideq i
    isSyncq := fun i => if i ∈ s.sideq d then true else s.isSyncq i
    isSideq := fun i => if i ∈ s.sideq d then false else s.isSideq i
    depend := fun i => if i ∈ s.sideq d then none else s.depend i
    syncq := s.syncq ++ s.sideq d
    sideq := update s.sideq d []
    count := update s.count d 0
    pass2 := update s.pass2 d false
    depq := s.depq.erase d }

/-- The loop over `depq`. When restarting, only the dependencies marked `pass2` are moved. -/
def moveDepq (dorestart : Bool) : List ι → DependState ι → DependState ι
  | [], s => s
  | d :: depq, s =>
    if dorestart && !s.pass2 d then moveDepq dorestart depq s
    else moveDepq dorestart depq (moveDepend s d)

/-- The steps of the frontends and of `hammer2_vfs_sync_pmp`. `busy` is an inode whose vnode cannot
be held, `again` one that is on a `sideq` again, `flushed` one that was flushed. -/
inductive DependAction (ι : Type) where
  | delayedSideq (ip : ι) (clear : Bool)
  | depend (ip1 ip2 : ι)
  | lock4 (ips : List ι)
  | lock (ip : ι)
  | begin
  | move
  | pop
  | busy (clear : Bool)
  | again
  | flushed (clear dirty : Bool)
  | drained

def dependStep (s : DependState ι) : DependAction ι → Option (DependState ι)
  | .delayedSideq ip clear => some (delayedSideq s ip clear)
  | .depend ip1 ip2 => some (inodeDepend s ip1 ip2)
  | .lock4 ips => some (lock4Loop s .null ips)
  | .lock ip => some (syncqToHead s ip)
  | .begin =>
    match s.syncer with
    | .idle => some { s with syncer := .move, dorestart := false, rescan := false }
    | _ => none
  | .move =>
    match s.syncer with
    | .move => some { moveDepq s.dorestart s.depq s with syncer := .drain none, dorestart := false }
    | _ => none
  | .pop =>
    match s.syncer, s.syncq with
    | .drain none, ip :: syncq =>
      some { s with
        isSyncq := update s.isSyncq ip false
        isPass2 := update s.isPass2 ip true
        syncq := syncq
        sideqCount := s.sideqCount - 1
        syncer := .drain (some ip) }
    | _, _ => none
  | .busy clear =>
    match s.syncer with
    | .drain (some ip) => some { delayedSideq s ip clear with syncer := .drain none, dorestart := true }
    | _ => none
  | .again =>
    match s.syncer with
    | .drain (some ip) =>
      if s.isSideq ip then some { s with syncer := .drain none, dorestart := true } else none
    | _ => none
  | .flushed clear dirty =>
    match s.syncer with
    | .drain (some ip) =>
      let s := if dirty then delayedSideq s ip clear else s
      some { s with isPass2 := update s.isPass2 ip false, syncer := .drain none }
    | _ => none
  | .drained =>
    match s.syncer, s.syncq with
    | .drain none, [] =>
      if s.dorestart || s.rescan then
        some { s with syncer := .move, dorestart := true, rescan := false }
      else some { s with syncer := .idle }
    | _, _ => none

def dependInit : DependState ι where
  isSideq _ := false
  isSyncq _ := false
  isPass2 _ := false
  depend _ := none
  sideq _ := []
  count _ := 0
  pass2 _ := false
  depq := []
  syncq := []
  sideqCount := 0
  rescan := false
  panic := false
  syncer := .idle
  dorestart := false

abbrev DependReach : DependState ι → Prop := Run.Reach dependStep (fun _ _ => True) dependInit

/-- The dependency groups are a partition of the inodes on a `sideq`. -/
structure DependInv (s : DependState ι) : Prop where
  mem_sideq : ∀ d i, i ∈ s.sideq d ↔ s.isSideq i = true ∧ s.depend i = some d
  nodup : ∀ d, (s.sideq d).Nodup
  mem_depq : ∀ d, d ∈ s.depq ↔ d ∈ s.sideq d
  depq_nodup : s.depq.Nodup
  owner : ∀ d i, i ∈ s.sideq d → d ∈ s.sideq d
  grouped : ∀ i, s.isSideq i = true → (s.depend i).isSome
  mem_syncq : ∀ i, i ∈ s.syncq ↔ s.isSyncq i = true
  syncq_nodup : s.syncq.Nodup
  disjoint : ∀ i, s.isSyncq i = true → s.isSideq i = false
  count : ∀ d, s.count d = (s.sideq d).length
  counted : ∃ l : List ι, l.Nodup ∧ (∀ i, i ∈ l ↔ s.isSideq i = true ∨ s.isSyncq i = true) ∧
    s.sideqCount = l.length
  panic : s.panic = false

omit [DecidableEq ι] in
theorem dependInit_inv : DependInv (dependInit : DependState ι) where
  mem_sideq d i := by simp [dependInit]
  nodup d := by simp [dependInit]
  mem_depq d := by simp [dependInit]
  depq_nodup := by simp [dependInit]
  owner d i h := by cases h
  grouped i h := by cases h
  mem_syncq i := by simp [dependInit]
  syncq_nodup := by simp [dependInit]
  disjoint i h := by cases h
  count d := rfl
  counted := ⟨[], by simp, by simp [dependInit], rfl⟩
  panic := rfl

section Steps

variable {s : DependState ι}

/-- An inode that is not queued joins a group, or starts one in its own `depend_static`. -/
theorem DependInv.enter (h : DependInv s) {ip d : ι} {depq : List ι} (hside : s.isSideq ip = false)
    (hsync : s.isSyncq ip = false) (hd : d ∈ s.depq ∨ d = ip) (hnodup : depq.Nodup)
    (hdepq : ∀ d', d' ∈ depq ↔ d' ∈ s.depq ∨ d' = d) :
    DependInv (enterSideq { s with depq := depq } ip d) := by
  have hnotin : ∀ d', ip ∉ s.sideq d' := by
    intro d' hmem
    rw [((h.mem_sideq d' ip).mp hmem).1] at hside
    cases hside
  obtain ⟨l, hl, hmem, hcount⟩ := h.counted
  constructor
  case mem_sideq =>
    intro d' i
    have := h.mem_sideq d' i
    have := hnotin d'
    simp only [enterSideq, Function.update_apply]
    grind
  case nodup =>
    intro d'
    have := h.nodup d'
    have := hnotin d'
    simp only [enterSideq, Function.update_apply]
    grind
  case mem_depq =>
    intro d'
    have := h.mem_depq d'
    have := hdepq d'
    simp only [enterSideq, Function.update_apply]
    grind
  case depq_nodup => exact hnodup
  case owner =>
    intro d' i hi
    have := h.owner d' i
    have := h.mem_depq d'
    simp only [enterSideq, Function.update_apply] at hi ⊢
    grind
  case grouped =>
    intro i hi
    have := h.grouped i
    simp only [enterSideq, Function.update_apply] at hi ⊢
    grind
  case mem_syncq => exact h.mem_syncq
  case syncq_nodup => exact h.syncq_nodup
  case disjoint =>
    intro i hi
    have := h.disjoint i hi
    simp only [enterSideq, Function.update_apply] at hi ⊢
    grind
  case count =>
    intro d'
    have := h.count d'
    simp only [enterSideq, Function.update_apply]
    grind
  case counted =>
    refine ⟨ip :: l, ?_, ?_, ?_⟩
    · grind
    · intro i
      have := hmem i
      simp only [enterSideq, Function.update_apply]
      grind
    · simp [enterSideq, hcount]
  case panic => exact h.panic

theorem DependInv.enterSideq (h : DependInv s) {ip d : ι} (hside : s.isSideq ip = false)
    (hsync : s.isSyncq ip = false) (hd : d ∈ s.depq) : DependInv (enterSideq s ip d) := by
  refine h.enter hside hsync (.inl hd) h.depq_nodup fun d' => ?_
  grind

theorem DependInv.enterStatic (h : DependInv s) {ip : ι} (hside : s.isSideq ip = false)
    (hsync : s.isSyncq ip = false) : DependInv (Hammer2.enterSideq (useStatic s ip) ip ip) := by
  have hfree : ip ∉ s.depq := by
    intro hmem
    have := (h.mem_sideq ip ip).mp ((h.mem_depq ip).mp hmem)
    rw [hside] at this
    cases this.1
  have hnodup := h.depq_nodup
  refine h.enter hside hsync (.inr rfl) (by grind) fun d' => ?_
  grind

theorem DependInv.mergeDepend (h : DependInv s) {ip dtmp d : ι} (hip : ip ∈ s.sideq dtmp)
    (hne : d ≠ dtmp) (hd : d ∈ s.depq) : DependInv (mergeDepend s ip dtmp d) := by
  have hapart : ∀ i, i ∈ s.sideq d → i ∉ s.sideq dtmp := by
    intro i hi hi'
    have heq := ((h.mem_sideq d i).mp hi).2.symm.trans ((h.mem_sideq dtmp i).mp hi').2
    exact hne (Option.some.inj heq)
  constructor
  case mem_sideq =>
    intro d' i
    have := h.mem_sideq d' i
    have := h.mem_sideq dtmp i
    simp only [Hammer2.mergeDepend, Function.update_apply]
    grind
  case nodup =>
    intro d'
    have := h.nodup d'
    have := h.nodup dtmp
    simp only [Hammer2.mergeDepend, Function.update_apply]
    split
    · exact List.nodup_nil
    · split
      next heq =>
        subst heq
        exact List.nodup_append'.mpr ⟨h.nodup d', h.nodup dtmp, fun i hi hi' => hapart i hi hi'⟩
      next => exact h.nodup d'
  case mem_depq =>
    intro d'
    have := h.mem_depq d'
    have := h.depq_nodup.mem_erase_iff (a := d') (b := dtmp)
    simp only [Hammer2.mergeDepend, Function.update_apply]
    grind
  case depq_nodup => exact h.depq_nodup.erase dtmp
  case owner =>
    intro d' i hi
    have := h.owner d' i
    have := h.mem_depq d
    simp only [Hammer2.mergeDepend, Function.update_apply] at hi ⊢
    grind
  case grouped =>
    intro i hi
    have := h.grouped i hi
    simp only [Hammer2.mergeDepend]
    grind
  case mem_syncq => exact h.mem_syncq
  case syncq_nodup => exact h.syncq_nodup
  case disjoint => exact h.disjoint
  case count =>
    intro d'
    have := h.count d'
    have := h.count d
    have := h.count dtmp
    simp only [Hammer2.mergeDepend, Function.update_apply]
    grind
  case counted => exact h.counted
  case panic => simp [Hammer2.mergeDepend, h.panic, hip]

omit [DecidableEq ι] in
/-- Flags that take no part in the grouping. -/
theorem DependInv.flags (h : DependInv s) (isPass2 pass2 : ι → Bool) (rescan dorestart : Bool)
    (syncer : SyncerPc ι) :
    DependInv { s with isPass2 := isPass2, pass2 := pass2, rescan := rescan,
                       dorestart := dorestart, syncer := syncer } :=
  ⟨h.mem_sideq, h.nodup, h.mem_depq, h.depq_nodup, h.owner, h.grouped, h.mem_syncq, h.syncq_nodup,
    h.disjoint, h.count, h.counted, h.panic⟩

@[simp]
theorem propagatePass2_sideq (ip d : ι) : (propagatePass2 s ip d).sideq = s.sideq := by
  unfold propagatePass2
  split <;> rfl

@[simp]
theorem propagatePass2_depq (ip d : ι) : (propagatePass2 s ip d).depq = s.depq := by
  unfold propagatePass2
  split <;> rfl

@[simp]
theorem propagatePass2_isSyncq (ip d : ι) : (propagatePass2 s ip d).isSyncq = s.isSyncq := by
  unfold propagatePass2
  split <;> rfl

theorem DependInv.propagatePass2 (h : DependInv s) (ip d : ι) : DependInv (propagatePass2 s ip d) := by
  unfold Hammer2.propagatePass2
  split
  · exact h.flags _ _ _ _ _
  · exact h.flags _ _ _ _ _

/-- Two inodes are in one dependency group. -/
def SameGroup (s : DependState ι) (a b : ι) : Prop := ∃ d, a ∈ s.sideq d ∧ b ∈ s.sideq d

/-- What a call of `hammer2_inode_setdepend_locked` does with a dependency in use. -/
structure Setdepend (s : DependState ι) (ip : ι) (arg : DependArg ι) (s' : DependState ι)
    (res : DependArg ι) : Prop where
  inv : DependInv s'
  inUse : ∀ d, res = .group d → d ∈ s'.depq
  isSyncq : s'.isSyncq = s.isSyncq
  together : ∀ a b, SameGroup s a b → SameGroup s' a b
  joins : s.isSyncq ip = false → ∃ d, res = .group d ∧ ip ∈ s'.sideq d
  keeps : ∀ d, arg = .group d → res = .group d ∧ ∀ i ∈ s.sideq d, i ∈ s'.sideq d

/-- The inode is in the group already. -/
theorem setdepend_grouped (h : DependInv s) {ip d : ι} {arg : DependArg ι} (hip : ip ∈ s.sideq d)
    (harg : ∀ d', arg = .group d' → d' = d) (pass2 : ι → Bool) :
    Setdepend s ip arg (propagatePass2 { s with pass2 := pass2 } ip d) (.group d) where
  inv := (h.flags s.isPass2 pass2 s.rescan s.dorestart s.syncer).propagatePass2 ip d
  inUse d' hd' := by
    cases hd'
    simpa using (h.mem_depq d).mpr (h.owner d ip hip)
  isSyncq := by simp
  together a b hab := by simpa [SameGroup] using hab
  joins _ := ⟨d, rfl, by simpa using hip⟩
  keeps d' hd' := by
    obtain rfl := harg d' hd'
    exact ⟨rfl, fun i hi => by simpa using hi⟩

/-- The group of the inode is merged into another one. -/
theorem setdepend_merge (h : DependInv s) {ip d d' : ι} (hip : ip ∈ s.sideq d) (hne : d' ≠ d)
    (hd' : d' ∈ s.depq) :
    Setdepend s ip (.group d') (propagatePass2 (mergeDepend s ip d d') ip d') (.group d') where
  inv := (h.mergeDepend hip hne hd').propagatePass2 ip d'
  inUse e he := by
    cases he
    simpa [mergeDepend] using (List.mem_erase_of_ne hne).mpr hd'
  isSyncq := by
    rw [propagatePass2_isSyncq]
    rfl
  together a b hab := by
    obtain ⟨e, ha, hb⟩ := hab
    unfold SameGroup
    simp only [propagatePass2_sideq, mergeDepend, Function.update_apply]
    by_cases he : e = d
    · subst he
      exact ⟨d', by simp [hne, ha], by simp [hne, hb]⟩
    · refine ⟨e, ?_, ?_⟩
      · rw [if_neg he]
        split <;> simp_all
      · rw [if_neg he]
        split <;> simp_all
  joins _ := by
    refine ⟨d', rfl, ?_⟩
    simp [mergeDepend, hne, hip]
  keeps e he := by
    cases he
    refine ⟨rfl, fun i hi => ?_⟩
    simp [mergeDepend, hne, hi]

/-- The inode was not queued. -/
theorem setdepend_enter {ip d : ι} {arg : DependArg ι} {depq : List ι} (pass2 : ι → Bool)
    (hinv : DependInv (enterSideq { s with depq := depq, pass2 := pass2 } ip d)) (hd : d ∈ depq)
    (harg : ∀ d', arg = .group d' → d' = d) :
    Setdepend s ip arg
      (propagatePass2 (enterSideq { s with depq := depq, pass2 := pass2 } ip d) ip d)
      (.group d) where
  inv := hinv.propagatePass2 ip d
  inUse e he := by
    cases he
    simpa [enterSideq] using hd
  isSyncq := by
    rw [propagatePass2_isSyncq]
    rfl
  together a b hab := by
    obtain ⟨e, ha, hb⟩ := hab
    refine ⟨e, ?_, ?_⟩
    · simp only [propagatePass2_sideq, enterSideq, Function.update_apply]
      split <;> simp_all
    · simp only [propagatePass2_sideq, enterSideq, Function.update_apply]
      split <;> simp_all
  joins _ := ⟨d, rfl, by simp [enterSideq]⟩
  keeps e he := by
    obtain rfl := harg e he
    refine ⟨rfl, fun i hi => ?_⟩
    simp [enterSideq, hi]

omit [DecidableEq ι] in
/-- The inode stays on `syncq`. -/
theorem setdepend_syncq (h : DependInv s) {ip : ι} {arg res : DependArg ι} (hip : s.isSyncq ip = true)
    (harg : ∀ d, arg = .group d → d ∈ s.depq) (hres : ∀ d, res = .group d → arg = .group d)
    (hkeep : ∀ d, arg = .group d → res = .group d) (pass2 : ι → Bool) (rescan : Bool) :
    Setdepend s ip arg { s with pass2 := pass2, rescan := rescan } res where
  inv := h.flags s.isPass2 pass2 rescan s.dorestart s.syncer
  inUse d hd := harg d (hres d hd)
  isSyncq := rfl
  together a b hab := hab
  joins hfalse := by
    rw [hip] at hfalse
    cases hfalse
  keeps d hd := ⟨hkeep d hd, fun i hi => hi⟩

theorem setdependLocked_spec (h : DependInv s) (ip : ι) (arg : DependArg ι)
    (harg : ∀ d, arg = .group d → d ∈ s.depq) :
    Setdepend s ip arg (setdependLocked s ip arg).1 (setdependLocked s ip arg).2 := by
  unfold setdependLocked
  by_cases hsync : s.isSyncq ip = true
  · rw [if_pos hsync]
    cases arg with
    | null => exact setdepend_syncq h hsync harg (by simp) (by simp) s.pass2 s.rescan
    | syncq => exact setdepend_syncq h hsync harg (by simp) (by simp) s.pass2 s.rescan
    | group d => exact setdepend_syncq h hsync harg (by simp) (by simp) _ true
  · rw [if_neg hsync]
    rw [Bool.not_eq_true] at hsync
    by_cases hside : s.isSideq ip = true
    · rw [if_pos hside]
      obtain ⟨d, hd⟩ := Option.isSome_iff_exists.mp (h.grouped ip hside)
      have hip : ip ∈ s.sideq d := (h.mem_sideq d ip).mpr ⟨hside, hd⟩
      simp only [hd]
      cases arg with
      | null => exact setdepend_grouped h hip (by simp) s.pass2
      | syncq => exact setdepend_grouped h hip (by simp) _
      | group d' =>
        by_cases heq : d' = d
        · simp only [if_pos heq]
          subst heq
          exact setdepend_grouped h hip (by simp) s.pass2
        · simp only [if_neg heq]
          exact setdepend_merge h hip heq (harg d' rfl)
    · rw [if_neg hside]
      rw [Bool.not_eq_true] at hside
      cases arg with
      | null =>
        exact setdepend_enter s.pass2 (h.enterStatic hside hsync) (by simp) (by simp)
      | syncq =>
        have hflags := h.flags s.isPass2 (Function.update s.pass2 ip true) s.rescan s.dorestart s.syncer
        exact setdepend_enter _ (hflags.enterStatic hside hsync) (by simp) (by simp)
      | group d =>
        have hd := harg d rfl
        exact setdepend_enter s.pass2 (h.enterSideq hside hsync hd) hd (by simp)

theorem DependInv.syncqToHead (h : DependInv s) (ip : ι) : DependInv (syncqToHead s ip) := by
  unfold Hammer2.syncqToHead
  split
  next hip =>
    have hmem := (h.mem_syncq ip).mpr hip
    have hperm : (ip :: s.syncq.erase ip).Perm s.syncq := (List.perm_cons_erase hmem).symm
    exact ⟨h.mem_sideq, h.nodup, h.mem_depq, h.depq_nodup, h.owner, h.grouped,
      fun i => hperm.mem_iff.trans (h.mem_syncq i), hperm.nodup_iff.mpr h.syncq_nodup,
      h.disjoint, h.count, h.counted, h.panic⟩
  next => exact h

@[simp]
theorem syncqToHead_sideq (ip : ι) : (syncqToHead s ip).sideq = s.sideq := by
  unfold syncqToHead
  split <;> rfl

@[simp]
theorem syncqToHead_depq (ip : ι) : (syncqToHead s ip).depq = s.depq := by
  unfold syncqToHead
  split <;> rfl

@[simp]
theorem syncqToHead_isSyncq (ip : ι) : (syncqToHead s ip).isSyncq = s.isSyncq := by
  unfold syncqToHead
  split <;> rfl

/-- The inodes that a locked section has gone through and that are not on `syncq` are in the group
it ends with. -/
theorem lock4Loop_spec (h : DependInv s) (arg : DependArg ι) (ips done : List ι)
    (harg : ∀ d, arg = .group d → d ∈ s.depq)
    (hdone : ∀ i ∈ done, s.isSyncq i = false → ∃ d, arg = .group d ∧ i ∈ s.sideq d) :
    let s' := lock4Loop s arg ips
    DependInv s' ∧ s'.isSyncq = s.isSyncq ∧ (∀ a b, SameGroup s a b → SameGroup s' a b) ∧
      ∀ a b, a ∈ done ∨ a ∈ ips → b ∈ done ∨ b ∈ ips → s.isSyncq a = false → s.isSyncq b = false →
        SameGroup s' a b := by
  induction ips generalizing s arg done with
  | nil =>
    refine ⟨h, rfl, fun a b hab => hab, ?_⟩
    intro a b ha hb hna hnb
    obtain ⟨d, rfl, hd⟩ := hdone a (by simpa using ha) hna
    obtain ⟨d', hd', hb'⟩ := hdone b (by simpa using hb) hnb
    cases hd'
    exact ⟨d, hd, hb'⟩
  | cons ip ips ih =>
    have hspec := setdependLocked_spec h ip arg harg
    have hinv := hspec.inv.syncqToHead ip
    have hsync : (syncqToHead (setdependLocked s ip arg).1 ip).isSyncq = s.isSyncq := by
      rw [syncqToHead_isSyncq, hspec.isSyncq]
    have huse : ∀ d, (setdependLocked s ip arg).2 = .group d →
        d ∈ (syncqToHead (setdependLocked s ip arg).1 ip).depq := by
      intro d hd
      simpa using hspec.inUse d hd
    have hdone' : ∀ i ∈ ip :: done,
        (syncqToHead (setdependLocked s ip arg).1 ip).isSyncq i = false →
        ∃ d, (setdependLocked s ip arg).2 = .group d ∧
          i ∈ (syncqToHead (setdependLocked s ip arg).1 ip).sideq d := by
      intro i hi hni
      rw [hsync] at hni
      rw [syncqToHead_sideq]
      rcases List.mem_cons.mp hi with rfl | hi
      · exact hspec.joins hni
      · obtain ⟨d, hd, hmem⟩ := hdone i hi hni
        exact ⟨d, (hspec.keeps d hd).1, (hspec.keeps d hd).2 i hmem⟩
    obtain ⟨hinv', hsync', htogether, hsame⟩ := ih hinv _ _ huse hdone'
    refine ⟨hinv', hsync'.trans hsync, ?_, ?_⟩
    · intro a b hab
      apply htogether
      simpa [SameGroup] using hspec.together a b hab
    · intro a b ha hb hna hnb
      rw [← hsync] at hna hnb
      apply hsame a b ?_ ?_ hna hnb
      · rcases ha with ha | ha
        · exact .inl (by simp [ha])
        · rcases List.mem_cons.mp ha with rfl | ha
          · exact .inl (by simp)
          · exact .inr ha
      · rcases hb with hb | hb
        · exact .inl (by simp [hb])
        · rcases List.mem_cons.mp hb with rfl | hb
          · exact .inl (by simp)
          · exact .inr hb

/-- `hammer2_inode_depend` is the locked section of `hammer2_inode_lock4` without the moves. -/
theorem inodeDepend_spec (h : DependInv s) (ip1 ip2 : ι) :
    let s' := inodeDepend s ip1 ip2
    DependInv s' ∧ s'.isSyncq = s.isSyncq ∧ (∀ a b, SameGroup s a b → SameGroup s' a b) ∧
      (s.isSyncq ip1 = false → s.isSyncq ip2 = false → SameGroup s' ip1 ip2) := by
  have h₁ := setdependLocked_spec h ip1 .null (by simp)
  have h₂ := setdependLocked_spec h₁.inv ip2 _ h₁.inUse
  refine ⟨h₂.inv, h₂.isSyncq.trans h₁.isSyncq,
    fun a b hab => h₂.together a b (h₁.together a b hab), ?_⟩
  intro hn1 hn2
  obtain ⟨d, hd, hmem⟩ := h₁.joins hn1
  rw [← h₁.isSyncq] at hn2
  obtain ⟨d', hd', hmem'⟩ := h₂.joins hn2
  obtain ⟨hres, hkeep⟩ := h₂.keeps d hd
  rw [hres] at hd'
  cases hd'
  exact ⟨d, hkeep ip1 hmem, hmem'⟩

theorem DependInv.moveDepend (h : DependInv s) (d : ι) : DependInv (moveDepend s d) := by
  have hmem : ∀ i, i ∈ s.sideq d → s.isSideq i = true := fun i hi => ((h.mem_sideq d i).mp hi).1
  have hnot : ∀ i, i ∈ s.sideq d → s.isSyncq i = false := by
    intro i hi
    by_contra hne
    rw [Bool.not_eq_false] at hne
    have hside := hmem i hi
    rw [h.disjoint i hne] at hside
    cases hside
  obtain ⟨l, hl, hin, hcount⟩ := h.counted
  constructor
  case mem_sideq =>
    intro d' i
    have := h.mem_sideq d' i
    have := h.mem_sideq d i
    simp only [Hammer2.moveDepend, Function.update_apply]
    grind
  case nodup =>
    intro d'
    have := h.nodup d'
    simp only [Hammer2.moveDepend, Function.update_apply]
    grind
  case mem_depq =>
    intro d'
    have := h.mem_depq d'
    have := h.depq_nodup.mem_erase_iff (a := d') (b := d)
    simp only [Hammer2.moveDepend, Function.update_apply]
    grind
  case depq_nodup => exact h.depq_nodup.erase d
  case owner =>
    intro d' i hi
    have := h.owner d' i
    simp only [Hammer2.moveDepend, Function.update_apply] at hi ⊢
    grind
  case grouped =>
    intro i hi
    have := h.grouped i
    simp only [Hammer2.moveDepend] at hi ⊢
    grind
  case mem_syncq =>
    intro i
    have := h.mem_syncq i
    simp only [Hammer2.moveDepend]
    grind
  case syncq_nodup =>
    refine List.nodup_append'.mpr ⟨h.syncq_nodup, h.nodup d, ?_⟩
    intro i hi hi'
    have := (h.mem_syncq i).mp hi
    rw [hnot i hi'] at this
    cases this
  case disjoint =>
    intro i hi
    have := h.disjoint i
    simp only [Hammer2.moveDepend] at hi ⊢
    grind
  case count =>
    intro d'
    have := h.count d'
    simp only [Hammer2.moveDepend, Function.update_apply]
    grind
  case counted =>
    refine ⟨l, hl, ?_, hcount⟩
    intro i
    have := hin i
    have := hmem i
    simp only [Hammer2.moveDepend]
    grind
  case panic =>
    simp only [Hammer2.moveDepend, h.panic, Bool.false_or]
    simpa using hmem

theorem moveDepend_together (d : ι) {a b : ι} (hab : SameGroup s a b) :
    SameGroup (moveDepend s d) a b ∨
      ((moveDepend s d).isSyncq a = true ∧ (moveDepend s d).isSyncq b = true) := by
  obtain ⟨e, ha, hb⟩ := hab
  by_cases he : e = d
  · subst he
    right
    simp [moveDepend, ha, hb]
  · left
    exact ⟨e, by simpa [moveDepend, he] using ha, by simpa [moveDepend, he] using hb⟩

theorem moveDepq_isSyncq {dorestart : Bool} {depq : List ι} {i : ι} (hi : s.isSyncq i = true) :
    (moveDepq dorestart depq s).isSyncq i = true := by
  induction depq generalizing s with
  | nil => exact hi
  | cons d depq ih =>
    unfold moveDepq
    split
    · exact ih hi
    · exact ih (by simp [moveDepend, hi])

/-- A group is moved as a whole or stays as it is. -/
theorem moveDepq_spec (h : DependInv s) (dorestart : Bool) (depq : List ι) :
    DependInv (moveDepq dorestart depq s) ∧ ∀ a b, SameGroup s a b →
      SameGroup (moveDepq dorestart depq s) a b ∨ ((moveDepq dorestart depq s).isSyncq a = true ∧
        (moveDepq dorestart depq s).isSyncq b = true) := by
  induction depq generalizing s with
  | nil => exact ⟨h, fun a b hab => .inl hab⟩
  | cons d depq ih =>
    unfold moveDepq
    split
    · exact ih h
    · obtain ⟨hinv, hmoved⟩ := ih (h.moveDepend d)
      refine ⟨hinv, fun a b hab => ?_⟩
      rcases moveDepend_together d hab with hab | ⟨ha, hb⟩
      · exact hmoved a b hab
      · exact .inr ⟨moveDepq_isSyncq ha, moveDepq_isSyncq hb⟩

theorem delayedSideq_spec (h : DependInv s) (ip : ι) (clear : Bool) :
    DependInv (delayedSideq s ip clear) ∧ ∀ a b, SameGroup s a b →
      SameGroup (delayedSideq s ip clear) a b := by
  unfold delayedSideq
  split
  · have hspec := setdependLocked_spec h ip .null (by simp)
    exact ⟨hspec.inv, hspec.together⟩
  · exact ⟨h, fun a b hab => hab⟩

/-- The syncer takes the first inode of `syncq`. -/
theorem DependInv.pop (h : DependInv s) {ip : ι} {syncq : List ι} (hq : s.syncq = ip :: syncq) :
    DependInv { s with
      isSyncq := Function.update s.isSyncq ip false
      syncq := syncq
      sideqCount := s.sideqCount - 1 } := by
  have hip : s.isSyncq ip = true := (h.mem_syncq ip).mp (by simp [hq])
  have hside := h.disjoint ip hip
  have hnodup := h.syncq_nodup
  rw [hq] at hnodup
  obtain ⟨l, hl, hin, hcount⟩ := h.counted
  refine ⟨h.mem_sideq, h.nodup, h.mem_depq, h.depq_nodup, h.owner, h.grouped, ?_,
    (List.nodup_cons.mp hnodup).2, ?_, h.count, ?_, h.panic⟩
  · intro i
    have := h.mem_syncq i
    rw [hq] at this
    simp only [Function.update_apply]
    grind
  · intro i hi
    apply h.disjoint i
    simp only [Function.update_apply] at hi
    grind
  · have hmem : ip ∈ l := (hin ip).mpr (.inr hip)
    refine ⟨l.erase ip, hl.erase ip, ?_, ?_⟩
    · intro i
      have := hin i
      have := hl.mem_erase_iff (a := i) (b := ip)
      simp only [Function.update_apply]
      grind
    · have hlen := List.length_erase_of_mem hmem
      have hpos := List.length_pos_of_mem hmem
      simp only [hcount, hlen]
      omega

/-- What a step keeps: the partition, and every group until it is moved as a whole. -/
theorem dependStep_spec {s' : DependState ι} {act : DependAction ι} (h : DependInv s)
    (hstep : dependStep s act = some s') :
    DependInv s' ∧ ∀ a b, SameGroup s a b →
      SameGroup s' a b ∨ (s'.isSyncq a = true ∧ s'.isSyncq b = true) := by
  cases act with
  | delayedSideq ip clear =>
    cases Option.some.inj hstep
    obtain ⟨hinv, htogether⟩ := delayedSideq_spec h ip clear
    exact ⟨hinv, fun a b hab => .inl (htogether a b hab)⟩
  | depend ip1 ip2 =>
    cases Option.some.inj hstep
    obtain ⟨hinv, -, htogether, -⟩ := inodeDepend_spec h ip1 ip2
    exact ⟨hinv, fun a b hab => .inl (htogether a b hab)⟩
  | lock4 ips =>
    cases Option.some.inj hstep
    obtain ⟨hinv, -, htogether, -⟩ :=
      lock4Loop_spec h .null ips [] (by simp) (by simp)
    exact ⟨hinv, fun a b hab => .inl (htogether a b hab)⟩
  | lock ip =>
    cases Option.some.inj hstep
    exact ⟨h.syncqToHead ip, fun a b hab => .inl (by simpa [SameGroup] using hab)⟩
  | begin =>
    simp only [dependStep] at hstep
    split at hstep
    next =>
      cases Option.some.inj hstep
      exact ⟨h.flags s.isPass2 s.pass2 false false .move, fun a b hab => .inl hab⟩
    next => cases hstep
  | move =>
    simp only [dependStep] at hstep
    split at hstep
    next =>
      cases Option.some.inj hstep
      obtain ⟨hinv, hmoved⟩ := moveDepq_spec h s.dorestart s.depq
      exact ⟨hinv.flags _ _ _ false (.drain none), hmoved⟩
    next => cases hstep
  | pop =>
    simp only [dependStep] at hstep
    split at hstep
    next ip syncq hpc hq =>
      cases Option.some.inj hstep
      exact ⟨(h.pop hq).flags _ s.pass2 s.rescan s.dorestart (.drain (some ip)),
        fun a b hab => .inl hab⟩
    next => cases hstep
  | busy clear =>
    simp only [dependStep] at hstep
    split at hstep
    next ip hpc =>
      cases Option.some.inj hstep
      obtain ⟨hinv, htogether⟩ := delayedSideq_spec h ip clear
      exact ⟨hinv.flags _ _ _ true (.drain none), fun a b hab => .inl (htogether a b hab)⟩
    next => cases hstep
  | again =>
    simp only [dependStep] at hstep
    split at hstep
    next ip hpc =>
      obtain ⟨-, hsome⟩ := Option.ite_none_right_eq_some.mp hstep
      cases Option.some.inj hsome
      exact ⟨h.flags s.isPass2 s.pass2 s.rescan true (.drain none), fun a b hab => .inl hab⟩
    next => cases hstep
  | flushed clear dirty =>
    simp only [dependStep] at hstep
    split at hstep
    next ip hpc =>
      cases Option.some.inj hstep
      cases dirty with
      | true =>
        obtain ⟨hinv, htogether⟩ := delayedSideq_spec h ip clear
        exact ⟨hinv.flags _ _ _ _ (.drain none), fun a b hab => .inl (htogether a b hab)⟩
      | false => exact ⟨h.flags _ s.pass2 s.rescan s.dorestart (.drain none), fun a b hab => .inl hab⟩
    next => cases hstep
  | drained =>
    simp only [dependStep] at hstep
    split at hstep
    next hpc hq =>
      split at hstep
      · cases Option.some.inj hstep
        exact ⟨h.flags s.isPass2 s.pass2 false true .move, fun a b hab => .inl hab⟩
      · cases Option.some.inj hstep
        exact ⟨h.flags s.isPass2 s.pass2 s.rescan s.dorestart .idle, fun a b hab => .inl hab⟩
    next => cases hstep

/-- A group stays together until one locked step moves all of it to `syncq`. -/
theorem exec_together {s' : DependState ι} {acts : List (DependAction ι)} {a b : ι}
    (h : DependInv s) (hab : SameGroup s a b) (hexec : Run.exec dependStep s acts = some s') :
    SameGroup s' a b ∨ ∃ pre act post t t', acts = pre ++ act :: post ∧
      Run.exec dependStep s pre = some t ∧ SameGroup t a b ∧ dependStep t act = some t' ∧
      t'.isSyncq a = true ∧ t'.isSyncq b = true := by
  induction acts generalizing s with
  | nil =>
    cases Option.some.inj hexec
    exact .inl hab
  | cons act acts ih =>
    obtain ⟨s₁, hstep, hrest⟩ := Option.bind_eq_some_iff.mp hexec
    obtain ⟨hinv, hmoved⟩ := dependStep_spec h hstep
    rcases hmoved a b hab with hab₁ | ⟨ha, hb⟩
    · rcases ih hinv hab₁ hrest with hend | ⟨pre, act', post, t, t', rfl, hpre, htog, hstep', ha, hb⟩
      · exact .inl hend
      · refine .inr ⟨act :: pre, act', post, t, t', rfl, ?_, htog, hstep', ha, hb⟩
        exact Option.bind_eq_some_iff.mpr ⟨s₁, hstep, hpre⟩
    · exact .inr ⟨[], act, acts, s, s₁, rfl, rfl, hab, hstep, ha, hb⟩

end Steps

/-- What the queues and dependency records promise. -/
structure DependOk (s : DependState ι) : Prop where
  sideq : ∀ i, s.isSideq i = true → ∃ d ∈ s.depq, (s.sideq d).count i = 1 ∧
    ∀ d', i ∈ s.sideq d' → d' = d
  syncq : ∀ i, s.isSyncq i = true → s.syncq.count i = 1 ∧ ∀ d, i ∉ s.sideq d
  owner : ∀ d ∈ s.depq, d ∈ s.sideq d
  count : ∀ d, s.count d = (s.sideq d).length
  sideqCount : s.sideqCount = ({i | s.isSideq i = true ∨ s.isSyncq i = true} : Set ι).ncard

theorem DependInv.ok {s : DependState ι} (h : DependInv s) : DependOk s where
  sideq i hi := by
    obtain ⟨d, hd⟩ := Option.isSome_iff_exists.mp (h.grouped i hi)
    have hmem : i ∈ s.sideq d := (h.mem_sideq d i).mpr ⟨hi, hd⟩
    refine ⟨d, (h.mem_depq d).mpr (h.owner d i hmem), List.count_eq_one_of_mem (h.nodup d) hmem, ?_⟩
    intro d' hd'
    exact Option.some.inj (((h.mem_sideq d' i).mp hd').2.symm.trans hd)
  syncq i hi := by
    refine ⟨List.count_eq_one_of_mem h.syncq_nodup ((h.mem_syncq i).mpr hi), fun d hmem => ?_⟩
    have hside := ((h.mem_sideq d i).mp hmem).1
    rw [h.disjoint i hi] at hside
    cases hside
  owner d hd := (h.mem_depq d).mp hd
  count := h.count
  sideqCount := by
    obtain ⟨l, hl, hin, hcount⟩ := h.counted
    have hset : {i | s.isSideq i = true ∨ s.isSyncq i = true} = (l.toFinset : Set ι) := by
      ext i
      simp [hin i]
    rw [hset, Set.ncard_coe_finset, List.toFinset_card_of_nodup hl, hcount]

theorem dependReach_inv {s : DependState ι} (h : DependReach s) : DependInv s :=
  h.invariant dependInit_inv fun hinv _ hstep => (dependStep_spec hinv hstep).1

/-- The locked section that merges two inodes into one group. -/
def Merges (act : DependAction ι) (a b : ι) : Prop :=
  match act with
  | .depend ip1 ip2 => (a = ip1 ∧ b = ip2) ∨ (a = ip2 ∧ b = ip1)
  | .lock4 ips => a ∈ ips ∧ b ∈ ips
  | _ => False

theorem merges_together {s s' : DependState ι} {act : DependAction ι} {a b : ι} (h : DependInv s)
    (hmerge : Merges act a b) (ha : s.isSyncq a = false) (hb : s.isSyncq b = false)
    (hstep : dependStep s act = some s') : SameGroup s' a b := by
  unfold Merges at hmerge
  split at hmerge
  next ip1 ip2 =>
    cases Option.some.inj hstep
    obtain ⟨-, -, -, hsame⟩ := inodeDepend_spec h ip1 ip2
    rcases hmerge with ⟨rfl, rfl⟩ | ⟨rfl, rfl⟩
    · exact hsame ha hb
    · obtain ⟨d, hd, hd'⟩ := hsame hb ha
      exact ⟨d, hd', hd⟩
  next ips =>
    cases Option.some.inj hstep
    obtain ⟨-, -, -, hsame⟩ :=
      lock4Loop_spec h .null ips [] (by simp) (by simp)
    exact hsame a b (.inr hmerge.1) (.inr hmerge.2) ha hb
  next => exact hmerge.elim

/-- In every reachable state the groups are a partition with exact counts, and two inodes that are
merged while neither is on `syncq` stay in one group until a single locked step moves both. -/
theorem depend_groups_partition {s : DependState ι} (h : DependReach s) :
    DependOk s ∧ s.panic = false ∧ ∀ act a b s' acts s'', Merges act a b → s.isSyncq a = false →
      s.isSyncq b = false → dependStep s act = some s' → Run.exec dependStep s' acts = some s'' →
      SameGroup s'' a b ∨ ∃ pre x post t t', acts = pre ++ x :: post ∧
        Run.exec dependStep s' pre = some t ∧ SameGroup t a b ∧ dependStep t x = some t' ∧
        t'.isSyncq a = true ∧ t'.isSyncq b = true := by
  have hinv := dependReach_inv h
  refine ⟨hinv.ok, hinv.panic, ?_⟩
  intro act a b s' acts s'' hmerge ha hb hstep hexec
  exact exec_together (dependStep_spec hinv hstep).1 (merges_together hinv hmerge ha hb hstep) hexec

/-- A rename queues four inodes, the syncer takes them all and one is queued again behind it. -/
def renameRun : List (DependAction Nat) :=
  [.lock4 [1, 2, 3, 2], .begin, .move, .pop, .depend 1 2, .flushed true false]

theorem depend_groups_partition_rename :
    ∃ s : DependState Nat, DependReach s ∧ DependOk s ∧ s.syncq.length = 2 := by
  have hrun : ∃ s, Run.exec dependStep (dependInit : DependState Nat) renameRun = some s ∧
      s.syncq.length = 2 := ⟨_, rfl, rfl⟩
  obtain ⟨s, hexec, hlen⟩ := hrun
  have hreach : DependReach s := Run.Reach.exec .start hexec
  exact ⟨s, hreach, (depend_groups_partition hreach).1, hlen⟩

end Hammer2
