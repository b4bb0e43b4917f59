import Hammer2.Recovery

namespace Hammer2

/-- The blockrefs that one call of `hammer2_recovery_scan` adjusts, in order. -/
def visited (syncTid : Nat) : Nat → Node → List Blockref
  | 0, n => [n.bref]
  | room + 1, n => n.bref ::
    if n.descends then
      ((chainScan n.base).filter (syncTid < ·.bref.mirrorTid)).flatMap (visited syncTid room)
    else []

/-- The subtrees that it defers. -/
def deferred (syncTid : Nat) : Nat → Node → List Node
  | 0, n => if n.descends then [n] else []
  | room + 1, n =>
    if n.descends then
      ((chainScan n.base).filter (syncTid < ·.bref.mirrorTid)).flatMap (deferred syncTid room)
    else []

theorem not_descends_of_leaf {n : Node} (h : n.bref.type.recurses = false) :
    n.descends = false := by
  unfold Node.descends
  revert h
  cases n.bref.type <;> simp [BrefType.recurses]

theorem visited_of_leaf {syncTid room : Nat} {n : Node} (h : n.descends = false) :
    visited syncTid room n = [n.bref] := by
  cases room <;> simp [visited, h]

theorem deferred_of_leaf {syncTid room : Nat} {n : Node} (h : n.descends = false) :
    deferred syncTid room n = [] := by
  cases room <;> simp [deferred, h]

/-- The state after adjusting `brefs` and deferring `list`. -/
def afterAdjust (hmp : Dev) (brefs : List Blockref) (list : List Node) (st : RecoveryState) :
    Except FreemapError RecoveryState :=
  (adjustAll hmp brefs st.fm).map fun fm => ⟨fm, st.list ++ list⟩

theorem adjustAll_append (hmp : Dev) (xs ys : List Blockref) (fm : Freemap) :
    adjustAll hmp (xs ++ ys) fm = (adjustAll hmp xs fm).bind (adjustAll hmp ys) := by
  unfold adjustAll
  rw [List.foldlM_append]
  rfl

theorem adjustAll_singleton (hmp : Dev) (r : Blockref) (fm : Freemap) :
    adjustAll hmp [r] fm = freemapRecover hmp fm r := by
  unfold adjustAll
  rw [List.foldlM_cons]
  cases freemapRecover hmp fm r <;> rfl

theorem afterAdjust_bind (hmp : Dev) (xs ys : List Blockref) (l m : List Node)
    (st : RecoveryState) :
    (afterAdjust hmp xs l st).bind (afterAdjust hmp ys m) =
      afterAdjust hmp (xs ++ ys) (l ++ m) st := by
  unfold afterAdjust
  rw [adjustAll_append]
  cases adjustAll hmp xs st.fm with
  | error e => rfl
  | ok fm =>
    simp only [Except.map, Except.bind]
    cases adjustAll hmp ys fm with
    | error e => rfl
    | ok fm' => simp only [List.append_assoc]

theorem recoveryElement_eq {hmp : Dev} {syncTid room : Nat}
    {scan : Node → RecoveryState → Except FreemapError RecoveryState}
    (hscan : ∀ n st, scan n st =
      afterAdjust hmp (visited syncTid room n) (deferred syncTid room n) st)
    (n : Node) (st : RecoveryState) (ht : syncTid < n.bref.mirrorTid) :
    recoveryElement hmp syncTid scan st n =
      afterAdjust hmp (visited syncTid room n) (deferred syncTid room n) st := by
  unfold recoveryElement
  rw [if_pos ht]
  split
  next => exact hscan n st
  next hleaf =>
    have hnd := not_descends_of_leaf (by simpa using hleaf)
    rw [visited_of_leaf hnd, deferred_of_leaf hnd]
    unfold afterAdjust
    rw [adjustAll_singleton]
    simp only [List.append_nil]
    cases freemapRecover hmp st.fm n.bref <;> rfl

theorem recoveryElements_eq {hmp : Dev} {syncTid room : Nat}
    {scan : Node → RecoveryState → Except FreemapError RecoveryState}
    (hscan : ∀ n st, scan n st =
      afterAdjust hmp (visited syncTid room n) (deferred syncTid room n) st)
    (l : List Node) (st : RecoveryState) :
    l.foldlM (recoveryElement hmp syncTid scan) st =
      afterAdjust hmp ((l.filter (syncTid < ·.bref.mirrorTid)).flatMap (visited syncTid room))
        ((l.filter (syncTid < ·.bref.mirrorTid)).flatMap (deferred syncTid room)) st := by
  induction l generalizing st with
  | nil =>
    simp only [List.filter_nil, List.flatMap_nil, afterAdjust, List.append_nil]
    rfl
  | cons n l ih =>
    rw [List.foldlM_cons]
    by_cases ht : syncTid < n.bref.mirrorTid
    · rw [recoveryElement_eq hscan n st ht, List.filter_cons_of_pos (by simpa using ht),
        List.flatMap_cons, List.flatMap_cons, ← afterAdjust_bind]
      exact congrArg _ (funext ih)
    · rw [List.filter_cons_of_neg (by simpa using ht), ← ih st]
      unfold recoveryElement
      rw [if_neg ht]
      rfl

/-- `hammer2_recovery_scan` adjusts the visited blockrefs in order and queues the deferred
subtrees. -/
theorem recoveryScan_eq (hmp : Dev) (syncTid room : Nat) (n : Node) (st : RecoveryState) :
    recoveryScan hmp syncTid room n st =
      afterAdjust hmp (visited syncTid room n) (deferred syncTid room n) st := by
  induction room generalizing n st with
  | zero =>
    unfold recoveryScan visited deferred afterAdjust
    rw [adjustAll_singleton]
    cases freemapRecover hmp st.fm n.bref with
    | error e => rfl
    | ok fm =>
      simp only [Except.map, bind, Except.bind, pure, Except.pure]
      split <;> simp
  | succ room ih =>
    by_cases hd : n.descends
    · have hhead : afterAdjust hmp [n.bref] [] st =
          (freemapRecover hmp st.fm n.bref).map fun fm => { st with fm := fm } := by
        unfold afterAdjust
        rw [adjustAll_singleton]
        simp only [List.append_nil]
      unfold recoveryScan visited deferred recoveryChildren
      rw [if_pos hd, if_pos hd]
      refine Eq.trans ?_ (afterAdjust_bind hmp [n.bref] _ [] _ st)
      rw [hhead]
      simp only [hd, if_true, recoveryElements_eq ih]
      cases freemapRecover hmp st.fm n.bref <;> rfl
    · simp only [Bool.not_eq_true] at hd
      rw [visited_of_leaf hd, deferred_of_leaf hd]
      unfold recoveryScan afterAdjust
      rw [adjustAll_singleton]
      simp only [hd, List.append_nil]
      cases freemapRecover hmp st.fm n.bref <;> rfl

/-- The blockrefs that the loop over the deferred subtrees adjusts. -/
def loopVisited (syncTid : Nat) : Nat → List Node → Option (List Blockref)
  | 0, _ => none
  | _ + 1, [] => some []
  | fuel + 1, n :: list =>
    (loopVisited syncTid fuel (list ++ deferred syncTid recoveryMaxdepth n)).map
      (visited syncTid recoveryMaxdepth n ++ ·)

theorem recoveryLoop_eq {hmp : Dev} {syncTid fuel : Nat} {list : List Node} {brefs : List Blockref}
    (fm : Freemap) (h : loopVisited syncTid fuel list = some brefs) :
    recoveryLoop hmp syncTid fuel ⟨fm, list⟩ = some (adjustAll hmp brefs fm) := by
  induction fuel generalizing fm list brefs with
  | zero => simp [loopVisited] at h
  | succ fuel ih =>
    cases list with
    | nil =>
      cases Option.some.inj h
      rfl
    | cons n list =>
      obtain ⟨rest, hrest, rfl⟩ := Option.map_eq_some_iff.mp h
      unfold recoveryLoop
      rw [recoveryScan_eq, adjustAll_append]
      unfold afterAdjust
      cases adjustAll hmp (visited syncTid recoveryMaxdepth n) fm with
      | error e => rfl
      | ok fm1 => exact ih fm1 hrest

/-- `m` is `n` or lies below it, through elements that are newer than `syncTid`. -/
inductive RecBelow (syncTid : Nat) : Node → Node → Prop
  | self (n : Node) : RecBelow syncTid n n
  | child {n c m : Node} : n.descends = true → c ∈ n.base → syncTid < c.bref.mirrorTid →
      RecBelow syncTid c m → RecBelow syncTid n m

theorem RecBelow.trans {syncTid : Nat} {n m k : Node} (h : RecBelow syncTid n m)
    (h' : RecBelow syncTid m k) : RecBelow syncTid n k := by
  induction h with
  | self n => exact h'
  | child hd hc ht _ ih => exact .child hd hc ht (ih h')

/-- Every blockref array that the scan of `n` reads is well formed. -/
def Scannable (syncTid : Nat) (n : Node) : Prop :=
  ∀ m, RecBelow syncTid n m → m.descends = true → KeyOrdered m.base

theorem Scannable.child {syncTid : Nat} {n c : Node} (h : Scannable syncTid n)
    (hd : n.descends = true) (hc : c ∈ n.base) (ht : syncTid < c.bref.mirrorTid) :
    Scannable syncTid c :=
  fun m hm => h m (.child hd hc ht hm)

theorem Scannable.scan_eq {syncTid : Nat} {n : Node} (h : Scannable syncTid n)
    (hd : n.descends = true) : chainScan n.base = n.base :=
  chainScan_eq (h n (.self n) hd)

theorem mem_visited {syncTid room : Nat} {n : Node} (h : Scannable syncTid n) {r : Blockref}
    (hr : r ∈ visited syncTid room n) : ∃ m, RecBelow syncTid n m ∧ m.bref = r := by
  induction room generalizing n with
  | zero => exact ⟨n, .self n, (List.mem_singleton.mp hr).symm⟩
  | succ room ih =>
    rcases List.mem_cons.mp hr with rfl | hr
    · exact ⟨n, .self n, rfl⟩
    · split at hr
      next hd =>
        obtain ⟨c, hc, hr⟩ := List.mem_flatMap.mp hr
        rw [h.scan_eq hd, List.mem_filter, decide_eq_true_iff] at hc
        obtain ⟨m, hm, he⟩ := ih (h.child hd hc.1 hc.2) hr
        exact ⟨m, .child hd hc.1 hc.2 hm, he⟩
      next => simp at hr

theorem mem_deferred {syncTid room : Nat} {n d : Node} (h : Scannable syncTid n)
    (hd : d ∈ deferred syncTid room n) : RecBelow syncTid n d := by
  induction room generalizing n with
  | zero =>
    unfold deferred at hd
    split at hd
    next =>
      rw [List.mem_singleton.mp hd]
      exact .self n
    next => simp at hd
  | succ room ih =>
    unfold deferred at hd
    split at hd
    next hdesc =>
      obtain ⟨c, hc, hd⟩ := List.mem_flatMap.mp hd
      rw [h.scan_eq hdesc, List.mem_filter, decide_eq_true_iff] at hc
      exact .child hdesc hc.1 hc.2 (ih (h.child hdesc hc.1 hc.2) hd)
    next => simp at hd

/-- What one scan does not visit lies below a subtree that it defers. -/
theorem visited_or_deferred {syncTid : Nat} (room : Nat) {n m : Node} (h : Scannable syncTid n)
    (hm : RecBelow syncTid n m) :
    m.bref ∈ visited syncTid room n ∨ ∃ d ∈ deferred syncTid room n, RecBelow syncTid d m := by
  induction room generalizing n with
  | zero =>
    cases hm with
    | self => exact Or.inl (by simp [visited])
    | child hd hc ht hm => exact Or.inr ⟨n, by simp [deferred, hd], .child hd hc ht hm⟩
  | succ room ih =>
    cases hm with
    | self => exact Or.inl (by simp [visited])
    | @child _ c _ hd hc ht hm =>
      have hmem : c ∈ (chainScan n.base).filter (syncTid < ·.bref.mirrorTid) := by
        rw [h.scan_eq hd, List.mem_filter, decide_eq_true_iff]
        exact ⟨hc, ht⟩
      rcases ih (h.child hd hc ht) hm with hv | ⟨d, hdef, hbelow⟩
      · left
        rw [visited, if_pos hd]
        exact List.mem_cons_of_mem _ (List.mem_flatMap.mpr ⟨c, hmem, hv⟩)
      · right
        rw [deferred, if_pos hd]
        exact ⟨d, List.mem_flatMap.mpr ⟨c, hmem, hdef⟩, hbelow⟩

theorem Scannable.below {syncTid : Nat} {n d : Node} (h : Scannable syncTid n)
    (hd : RecBelow syncTid n d) : Scannable syncTid d :=
  fun m hm => h m (hd.trans hm)

theorem scannable_append_deferred {syncTid room : Nat} {n : Node} {list : List Node}
    (hs : ∀ m ∈ n :: list, Scannable syncTid m) :
    ∀ m ∈ list ++ deferred syncTid room n, Scannable syncTid m := by
  intro m hm
  rcases List.mem_append.mp hm with hm | hm
  · exact hs m (List.mem_cons_of_mem _ hm)
  · have hn := hs n (by simp)
    exact hn.below (mem_deferred hn hm)

/-- The loop adjusts exactly what lies below the subtrees on its list. -/
theorem mem_loopVisited_iff {syncTid fuel : Nat} {list : List Node} {brefs : List Blockref}
    (hs : ∀ n ∈ list, Scannable syncTid n) (h : loopVisited syncTid fuel list = some brefs)
    (r : Blockref) : r ∈ brefs ↔ ∃ n ∈ list, ∃ m, RecBelow syncTid n m ∧ m.bref = r := by
  induction fuel generalizing list brefs with
  | zero => simp [loopVisited] at h
  | succ fuel ih =>
    cases list with
    | nil =>
      cases Option.some.inj h
      simp
    | cons n list =>
      obtain ⟨rest, hrest, rfl⟩ := Option.map_eq_some_iff.mp h
      have hn := hs n (by simp)
      rw [List.mem_append, ih (scannable_append_deferred hs) hrest]
      constructor
      · rintro (hv | ⟨d, hd, m, hm, he⟩)
        · exact ⟨n, by simp, mem_visited hn hv⟩
        · rcases List.mem_append.mp hd with hd | hd
          · exact ⟨d, List.mem_cons_of_mem _ hd, m, hm, he⟩
          · exact ⟨n, by simp, m, (mem_deferred hn hd).trans hm, he⟩
      · rintro ⟨k, hk, m, hm, rfl⟩
        rcases List.mem_cons.mp hk with rfl | hk
        · rcases visited_or_deferred recoveryMaxdepth hn hm with hv | ⟨d, hd, hbelow⟩
          · exact Or.inl hv
          · exact Or.inr ⟨d, List.mem_append_right _ hd, m, hbelow, rfl⟩
        · exact Or.inr ⟨k, List.mem_append_left _ hk, m, hm, rfl⟩

/-- The size of the subtrees on a list, which bounds the rounds of the loop. -/
noncomputable def nodesSize (list : List Node) : Nat := (list.map sizeOf).sum

theorem nodesSize_append (l m : List Node) : nodesSize (l ++ m) = nodesSize l + nodesSize m := by
  simp [nodesSize]

theorem nodesSize_flatMap_filter_le {f : Node → List Node} {l : List Node} (p : Node → Bool)
    (h : ∀ c ∈ l, p c = true → nodesSize (f c) ≤ sizeOf c) :
    nodesSize ((l.filter p).flatMap f) ≤ sizeOf l := by
  induction l with
  | nil => simp [nodesSize]
  | cons c l ih =>
    have hrest := ih fun c' hc' => h c' (List.mem_cons_of_mem _ hc')
    rw [List.cons.sizeOf_spec]
    by_cases hc : p c = true
    · have hhead := h c (by simp) hc
      rw [List.filter_cons_of_pos hc, List.flatMap_cons, nodesSize_append]
      omega
    · rw [List.filter_cons_of_neg hc]
      omega

theorem sizeOf_base_lt (n : Node) : sizeOf n.base < sizeOf n := by
  cases n with
  | mk bref directdata base =>
    rw [Node.mk.sizeOf_spec]
    change sizeOf base < _
    omega

theorem deferred_size_le {syncTid room : Nat} {n : Node} (h : Scannable syncTid n) :
    nodesSize (deferred syncTid room n) ≤ sizeOf n := by
  induction room generalizing n with
  | zero =>
    unfold deferred nodesSize
    split <;> simp
  | succ room ih =>
    unfold deferred
    split
    next hd =>
      have hlt := sizeOf_base_lt n
      rw [h.scan_eq hd]
      refine Nat.le_trans (nodesSize_flatMap_filter_le _ ?_) (Nat.le_of_lt hlt)
      intro c hc ht
      exact ih (h.child hd hc (decide_eq_true_iff.mp ht))
    next => simp [nodesSize]

/-- A scan that does not start at the depth limit defers less than it was given. -/
theorem deferred_size_lt {syncTid room : Nat} {n : Node} (h : Scannable syncTid n) :
    nodesSize (deferred syncTid (room + 1) n) < sizeOf n := by
  have hlt := sizeOf_base_lt n
  unfold deferred
  split
  next hd =>
    rw [h.scan_eq hd]
    refine Nat.lt_of_le_of_lt (nodesSize_flatMap_filter_le _ ?_) hlt
    intro c hc ht
    exact deferred_size_le (h.child hd hc (decide_eq_true_iff.mp ht))
  next =>
    simp only [nodesSize, List.map_nil, List.sum_nil]
    omega

theorem loopVisited_total {syncTid fuel : Nat} {list : List Node}
    (hs : ∀ n ∈ list, Scannable syncTid n) (hfuel : nodesSize list < fuel) :
    ∃ brefs, loopVisited syncTid fuel list = some brefs := by
  induction fuel generalizing list with
  | zero => omega
  | succ fuel ih =>
    cases list with
    | nil => exact ⟨[], rfl⟩
    | cons n list =>
      have hlt : nodesSize (deferred syncTid recoveryMaxdepth n) < sizeOf n :=
        deferred_size_lt (hs n (by simp))
      have hcons : nodesSize (n :: list) = sizeOf n + nodesSize list := by simp [nodesSize]
      have hless : nodesSize (list ++ deferred syncTid recoveryMaxdepth n) < fuel := by
        rw [nodesSize_append]
        omega
      obtain ⟨rest, hrest⟩ := ih (scannable_append_deferred hs) hless
      exact ⟨_, by rw [loopVisited, hrest, Option.map_some]⟩

theorem recoveryLoop_ok {hmp : Dev} {syncTid fuel : Nat} {list : List Node} {fm fm' : Freemap}
    (h : recoveryLoop hmp syncTid fuel ⟨fm, list⟩ = some (.ok fm')) :
    ∃ brefs, loopVisited syncTid fuel list = some brefs ∧ adjustAll hmp brefs fm = .ok fm' := by
  induction fuel generalizing fm list with
  | zero => simp [recoveryLoop] at h
  | succ fuel ih =>
    cases list with
    | nil => exact ⟨[], rfl, Option.some.inj h⟩
    | cons n list =>
      unfold recoveryLoop at h
      rw [recoveryScan_eq] at h
      unfold afterAdjust at h
      cases hv : adjustAll hmp (visited syncTid recoveryMaxdepth n) fm with
      | error e => simp [hv, Except.map] at h
      | ok fm1 =>
        rw [hv] at h
        obtain ⟨rest, hrest, hadj⟩ := ih h
        refine ⟨_, by rw [loopVisited, hrest, Option.map_some], ?_⟩
        rw [adjustAll_append, hv]
        exact hadj

/-- A blockref is reachable through ancestors that are all newer than the freemap. -/
inductive Reachable (freemapTid : Nat) (root : List Node) : Node → Prop
  | root {n : Node} : n ∈ root → Reachable freemapTid root n
  | child {p c : Node} : Reachable freemapTid root p → freemapTid < p.bref.mirrorTid →
      p.descends = true → c ∈ p.base → Reachable freemapTid root c

/-- The 16KB blocks that hold the data of a blockref; a directory entry with an embedded name has
none. -/
def Blockref.Covers (bref : Blockref) (b : Nat) : Prop :=
  bref.data.radix ≠ 0 ∧ bref.data.Touches b

/-- A well-formed topology under the volume root. -/
structure CommittedImage (freemapTid : Nat) (root : List Node) : Prop where
  ordered : KeyOrdered root
  nodes : ∀ n, Reachable freemapTid root n → n.descends = true → KeyOrdered n.base
  shaped : ∀ n, Reachable freemapTid root n → n.bref.data.radix ≠ 0 → n.bref.data.Shaped

theorem Reachable.of_recBelow {freemapTid : Nat} {root : List Node} {n m : Node}
    (h : Reachable freemapTid root n) (ht : freemapTid < n.bref.mirrorTid)
    (hm : RecBelow freemapTid n m) :
    Reachable freemapTid root m ∧ freemapTid < m.bref.mirrorTid := by
  induction hm with
  | self n => exact ⟨h, ht⟩
  | child hd hc htc _ ih => exact ih (.child h ht hd hc) htc

theorem reachable_iff_below {freemapTid : Nat} {root : List Node} {m : Node} :
    (Reachable freemapTid root m ∧ freemapTid < m.bref.mirrorTid) ↔
      ∃ n ∈ root, freemapTid < n.bref.mirrorTid ∧ RecBelow freemapTid n m := by
  constructor
  · rintro ⟨h, ht⟩
    induction h with
    | root hn => exact ⟨_, hn, ht, .self _⟩
    | child _ htp hd hc ih =>
      obtain ⟨n, hn, htn, hbelow⟩ := ih htp
      exact ⟨n, hn, htn, hbelow.trans (.child hd hc ht (.self _))⟩
  · rintro ⟨n, hn, ht, hbelow⟩
    exact (Reachable.root hn).of_recBelow ht hbelow

theorem CommittedImage.scannable {freemapTid : Nat} {root : List Node} {n : Node}
    (h : CommittedImage freemapTid root) (hn : n ∈ root) (ht : freemapTid < n.bref.mirrorTid) :
    Scannable freemapTid n :=
  fun m hm => h.nodes m ((Reachable.root hn).of_recBelow ht hm).1

/-- The newer elements of the root blockset, from which the recovery starts. -/
def recoveryRoots (freemapTid : Nat) (root : List Node) : List Node :=
  root.filter (freemapTid < ·.bref.mirrorTid)

theorem mem_recoveryRoots {freemapTid : Nat} {root : List Node} {n : Node} :
    n ∈ recoveryRoots freemapTid root ↔ n ∈ root ∧ freemapTid < n.bref.mirrorTid := by
  simp [recoveryRoots]

theorem CommittedImage.scannable_deferred {freemapTid : Nat} {root : List Node}
    (h : CommittedImage freemapTid root) (room : Nat) :
    ∀ d ∈ (recoveryRoots freemapTid root).flatMap (deferred freemapTid room),
      Scannable freemapTid d := by
  intro d hd
  obtain ⟨n, hn, hd⟩ := List.mem_flatMap.mp hd
  obtain ⟨hn, ht⟩ := mem_recoveryRoots.mp hn
  have hs := h.scannable hn ht
  exact hs.below (mem_deferred hs hd)

/-- The first scan and the loop together adjust the blockrefs that are reachable and newer than the
freemap. -/
theorem mem_recovered_iff {freemapTid fuel : Nat} {root : List Node} {brefs : List Blockref}
    (h : CommittedImage freemapTid root) (room : Nat)
    (hloop : loopVisited freemapTid fuel
      ((recoveryRoots freemapTid root).flatMap (deferred freemapTid room)) = some brefs)
    (r : Blockref) :
    r ∈ (recoveryRoots freemapTid root).flatMap (visited freemapTid room) ++ brefs ↔
      ∃ m, Reachable freemapTid root m ∧ freemapTid < m.bref.mirrorTid ∧ m.bref = r := by
  rw [List.mem_append, mem_loopVisited_iff (h.scannable_deferred room) hloop]
  constructor
  · intro hr
    obtain ⟨n, hn, m, hm, he⟩ : ∃ n ∈ recoveryRoots freemapTid root,
        ∃ m, RecBelow freemapTid n m ∧ m.bref = r := by
      rcases hr with hv | ⟨d, hd, m, hm, he⟩
      · obtain ⟨n, hn, hv⟩ := List.mem_flatMap.mp hv
        obtain ⟨hroot, ht⟩ := mem_recoveryRoots.mp hn
        exact ⟨n, hn, mem_visited (h.scannable hroot ht) hv⟩
      · obtain ⟨n, hn, hd⟩ := List.mem_flatMap.mp hd
        obtain ⟨hroot, ht⟩ := mem_recoveryRoots.mp hn
        exact ⟨n, hn, m, (mem_deferred (h.scannable hroot ht) hd).trans hm, he⟩
    obtain ⟨hroot, ht⟩ := mem_recoveryRoots.mp hn
    obtain ⟨hreach, htm⟩ := reachable_iff_below.mpr ⟨n, hroot, ht, hm⟩
    exact ⟨m, hreach, htm, he⟩
  · rintro ⟨m, hreach, ht, rfl⟩
    obtain ⟨n, hn, htn, hm⟩ := reachable_iff_below.mp ⟨hreach, ht⟩
    have hmem := mem_recoveryRoots.mpr ⟨hn, htn⟩
    rcases visited_or_deferred room (h.scannable hn htn) hm with hv | ⟨d, hd, hbelow⟩
    · exact Or.inl (List.mem_flatMap.mpr ⟨n, hmem, hv⟩)
    · exact Or.inr ⟨d, List.mem_flatMap.mpr ⟨n, hmem, hd⟩, m, hbelow, rfl⟩

theorem recovery_eq {hmp : Dev} {freemapTid fuel : Nat} {root : List Node} (fm : Freemap)
    (h : KeyOrdered root) :
    recovery hmp freemapTid fuel root fm =
      match adjustAll hmp ((recoveryRoots freemapTid root).flatMap
        (visited freemapTid (recoveryMaxdepth - 1))) fm with
      | .error e => some (.error e)
      | .ok fm1 => recoveryLoop hmp freemapTid fuel ⟨fm1,
          (recoveryRoots freemapTid root).flatMap (deferred freemapTid (recoveryMaxdepth - 1))⟩ := by
  unfold recovery recoveryChildren
  rw [chainScan_eq h, recoveryElements_eq (recoveryScan_eq hmp freemapTid _)]
  unfold afterAdjust recoveryRoots
  cases adjustAll hmp _ fm with
  | error e => rfl
  | ok fm1 => simp only [Except.map, List.nil_append]

/-- A recovery that succeeds adjusted the newer reachable blockrefs. -/
theorem recovery_ok {hmp : Dev} {freemapTid fuel : Nat} {root : List Node} {fm fm' : Freemap}
    (h : CommittedImage freemapTid root)
    (hok : recovery hmp freemapTid fuel root fm = some (.ok fm')) :
    ∃ brefs, adjustAll hmp brefs fm = .ok fm' ∧ ∀ r, r ∈ brefs ↔
      ∃ m, Reachable freemapTid root m ∧ freemapTid < m.bref.mirrorTid ∧ m.bref = r := by
  rw [recovery_eq fm h.ordered] at hok
  split at hok
  next => simp at hok
  next fm1 hfirst =>
    obtain ⟨brefs, hloop, hadj⟩ := recoveryLoop_ok hok
    refine ⟨_, ?_, mem_recovered_iff h _ hloop⟩
    rw [adjustAll_append, hfirst]
    exact hadj

/-- A recovery whose adjustments pass their assertions comes to its end. -/
theorem recovery_total {hmp : Dev} {freemapTid : Nat} {root : List Node} (fm : Freemap)
    (h : CommittedImage freemapTid root)
    (hadj : ∀ m, Reachable freemapTid root m → freemapTid < m.bref.mirrorTid →
      Adjustable hmp m.bref) :
    ∃ fuel fm', recovery hmp freemapTid fuel root fm = some (.ok fm') := by
  obtain ⟨fuel, brefs, hloop⟩ : ∃ fuel brefs, loopVisited freemapTid fuel
      ((recoveryRoots freemapTid root).flatMap (deferred freemapTid (recoveryMaxdepth - 1))) =
        some brefs :=
    ⟨_, loopVisited_total (h.scannable_deferred (recoveryMaxdepth - 1)) (Nat.lt_succ_self _)⟩
  have hmem := mem_recovered_iff h (recoveryMaxdepth - 1) hloop
  generalize hfirst : (recoveryRoots freemapTid root).flatMap
    (visited freemapTid (recoveryMaxdepth - 1)) = first at hmem
  have hall : ∀ r ∈ first ++ brefs, Adjustable hmp r := by
    intro r hr
    obtain ⟨m, hreach, ht, rfl⟩ := (hmem r).mp hr
    exact hadj m hreach ht
  obtain ⟨fm', hok, _⟩ := adjustAll_ok fm hall
  rw [adjustAll_append] at hok
  obtain ⟨fm1, hok1, hok2⟩ := except_bind_eq_ok.mp hok
  refine ⟨fuel, fm', ?_⟩
  rw [recovery_eq fm h.ordered, hfirst, hok1]
  simp only
  rw [recoveryLoop_eq fm1 hloop, hok2]

/-- For a shaped extent, the marked blocks are its own, or those 16 below if bit 18 of its offset
is set. -/
theorem marks_iff_touches {hmp : Dev} {bref : Blockref} (h : bref.data.Shaped) (b : Nat) :
    Marks hmp bref b ↔ hmp.allocatorBeg ≤ bref.data.off ∧
      bref.data.Touches (b + 16 * (bref.data.off / 262144 % 2)) := by
  rw [h.touches_iff]
  unfold Marks adjustStart
  omega

/-- What the recovery of an image depends on: every blockref that it adjusts passes the assertions
of `hammer2_freemap_adjust`, and every reachable block that is not marked yet is one that an
adjustment marks. -/
structure Recoverable (hmp : Dev) (fm : Freemap) (freemapTid : Nat) (root : List Node) : Prop where
  passes : ∀ n, Reachable freemapTid root n → freemapTid < n.bref.mirrorTid →
    n.bref.data.radix ≠ 0 ∧
      (hmp.allocatorBeg ≤ n.bref.data.off → zoneSeg ≤ n.bref.data.off % zoneSize)
  marked : ∀ n, Reachable freemapTid root n → ∀ b, n.bref.Covers b → fm.blk hmp b = 3 ∨
    ∃ m, Reachable freemapTid root m ∧ freemapTid < m.bref.mirrorTid ∧
      hmp.allocatorBeg ≤ m.bref.data.off ∧
      m.bref.data.Touches (b + 16 * (m.bref.data.off / 262144 % 2))

/-- The recovery ends without a failed assertion and leaves every block marked that a reachable
blockref covers. -/
def Recovers (hmp : Dev) (fm : Freemap) (freemapTid : Nat) (root : List Node) : Prop :=
  ∃ fuel fm', recovery hmp freemapTid fuel root fm = some (.ok fm') ∧
    ∀ n, Reachable freemapTid root n → ∀ b, n.bref.Covers b → fm'.blk hmp b = 3

/-- Which blocks are marked after a successful recovery. -/
theorem recovery_marked_iff {hmp : Dev} {freemapTid fuel : Nat} {root : List Node}
    {fm fm' : Freemap} (h : CommittedImage freemapTid root)
    (hok : recovery hmp freemapTid fuel root fm = some (.ok fm')) (b : Nat) :
    fm'.blk hmp b = 3 ↔ fm.blk hmp b = 3 ∨
      ∃ m, Reachable freemapTid root m ∧ freemapTid < m.bref.mirrorTid ∧
        hmp.allocatorBeg ≤ m.bref.data.off ∧
        m.bref.data.Touches (b + 16 * (m.bref.data.off / 262144 % 2)) := by
  obtain ⟨brefs, hadj, hmem⟩ := recovery_ok h hok
  have hall := adjustAll_adjustable hadj
  obtain ⟨fm1, hadj1, hblk⟩ := adjustAll_ok fm hall
  cases hadj.symm.trans hadj1
  rw [hblk b]
  refine or_congr_right ?_
  constructor
  · rintro ⟨r, hr, hmarks⟩
    obtain ⟨m, hreach, ht, rfl⟩ := (hmem r).mp hr
    have hshape := h.shaped m hreach (hall _ hr).radix_ne
    exact ⟨m, hreach, ht, (marks_iff_touches hshape b).mp hmarks⟩
  · rintro ⟨m, hreach, ht, hmarks⟩
    have hr := (hmem m.bref).mpr ⟨m, hreach, ht, rfl⟩
    have hshape := h.shaped m hreach (hall _ hr).radix_ne
    exact ⟨m.bref, hr, (marks_iff_touches hshape b).mpr hmarks⟩

/-- The recovery of a committed image is total and complete exactly if the image is recoverable. -/
theorem recovers_iff_recoverable {hmp : Dev} {fm : Freemap} {freemapTid : Nat} {root : List Node}
    (h : CommittedImage freemapTid root) :
    Recovers hmp fm freemapTid root ↔ Recoverable hmp fm freemapTid root := by
  constructor
  · rintro ⟨fuel, fm', hok, hall⟩
    constructor
    · intro n hn ht
      obtain ⟨brefs, hadj, hmem⟩ := recovery_ok h hok
      have hpass := adjustAll_adjustable hadj n.bref ((hmem _).mpr ⟨n, hn, ht, rfl⟩)
      exact ⟨hpass.radix_ne, hpass.zone⟩
    · intro n hn b hb
      exact (recovery_marked_iff h hok b).mp (hall n hn b hb)
  · intro hrec
    have hadj : ∀ m, Reachable freemapTid root m → freemapTid < m.bref.mirrorTid →
        Adjustable hmp m.bref := by
      intro m hm ht
      obtain ⟨h0, hzone⟩ := hrec.passes m hm ht
      exact ⟨h0, (h.shaped m hm h0).radix_max, hzone⟩
    obtain ⟨fuel, fm', hok⟩ := recovery_total fm h hadj
    refine ⟨fuel, fm', hok, ?_⟩
    intro n hn b hb
    exact (recovery_marked_iff h hok b).mpr (hrec.marked n hn b hb)

/-- A root inode at 24MB with one element, both of the last transaction. -/
def imageOf (type : BrefType) (data : Extent) : List Node :=
  [.mk ⟨.inode, 0, 0, ⟨25165824, 10⟩, 17⟩ false [.mk ⟨type, 0, 0, data, 17⟩ false []]]

theorem reachable_imageOf {type : BrefType} {data : Extent} {n : Node}
    (hleaf : type.recurses = false) (h : Reachable 16 (imageOf type data) n) :
    n.bref = ⟨.inode, 0, 0, ⟨25165824, 10⟩, 17⟩ ∧ n.base = [.mk ⟨type, 0, 0, data, 17⟩ false []] ∨
      n.bref = ⟨type, 0, 0, data, 17⟩ ∧ n.descends = false := by
  have hchild : (Node.mk ⟨type, 0, 0, data, 17⟩ false []).descends = false :=
    not_descends_of_leaf hleaf
  induction h with
  | root hn =>
    rw [List.mem_singleton.mp hn]
    exact Or.inl ⟨rfl, rfl⟩
  | child _ _ hd hc ih =>
    rcases ih with ⟨_, hbase⟩ | ⟨_, hnd⟩
    · rw [hbase] at hc
      rw [List.mem_singleton.mp hc]
      exact Or.inr ⟨rfl, hchild⟩
    · rw [hnd] at hd
      cases hd

theorem reachable_imageOf_child (type : BrefType) (data : Extent) :
    Reachable 16 (imageOf type data) (.mk ⟨type, 0, 0, data, 17⟩ false []) :=
  .child (.root (List.mem_singleton.mpr rfl)) (Nat.lt_succ_self 16) rfl (List.mem_singleton.mpr rfl)

theorem keyOrdered_singleton {n : Node} (hkey : n.bref.key = 0) (hbits : n.bref.keybits = 0) :
    KeyOrdered [n] := by
  refine ⟨List.pairwise_singleton _ _, ?_⟩
  intro m hm
  rw [List.mem_singleton.mp hm, Blockref.keyEnd, hkey, hbits]
  decide

theorem committed_imageOf {type : BrefType} {data : Extent} (hleaf : type.recurses = false)
    (hshape : data.radix ≠ 0 → data.Shaped) : CommittedImage 16 (imageOf type data) := by
  refine ⟨keyOrdered_singleton rfl rfl, ?_, ?_⟩
  · intro n hn hd
    rcases reachable_imageOf hleaf hn with ⟨_, hbase⟩ | ⟨_, hnd⟩
    · rw [hbase]
      exact keyOrdered_singleton rfl rfl
    · rw [hnd] at hd
      cases hd
  · intro n hn h0
    rcases reachable_imageOf hleaf hn with ⟨hbref, _⟩ | ⟨hbref, _⟩
    · rw [hbref]
      exact ⟨by decide, by decide, by decide, by decide, by decide⟩
    · rw [hbref] at h0 ⊢
      exact hshape h0

theorem recovers_data_block :
    Recovers smallDev (fun _ => none) 16 (imageOf .data ⟨25182208, 14⟩) := by
  have himage : CommittedImage 16 (imageOf .data ⟨25182208, 14⟩) :=
    committed_imageOf rfl fun _ => ⟨by decide, by decide, by decide, by decide, by decide⟩
  refine (recovers_iff_recoverable himage).mpr ⟨?_, ?_⟩
  · intro n hn _
    rcases reachable_imageOf rfl hn with ⟨hbref, _⟩ | ⟨hbref, _⟩
    · rw [hbref]
      decide
    · rw [hbref]
      decide
  · intro n hn b hb
    refine Or.inr ⟨n, hn, ?_⟩
    rcases reachable_imageOf rfl hn with ⟨hbref, _⟩ | ⟨hbref, _⟩
    · rw [hbref] at hb ⊢
      exact ⟨by decide, by decide, hb.2⟩
    · rw [hbref] at hb ⊢
      exact ⟨by decide, by decide, hb.2⟩

/-- The recovery stops at a directory entry whose name is embedded, and it does not mark a block in
the upper half of a bitmap word. -/
theorem recovery_fails_on_dirent_and_upper_half :
    (CommittedImage 16 (imageOf .dirent ⟨0, 0⟩) ∧
      ¬ Recovers smallDev (fun _ => none) 16 (imageOf .dirent ⟨0, 0⟩)) ∧
    (CommittedImage 16 (imageOf .data ⟨25427968, 14⟩) ∧
      ¬ Recovers smallDev (fun _ => none) 16 (imageOf .data ⟨25427968, 14⟩)) := by
  have hdirent : CommittedImage 16 (imageOf .dirent ⟨0, 0⟩) :=
    committed_imageOf rfl fun h => absurd rfl h
  have hdata : CommittedImage 16 (imageOf .data ⟨25427968, 14⟩) :=
    committed_imageOf rfl fun _ => ⟨by decide, by decide, by decide, by decide, by decide⟩
  refine ⟨⟨hdirent, ?_⟩, hdata, ?_⟩
  · rintro ⟨fuel, fm', hok, _⟩
    obtain ⟨brefs, hadj, hmem⟩ := recovery_ok hdirent hok
    have hpass := adjustAll_adjustable hadj _
      ((hmem _).mpr ⟨_, reachable_imageOf_child _ _, Nat.lt_succ_self 16, rfl⟩)
    exact hpass.radix_ne rfl
  · rintro ⟨fuel, fm', hok, hall⟩
    have hmarked := hall _ (reachable_imageOf_child _ _) 1552 ⟨by decide, by decide⟩
    rcases (recovery_marked_iff hdata hok 1552).mp hmarked with hold | ⟨m, hm, _, _, htouch⟩
    · exact absurd hold (by decide)
    · rcases reachable_imageOf rfl hm with ⟨hbref, _⟩ | ⟨hbref, _⟩
      · rw [hbref] at htouch
        exact absurd htouch (by decide)
      · rw [hbref] at htouch
        exact absurd htouch (by decide)

end Hammer2
