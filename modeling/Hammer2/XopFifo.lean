import Hammer2.WindowsListing
import Hammer2.WindowsRead
import Mathlib.Logic.Function.Basic
import Mathlib.Data.Nat.Bitwise

namespace Hammer2

def xopFifo : Nat := 16

/-- `HAMMER2_KEY_MAX` -/
def xopKeyMax : UInt64 := 0xffffffffffffffff

def errorAborted : Nat := 0x1000

/-- A chain as a backend feeds it: `bref.key`, `error`, and the rest. -/
structure XopChain (δ : Type*) where
  key : UInt64
  error : Nat
  data : δ
deriving DecidableEq

structure XopFifo (δ : Type*) where
  array : Nat → Option (XopChain δ)
  errors : Nat → Nat
  ri : Nat
  wi : Nat

/-- `hammer2_cluster_item_t`, with its flag `HAMMER2_CITEM_NULL`. -/
structure ClusterItem (δ : Type*) where
  chain : Option (XopChain δ)
  error : Nat
  null : Bool

/-- What `hammer2_cluster_check` distinguishes of `pfs_types[0]`. -/
inductive ClusterPfsType where
  | none
  | master
  | suproot
  | other

/-- `hammer2_xop_head_t` with a cluster of one element. `fifoSize` is an `int`, and `active` is
`HAMMER2_XOPMASK_VOP` in `run_mask`. -/
structure XopCollector (δ : Type*) where
  pfsType : ClusterPfsType
  fifoSize : Int
  fifo : XopFifo δ
  item : ClusterItem δ
  focus : Option (XopChain δ)
  error : Nat
  collectKey : UInt64
  active : Bool

/-- A value converted to `size_t`. -/
def sizeT (n : Int) : Nat := (n % 18446744073709551616).toNat

variable {δ : Type*}

/-- The assertions of `hammer2_xop_fifo_alloc`; the arrays keep their elements. -/
def xopFifoAlloc (newNmemb oldNmemb : Nat) : Option Unit :=
  if oldNmemb < newNmemb ∧ newNmemb &&& (newNmemb - 1) = 0 ∧ xopFifo ≤ newNmemb then some ()
  else none

/-- `hammer2_xop_alloc` -/
def xopAlloc (pfsType : ClusterPfsType) : XopCollector δ where
  pfsType := pfsType
  fifoSize := xopFifo
  fifo := ⟨fun _ => none, fun _ => 0, 0, 0⟩
  item := ⟨none, 0, false⟩
  focus := none
  error := 0
  collectKey := 0
  active := true

namespace XopCollector

/-- `fifo_mask` -/
def mask (xop : XopCollector δ) : Nat := (xop.fifoSize - 1).toNat

/-- The loop of `hammer2_xop_feed` over a full fifo, whose body runs at most once: `fifo_size *= 2`
in an `int`, and the new arrays. -/
def makeRoom (xop : XopCollector δ) : Option (XopCollector δ) :=
  if (xop.fifo.ri : Int) = xop.fifo.wi - xop.fifoSize then
    let size := (xop.fifoSize * 2).bmod 4294967296
    (xopFifoAlloc (sizeT size) (sizeT xop.fifoSize)).map fun _ => { xop with fifoSize := size }
  else some xop

/-- `hammer2_xop_feed` with what it returns; `none` is a failed assertion. -/
def feed (xop : XopCollector δ) (chain : Option (XopChain δ)) (error : Nat) :
    Option (XopCollector δ × Nat) :=
  if ¬xop.active then some (xop, errorAborted)
  else
    xop.makeRoom.map fun xop =>
      let error := match chain with
        | some c => if error = 0 then c.error else error
        | none => error
      let slot := xop.fifo.wi &&& xop.mask
      ({ xop with fifo := { xop.fifo with
          array := Function.update xop.fifo.array slot chain
          errors := Function.update xop.fifo.errors slot error
          wi := xop.fifo.wi + 1 } }, 0)

/-- The loop of `hammer2_xop_collect` on the element of the cluster, with `lokey` and the flag
`HAMMER2_CHECK_NULL` of `keynull`. A round takes an element from the fifo or is the last one. -/
def advance (xop : XopCollector δ) : Nat → XopCollector δ × UInt64 × Bool
  | 0 => (xop, xopKeyMax, true)
  | rounds + 1 =>
    match xop.item.chain.filter fun chain => ¬chain.key < xop.collectKey with
    | some chain => (xop, if chain.key < xopKeyMax then chain.key else xopKeyMax, false)
    | none =>
      if xop.fifo.ri ≠ xop.fifo.wi then
        let chain := xop.fifo.array (xop.fifo.ri &&& xop.mask)
        let error := xop.fifo.errors (xop.fifo.ri &&& xop.mask)
        advance { xop with
          fifo := { xop.fifo with ri := xop.fifo.ri + 1 }
          item := ⟨chain, error, xop.item.null || chain.isNone⟩ } rounds
      else ({ xop with item := { xop.item with chain := none } }, xopKeyMax, true)

/-- `hammer2_cluster_check` -/
def clusterCheck (xop : XopCollector δ) (key : UInt64) (null : Bool) :
    Option (XopCollector δ × Nat) :=
  let cluster : Option (Option (XopChain δ) × Nat) := match xop.pfsType with
    | .master | .suproot => some (xop.item.chain, xop.item.error)
    | .none => some (none, 0)
    | .other => none
  cluster.bind fun (focus, error) =>
    let xop := { xop with focus := focus, error := error }
    if null then
      let error := if error = 0 then errorENOENT else error
      some ({ xop with error := error }, error)
    else
      match focus with
      | none => some (xop, errorEIO)
      | some chain => if chain.key = key then some (xop, error) else none

/-- `hammer2_xop_collect` -/
def collect (xop : XopCollector δ) : Option (XopCollector δ × Nat) :=
  let (xop, lokey, keynull) := xop.advance (xop.fifo.wi - xop.fifo.ri + 1)
  (xop.clusterCheck lokey keynull).map fun (xop, error) =>
    ({ xop with collectKey := if lokey = xopKeyMax then lokey else lokey + 1 }, error)

/-- What the call after `n` others of `hammer2_xop_collect` gives: the focus and the result. -/
def collectNth (xop : XopCollector δ) : Nat → Option (Option (XopChain δ) × Nat)
  | 0 => xop.collect.map fun r => (r.1.focus, r.2)
  | n + 1 => xop.collect.bind fun r => collectNth r.1 n

/-- A backend that feeds some chains and then `(NULL, e)`. -/
def feedStream (xop : XopCollector δ) (e : Nat) : List (XopChain δ) → Option (XopCollector δ)
  | [] => (xop.feed none e).map (·.1)
  | chain :: chains => (xop.feed (some chain) 0).bind fun r => feedStream r.1 e chains

/-- The error that is stored with an element. -/
def storedError (chain : Option (XopChain δ)) (error : Nat) : Nat :=
  match chain with
  | some c => if error = 0 then c.error else error
  | none => error

/-- The fifo has stored the elements from its index 0 on, and none of the indices wraps. -/
structure Stores (xop : XopCollector δ) (fed : List (Option (XopChain δ) × Nat)) (k : Nat) :
    Prop where
  size : xop.fifoSize = (2 ^ k : Nat)
  four_le : 4 ≤ k
  le_thirty : k ≤ 30
  wi : xop.fifo.wi = fed.length
  fits : fed.length ≤ 2 ^ k
  slots : ∀ j x, fed[j]? = some x → xop.fifo.array j = x.1 ∧ xop.fifo.errors j = x.2

/-- The head as a backend fills it, before the first element is collected. -/
structure Feeding (xop : XopCollector δ) (fed : List (Option (XopChain δ) × Nat)) : Prop where
  stores : ∃ k, Stores xop fed k
  ri : xop.fifo.ri = 0
  active : xop.active = true
  item : xop.item = ⟨none, 0, false⟩
  collectKey : xop.collectKey = 0

section

variable {xop : XopCollector δ} {fed : List (Option (XopChain δ) × Nat)} {k : Nat}

theorem Stores.index (h : Stores xop fed k) {j : Nat} (hj : j < 2 ^ k) : j &&& xop.mask = j := by
  have hmask : xop.mask = 2 ^ k - 1 := by
    have hpos : 0 < 2 ^ k := Nat.two_pow_pos k
    unfold mask
    rw [h.size]
    omega
  rw [hmask, Nat.and_two_pow_sub_one_eq_mod, Nat.mod_eq_of_lt hj]

theorem xopFifoAlloc_double (h4 : 4 ≤ k) : xopFifoAlloc (2 ^ (k + 1)) (2 ^ k) = some () := by
  have hlt : 2 ^ k < 2 ^ (k + 1) := Nat.pow_lt_pow_right (by omega) (by omega)
  have hand : 2 ^ (k + 1) &&& (2 ^ (k + 1) - 1) = 0 := by
    rw [Nat.and_two_pow_sub_one_eq_mod, Nat.mod_self]
  have hmin : xopFifo ≤ 2 ^ (k + 1) := (Nat.pow_le_pow_right (by omega) h4).trans hlt.le
  exact if_pos ⟨hlt, hand, hmin⟩

/-- The size of the arrays is doubled while it fits an `int`. -/
theorem makeRoom_full (h : Stores xop fed k) (hri : xop.fifo.ri = 0) (hfull : fed.length = 2 ^ k)
    (hk : k < 30) :
    xop.makeRoom = some { xop with fifoSize := (2 ^ (k + 1) : Nat) } := by
  have hlt : 2 ^ k < 2 ^ 30 := Nat.pow_lt_pow_right (by omega) hk
  have hcond : (xop.fifo.ri : Int) = xop.fifo.wi - xop.fifoSize := by
    rw [hri, h.wi, h.size, hfull]
    omega
  have hsize : (xop.fifoSize * 2).bmod 4294967296 = (2 ^ (k + 1) : Nat) := by
    rw [h.size, Nat.pow_succ]
    exact Int.bmod_eq_of_le (by omega) (by omega)
  unfold makeRoom
  rw [if_pos hcond, hsize, h.size]
  dsimp only
  have hnew : sizeT (2 ^ (k + 1) : Nat) = 2 ^ (k + 1) := by
    rw [Nat.pow_succ]
    unfold sizeT
    omega
  have hold : sizeT (2 ^ k : Nat) = 2 ^ k := by
    unfold sizeT
    omega
  rw [hnew, hold, xopFifoAlloc_double h.four_le]
  rfl

/-- With 2^30 elements the size would overflow. -/
theorem makeRoom_overflow (h : Stores xop fed k) (hri : xop.fifo.ri = 0)
    (hfull : fed.length = 2 ^ 30) : xop.makeRoom = none := by
  have hk : k = 30 := by
    by_contra hne
    have hlt : 2 ^ k < 2 ^ 30 := Nat.pow_lt_pow_right (by omega) (by have := h.le_thirty; omega)
    have hfits := h.fits
    omega
  subst hk
  have hcond : (xop.fifo.ri : Int) = xop.fifo.wi - xop.fifoSize := by
    rw [hri, h.wi, h.size, hfull]
    rfl
  unfold makeRoom
  rw [if_pos hcond, h.size]
  rfl

/-- An element is stored behind the others while they are less than 2^30. -/
theorem Feeding.feed (h : Feeding xop fed) (hlt : fed.length < 2 ^ 30)
    (chain : Option (XopChain δ)) (error : Nat) :
    ∃ xop', xop.feed chain error = some (xop', 0) ∧ xop'.pfsType = xop.pfsType ∧
      Feeding xop' (fed ++ [(chain, storedError chain error)]) := by
  obtain ⟨k, hs⟩ := h.stores
  -- the head with room for one more element
  obtain ⟨room, k', hroom, hs', hfits, hri, hact, hitem, hkey, htype⟩ :
      ∃ room k', xop.makeRoom = some room ∧ Stores room fed k' ∧ fed.length < 2 ^ k' ∧
        room.fifo.ri = 0 ∧ room.active = true ∧ room.item = ⟨none, 0, false⟩ ∧
        room.collectKey = 0 ∧ room.pfsType = xop.pfsType := by
    by_cases hfull : fed.length = 2 ^ k
    · have hk : k < 30 := by
        have hle := hs.le_thirty
        rcases Nat.lt_or_ge k 30 with hk | hk
        · exact hk
        · obtain rfl : k = 30 := by omega
          omega
      have hpow : 2 ^ k < 2 ^ (k + 1) := Nat.pow_lt_pow_right (by omega) (by omega)
      refine ⟨_, k + 1, makeRoom_full hs h.ri hfull hk, ?_, by omega, h.ri, h.active, h.item,
        h.collectKey, rfl⟩
      exact ⟨rfl, by have := hs.four_le; omega, by omega, hs.wi, by omega, hs.slots⟩
    · have hfits := hs.fits
      have hcond : ¬(xop.fifo.ri : Int) = xop.fifo.wi - xop.fifoSize := by
        rw [h.ri, hs.wi, hs.size]
        omega
      exact ⟨xop, k, if_neg hcond, hs, by omega, h.ri, h.active, h.item, h.collectKey, rfl⟩
  have hslot : room.fifo.wi &&& room.mask = fed.length := by
    rw [hs'.wi]
    exact hs'.index hfits
  refine ⟨{ room with fifo := { room.fifo with
      array := Function.update room.fifo.array fed.length chain
      errors := Function.update room.fifo.errors fed.length (storedError chain error)
      wi := room.fifo.wi + 1 } }, ?_, htype, ⟨k', ?_⟩, hri, hact, hitem, hkey⟩
  · unfold XopCollector.feed
    rw [if_neg (by simp [h.active]), hroom]
    simp only [Option.map_some, hslot]
    rfl
  · refine ⟨hs'.size, hs'.four_le, hs'.le_thirty, ?_, ?_, ?_⟩
    · simp [hs'.wi]
    · simpa using hfits
    · intro j x hx
      rcases Nat.lt_or_ge j fed.length with hj | hj
      · rw [List.getElem?_append_left hj] at hx
        obtain ⟨h1, h2⟩ := hs'.slots j x hx
        exact ⟨(Function.update_of_ne hj.ne ..).trans h1, (Function.update_of_ne hj.ne ..).trans h2⟩
      · rw [List.getElem?_append_right hj] at hx
        obtain rfl : j = fed.length := by
          by_contra hne
          rw [List.getElem?_eq_none (by simp; omega)] at hx
          cases hx
        rw [Nat.sub_self] at hx
        cases Option.some.inj hx
        exact ⟨Function.update_self .., Function.update_self ..⟩

theorem Feeding.feed_overflow (h : Feeding xop fed) (hfull : fed.length = 2 ^ 30)
    (chain : Option (XopChain δ)) (error : Nat) : xop.feed chain error = none := by
  obtain ⟨k, hs⟩ := h.stores
  unfold XopCollector.feed
  rw [if_neg (by simp [h.active]), makeRoom_overflow hs h.ri hfull]
  rfl

theorem feeding_xopAlloc (pfsType : ClusterPfsType) : Feeding (xopAlloc (δ := δ) pfsType) [] := by
  refine ⟨⟨4, rfl, le_rfl, by omega, rfl, by simp, ?_⟩, rfl, rfl, rfl, rfl⟩
  intro j x hx
  cases hx

/-- The collector gives up the element it has. -/
def Waiting (xop : XopCollector δ) : Prop := ∀ c, xop.item.chain = some c → c.key < xop.collectKey

def Focuses (xop : XopCollector δ) : Prop := xop.pfsType = .master ∨ xop.pfsType = .suproot

/-- The state behind the terminal element `(NULL, e)`. -/
structure Ended (xop : XopCollector δ) (e : Nat) : Prop where
  ri : xop.fifo.ri = xop.fifo.wi
  chain : xop.item.chain = none
  error : xop.item.error = e

/-- What `hammer2_xop_collect` makes of a terminal error. -/
def terminalResult (e : Nat) : Nat := if e = 0 then errorENOENT else e

/-- The state in which the collector has taken the chain `c`. -/
structure Took (xop : XopCollector δ) (fed : List (Option (XopChain δ) × Nat)) (n : Nat)
    (c : XopChain δ) : Prop where
  stores : ∃ k, Stores xop fed k
  ri : xop.fifo.ri = n
  chain : xop.item.chain = some c
  collectKey : xop.collectKey = if c.key = xopKeyMax then c.key else c.key + 1

theorem filter_none (h : xop.Waiting) :
    (xop.item.chain.filter fun chain => ¬chain.key < xop.collectKey) = none := by
  rw [Option.filter_eq_none_iff]
  intro c hc
  simpa using h c hc

theorem min_keyMax (key : UInt64) : (if key < xopKeyMax then key else xopKeyMax) = key := by
  split
  next => rfl
  next hlt =>
    have hle : key.toNat ≤ xopKeyMax.toNat := Nat.le_of_lt_succ key.toNat_lt
    rw [UInt64.lt_iff_toNat_lt] at hlt
    exact UInt64.toNat_inj.mp (by omega)

/-- The element that the collector keeps or takes is the lowest, and it is returned. -/
theorem clusterCheck_chain {c : XopChain δ} (hp : xop.Focuses) (hc : xop.item.chain = some c) :
    xop.clusterCheck c.key false =
      some ({ xop with focus := some c, error := xop.item.error }, xop.item.error) := by
  unfold clusterCheck
  rcases hp with hp | hp <;> simp [hp, hc]

theorem clusterCheck_null (hp : xop.Focuses) (key : UInt64) (hc : xop.item.chain = none) :
    xop.clusterCheck key true =
      some ({ xop with focus := none, error := terminalResult xop.item.error },
        terminalResult xop.item.error) := by
  unfold clusterCheck
  rcases hp with hp | hp <;> simp [hp, hc, terminalResult]

theorem advance_keep {c : XopChain δ} (hc : xop.item.chain = some c)
    (hkey : ¬c.key < xop.collectKey) (rounds : Nat) :
    xop.advance (rounds + 1) = (xop, c.key, false) := by
  have hfilter : (xop.item.chain.filter fun chain => ¬chain.key < xop.collectKey) = some c := by
    rw [hc, Option.filter_some, if_pos (by simpa using hkey)]
  rw [advance, hfilter]
  simp only [min_keyMax]

theorem advance_empty (hw : xop.Waiting) (hri : xop.fifo.ri = xop.fifo.wi) (rounds : Nat) :
    xop.advance (rounds + 1) =
      ({ xop with item := { xop.item with chain := none } }, xopKeyMax, true) := by
  rw [advance, filter_none hw]
  exact if_neg (not_not.mpr hri)

theorem advance_take {n : Nat} {x : Option (XopChain δ) × Nat} (hs : Stores xop fed k)
    (hw : xop.Waiting) (hri : xop.fifo.ri = n) (hx : fed[n]? = some x) (rounds : Nat) :
    xop.advance (rounds + 1) = advance { xop with
      fifo := { xop.fifo with ri := n + 1 }
      item := ⟨x.1, x.2, xop.item.null || x.1.isNone⟩ } rounds := by
  obtain ⟨hn, _⟩ := List.getElem?_eq_some_iff.mp hx
  obtain ⟨harray, herror⟩ := hs.slots n _ hx
  have hfits := hs.fits
  have hindex : n &&& xop.mask = n := hs.index (by omega)
  have hne : xop.fifo.ri ≠ xop.fifo.wi := by
    rw [hri, hs.wi]
    exact hn.ne
  rw [advance, filter_none hw]
  dsimp only
  rw [if_pos hne, hri, hindex, harray, herror]

/-- A call that takes the next chain. -/
theorem collect_chain {n err : Nat} {c : XopChain δ} (hp : xop.Focuses) (hs : Stores xop fed k)
    (hw : xop.Waiting) (hri : xop.fifo.ri = n) (hx : fed[n]? = some (some c, err))
    (hkey : ¬c.key < xop.collectKey) :
    ∃ xop', xop.collect = some (xop', err) ∧ xop'.focus = some c ∧ xop'.Focuses ∧
      Took xop' fed (n + 1) c := by
  obtain ⟨hn, _⟩ := List.getElem?_eq_some_iff.mp hx
  obtain ⟨r, hr⟩ : ∃ r, xop.fifo.wi - xop.fifo.ri + 1 = r + 1 + 1 := by
    rw [hs.wi, hri]
    exact ⟨fed.length - n - 1, by omega⟩
  obtain ⟨took, htook⟩ : ∃ took, took = { xop with
      fifo := { xop.fifo with ri := n + 1 }
      item := ⟨some c, err, xop.item.null || (some c).isNone⟩ } := ⟨_, rfl⟩
  have hadv : xop.advance (xop.fifo.wi - xop.fifo.ri + 1) = (took, c.key, false) := by
    rw [hr, advance_take hs hw hri hx, ← htook]
    exact advance_keep (by rw [htook]) (by rw [htook]; exact hkey) r
  refine ⟨{ took with focus := some c, error := err, collectKey :=
      if c.key = xopKeyMax then c.key else c.key + 1 }, ?_, rfl, ?_, ⟨k, ?_⟩, ?_, ?_, rfl⟩
  · unfold collect
    rw [hadv]
    simp only
    rw [clusterCheck_chain (c := c) (by rw [htook]; exact hp) (by rw [htook]), htook]
    rfl
  · rw [htook]
    exact hp
  · rw [htook]
    exact ⟨hs.size, hs.four_le, hs.le_thirty, hs.wi, hs.fits, hs.slots⟩
  · rw [htook]
  · rw [htook]

/-- A call at the end of the stream. -/
theorem collect_of_advance {e : Nat} (last : XopCollector δ) (hp : last.Focuses) (he : Ended last e)
    (hadv : xop.advance (xop.fifo.wi - xop.fifo.ri + 1) = (last, xopKeyMax, true)) :
    ∃ xop', xop.collect = some (xop', terminalResult e) ∧ xop'.focus = none ∧ xop'.Focuses ∧
      Ended xop' e := by
  refine ⟨{ last with focus := none, error := terminalResult e, collectKey := xopKeyMax }, ?_, rfl,
    hp, he.ri, he.chain, he.error⟩
  unfold collect
  rw [hadv]
  simp only
  rw [clusterCheck_null hp _ he.chain, he.error]
  rfl

/-- The call that takes the terminal element. -/
theorem collect_terminal {n e : Nat} (hp : xop.Focuses) (hs : Stores xop fed k) (hw : xop.Waiting)
    (hri : xop.fifo.ri = n) (hx : fed[n]? = some (none, e)) (hn : n + 1 = fed.length) :
    ∃ xop', xop.collect = some (xop', terminalResult e) ∧ xop'.focus = none ∧ xop'.Focuses ∧
      Ended xop' e := by
  have hr : xop.fifo.wi - xop.fifo.ri + 1 = 0 + 1 + 1 := by
    rw [hs.wi, hri]
    omega
  refine collect_of_advance { xop with
      fifo := { xop.fifo with ri := n + 1 }
      item := ⟨none, e, xop.item.null || true⟩ } hp ⟨hn.trans hs.wi.symm, rfl, rfl⟩ ?_
  rw [hr, advance_take hs hw hri hx, advance_empty (fun c hc => by cases hc) (hn.trans hs.wi.symm)]
  rfl

theorem Ended.collect {e : Nat} (hp : xop.Focuses) (h : Ended xop e) :
    ∃ xop', xop.collect = some (xop', terminalResult e) ∧ xop'.focus = none ∧ xop'.Focuses ∧
      Ended xop' e := by
  have hw : xop.Waiting := fun c hc => by
    rw [h.chain] at hc
    cases hc
  exact collect_of_advance { xop with item := { xop.item with chain := none } } hp
    ⟨h.ri, rfl, h.error⟩ (advance_empty hw h.ri _)

theorem Feeding.waiting (h : Feeding xop fed) : xop.Waiting := by
  intro c hc
  rw [h.item] at hc
  cases hc

/-- A backend that feeds one chain. -/
theorem feed_collect_chain {pfsType : ClusterPfsType} (hp : pfsType = .master ∨ pfsType = .suproot)
    (c : XopChain δ) (e : Nat) :
    ∃ xop xop', (xopAlloc pfsType).feed (some c) e = some (xop, 0) ∧
      xop.collect = some (xop', storedError (some c) e) ∧ xop'.focus = some c := by
  obtain ⟨xop, hfeed, htype, hfed⟩ := (feeding_xopAlloc pfsType).feed (by simp) (some c) e
  obtain ⟨k, hs⟩ := hfed.stores
  have hkey : ¬c.key < xop.collectKey := by
    rw [hfed.collectKey, UInt64.lt_iff_toNat_lt]
    exact Nat.not_lt_zero _
  obtain ⟨xop', hcollect, hfocus, _⟩ := collect_chain (by unfold Focuses; rw [htype]; exact hp) hs
    hfed.waiting hfed.ri (rfl) hkey
  exact ⟨xop, xop', hfeed, hcollect, hfocus⟩

/-- A backend that feeds one result without a chain. -/
theorem feed_collect_null {pfsType : ClusterPfsType} (hp : pfsType = .master ∨ pfsType = .suproot)
    (e : Nat) :
    ∃ xop xop' : XopCollector δ, (xopAlloc pfsType).feed none e = some (xop, 0) ∧
      xop.collect = some (xop', terminalResult e) ∧ xop'.focus = none := by
  obtain ⟨xop, hfeed, htype, hfed⟩ := (feeding_xopAlloc pfsType).feed (by simp) none e
  obtain ⟨k, hs⟩ := hfed.stores
  obtain ⟨xop', hcollect, hfocus, _⟩ := collect_terminal
    (by unfold Focuses; rw [htype]; exact hp) hs hfed.waiting hfed.ri rfl rfl
  exact ⟨xop, xop', hfeed, hcollect, hfocus⟩

/-- The chain with the last key of all is never given up. -/
theorem Took.collect_again {n : Nat} {c : XopChain δ} (hp : xop.Focuses) (h : Took xop fed n c)
    (hkey : c.key = xopKeyMax) : ∃ err, xop.collectNth 0 = some (some c, err) := by
  have hck : ¬c.key < xop.collectKey := by
    rw [h.collectKey, if_pos hkey]
    exact UInt64.lt_irrefl _
  refine ⟨xop.item.error, ?_⟩
  unfold collectNth collect
  rw [advance_keep h.chain hck]
  simp only
  rw [clusterCheck_chain hp h.chain]
  rfl

/-- Nothing that has been fed carries an error other than the end of a scan. -/
structure Quiet (xop : XopCollector δ) : Prop where
  focuses : xop.Focuses
  errors : ∀ j, xop.fifo.errors j = 0 ∨ xop.fifo.errors j = errorENOENT
  item : xop.item.error = 0 ∨ xop.item.error = errorENOENT

theorem Quiet.advance (h : Quiet xop) (rounds : Nat) :
    Quiet (xop.advance rounds).1 ∧
      ((xop.advance rounds).2.2 = false → (xop.advance rounds).1.item.chain.isSome) := by
  induction rounds generalizing xop with
  | zero => exact ⟨h, nofun⟩
  | succ rounds ih =>
    rw [XopCollector.advance]
    split
    next c hc => exact ⟨h, fun _ => Option.isSome_of_mem (Option.eq_some_of_filter_eq_some hc)⟩
    next =>
      split
      next => exact ih ⟨h.focuses, h.errors, h.errors _⟩
      next => exact ⟨⟨h.focuses, h.errors, h.item⟩, nofun⟩

theorem Quiet.clusterCheck (h : Quiet xop) {key : UInt64} {null : Bool}
    (hsome : null = false → xop.item.chain.isSome) {last : XopCollector δ} {r : Nat}
    (hc : xop.clusterCheck key null = some (last, r)) :
    Quiet last ∧ (r = 0 ∨ r = errorENOENT) := by
  cases null with
  | true =>
    have hcheck : xop.clusterCheck key true =
        some ({ xop with focus := xop.item.chain, error := terminalResult xop.item.error },
          terminalResult xop.item.error) := by
      unfold XopCollector.clusterCheck
      rcases h.focuses with hp | hp
      · simp [hp, terminalResult]
      · simp [hp, terminalResult]
    rw [hcheck] at hc
    cases Option.some.inj hc
    refine ⟨⟨h.focuses, h.errors, h.item⟩, ?_⟩
    unfold terminalResult
    rcases h.item with hi | hi
    · rw [if_pos hi]
      exact Or.inr rfl
    · rw [hi]
      exact Or.inr rfl
  | false =>
    obtain ⟨c, hchain⟩ := Option.isSome_iff_exists.mp (hsome rfl)
    have hcheck : xop.clusterCheck key false = if c.key = key then
        some ({ xop with focus := some c, error := xop.item.error }, xop.item.error) else none := by
      unfold XopCollector.clusterCheck
      rcases h.focuses with hp | hp
      · simp [hp, hchain]
      · simp [hp, hchain]
    rw [hcheck] at hc
    obtain ⟨-, hc⟩ := Option.ite_none_right_eq_some.mp hc
    cases Option.some.inj hc
    exact ⟨⟨h.focuses, h.errors, h.item⟩, h.item⟩

theorem Quiet.collect (h : Quiet xop) {xop' : XopCollector δ} {r : Nat}
    (hc : xop.collect = some (xop', r)) : Quiet xop' ∧ (r = 0 ∨ r = errorENOENT) := by
  obtain ⟨hq, hsome⟩ := h.advance (xop.fifo.wi - xop.fifo.ri + 1)
  unfold XopCollector.collect at hc
  obtain ⟨⟨last, r'⟩, hcheck, heq⟩ := Option.map_eq_some_iff.mp hc
  cases heq
  obtain ⟨hlast, hr⟩ := hq.clusterCheck hsome hcheck
  exact ⟨⟨hlast.focuses, hlast.errors, hlast.item⟩, hr⟩

theorem Quiet.collectNth (h : Quiet xop) {n : Nat} {c : Option (XopChain δ)} {r : Nat}
    (hc : xop.collectNth n = some (c, r)) : r = 0 ∨ r = errorENOENT := by
  induction n generalizing xop with
  | zero =>
    obtain ⟨⟨xop', r'⟩, hcollect, heq⟩ := Option.map_eq_some_iff.mp hc
    cases heq
    exact (h.collect hcollect).2
  | succ n ih =>
    obtain ⟨⟨xop', r'⟩, hcollect, hnth⟩ := Option.bind_eq_some_iff.mp hc
    exact ih (h.collect hcollect).1 hnth

theorem Quiet.feed (h : Quiet xop) {chain : Option (XopChain δ)} {error : Nat}
    (he : storedError chain error = 0 ∨ storedError chain error = errorENOENT)
    {xop' : XopCollector δ} {r : Nat} (hf : xop.feed chain error = some (xop', r)) :
    Quiet xop' := by
  unfold XopCollector.feed at hf
  split at hf
  next =>
    cases Option.some.inj hf
    exact h
  next =>
    obtain ⟨room, hroom, heq⟩ := Option.map_eq_some_iff.mp hf
    have hsame : room.pfsType = xop.pfsType ∧ room.fifo = xop.fifo ∧ room.item = xop.item := by
      unfold makeRoom at hroom
      split at hroom
      next =>
        obtain ⟨_, _, rfl⟩ := Option.map_eq_some_iff.mp hroom
        exact ⟨rfl, rfl, rfl⟩
      next =>
        cases Option.some.inj hroom
        exact ⟨rfl, rfl, rfl⟩
    obtain ⟨htype, hfifo, hitem⟩ := hsame
    cases heq
    refine ⟨?_, ?_, ?_⟩
    · have hp := h.focuses
      unfold Focuses at hp ⊢
      rw [htype]
      exact hp
    · intro j
      dsimp only
      rw [Function.update_apply]
      split
      next => exact he
      next =>
        rw [hfifo]
        exact h.errors j
    · rw [hitem]
      exact h.item

end

end XopCollector

/-- The chains that a backend feeds, in the order of their keys. -/
structure XopStream (δ : Type*) where
  chains : List (XopChain δ)
  increasing : chains.Pairwise fun c c' => c.key < c'.key

namespace XopStream

open XopCollector

/-- The elements that the fifo stores. -/
def elements (chains : List (XopChain δ)) (e : Nat) : List (Option (XopChain δ) × Nat) :=
  chains.map (fun c => (some c, c.error)) ++ [(none, e)]

/-- What the calls of `hammer2_xop_collect` should give: each chain once, then the terminal
result. -/
def result (s : XopStream δ) (e n : Nat) : Option (XopChain δ) × Nat :=
  match s.chains[n]? with
  | some c => (some c, c.error)
  | none => (none, terminalResult e)

section

variable {xop : XopCollector δ} {fed : List (Option (XopChain δ) × Nat)} {s : XopStream δ}
  {chains : List (XopChain δ)} {e n : Nat}

theorem feedStream_ok (chains : List (XopChain δ)) (h : Feeding xop fed)
    (hlt : fed.length + chains.length < 2 ^ 30) :
    ∃ xop', xop.feedStream e chains = some xop' ∧ xop'.pfsType = xop.pfsType ∧
      Feeding xop' (fed ++ elements chains e) := by
  induction chains generalizing xop fed with
  | nil =>
    obtain ⟨xop', hfeed, htype, hfed⟩ := h.feed hlt none e
    refine ⟨xop', ?_, htype, hfed⟩
    rw [feedStream, hfeed]
    rfl
  | cons c chains ih =>
    rw [List.length_cons] at hlt
    obtain ⟨xop1, hfeed, htype, hfed⟩ := h.feed (by omega) (some c) 0
    obtain ⟨xop', hrest, htype', hfed'⟩ := ih hfed (by simp; omega)
    refine ⟨xop', ?_, htype'.trans htype, ?_⟩
    · rw [feedStream, hfeed]
      exact hrest
    · rw [List.append_assoc] at hfed'
      exact hfed'

theorem feedStream_overflow (h : Feeding xop fed) (hle : fed.length ≤ 2 ^ 30)
    (hge : 2 ^ 30 ≤ fed.length + chains.length) : xop.feedStream e chains = none := by
  induction chains generalizing xop fed with
  | nil =>
    have hfull : fed.length = 2 ^ 30 := by simp at hge; omega
    rw [feedStream, h.feed_overflow hfull]
    rfl
  | cons c chains ih =>
    rw [List.length_cons] at hge
    rcases Nat.lt_or_ge fed.length (2 ^ 30) with hlt | hfull
    · obtain ⟨xop1, hfeed, _, hfed⟩ := h.feed hlt (some c) 0
      rw [feedStream, hfeed]
      exact ih hfed (by simp; omega) (by simp; omega)
    · rw [feedStream, h.feed_overflow (by omega)]
      rfl

/-- The state after the first `n` chains have been collected. -/
structure Before (s : XopStream δ) (e : Nat) (xop : XopCollector δ) (n : Nat) : Prop where
  focuses : xop.Focuses
  stores : ∃ k, Stores xop (elements s.chains e) k
  waiting : xop.Waiting
  ri : xop.fifo.ri = n
  ahead : ∀ c ∈ s.chains.drop n, ¬c.key < xop.collectKey

theorem Before.collect {c : XopChain δ} (h : Before s e xop n) (hc : s.chains[n]? = some c) :
    ∃ xop', xop.collect = some (xop', c.error) ∧ xop'.focus = some c ∧ xop'.Focuses ∧
      Took xop' (elements s.chains e) (n + 1) c := by
  obtain ⟨k, hs⟩ := h.stores
  obtain ⟨hn, hget⟩ := List.getElem?_eq_some_iff.mp hc
  have hx : (elements s.chains e)[n]? = some (some c, c.error) := by
    unfold elements
    rw [List.getElem?_append_left (by simpa using hn), List.getElem?_map, hc]
    rfl
  have hmem : c ∈ s.chains.drop n := by
    rw [List.drop_eq_getElem_cons hn, hget]
    exact List.mem_cons_self
  exact collect_chain h.focuses hs h.waiting h.ri hx (h.ahead c hmem)

theorem Took.before {c : XopChain δ} (hp : xop.Focuses)
    (h : Took xop (elements s.chains e) (n + 1) c) (hc : s.chains[n]? = some c)
    (hkey : c.key ≠ xopKeyMax) : Before s e xop (n + 1) := by
  have hnext : xop.collectKey.toNat = c.key.toNat + 1 := by
    have hlt := c.key.toNat_lt
    have hne : c.key.toNat ≠ xopKeyMax.toNat := fun heq => hkey (UInt64.toNat_inj.mp heq)
    have hmax : xopKeyMax.toNat = 18446744073709551615 := rfl
    rw [h.collectKey, if_neg hkey, UInt64.toNat_add]
    have hone : (1 : UInt64).toNat = 1 := rfl
    omega
  refine ⟨hp, h.stores, ?_, h.ri, ?_⟩
  · intro c' hc'
    rw [h.chain] at hc'
    cases Option.some.inj hc'
    rw [UInt64.lt_iff_toNat_lt]
    omega
  · intro c' hc'
    obtain ⟨hn, hget⟩ := List.getElem?_eq_some_iff.mp hc
    have hpair := s.increasing.sublist (List.drop_sublist n s.chains)
    rw [List.drop_eq_getElem_cons hn, hget] at hpair
    have hlt := (List.pairwise_cons.mp hpair).1 c' hc'
    rw [UInt64.lt_iff_toNat_lt] at hlt ⊢
    omega

/-- The head of a fed stream before the first call of `hammer2_xop_collect`. -/
theorem Feeding.before (h : Feeding xop (elements s.chains e)) (hp : xop.Focuses) :
    Before s e xop 0 := by
  refine ⟨hp, h.stores, h.waiting, h.ri, fun c _ => ?_⟩
  rw [h.collectKey, UInt64.lt_iff_toNat_lt]
  exact Nat.not_lt_zero _

/-- A run of calls, one for each chain. -/
theorem Before.reach (h : Before s e xop 0) (hn : n ≤ s.chains.length)
    (hkeys : ∀ c ∈ s.chains.take n, c.key ≠ xopKeyMax) :
    ∃ xop', Before s e xop' n ∧ ∀ m, xop.collectNth (n + m) = xop'.collectNth m := by
  induction n with
  | zero => exact ⟨xop, h, fun m => by rw [Nat.zero_add]⟩
  | succ n ih =>
    obtain ⟨xop1, hbefore, hnth⟩ := ih (by omega) fun c hc =>
      hkeys c ((List.take_prefix_take_left (by omega)).mem hc)
    have hlt : n < s.chains.length := hn
    have hc : s.chains[n]? = some s.chains[n] := List.getElem?_eq_getElem hlt
    obtain ⟨xop2, hcollect, _, hp, htook⟩ := hbefore.collect hc
    have hmem : s.chains[n] ∈ s.chains.take (n + 1) :=
      List.mem_take_iff_getElem.mpr ⟨n, by omega, rfl⟩
    refine ⟨xop2, Took.before hp htook hc (hkeys _ hmem), fun m => ?_⟩
    rw [Nat.add_assoc, Nat.add_comm 1 m, hnth, collectNth, hcollect]
    rfl

theorem Before.collectNth_zero {c : XopChain δ} (h : Before s e xop n)
    (hc : s.chains[n]? = some c) : xop.collectNth 0 = some (some c, c.error) := by
  obtain ⟨xop', hcollect, hfocus, _⟩ := h.collect hc
  rw [collectNth, hcollect, Option.map_some, hfocus]

theorem collectNth_ended (hp : xop.Focuses) (h : Ended xop e) (m : Nat) :
    xop.collectNth m = some (none, terminalResult e) := by
  induction m generalizing xop with
  | zero =>
    obtain ⟨xop', hcollect, hfocus, _⟩ := Ended.collect hp h
    rw [collectNth, hcollect, Option.map_some, hfocus]
  | succ m ih =>
    obtain ⟨xop', hcollect, _, hp', hended⟩ := Ended.collect hp h
    rw [collectNth, hcollect]
    exact ih hp' hended

/-- All calls from the terminal one on give the same. -/
theorem Before.collectNth_end (h : Before s e xop s.chains.length) (m : Nat) :
    xop.collectNth m = some (none, terminalResult e) := by
  obtain ⟨k, hs⟩ := h.stores
  have hx : (elements s.chains e)[s.chains.length]? = some (none, e) := by
    unfold elements
    rw [List.getElem?_append_right (by simp)]
    simp
  have hlen : s.chains.length + 1 = (elements s.chains e).length := by simp [elements]
  obtain ⟨xop', hcollect, hfocus, hp, hended⟩ :=
    collect_terminal h.focuses hs h.waiting h.ri hx hlen
  cases m with
  | zero => rw [collectNth, hcollect, Option.map_some, hfocus]
  | succ m =>
    rw [collectNth, hcollect]
    exact collectNth_ended hp hended m

/-- As long as the last key of all has not been returned, the calls give each chain once and then
the terminal result. -/
theorem Before.collectNth_of_take (h : Before s e xop 0)
    (hkeys : ∀ c ∈ s.chains.take n, c.key ≠ xopKeyMax) :
    xop.collectNth n = some (s.result e n) := by
  unfold result
  rcases Nat.lt_or_ge n s.chains.length with hn | hn
  · obtain ⟨xop', hbefore, hnth⟩ := h.reach hn.le hkeys
    have hc : s.chains[n]? = some s.chains[n] := List.getElem?_eq_getElem hn
    rw [← Nat.add_zero n, hnth 0, hbefore.collectNth_zero hc, Nat.add_zero, hc]
  · obtain ⟨xop', hbefore, hnth⟩ := h.reach le_rfl fun c hc =>
      hkeys c ((List.take_prefix_take_left hn).mem hc)
    obtain ⟨m, rfl⟩ := Nat.exists_eq_add_of_le hn
    rw [hnth m, hbefore.collectNth_end, List.getElem?_eq_none hn]

theorem Before.collectNth_eq (h : Before s e xop 0) (hkeys : ∀ c ∈ s.chains, c.key ≠ xopKeyMax)
    (n : Nat) : xop.collectNth n = some (s.result e n) :=
  h.collectNth_of_take fun c hc => hkeys c (List.mem_of_mem_take hc)

/-- A chain with the last key of all is the last one, and it is returned once more. -/
theorem Before.collectNth_keyMax (h : Before s e xop 0) {c : XopChain δ} (hc : c ∈ s.chains)
    (hkey : c.key = xopKeyMax) : ∃ n, xop.collectNth n ≠ some (s.result e n) := by
  obtain ⟨n, hn, hget⟩ := List.getElem_of_mem hc
  have hlast : n + 1 = s.chains.length := by
    by_contra hne
    have hnext : n + 1 < s.chains.length := by omega
    have hlt := List.pairwise_iff_getElem.mp s.increasing n (n + 1) hn hnext (by omega)
    rw [hget, hkey, UInt64.lt_iff_toNat_lt] at hlt
    have hbound := s.chains[n + 1].key.toNat_lt
    have hmax : xopKeyMax.toNat = 18446744073709551615 := rfl
    omega
  have hsome : s.chains[n]? = some c := by rw [List.getElem?_eq_getElem hn, hget]
  have hkeys : ∀ c' ∈ s.chains.take n, c'.key ≠ xopKeyMax := by
    intro c' hc' heq
    obtain ⟨j, hj, hget'⟩ := List.getElem_of_mem hc'
    rw [List.length_take] at hj
    rw [List.getElem_take] at hget'
    have hlt := List.pairwise_iff_getElem.mp s.increasing j n (by omega) hn (by omega)
    rw [hget', hget, heq, hkey] at hlt
    exact UInt64.lt_irrefl _ hlt
  obtain ⟨xop1, hbefore, hnth⟩ := h.reach hn.le hkeys
  obtain ⟨xop2, hcollect, _, hp, htook⟩ := hbefore.collect hsome
  obtain ⟨err, hagain⟩ := Took.collect_again hp htook hkey
  refine ⟨n + 1, ?_⟩
  rw [hnth 1, collectNth, hcollect]
  unfold result
  rw [hlast, List.getElem?_eq_none le_rfl]
  intro heq
  rw [Option.bind_some, hagain] at heq
  cases heq

/-- The calls of `hammer2_xop_collect` return a fed stream exactly when it leaves the size of the
fifo in an `int` and no chain has the last key of all. -/
theorem xop_stream_exact_iff (s : XopStream δ) (e : Nat) {pfsType : ClusterPfsType}
    (hp : pfsType = .master ∨ pfsType = .suproot) :
    (∃ xop, (xopAlloc pfsType).feedStream e s.chains = some xop ∧
        ∀ n, xop.collectNth n = some (s.result e n)) ↔
      s.chains.length < 2 ^ 30 ∧ ∀ c ∈ s.chains, c.key ≠ xopKeyMax := by
  have halloc := feeding_xopAlloc (δ := δ) pfsType
  rcases Nat.lt_or_ge s.chains.length (2 ^ 30) with hlt | hge
  · obtain ⟨xop, hfeed, htype, hfed⟩ := feedStream_ok (e := e) s.chains halloc
      (by simpa using hlt)
    have hbefore := Feeding.before hfed (by unfold Focuses; rw [htype]; exact hp)
    constructor
    · rintro ⟨xop', hfeed', hall⟩
      rw [hfeed] at hfeed'
      cases Option.some.inj hfeed'
      refine ⟨hlt, fun c hc hkey => ?_⟩
      obtain ⟨n, hne⟩ := hbefore.collectNth_keyMax hc hkey
      exact hne (hall n)
    · rintro ⟨_, hkeys⟩
      exact ⟨xop, hfeed, hbefore.collectNth_eq hkeys⟩
  · rw [feedStream_overflow halloc (by simp) (by simpa using hge)]
    constructor
    · rintro ⟨_, h, _⟩
      cases h
    · intro h
      omega

end

/-- One chain with the last key and the terminal result `(NULL, 0)`. -/
def lastKey : XopStream Unit where
  chains := [⟨xopKeyMax, 0, ()⟩]
  increasing := List.pairwise_singleton _ _

/-- The chain with the last key is returned a second time instead of the end of the scan. -/
theorem xop_stream_repeats_last_key :
    ((xopAlloc .master).feedStream 0 lastKey.chains).bind (·.collectNth 1) =
        some (some ⟨xopKeyMax, 0, ()⟩, 0) ∧
      lastKey.result 0 1 = (none, errorENOENT) := by
  decide

/-- A chain with another key. -/
def firstKey : XopStream Unit where
  chains := [⟨0, 0, ()⟩]
  increasing := List.pairwise_singleton _ _

theorem xop_stream_exact_first_key :
    ∃ xop, (xopAlloc .master).feedStream 0 firstKey.chains = some xop ∧
      ∀ n, xop.collectNth n = some (firstKey.result 0 n) :=
  (xop_stream_exact_iff firstKey 0 (Or.inl rfl)).mpr ⟨by decide, by decide⟩

end XopStream

end Hammer2
