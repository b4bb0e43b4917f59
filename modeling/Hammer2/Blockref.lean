import Hammer2.BulkfreeScan

namespace Hammer2

/-- `HAMMER2_BREF_TYPE_*` of the blockrefs that a topology holds. -/
inductive BrefType where
  | inode
  | indirect
  | data
  | dirent
  | freemapNode
  | freemapLeaf
deriving DecidableEq, Repr

def BrefType.code : BrefType → Nat
  | .inode => 1
  | .indirect => 2
  | .data => 3
  | .dirent => 4
  | .freemapNode => 5
  | .freemapLeaf => 6

/-- `HAMMER2_KEY_MAX` -/
def keyMax : Nat := 2 ^ 64 - 1

/-- The fields of `hammer2_blockref` that locate an element and its storage. -/
structure Blockref where
  type : BrefType
  key : Nat
  keybits : Nat
  data : Extent
  mirrorTid : Nat
deriving DecidableEq, Repr

/-- The first key after the range of the element. -/
def Blockref.keyEnd (bref : Blockref) : Nat := bref.key + 2 ^ bref.keybits

/-- The flushed topology below a blockref. `base` lists the elements of its blockref array, which an
inode with `HAMMER2_OPFLAG_DIRECTDATA` does not have. -/
inductive Node where
  | mk (bref : Blockref) (directdata : Bool) (base : List Node)

def Node.bref : Node → Blockref
  | mk bref _ _ => bref

def Node.directdata : Node → Bool
  | mk _ directdata _ => directdata

def Node.base : Node → List Node
  | mk _ _ base => base

/-- `hammer2_base_find`: the first element that ends at or after `keyBeg`. -/
def baseFind (base : List Node) (keyBeg : Nat) : Option Node :=
  base.find? fun n => keyBeg < n.bref.key ∨
    keyBeg ≤ (n.bref.key + 2 ^ n.bref.keybits - 1) % 18446744073709551616

/-- The elements that repeated calls of `hammer2_chain_scan` return from `key` on. -/
def chainScanFrom (base : List Node) : Nat → Nat → List Node
  | 0, _ => []
  | fuel + 1, key =>
    match baseFind base key with
    | none => []
    | some n =>
      let key := (n.bref.key + 2 ^ n.bref.keybits) % 18446744073709551616
      n :: if key = 0 then [] else chainScanFrom base fuel key

def chainScan (base : List Node) : List Node := chainScanFrom base (base.length + 1) 0

/-- A blockref array is sorted and its elements cover disjoint ranges of the 64-bit key space. -/
structure KeyOrdered (base : List Node) : Prop where
  pairwise : base.Pairwise fun a b => a.bref.keyEnd ≤ b.bref.key
  bound : ∀ n ∈ base, n.bref.keyEnd ≤ 18446744073709551616

theorem key_lt_keyEnd (bref : Blockref) : bref.key < bref.keyEnd := by
  have hpos : 0 < 2 ^ bref.keybits := Nat.two_pow_pos _
  unfold Blockref.keyEnd
  omega

theorem baseFind_append {pre suf : List Node} {n : Node} {key : Nat}
    (hbound : ∀ m ∈ pre ++ n :: suf, m.bref.keyEnd ≤ 18446744073709551616)
    (hpre : ∀ m ∈ pre, m.bref.keyEnd ≤ key) (hn : key ≤ n.bref.key) :
    baseFind (pre ++ n :: suf) key = some n := by
  have hlast : ∀ m ∈ pre ++ n :: suf,
      (m.bref.key + 2 ^ m.bref.keybits - 1) % 18446744073709551616 = m.bref.keyEnd - 1 := by
    intro m hm
    have hb := hbound m hm
    have hlt := key_lt_keyEnd m.bref
    exact Nat.mod_eq_of_lt (by unfold Blockref.keyEnd at *; omega)
  unfold baseFind
  rw [List.find?_append, List.find?_eq_none.mpr, Option.none_or, List.find?_cons_of_pos]
  · rw [hlast n (by simp), decide_eq_true_iff]
    have := key_lt_keyEnd n.bref
    omega
  · intro m hm
    rw [hlast m (List.mem_append_left _ hm), decide_eq_true_iff]
    have := hpre m hm
    have := key_lt_keyEnd m.bref
    omega

theorem baseFind_none {base : List Node} {key : Nat}
    (hbound : ∀ m ∈ base, m.bref.keyEnd ≤ 18446744073709551616)
    (h : ∀ m ∈ base, m.bref.keyEnd ≤ key) : baseFind base key = none := by
  refine List.find?_eq_none.mpr fun m hm => ?_
  have hb := hbound m hm
  have hk := h m hm
  have hlt := key_lt_keyEnd m.bref
  have hlast : (m.bref.key + 2 ^ m.bref.keybits - 1) % 18446744073709551616 = m.bref.keyEnd - 1 :=
    Nat.mod_eq_of_lt (by unfold Blockref.keyEnd at *; omega)
  rw [hlast, decide_eq_true_iff]
  omega

/-- From the end of an element on, the scan returns what follows it. -/
theorem chainScanFrom_suffix {base pre suf : List Node} {fuel key : Nat} (h : KeyOrdered base)
    (hbase : base = pre ++ suf) (hpre : ∀ m ∈ pre, m.bref.keyEnd ≤ key)
    (hsuf : ∀ m ∈ suf, key ≤ m.bref.key) (hfuel : suf.length < fuel) :
    chainScanFrom base fuel key = suf := by
  induction suf generalizing pre fuel key with
  | nil =>
    obtain ⟨fuel, rfl⟩ : ∃ f, fuel = f + 1 := ⟨fuel - 1, by omega⟩
    rw [List.append_nil] at hbase
    unfold chainScanFrom
    rw [baseFind_none h.bound (hbase ▸ hpre)]
  | cons n suf ih =>
    obtain ⟨fuel, rfl⟩ : ∃ f, fuel = f + 1 := ⟨fuel - 1, by omega⟩
    have hfind : baseFind base key = some n := by
      rw [hbase]
      exact baseFind_append (hbase ▸ h.bound) hpre (hsuf n (by simp))
    have hpw := h.pairwise
    rw [hbase, List.pairwise_append, List.pairwise_cons] at hpw
    have hend := h.bound n (by rw [hbase]; simp)
    unfold chainScanFrom
    rw [hfind]
    simp only
    congr 1
    change (if n.bref.keyEnd % 18446744073709551616 = 0 then [] else _) = suf
    have hlt := key_lt_keyEnd n.bref
    have hkeys : ∀ m ∈ suf, n.bref.keyEnd ≤ m.bref.key := fun m hm => hpw.2.1.1 m hm
    split
    next hwrap =>
      -- the range of `n` ends the key space, so nothing can follow it
      cases suf with
      | nil => rfl
      | cons m suf =>
        have hm := hkeys m (by simp)
        have hmend := h.bound m (by rw [hbase]; simp)
        have := key_lt_keyEnd m.bref
        omega
    next hnext =>
      have hmod : n.bref.keyEnd % 18446744073709551616 = n.bref.keyEnd :=
        Nat.mod_eq_of_lt (by omega)
      have hdone : ∀ m ∈ pre ++ [n], m.bref.keyEnd ≤ n.bref.keyEnd := by
        intro m hm
        rcases List.mem_append.mp hm with hm | hm
        · have := hpre m hm
          have := hsuf n (by simp)
          omega
        · rw [List.mem_singleton.mp hm]
      have hlen : suf.length < fuel := by
        simp only [List.length_cons] at hfuel
        omega
      have hrec := ih (by simp [hbase]) hdone hkeys hlen
      rw [← hmod] at hrec
      exact hrec

/-- The scan of a well-formed blockref array returns each of its elements once, in order. -/
theorem chainScan_eq {base : List Node} (h : KeyOrdered base) : chainScan base = base :=
  chainScanFrom_suffix h (List.nil_append base).symm (by simp) (by simp) (Nat.lt_succ_self _)

end Hammer2
