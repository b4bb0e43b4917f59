import Mathlib.Tactic

namespace CowTree

variable {ι α : Type} [DecidableEq ι]

/-- What is written to storage for a node: its data and the addresses of its children. -/
@[ext]
structure Block (ι α : Type) where
  data : α
  table : ι → Option Nat

/-- A node in memory. `modified` says that its block is not written yet, `update` that its parent's
table does not have its address yet, and `linked` that it belongs to its parent. -/
structure Node (ι α : Type) extends Block ι α where
  addr : Nat
  modified : Bool
  update : Bool
  linked : Bool

/-- A copy-on-write tree: the nodes in memory, the blocks in storage, and the next free address. -/
structure Tree (ι α : Type) where
  node : ι → Node ι α
  block : Nat → Block ι α
  next : Nat

def Tree.set (t : Tree ι α) (c : ι) (x : Node ι α) : Tree ι α :=
  { t with node := Function.update t.node c x }

theorem set_node (t : Tree ι α) (c : ι) (x : Node ι α) (d : ι) :
    (t.set c x).node d = if d = c then x else t.node d := by
  unfold Tree.set
  by_cases h : d = c
  · rw [if_pos h, h]
    exact Function.update_self _ _ _
  · rw [if_neg h]
    exact Function.update_of_ne h _ _

@[simp]
theorem set_block (t : Tree ι α) (c : ι) (x : Node ι α) : (t.set c x).block = t.block := rfl

@[simp]
theorem set_next (t : Tree ι α) (c : ι) (x : Node ι α) : (t.set c x).next = t.next := rfl

/-- Makes a node writable: it gets a new address unless it is modified already. The root has no
address of its own. -/
def touch (root c : ι) (t : Tree ι α) : Tree ι α :=
  if c = root then t.set c { t.node c with modified := true }
  else if (t.node c).modified then t.set c { t.node c with update := true }
  else { t.set c { t.node c with addr := t.next, modified := true, update := true } with
    next := t.next + 1 }

/-- Writes the block of a modified node. -/
def writeBack (root c : ι) (t : Tree ι α) : Tree ι α :=
  if (t.node c).modified then
    if c = root then t.set c { t.node c with modified := false }
    else { t.set c { t.node c with modified := false } with
      block := Function.update t.block (t.node c).addr (t.node c).toBlock }
  else t

/-- Changes a node together with its entry in the table of its parent. -/
def enter (up : ι → ι) (c : ι) (x : Node ι α) (entry : Option Nat) (t : Tree ι α) : Tree ι α :=
  (t.set c x).set (up c)
    { t.node (up c) with table := Function.update (t.node (up c)).table c entry }

/-- Enters the address of a node into the table of its parent. -/
def link (up : ι → ι) (c : ι) (t : Tree ι α) : Tree ι α :=
  enter up c { t.node c with update := false } (some (t.node c).addr) t

/-- Takes a node out of the table of its parent. -/
def unlink (up : ι → ι) (c : ι) (t : Tree ι α) : Tree ι α :=
  enter up c { t.node c with linked := false } none t

/-- Attaches a node to its parent, whose table does not have it yet. -/
def attach (c : ι) (t : Tree ι α) : Tree ι α :=
  t.set c { t.node c with linked := true, update := true }

def setData (c : ι) (data : α) (t : Tree ι α) : Tree ι α := t.set c { t.node c with data := data }

/-- Writes a node and enters its new address into its parent. -/
def flush (up : ι → ι) (root c : ι) (t : Tree ι α) : Tree ι α :=
  let t := writeBack root c t
  if (t.node c).update then
    if (t.node c).linked then link up c (touch root (up c) t)
    else t.set c { t.node c with update := false }
  else t

def flushAll (up : ι → ι) (root : ι) : List ι → Tree ι α → Tree ι α
  | [], t => t
  | c :: cs, t => flushAll up root cs (flush up root c t)

/-- The address of a node in the stored tree below the block `top` of the root. -/
inductive Stored (up : ι → ι) (root : ι) (top : Block ι α) (block : Nat → Block ι α) : ι → Nat → Prop
  | atTop {c : ι} {a : Nat} : up c = root → top.table c = some a → Stored up root top block c a
  | child {c : ι} {a b : Nat} : up c ≠ root → Stored up root top block (up c) b →
      (block b).table c = some a → Stored up root top block c a

/-- The flags tell the truth: a node that is not modified is what its block says, and a linked node
without `update` is where its parent's table says. -/
structure Coherent (up : ι → ι) (root : ι) (t : Tree ι α) : Prop where
  media : ∀ c, c ≠ root → (t.node c).modified = false → t.block (t.node c).addr = (t.node c).toBlock
  entered : ∀ c, c ≠ root → (t.node c).linked = true → (t.node c).update = false →
    (t.node (up c)).table c = some (t.node c).addr
  absent : ∀ c, c ≠ root → (t.node c).linked = false → (t.node (up c)).table c = none
  fresh : ∀ c, c ≠ root → (t.node c).addr < t.next
  inj : ∀ c d, c ≠ root → d ≠ root → (t.node c).addr = (t.node d).addr → c = d

/-- Neither the node nor its place in its parent has anything left to write. -/
def Settled (t : Tree ι α) (c : ι) : Prop := (t.node c).modified = false ∧ (t.node c).update = false

variable {up : ι → ι} {root : ι} {t : Tree ι α}


theorem touch_node (root c : ι) (t : Tree ι α) (d : ι) : (touch root c t).node d =
    if d = c then { t.node c with
      addr := if c = root ∨ (t.node c).modified = true then (t.node c).addr else t.next
      modified := true
      update := if c = root then (t.node c).update else true }
    else t.node d := by
  unfold touch
  split_ifs <;> simp_all [set_node]

theorem Coherent.touch (h : Coherent up root t) (c : ι) : Coherent up root (touch root c t) := by
  have hnext : t.next ≤ (CowTree.touch root c t).next := by
    unfold CowTree.touch
    split_ifs <;> simp
  have hblock : (CowTree.touch root c t).block = t.block := by
    unfold CowTree.touch
    split_ifs <;> rfl
  have hlt : c ≠ root → (t.node c).modified = false → t.next < (CowTree.touch root c t).next := by
    intro h1 h2
    unfold CowTree.touch
    simp [h1, h2]
  obtain ⟨hmedia, hentered, habsent, hfresh, hinj⟩ := h
  constructor
  · intro d hd
    have := hmedia d hd
    simp only [touch_node, hblock]
    grind
  · intro d hd
    have := hentered d hd
    simp only [touch_node]
    grind
  · intro d hd
    have := habsent d hd
    simp only [touch_node]
    grind
  · intro d hd
    have := hfresh d hd
    simp only [touch_node]
    grind
  · intro d e hd he
    have := hinj d e hd he
    have := hfresh d hd
    have := hfresh e he
    simp only [touch_node]
    grind

theorem writeBack_node (root c : ι) (t : Tree ι α) (d : ι) : (writeBack root c t).node d =
    if d = c then { t.node c with modified := false } else t.node d := by
  unfold writeBack
  split_ifs with h1 h2 h3 h3 <;> simp_all [set_node]
  rw [← h1]

theorem writeBack_keeps (root c : ι) (t : Tree ι α) (d : ι) :
    ((writeBack root c t).node d).data = (t.node d).data ∧
      ((writeBack root c t).node d).linked = (t.node d).linked := by
  rw [writeBack_node]
  split
  next hd => rw [hd]; exact ⟨rfl, rfl⟩
  next => exact ⟨rfl, rfl⟩

theorem Coherent.writeBack (h : Coherent up root t) (c : ι) :
    Coherent up root (writeBack root c t) := by
  have hnext : (CowTree.writeBack root c t).next = t.next := by
    unfold CowTree.writeBack
    split_ifs <;> rfl
  have hblock : ∀ a, (CowTree.writeBack root c t).block a =
      if c ≠ root ∧ (t.node c).modified = true ∧ a = (t.node c).addr then (t.node c).toBlock
      else t.block a := by
    intro a
    unfold CowTree.writeBack
    by_cases hm : (t.node c).modified = true
    · by_cases hc : c = root
      · rw [if_pos hm, if_pos hc, if_neg (fun hn => hn.1 hc)]
        rfl
      · by_cases ha : a = (t.node c).addr
        · simp [hm, hc, ha]
        · simp [hm, hc, ha]
    · simp [hm]
  obtain ⟨hmedia, hentered, habsent, hfresh, hinj⟩ := h
  constructor
  · intro d hd
    have := hmedia d hd
    have := hinj c d
    simp only [writeBack_node, hblock]
    grind
  · intro d hd
    have := hentered d hd
    simp only [writeBack_node]
    grind
  · intro d hd
    have := habsent d hd
    simp only [writeBack_node]
    grind
  · intro d hd
    have := hfresh d hd
    simp only [writeBack_node, hnext]
    grind
  · intro d e hd he
    have := hinj d e hd he
    simp only [writeBack_node]
    grind

theorem enter_node (up : ι → ι) (c : ι) (x : Node ι α) (entry : Option Nat) (t : Tree ι α) (d : ι) :
    (enter up c x entry t).node d =
      if d = up c then { t.node (up c) with table := Function.update (t.node (up c)).table c entry }
      else if d = c then x else t.node d := by
  unfold enter
  rw [set_node, set_node]

theorem enter_table {c : ι} {x : Node ι α} (hx : x.table = (t.node c).table) (entry : Option Nat)
    (p d : ι) : ((enter up c x entry t).node p).table d =
      if p = up c ∧ d = c then entry else (t.node p).table d := by
  rw [enter_node]
  by_cases hp : p = up c
  · by_cases hd : d = c
    · simp [hp, hd]
    · simp [hp, hd]
  · have hno : ¬(p = up c ∧ d = c) := fun h => hp h.1
    rw [if_neg hp, if_neg hno]
    split
    next hpc => rw [hpc, hx]
    next => rfl

/-- The parent has to be modified, so that its table may change. -/
theorem Coherent.enter (h : Coherent up root t) {c : ι} {x : Node ι α} {entry : Option Nat}
    (hup : up c ≠ c) (hm : (t.node (up c)).modified = true) (hx : x.toBlock = (t.node c).toBlock)
    (haddr : x.addr = (t.node c).addr) (hmod : x.modified = (t.node c).modified)
    (hlinked : x.linked = true → x.update = false → entry = some x.addr)
    (hunlinked : x.linked = false → entry = none) : Coherent up root (enter up c x entry t) := by
  have htab : x.table = (t.node c).table := by rw [hx]
  obtain ⟨hmedia, hentered, habsent, hfresh, hinj⟩ := h
  constructor
  · intro d hd
    have := hmedia d hd
    simp only [enter_node]
    change _ → t.block _ = _
    grind
  · intro d hd
    have := hentered d hd
    rw [enter_table htab, enter_node]
    grind
  · intro d hd
    have := habsent d hd
    rw [enter_table htab, enter_node]
    grind
  · intro d hd
    have := hfresh d hd
    rw [enter_node]
    change _ < t.next
    grind
  · intro d e hd he
    have := hinj d e hd he
    rw [enter_node, enter_node]
    grind

theorem Coherent.link (h : Coherent up root t) {c : ι} (hup : up c ≠ c)
    (hm : (t.node (up c)).modified = true) (hl : (t.node c).linked = true) :
    Coherent up root (link up c t) := by
  refine h.enter hup hm rfl rfl rfl (fun _ _ => rfl) ?_
  intro hno
  rw [hl] at hno
  cases hno

theorem Coherent.unlink (h : Coherent up root t) {c : ι} (hup : up c ≠ c)
    (hm : (t.node (up c)).modified = true) : Coherent up root (unlink up c t) := by
  refine h.enter hup hm rfl rfl rfl ?_ (fun _ => rfl)
  intro hno
  cases hno

/-- A change of one node that keeps its table, address and place. -/
theorem Coherent.set (h : Coherent up root t) {c : ι} {x : Node ι α}
    (htab : x.table = (t.node c).table) (haddr : x.addr = (t.node c).addr)
    (hmedia : x.modified = false → (t.node c).modified = false ∧ x.data = (t.node c).data)
    (hentered : x.linked = true → x.update = false →
      (t.node c).linked = true ∧ (t.node c).update = false)
    (habsent : x.linked = false → (t.node c).linked = false) : Coherent up root (t.set c x) := by
  have htab' : ∀ d, ((t.set c x).node d).table = (t.node d).table := by
    intro d
    rw [set_node]
    split
    next hd => rw [hd, htab]
    next => rfl
  have haddr' : ∀ d, ((t.set c x).node d).addr = (t.node d).addr := by
    intro d
    rw [set_node]
    split
    next hd => rw [hd, haddr]
    next => rfl
  constructor
  · intro d hd hmod
    rw [haddr', set_block]
    rw [set_node] at hmod ⊢
    split at hmod
    next hdc =>
      obtain ⟨hm, hdata⟩ := hmedia hmod
      rw [if_pos hdc, hdc, h.media c (hdc ▸ hd) hm]
      exact Block.ext hdata.symm htab.symm
    next hdc =>
      rw [if_neg hdc]
      exact h.media d hd hmod
  · intro d hd hl hu
    rw [htab', haddr']
    rw [set_node] at hl hu
    split at hl
    next hdc =>
      rw [if_pos hdc] at hu
      obtain ⟨hl', hu'⟩ := hentered hl hu
      exact h.entered d hd (hdc ▸ hl') (hdc ▸ hu')
    next hdc =>
      rw [if_neg hdc] at hu
      exact h.entered d hd hl hu
  · intro d hd hl
    rw [htab']
    rw [set_node] at hl
    split at hl
    next hdc => exact h.absent d hd (hdc ▸ habsent hl)
    next => exact h.absent d hd hl
  · intro d hd
    rw [haddr']
    exact h.fresh d hd
  · intro d e hd he
    rw [haddr', haddr']
    exact h.inj d e hd he

theorem Coherent.flush (h : Coherent up root t) {c : ι} (hup : up c ≠ c) :
    Coherent up root (flush up root c t) := by
  have hw := h.writeBack c
  unfold CowTree.flush
  simp only
  generalize CowTree.writeBack root c t = w at hw
  split
  next hu =>
    split
    next hl =>
      refine (hw.touch (up c)).link hup ?_ ?_
      · rw [touch_node, if_pos rfl]
      · rw [touch_node, if_neg (Ne.symm hup)]
        exact hl
    next hl =>
      refine hw.set rfl rfl (fun hm => ⟨hm, rfl⟩) (fun hl' => absurd hl' hl) id
  next => exact hw

theorem flush_node_other {c d : ι} (hdc : d ≠ c) (hdu : d ≠ up c) (t : Tree ι α) :
    (flush up root c t).node d = t.node d := by
  have hw : (writeBack root c t).node d = t.node d := by rw [writeBack_node, if_neg hdc]
  unfold flush
  simp only
  split
  next =>
    split
    next =>
      unfold link
      rw [enter_node, if_neg hdu, if_neg hdc, touch_node, if_neg hdu, hw]
    next => rw [set_node, if_neg hdc, hw]
  next => exact hw

theorem flush_settled {c : ι} (hup : up c ≠ c) (t : Tree ι α) : Settled (flush up root c t) c := by
  have hw : ((writeBack root c t).node c).modified = false := by rw [writeBack_node, if_pos rfl]
  unfold flush Settled
  simp only
  split
  next =>
    split
    next =>
      unfold link
      rw [enter_node, if_neg (Ne.symm hup), if_pos rfl, touch_node, if_neg (Ne.symm hup)]
      exact ⟨hw, rfl⟩
    next =>
      rw [set_node, if_pos rfl]
      exact ⟨hw, rfl⟩
  next hu => exact ⟨hw, by simpa using hu⟩

/-- A flush keeps the data and the place of every node. -/
theorem flush_keeps (root : ι) {c : ι} (hup : up c ≠ c) (t : Tree ι α) (d : ι) :
    ((flush up root c t).node d).data = (t.node d).data ∧
      ((flush up root c t).node d).linked = (t.node d).linked := by
  have hw := writeBack_keeps root c t d
  rw [← hw.1, ← hw.2]
  unfold flush
  simp only
  generalize writeBack root c t = w
  split
  next =>
    split
    next =>
      unfold link
      simp only [enter_node, touch_node]
      grind
    next =>
      rw [set_node]
      grind
  next => exact ⟨rfl, rfl⟩

theorem flushAll_append (cs ds : List ι) (t : Tree ι α) :
    flushAll up root (cs ++ ds) t = flushAll up root ds (flushAll up root cs t) := by
  induction cs generalizing t with
  | nil => rfl
  | cons c cs ih => exact ih _

theorem flushAll_node_other {cs : List ι} {d : ι} (h : ∀ c ∈ cs, d ≠ c ∧ d ≠ up c) (t : Tree ι α) :
    (flushAll up root cs t).node d = t.node d := by
  induction cs generalizing t with
  | nil => rfl
  | cons c cs ih =>
    obtain ⟨h1, h2⟩ := h c List.mem_cons_self
    rw [flushAll, ih (fun e he => h e (List.mem_cons_of_mem _ he)), flush_node_other h1 h2]

theorem flushAll_keeps (root : ι) {cs : List ι} (hup : ∀ c ∈ cs, up c ≠ c) (t : Tree ι α) (d : ι) :
    ((flushAll up root cs t).node d).data = (t.node d).data ∧
      ((flushAll up root cs t).node d).linked = (t.node d).linked := by
  induction cs generalizing t with
  | nil => exact ⟨rfl, rfl⟩
  | cons c cs ih =>
    have hc := flush_keeps root (hup c List.mem_cons_self) t d
    have hrest := ih (fun e he => hup e (List.mem_cons_of_mem _ he)) (flush up root c t)
    rw [flushAll]
    exact ⟨hrest.1.trans hc.1, hrest.2.trans hc.2⟩

theorem Coherent.flushAll {cs : List ι} (hup : ∀ c ∈ cs, up c ≠ c) (h : Coherent up root t) :
    Coherent up root (flushAll up root cs t) := by
  induction cs generalizing t with
  | nil => exact h
  | cons c cs ih =>
    exact ih (fun e he => hup e (List.mem_cons_of_mem _ he)) (h.flush (hup c List.mem_cons_self))

/-- Children before parents: a list that is flushed in the order of an increasing rank is settled
afterwards. -/
theorem flushAll_settled {rank : ι → Nat} {cs : List ι}
    (hsort : cs.Pairwise fun c d => rank c < rank d) (hrank : ∀ c ∈ cs, rank c < rank (up c))
    (t : Tree ι α) : ∀ c ∈ cs, Settled (flushAll up root cs t) c := by
  induction cs generalizing t with
  | nil => simp
  | cons c cs ih =>
    obtain ⟨hfirst, hsort⟩ := List.pairwise_cons.mp hsort
    have hrank' : ∀ e ∈ cs, rank e < rank (up e) := fun e he => hrank e (List.mem_cons_of_mem _ he)
    have hc := hrank c List.mem_cons_self
    intro d hd
    rw [flushAll]
    rcases List.mem_cons.mp hd with rfl | hd
    · have hother : ∀ e ∈ cs, d ≠ e ∧ d ≠ up e := by
        intro e he
        have h1 := hfirst e he
        have h2 := hrank' e he
        refine ⟨?_, ?_⟩
        · rintro rfl
          omega
        · intro heq
          rw [heq] at h1
          omega
      unfold Settled
      rw [flushAll_node_other hother]
      refine flush_settled ?_ t
      intro heq
      rw [heq] at hc
      omega
    · exact ih hsort hrank' _ d hd

/-- What is settled up to the root is found in storage from a copy of the root. -/
theorem Coherent.stored {rank : ι → Nat} {P : ι → Prop} {top : Block ι α}
    (h : Coherent up root t) (htop : top = (t.node root).toBlock)
    (hne : ∀ c, P c → c ≠ root ∧ (t.node c).linked = true ∧ Settled t c)
    (hclosed : ∀ c, P c → up c = root ∨ P (up c)) (hrank : ∀ c, P c → rank c < rank (up c))
    (hbound : ∀ c, P c → rank c < rank root) {c : ι} (hc : P c) :
    Stored up root top t.block c (t.node c).addr := by
  induction hk : rank root - rank c using Nat.strong_induction_on generalizing c with
  | _ k ih =>
    obtain ⟨hroot, hl, hs⟩ := hne c hc
    have hentry := h.entered c hroot hl hs.2
    by_cases hup : up c = root
    · refine Stored.atTop hup ?_
      rw [htop, ← hup]
      exact hentry
    · have hp := (hclosed c hc).resolve_left hup
      have h1 := hrank c hc
      have h2 := hbound _ hp
      obtain ⟨hproot, _, hps⟩ := hne _ hp
      refine Stored.child hup (ih _ (by omega) hp rfl) ?_
      rw [h.media _ hproot hps.1]
      exact hentry

omit [DecidableEq ι] in
theorem Stored.unique {top : Block ι α} {block : Nat → Block ι α} {c : ι} {a a' : Nat}
    (h : Stored up root top block c a) (h' : Stored up root top block c a') : a = a' := by
  induction h generalizing a' with
  | atTop hup ha =>
    cases h' with
    | atTop _ ha' => exact Option.some.inj (ha.symm.trans ha')
    | child hno => exact absurd hup hno
  | child hup _ ha ih =>
    cases h' with
    | atTop hno => exact absurd hno hup
    | child _ hp ha' =>
      rw [ih hp] at ha
      exact Option.some.inj (ha.symm.trans ha')

end CowTree
