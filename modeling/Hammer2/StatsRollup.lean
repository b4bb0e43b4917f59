import Mathlib.Data.BitVec
import Mathlib.Algebra.BigOperators.Group.List.Basic
import Hammer2.Collapse

namespace Hammer2

namespace Bref

/-- What an element adds to `data_count`: its storage, and what an inode or indirect block has
below it. -/
def dataShare (e : Bref) : BitVec 64 :=
  match e.type with
  | .inode => e.bytes + e.stats.dataCount
  | .indirect => e.bytes + e.stats.dataCount
  | _ => e.bytes

/-- What an element adds to `inode_count`. -/
def inodeShare (e : Bref) : BitVec 64 :=
  match e.type with
  | .inode => 1 + e.stats.inodeCount
  | .indirect => e.stats.inodeCount
  | _ => 0

/-- What an element adds to `leaf_count`. -/
def leafShare (e : Bref) : Nat :=
  match e.type with
  | .inode => 1
  | .data => 1 + e.stats.leafCount
  | .indirect => e.stats.leafCount
  | .dirent => 1
  | _ => 0

end Bref

/-- The counters are the sums over the elements, where `leaf_count` may have saturated. -/
structure BrefStats.Sums (st : BrefStats) (elems : List Bref) : Prop where
  data : st.dataCount = (elems.map Bref.dataShare).sum
  inode : st.inodeCount = (elems.map Bref.inodeShare).sum
  leaf : st.leafCount = (elems.map Bref.leafShare).sum ∨ st.leafCount = leafMax

section Leaf

variable {n s k : Nat}

theorem leafInc_sum (h : n = s ∨ n = leafMax) : leafInc n = 1 + s ∨ leafInc n = leafMax := by
  unfold leafInc
  split <;> omega

theorem leafAdd_sum (k : Nat) (h : n = s ∨ n = leafMax) : leafAdd n k = k + s ∨ leafAdd n k = leafMax := by
  unfold leafAdd
  split <;> omega

theorem leafDec_sum (h : n = 1 + s ∨ n = leafMax) : leafDec n = s ∨ leafDec n = leafMax := by
  unfold leafDec
  split
  · omega
  · split <;> omega

theorem leafSub_sum (h : n = k + s ∨ n = leafMax) : leafSub n k = s ∨ leafSub n k = leafMax := by
  unfold leafSub
  split
  · omega
  · split <;> omega

end Leaf

namespace BrefStats

variable {st : BrefStats} {elems elems' : List Bref} {elm : Bref}

theorem insert_dataCount (st : BrefStats) (elm : Bref) :
    (st.insert elm).dataCount = elm.dataShare + st.dataCount := by
  unfold BrefStats.insert Bref.dataShare
  cases elm.type <;> simp only <;> ring

theorem insert_inodeCount (st : BrefStats) (elm : Bref) :
    (st.insert elm).inodeCount = elm.inodeShare + st.inodeCount := by
  unfold BrefStats.insert Bref.inodeShare
  cases elm.type <;> simp only <;> ring

theorem insert_leafCount {s : Nat} (h : st.leafCount = s ∨ st.leafCount = leafMax) (elm : Bref) :
    (st.insert elm).leafCount = elm.leafShare + s ∨ (st.insert elm).leafCount = leafMax := by
  unfold BrefStats.insert Bref.leafShare
  cases elm.type with
  | inode => exact leafInc_sum h
  | indirect => exact leafAdd_sum _ h
  | data =>
    have hadd := leafAdd_sum elm.stats.leafCount (leafInc_sum h)
    rwa [← Nat.add_assoc, Nat.add_comm elm.stats.leafCount] at hadd
  | dirent => exact leafInc_sum h
  | freemapNode => rwa [Nat.zero_add]
  | freemapLeaf => rwa [Nat.zero_add]

theorem delete_dataCount (st : BrefStats) (scan : Bref) :
    st.dataCount = scan.dataShare + (st.delete scan).dataCount := by
  unfold BrefStats.delete Bref.dataShare
  cases scan.type <;> simp only <;> ring

theorem delete_inodeCount (st : BrefStats) (scan : Bref) :
    st.inodeCount = scan.inodeShare + (st.delete scan).inodeCount := by
  unfold BrefStats.delete Bref.inodeShare
  cases scan.type <;> simp only <;> ring

theorem delete_leafCount {s : Nat} {scan : Bref}
    (h : st.leafCount = scan.leafShare + s ∨ st.leafCount = leafMax) :
    (st.delete scan).leafCount = s ∨ (st.delete scan).leafCount = leafMax := by
  unfold BrefStats.delete
  unfold Bref.leafShare at h
  cases htype : scan.type with
  | inode =>
    rw [htype] at h
    exact leafDec_sum h
  | indirect =>
    rw [htype] at h
    exact leafSub_sum h
  | data =>
    rw [htype] at h
    simp only [Nat.add_assoc] at h
    exact leafSub_sum (leafDec_sum h)
  | dirent =>
    rw [htype] at h
    exact leafDec_sum h
  | freemapNode =>
    rw [htype] at h
    simpa only [Nat.zero_add] using h
  | freemapLeaf =>
    rw [htype] at h
    simpa only [Nat.zero_add] using h

theorem Sums.nil : (⟨0, 0, 0⟩ : BrefStats).Sums [] := ⟨rfl, rfl, Or.inl rfl⟩

theorem Sums.perm (h : st.Sums elems) (hp : elems.Perm elems') : st.Sums elems' :=
  ⟨h.data.trans (hp.map _).sum_eq, h.inode.trans (hp.map _).sum_eq,
    h.leaf.imp_left fun hl => hl.trans (hp.map _).sum_eq⟩

/-- `hammer2_base_insert` adds what the new element contributes. -/
theorem Sums.insert (h : st.Sums elems) (elm : Bref) : (st.insert elm).Sums (elm :: elems) := by
  refine ⟨?_, ?_, ?_⟩
  · rw [insert_dataCount, h.data, List.map_cons, List.sum_cons]
  · rw [insert_inodeCount, h.inode, List.map_cons, List.sum_cons]
  · rw [List.map_cons, List.sum_cons]
    exact insert_leafCount h.leaf elm

/-- `hammer2_base_delete` subtracts what the array's copy of the element contributed. -/
theorem Sums.delete {scan : Bref} (h : st.Sums (scan :: elems)) : (st.delete scan).Sums elems := by
  obtain ⟨hdata, hinode, hleaf⟩ := h
  rw [List.map_cons, List.sum_cons] at hdata hinode hleaf
  refine ⟨?_, ?_, delete_leafCount hleaf⟩
  · rw [delete_dataCount st scan] at hdata
    exact add_left_cancel hdata
  · rw [delete_inodeCount st scan] at hinode
    exact add_left_cancel hinode

end BrefStats

namespace BrefArray

open SlotList

variable {a a' : BrefArray} {elm scan : Bref}

/-- An insertion that does not panic had room, and the new element overlaps nothing. -/
theorem baseInsert_room (hi : a.Inv) (h : baseInsert a elm = some a') :
    (∃ m : Nat, a.base[m]? = some none) ∧ ∀ e ∈ elements a.base, e.Before elm ∨ elm.Before e := by
  obtain ⟨i, cacheIndex, keyNext, hfind, hfound, -⟩ := baseFind_spec hi 0 elm.key
  unfold baseInsert at h
  rw [hfind] at h
  simp only at h
  have hsplit := elements_take_append_drop a.base i
  split at h
  next happ =>
    refine ⟨⟨a.liveZero, ?_⟩, fun e he => Or.inl ?_⟩
    · have hslot := slot_of_stop_le hi.live.ge happ.2
      unfold slot at hslot
      rw [List.getElem?_eq_getElem happ.2] at hslot ⊢
      simpa using hslot
    · refine hfound.behind e ?_
      rw [happ.1, List.take_length]
      exact he
  next =>
    split at h
    next => cases h
    next hcheck =>
      have hroom : ∃ m : Nat, a.base[m]? = some none := by
        split at h
        next => cases h
        next j hhole =>
          exact ⟨j, (findHole_some (fun m h1 h2 => by omega) hhole).2⟩
        next k hhole =>
          exact ⟨k, (findHole_some (fun m h1 h2 => by omega) hhole).2.2.1⟩
      refine ⟨hroom, fun e he => ?_⟩
      rw [← hsplit] at he
      rcases List.mem_append.mp he with he | he
      · exact Or.inl (hfound.behind e he)
      · right
        obtain ⟨m, hm, hslot⟩ := mem_elements_drop.mp he
        have hlt := slot_lt hslot
        obtain ⟨first, hfirst, -⟩ := hfound.here (by omega)
        rw [hfirst] at hcheck
        simp only [Option.any_some, decide_eq_true_eq, not_or, not_le] at hcheck
        rcases Nat.eq_or_lt_of_le hm with rfl | hlt
        · rw [hfirst] at hslot
          cases Option.some.inj hslot
          exact hcheck.2
        · exact Bref.Before.trans hcheck.2 (slot_before hi.sorted hlt hfirst hslot)

/-- A deletion that does not panic found its element. -/
theorem baseDelete_found {blkmapupd : Bool} (h : baseDelete a elm blkmapupd = some (a', scan)) :
    scan ∈ elements a.base ∧ scan.key = elm.key ∧ (blkmapupd = true ∨ scan.keybits = elm.keybits) := by
  unfold baseDelete at h
  split at h
  next => cases h
  next i cacheIndex keyNext hfind =>
    split at h
    next => cases h
    next scan' hslot =>
      split at h
      next => cases h
      next hsame =>
        obtain ⟨-, rfl⟩ := Prod.mk.inj (Option.some.inj h)
        rw [not_or, not_and, Bool.eq_false_iff, not_not, not_not] at hsame
        refine ⟨mem_elements.mpr ⟨i, hslot⟩, hsame.1, ?_⟩
        by_cases hupd : blkmapupd = true
        · exact Or.inl hupd
        · exact Or.inr (hsame.2 hupd)

/-- The counters of the parent chain are the sums over its array. -/
def Rolled (a : BrefArray) : Prop := a.stats.Sums (elements a.base)

theorem Rolled.baseInsert (hr : a.Rolled) (hi : a.Inv) (h : baseInsert a elm = some a') :
    a'.Rolled ∧ a'.Inv ∧ a'.base.length = a.base.length := by
  obtain ⟨hroom, hdis⟩ := baseInsert_room hi h
  obtain ⟨b, p, q, hins, hb, hlen, hold, hnew, hstats⟩ := baseInsert_spec hi hroom hdis
  rw [h] at hins
  cases Option.some.inj hins
  refine ⟨?_, hb, hlen⟩
  unfold Rolled at hr ⊢
  rw [hstats, hnew]
  rw [hold] at hr
  exact (hr.insert elm).perm List.perm_middle.symm

theorem Rolled.baseDelete {blkmapupd : Bool} (hr : a.Rolled) (hi : a.Inv)
    (h : baseDelete a elm blkmapupd = some (a', scan)) :
    a'.Rolled ∧ a'.Inv ∧ a'.base.length = a.base.length := by
  obtain ⟨hmem, hkey, hbits⟩ := baseDelete_found h
  obtain ⟨b, p, q, hdel, hb, hlen, hold, hnew, hstats⟩ := baseDelete_spec hi hmem hkey hbits
  rw [h] at hdel
  cases Option.some.inj hdel
  refine ⟨?_, hb, hlen⟩
  unfold Rolled at hr ⊢
  rw [hstats, hnew]
  rw [hold] at hr
  exact (hr.perm List.perm_middle).delete

end BrefArray

namespace ChainCore

/-- The counters are the sums, and what the insertions and deletions need to keep them so. -/
structure Rolled (core : ChainCore) : Prop where
  sorted : core.elements.Pairwise Bref.Before
  live : core.counted = true → core.array.liveZero = SlotList.stop core.array.base core.count
  initial : core.initial = true → core.elements = []
  sums : core.array.Rolled

variable {core core' : ChainCore} {chain : MemChain}

theorem Rolled.arrayInv (h : core.Rolled) (hc : core.counted = true) : core.array.Inv :=
  ⟨h.sorted, h.live hc⟩

/-- The array with its counters, and whether it is counted, is all that matters. -/
theorem Rolled.congr (h : core.Rolled) (harray : core'.array = core.array)
    (hcounted : core'.counted = core.counted) (hinitial : core'.initial = true → core.initial = true) :
    core'.Rolled := by
  obtain ⟨hsorted, hlive, hini, hsums⟩ := h
  unfold elements count at *
  refine ⟨?_, ?_, ?_, ?_⟩
  · unfold elements
    rwa [harray]
  · unfold count
    rwa [harray, hcounted]
  · unfold elements
    rw [harray]
    exact fun h => hini (hinitial h)
  · rwa [harray]

theorem rolled_of_array {a : BrefArray} (ha : a.Inv) (hr : a.Rolled) (hini : core.initial = false) :
    ({ core with array := a } : ChainCore).Rolled :=
  ⟨ha.sorted, fun _ => ha.live, fun hf => absurd (hini.symm.trans hf) (by decide), hr⟩

theorem Rolled.countbrefs (h : core.Rolled) :
    core.countbrefs.Rolled ∧ core.countbrefs.counted = true ∧ core.countbrefs.initial = core.initial := by
  unfold ChainCore.countbrefs
  split
  next hc => exact ⟨h, hc, rfl⟩
  next =>
    split
    next hini =>
      have hnil := h.initial hini
      exact ⟨⟨h.sorted, fun _ => (stop_of_elements_nil hnil _).symm, h.initial, h.sums⟩, rfl, rfl⟩
    next => exact ⟨⟨h.sorted, fun _ => rfl, h.initial, h.sums⟩, rfl, rfl⟩

theorem Rolled.chainDelete (h : core.Rolled) {modify : Nat} {d : Deletion}
    (hd : chainDelete core chain modify = some d) : d.parent.Rolled := by
  unfold Hammer2.chainDelete at hd
  split at hd
  next =>
    cases Option.some.inj hd
    exact h
  next =>
    unfold chainDeleteHelper at hd
    split at hd
    next =>
      split at hd
      next => cases hd
      next hini =>
        split at hd
        next =>
          cases Option.some.inj hd
          exact h
        next =>
          split at hd
          next => cases hd
          next hc =>
            simp only at hd
            split at hd
            next => cases hd
            next array scan hdelete =>
              cases Option.some.inj hd
              have hcounted : core.counted = true := by simpa using hc
              obtain ⟨hr, ha, -⟩ := BrefArray.Rolled.baseDelete h.sums (h.arrayInv hcounted) hdelete
              exact rolled_of_array ha hr (Bool.eq_false_iff.mpr hini)
    next =>
      cases Option.some.inj hd
      exact h.congr rfl rfl fun hf => hf

theorem Rolled.chainRename (h : core.Rolled) (hd : chainRename core chain = some core') :
    core'.Rolled ∧ core'.counted = true := by
  obtain ⟨hr, hc, -⟩ := h.countbrefs
  unfold Hammer2.chainRename at hd
  simp only at hd
  split at hd
  next => cases hd
  next =>
    obtain ⟨tree, -, rfl⟩ := Option.map_eq_some_iff.mp hd
    exact ⟨hr.congr rfl rfl fun hf => hf, hc⟩

theorem Rolled.chainRenameObref (h : core.Rolled) {obref : Option Bref}
    (hd : chainRenameObref core chain obref = some core') : core'.Rolled := by
  cases obref with
  | none => exact (h.chainRename hd).1
  | some f =>
    unfold Hammer2.chainRenameObref at hd
    simp only at hd
    split at hd
    next => cases hd
    next =>
      split at hd
      next => cases hd
      next core₁ hrename =>
        obtain ⟨hr, hc⟩ := h.chainRename hrename
        split at hd
        next => cases hd
        next hini =>
          obtain ⟨array, hins, rfl⟩ := Option.map_eq_some_iff.mp hd
          obtain ⟨hr', ha, -⟩ := BrefArray.Rolled.baseInsert hr.sums (hr.arrayInv hc) hins
          exact rolled_of_array ha hr' (Bool.eq_false_iff.mpr hini)

theorem Rolled.matchChain (h : core.Rolled) {m : Match} {sub : MemChain}
    (hd : matchChain core m = some (core', sub)) : core'.Rolled := by
  unfold Hammer2.matchChain at hd
  split at hd
  next =>
    obtain ⟨rfl, -⟩ := Prod.mk.inj (Option.some.inj hd)
    exact h
  next =>
    obtain ⟨tree, -, hpair⟩ := Option.map_eq_some_iff.mp hd
    obtain ⟨rfl, -⟩ := Prod.mk.inj hpair
    exact h.congr rfl rfl fun hf => hf

theorem Rolled.find (h : core.Rolled) {keyBeg : Nat} {found : Option Match}
    (hd : core.find keyBeg = some (core', found)) : core'.Rolled := by
  unfold ChainCore.find at hd
  split at hd
  next =>
    obtain ⟨r, -, hpair⟩ := Option.map_eq_some_iff.mp hd
    obtain ⟨rfl, -⟩ := Prod.mk.inj hpair
    exact ⟨h.sorted, h.live, h.initial, h.sums⟩
  next => cases hd

end ChainCore

/-- The elements that the loop moves take their contributions with them. -/
theorem shiftLoop_rolled {within : Bref → Bool} {modify : Nat → Nat} {fuel keyBeg : Nat}
    {chain parent chain' parent' : ChainCore}
    (h : shiftLoop within modify fuel chain parent keyBeg = some (chain', parent')) :
    (chain.Rolled → chain'.Rolled) ∧ (parent.Rolled → parent'.Rolled) := by
  induction fuel generalizing chain parent keyBeg with
  | zero => cases h
  | succ fuel ih =>
    have hnext : ∀ {c p : ChainCore} {m : Match},
        (if m.bref.next = 0 then some (c, p) else shiftLoop within modify fuel c p m.bref.next) =
          some (chain', parent') → (c.Rolled → chain'.Rolled) ∧ (p.Rolled → parent'.Rolled) := by
      intro c p m h
      split at h
      next =>
        obtain ⟨rfl, rfl⟩ := Prod.mk.inj (Option.some.inj h)
        exact ⟨id, id⟩
      next => exact ih h
    unfold shiftLoop at h
    split at h
    next => cases h
    next chain₁ found hfind =>
      split at h
      next =>
        obtain ⟨rfl, rfl⟩ := Prod.mk.inj (Option.some.inj h)
        exact ⟨fun hc => hc.find hfind, id⟩
      next m =>
        simp only at h
        split at h
        next =>
          split at h
          next => cases h
          next chain₂ sub hsub =>
            split at h
            next => exact ⟨fun hc => (ih h).1 ((hc.find hfind).matchChain hsub), (ih h).2⟩
            next =>
              split at h
              next => cases h
              next d hdel =>
                split at h
                next => cases h
                next =>
                  split at h
                  next => cases h
                  next parent₁ hrename =>
                    obtain ⟨hc', hp'⟩ := hnext h
                    exact ⟨fun hc => hc' (((hc.find hfind).matchChain hsub).chainDelete hdel),
                      fun hp => hp' (hp.chainRenameObref hrename)⟩
        next => exact ⟨fun hc => (hnext h).1 (hc.find hfind), (hnext h).2⟩

section Blocks

variable {parent parent' chain chain' : ChainCore} {block : MemChain}

theorem freshCore_rolled (count : Nat) : (freshCore count).Rolled := by
  have hnil : (freshCore count).elements = [] := by
    refine List.eq_nil_iff_forall_not_mem.mpr fun e he => ?_
    obtain ⟨i, hi⟩ := SlotList.mem_elements.mp he
    have hrep := List.eq_of_mem_replicate (List.mem_of_getElem? (SlotList.slot_eq_some.mp hi))
    cases hrep
  refine ⟨?_, fun hc => (by cases hc), fun _ => hnil, ?_⟩
  · rw [hnil]
    exact List.Pairwise.nil
  · have hsums := BrefStats.Sums.nil
    rw [← hnil] at hsums
    exact hsums

/-- A split leaves the counters of both chains right. -/
theorem chainCreateIndirect_rolled {env : SplitEnv} {ibref : Bref} {ncount error : Nat}
    {ichain : Option ChainCore} (hp : parent.Rolled)
    (h : chainCreateIndirect env parent ibref ncount = some (error, parent', ichain)) :
    parent'.Rolled ∧ ∀ core ∈ ichain, core.Rolled := by
  have hp' : ({ parent with initial := false } : ChainCore).Rolled :=
    hp.congr rfl rfl fun hf => (by cases hf)
  unfold chainCreateIndirect at h
  split at h
  next =>
    cases Option.some.inj h
    exact ⟨hp, fun core hcore => (by cases hcore)⟩
  next =>
    simp only at h
    split at h
    next =>
      cases Option.some.inj h
      exact ⟨hp', fun core hcore => (by cases hcore)⟩
    next =>
      split at h
      next => cases h
      next parent₁ ichain₁ hloop =>
        obtain ⟨hparent, hichain⟩ := shiftLoop_rolled hloop
        split at h
        next => cases h
        next =>
          obtain ⟨rbtree, -, heq⟩ := Option.map_eq_some_iff.mp h
          cases heq
          refine ⟨(hparent hp').congr rfl rfl fun hf => hf, fun core hcore => ?_⟩
          cases Option.mem_some_iff.mp hcore
          exact hichain (freshCore_rolled ncount)

theorem accurate_rolled (hc : chain.Rolled) : chain.accurate.Rolled := by
  unfold ChainCore.accurate
  split
  next => exact hc.countbrefs.1
  next => exact hc

/-- A collapse leaves the counters of the parent right, and those of the block as long as the block
keeps its elements. -/
theorem chainIndirectMaintenance_rolled {env : CollapseEnv} {ret : Nat} (hp : parent.Rolled)
    (hc : chain.Rolled)
    (h : chainIndirectMaintenance env parent chain block = some (ret, parent', chain')) :
    parent'.Rolled ∧ (ret = 1 ∧ chain.accurate.drained = false ∨ chain'.Rolled) := by
  have hc' := accurate_rolled hc
  have hp' := accurate_rolled hp
  unfold chainIndirectMaintenance at h
  simp only at h
  split at h
  next =>
    obtain ⟨d, hdel, heq⟩ := Option.map_eq_some_iff.mp h
    cases heq
    exact ⟨hp.chainDelete hdel, Or.inr hc'⟩
  next hdrained =>
    split at h
    next =>
      cases Option.some.inj h
      exact ⟨hp', Or.inr hc'⟩
    next =>
      split at h
      next =>
        cases Option.some.inj h
        exact ⟨hp', Or.inr hc'⟩
      next =>
        split at h
        next =>
          cases Option.some.inj h
          exact ⟨hp', Or.inr hc'⟩
        next =>
          have hini : ({ parent.accurate with initial := false } : ChainCore).Rolled :=
            hp'.congr rfl rfl fun hf => (by cases hf)
          split at h
          next =>
            cases Option.some.inj h
            exact ⟨hini, Or.inr hc'⟩
          next =>
            split at h
            next => cases h
            next d hdel =>
              split at h
              next => cases h
              next =>
                split at h
                next => cases h
                next chain₁ parent₁ hloop =>
                  split at h
                  next =>
                    cases Option.some.inj h
                    exact ⟨(shiftLoop_rolled hloop).2 (hini.chainDelete hdel),
                      Or.inl ⟨rfl, Bool.eq_false_iff.mpr hdrained⟩⟩
                  next => cases h

end Blocks

/-- The blocktable update of `hammer2_flush_core`, with `elm` the blockref of the chain as it is
now. -/
def flushBlockmap (parent : ChainCore) (chain : MemChain) (elm : Bref) : Option ChainCore :=
  let parent := { parent with initial := false }
  if parent.counted = false then none
  else
    match (if chain.blkmapupd = true ∧ chain.blkmapped = true then
        (parent.array.baseDelete elm true).map Prod.fst else some parent.array) with
    | none => none
    | some array =>
      let mapped : MemChain := ⟨elm, chain.deleted, true, false⟩
      let parent := { parent with rbtree := parent.rbtree.map fun c => if c = chain then mapped else c }
      if chain.blkmapped = true ∧ chain.blkmapupd = false then some { parent with array := array }
      else (array.baseInsert elm).map fun array => { parent with array := array }

/-- What changes blockref arrays: a new chain, its creation under a parent, its flush, its deletion,
a split and a collapse. A flush puts the counters of the chain, if it has children, in its blockref. -/
inductive RollAction where
  | alloc (q count : Nat)
  | create (p : Nat) (chain : MemChain)
  | flush (p : Nat) (chain : MemChain) (below : Option Nat)
  | remove (p : Nat) (chain : MemChain) (modify : Nat)
  | split (p q : Nat) (env : SplitEnv) (ibref : Bref) (ncount : Nat)
  | collapse (p q : Nat) (env : CollapseEnv) (block : MemChain)

def Bref.withStats (e : Bref) (st : BrefStats) : Bref := { e with stats := st }

/-- The blockref of a chain whose counters are those of its own core. -/
def currentBref (s : Nat → Option ChainCore) (chain : MemChain) (below : Option Nat) : Bref :=
  match below.bind s with
  | none => chain.bref
  | some core => chain.bref.withStats core.array.stats

def rollStep (s : Nat → Option ChainCore) : RollAction → Option (Nat → Option ChainCore)
  | .alloc q count => if (s q).isSome then none else some (Function.update s q (some (freshCore count)))
  | .create p chain =>
    (s p).bind fun parent =>
      (chainRename parent chain).map fun parent => Function.update s p (some parent)
  | .flush p chain below =>
    (s p).bind fun parent =>
      (flushBlockmap parent chain (currentBref s chain below)).map fun parent =>
        Function.update s p (some parent)
  | .remove p chain modify =>
    (s p).bind fun parent =>
      (chainDelete parent chain modify).map fun d => Function.update s p (some d.parent)
  | .split p q env ibref ncount =>
    if (s q).isSome then none
    else
      (s p).bind fun parent =>
        (chainCreateIndirect env parent ibref ncount).map fun (_, parent, ichain) =>
          Function.update (Function.update s p (some parent)) q ichain
  | .collapse p q env block =>
    if p = q then none
    else
      (s p).bind fun parent => (s q).bind fun chain =>
        (chainIndirectMaintenance env parent chain block).map fun (ret, parent, chain') =>
          -- a block whose elements have moved is destroyed
          Function.update (Function.update s p (some parent)) q
            (if ret = 1 ∧ chain.accurate.drained = false then none else some chain')

def AllRolled (s : Nat → Option ChainCore) : Prop := ∀ p core, s p = some core → core.Rolled

section Run

variable {s s' : Nat → Option ChainCore}

theorem AllRolled.update (h : AllRolled s) (p : Nat) {o : Option ChainCore} (ho : ∀ core ∈ o, core.Rolled) :
    AllRolled (Function.update s p o) := by
  intro q core hq
  by_cases hqp : q = p
  · rw [hqp, Function.update_self] at hq
    exact ho core hq
  · rw [Function.update_of_ne hqp] at hq
    exact h q core hq

theorem flushBlockmap_rolled {parent parent' : ChainCore} {chain : MemChain} {elm : Bref}
    (hp : parent.Rolled) (h : flushBlockmap parent chain elm = some parent') : parent'.Rolled := by
  unfold flushBlockmap at h
  simp only at h
  split at h
  next => cases h
  next hc =>
    have hcounted : parent.counted = true := by simpa using hc
    split at h
    next => cases h
    next array hdel =>
      have harray : array.Rolled ∧ array.Inv := by
        split at hdel
        next =>
          obtain ⟨⟨a, scan⟩, hdelete, rfl⟩ := Option.map_eq_some_iff.mp hdel
          obtain ⟨hr, ha, -⟩ := BrefArray.Rolled.baseDelete hp.sums (hp.arrayInv hcounted) hdelete
          exact ⟨hr, ha⟩
        next =>
          cases Option.some.inj hdel
          exact ⟨hp.sums, hp.arrayInv hcounted⟩
      split at h
      next =>
        cases Option.some.inj h
        exact ⟨harray.2.sorted, fun _ => harray.2.live, fun hf => (by cases hf), harray.1⟩
      next =>
        obtain ⟨array', hins, rfl⟩ := Option.map_eq_some_iff.mp h
        obtain ⟨hr, ha, -⟩ := BrefArray.Rolled.baseInsert harray.1 harray.2 hins
        exact ⟨ha.sorted, fun _ => ha.live, fun hf => (by cases hf), hr⟩

/-- Every action leaves the counters of all chains right. -/
theorem rollStep_rolled {act : RollAction} (h : AllRolled s) (hs : rollStep s act = some s') :
    AllRolled s' := by
  cases act with
  | alloc q count =>
    simp only [rollStep] at hs
    split at hs
    next => cases hs
    next =>
      cases Option.some.inj hs
      refine h.update q fun core hcore => ?_
      cases Option.mem_some_iff.mp hcore
      exact freshCore_rolled count
  | create p chain =>
    obtain ⟨parent, hp, hs⟩ := Option.bind_eq_some_iff.mp hs
    obtain ⟨parent', hrename, rfl⟩ := Option.map_eq_some_iff.mp hs
    refine h.update p fun core hcore => ?_
    cases Option.mem_some_iff.mp hcore
    exact ((h p parent hp).chainRename hrename).1
  | flush p chain below =>
    obtain ⟨parent, hp, hs⟩ := Option.bind_eq_some_iff.mp hs
    obtain ⟨parent', hflush, rfl⟩ := Option.map_eq_some_iff.mp hs
    refine h.update p fun core hcore => ?_
    cases Option.mem_some_iff.mp hcore
    exact flushBlockmap_rolled (h p parent hp) hflush
  | remove p chain modify =>
    obtain ⟨parent, hp, hs⟩ := Option.bind_eq_some_iff.mp hs
    obtain ⟨d, hdel, rfl⟩ := Option.map_eq_some_iff.mp hs
    refine h.update p fun core hcore => ?_
    cases Option.mem_some_iff.mp hcore
    exact (h p parent hp).chainDelete hdel
  | split p q env ibref ncount =>
    simp only [rollStep] at hs
    split at hs
    next => cases hs
    next =>
      obtain ⟨parent, hp, hs⟩ := Option.bind_eq_some_iff.mp hs
      obtain ⟨⟨error, parent', ichain⟩, hsplit, rfl⟩ := Option.map_eq_some_iff.mp hs
      obtain ⟨hparent, hichain⟩ := chainCreateIndirect_rolled (h p parent hp) hsplit
      refine (h.update p fun core hcore => ?_).update q hichain
      cases Option.mem_some_iff.mp hcore
      exact hparent
  | collapse p q env block =>
    simp only [rollStep] at hs
    split at hs
    next => cases hs
    next =>
      obtain ⟨parent, hp, hs⟩ := Option.bind_eq_some_iff.mp hs
      obtain ⟨chain, hq, hs⟩ := Option.bind_eq_some_iff.mp hs
      obtain ⟨⟨ret, parent', chain'⟩, hmaint, rfl⟩ := Option.map_eq_some_iff.mp hs
      obtain ⟨hparent, hchain⟩ := chainIndirectMaintenance_rolled (h p parent hp) (h q chain hq) hmaint
      refine (h.update p fun core hcore => ?_).update q fun core hcore => ?_
      · cases Option.mem_some_iff.mp hcore
        exact hparent
      · split at hcore
        next => cases hcore
        next hlive =>
          cases Option.mem_some_iff.mp hcore
          exact hchain.resolve_left hlive

/-- After every run the counters of every parent are the sums of what the elements of its array
contribute, or `leaf_count` has saturated. -/
theorem stats_rollup {acts : List RollAction} (h₀ : AllRolled s) (hrun : Run.exec rollStep s acts = some s')
    {p : Nat} {core : ChainCore} (hp : s' p = some core) :
    core.array.stats.dataCount = (core.elements.map Bref.dataShare).sum ∧
      core.array.stats.inodeCount = (core.elements.map Bref.inodeShare).sum ∧
      (core.array.stats.leafCount = (core.elements.map Bref.leafShare).sum ∨
        core.array.stats.leafCount = 65535) := by
  have hreach := Run.Reach.exec Run.Reach.start hrun
  have hall : AllRolled s' := hreach.invariant h₀ fun hi _ hs => rollStep_rolled hi hs
  obtain ⟨hdata, hinode, hleaf⟩ := (hall p core hp).sums
  exact ⟨hdata, hinode, hleaf⟩

end Run

/-- An inode of 1KB without anything below it. -/
def inodeBref : Bref where
  type := .inode
  key := 4294967296
  keybits := 0
  dataOff := 10
  stats := ⟨0, 0, 0⟩
  keybits_lt := by decide
  fits := by decide

/-- The contributions to `data_count` without the storage of inodes and indirect blocks. -/
def Bref.belowShare (e : Bref) : BitVec 64 :=
  match e.type with
  | .data => e.bytes
  | .inode => e.stats.dataCount
  | .indirect => e.stats.dataCount
  | _ => 0

/-- The storage of an inode counts too. -/
theorem stats_rollup_storage :
    ¬∀ (acts : List RollAction) (s' : Nat → Option ChainCore) (p : Nat) (core : ChainCore),
      Run.exec rollStep (fun _ => none) acts = some s' → s' p = some core →
        core.array.stats.dataCount = (core.elements.map Bref.belowShare).sum := by
  intro hall
  have hrun : ((Run.exec rollStep (fun _ => none) [.alloc 0 4, .create 0 ⟨inodeBref, false, false, false⟩,
      .flush 0 ⟨inodeBref, false, false, false⟩ none]).bind fun s => (s 0).map fun core =>
        (core.array.stats.dataCount, (core.elements.map Bref.belowShare).sum)) = some (1024, 0) := by
    decide
  obtain ⟨s', hexec, hrun⟩ := Option.bind_eq_some_iff.mp hrun
  obtain ⟨core, hcore, hpair⟩ := Option.map_eq_some_iff.mp hrun
  obtain ⟨hdata, hsum⟩ := Prod.mk.inj hpair
  have heq := hall _ s' 0 core hexec hcore
  rw [hdata, hsum] at heq
  exact absurd heq (by decide)

/-- Two data elements go to an inode, into an indirect block, and back. -/
def rollRun : List RollAction :=
  [.alloc 0 4, .create 0 ⟨smallBref 1, false, false, false⟩, .flush 0 ⟨smallBref 1, false, false, false⟩ none,
    .create 0 ⟨smallBref 3, false, false, false⟩, .flush 0 ⟨smallBref 3, false, false, false⟩ none,
    .split 0 1 ⟨0, 0, fun _ => 0⟩ indirectBref 32, .flush 0 ⟨indirectBref, false, false, false⟩ (some 1),
    .collapse 0 1 ⟨0, 0, 0, fun _ => 0⟩ ⟨indirectBref.withStats ⟨2, 32768, 0⟩, false, true, false⟩]

theorem stats_rollup_back :
    ∃ s' core, Run.exec rollStep (fun _ => none) rollRun = some s' ∧ s' 0 = some core ∧
      core.array.stats = ⟨2, 32768, 0⟩ ∧
      core.array.stats.dataCount = (core.elements.map Bref.dataShare).sum := by
  have hrun : ((Run.exec rollStep (fun _ => none) rollRun).bind fun s =>
      (s 0).map fun core => core.array.stats) = some ⟨2, 32768, 0⟩ := by
    decide
  obtain ⟨s', hexec, hrun⟩ := Option.bind_eq_some_iff.mp hrun
  obtain ⟨core, hcore, hstats⟩ := Option.map_eq_some_iff.mp hrun
  have hnone : AllRolled fun _ => none := fun p core h => (by cases h)
  exact ⟨s', core, hexec, hcore, hstats, (stats_rollup hnone hexec hcore).1⟩

end Hammer2
