import Hammer2.BrefArray

namespace Hammer2

theorem Bref.key_le_last (e : Bref) : e.key ≤ e.last := by
  have hpos := Nat.two_pow_pos e.keybits
  unfold Bref.last
  omega

theorem Bref.Before.trans {e f g : Bref} (h : e.Before f) (h' : f.Before g) : e.Before g := by
  have hle := f.key_le_last
  unfold Bref.Before at *
  omega

namespace BrefArray

open SlotList

/-- The elements are sorted and disjoint, and `live_zero` is one past the last of them. -/
structure Inv (a : BrefArray) : Prop where
  sorted : (elements a.base).Pairwise Bref.Before
  live : a.liveZero = stop a.base a.base.length

/-- The index that a search for `keyBeg` returns: what is before it ends before `keyBeg`. -/
structure Found (a : BrefArray) (keyBeg i : Nat) : Prop where
  le : i ≤ a.base.length
  behind : ∀ e ∈ elements (a.base.take i), e.last < keyBeg
  here : i < a.base.length → ∃ scan, slot a.base i = some scan ∧ keyBeg ≤ scan.last

section Find

variable {a : BrefArray} {keyBeg i : Nat}

theorem slot_before {l : List (Option Bref)} (hs : (elements l).Pairwise Bref.Before) {i j : Nat}
    {e f : Bref} (hij : i < j) (he : slot l i = some e) (hf : slot l j = some f) : e.Before f := by
  rw [elements_of_slot hf] at hs
  exact (List.pairwise_append.mp hs).2.2 e (mem_elements_take.mpr ⟨i, hij, he⟩) f
    List.mem_cons_self

/-- What the backward search passes over ends before the key. -/
theorem searchBackwards_behind {base : List (Option Bref)}
    (hs : (elements base).Pairwise Bref.Before) (keyBeg i : Nat) {m : Nat} {e : Bref}
    (hm : m < searchBackwards base keyBeg i) (he : slot base m = some e) : e.last < keyBeg := by
  induction i with
  | zero => exact absurd hm (Nat.not_lt_zero m)
  | succ i ih =>
    unfold searchBackwards at hm
    split at hm
    next => exact ih hm
    next scan hscan =>
      split at hm
      next => exact ih hm
      next hle =>
        have hbefore := slot_before hs hm he hscan
        unfold Bref.Before at hbefore
        omega

theorem searchForwards_some {base : List (Option Bref)} {limit fuel i j : Nat} {scan : Bref}
    (h : searchForwards base limit keyBeg fuel i = some (j, scan)) :
    slot base j = some scan ∧ keyBeg ≤ scan.last ∧
      ∀ m, i ≤ m → m < j → ∀ e, slot base m = some e → e.last < keyBeg := by
  induction fuel generalizing i with
  | zero => cases h
  | succ fuel ih =>
    unfold searchForwards at h
    split at h
    next =>
      split at h
      next scan' hstop =>
        cases Option.some.inj h
        obtain ⟨hslot, hkey⟩ := Option.filter_eq_some_iff.mp hstop
        have hle := scan.key_le_last
        refine ⟨hslot, ?_, fun m h1 h2 => by omega⟩
        simp only [decide_eq_true_eq] at hkey
        omega
      next hpass =>
        split at h
        next => cases h
        next =>
          obtain ⟨hslot, hkey, hrest⟩ := ih h
          refine ⟨hslot, hkey, fun m h1 h2 e he => ?_⟩
          rcases Nat.eq_or_lt_of_le h1 with rfl | hlt
          · rw [he] at hpass
            simp at hpass
            exact hpass.2
          · exact hrest m hlt h2 e he
    next => cases h

theorem searchForwards_none {base : List (Option Bref)} {limit fuel i : Nat}
    (hlimit : ∀ m, limit ≤ m → slot base m = none) (hf : base.length < i + fuel)
    (h : searchForwards base limit keyBeg fuel i = none) :
    ∀ m, i ≤ m → ∀ e, slot base m = some e → e.last < keyBeg := by
  induction fuel generalizing i with
  | zero =>
    intro m hm e he
    have hlt := slot_lt he
    omega
  | succ fuel ih =>
    intro m hm e he
    have hlt := slot_lt he
    unfold searchForwards at h
    split at h
    next =>
      split at h
      next => cases h
      next hpass =>
        split at h
        next hend =>
          rw [hlimit m (by omega)] at he
          cases he
        next =>
          rcases Nat.eq_or_lt_of_le hm with rfl | hlt
          · rw [he] at hpass
            simp at hpass
            exact hpass.2
          · exact ih (by omega) h m hlt e he
    next => omega

/-- Whatever `cache_index` is, the search finds the first element that ends at or after the key,
and `*key_nextp` is lowered to the key after that element. -/
theorem baseFind_spec (hi : a.Inv) (keyNext keyBeg : Nat) :
    ∃ i cacheIndex keyNext', baseFind a keyNext keyBeg = some (i, cacheIndex, keyNext') ∧
      Found a keyBeg i ∧ keyNext' = match slot a.base i with
        | none => keyNext
        | some scan =>
          if scan.next ≠ 0 ∧ (scan.next < keyNext ∨ keyNext = 0) then scan.next else keyNext := by
  have hout : slot a.base a.base.length = none := by
    unfold slot
    rw [List.getElem?_eq_none le_rfl]
    rfl
  have hlimit : ∀ m, a.liveZero ≤ m → slot a.base m = none := by
    intro m hm
    by_cases hlt : m < a.base.length
    · exact slot_of_stop_le (hi.live ▸ hm) hlt
    · unfold slot
      rw [List.getElem?_eq_none (by omega)]
      rfl
  unfold baseFind
  split
  next hzero =>
    have hnil : a.base = [] := List.eq_nil_of_length_eq_zero hzero
    refine ⟨_, _, _, rfl, ⟨le_rfl, fun e he => ?_, fun h => absurd h (lt_irrefl _)⟩, ?_⟩
    · rw [hnil] at he
      cases he
    · rw [hout]
  next hpos =>
    have hle : a.liveZero ≤ a.base.length := hi.live ▸ stop_le _ _
    have hstart : (if a.liveZero ≤ a.cacheIndex then a.liveZero - 1 else a.cacheIndex) <
        a.base.length := by split <;> omega
    simp only
    rw [if_pos hstart]
    have hback : ∀ m e, m < searchBackwards a.base keyBeg
        (if a.liveZero ≤ a.cacheIndex then a.liveZero - 1 else a.cacheIndex) →
        slot a.base m = some e → e.last < keyBeg :=
      fun m e hm he => searchBackwards_behind hi.sorted keyBeg _ hm he
    generalize searchBackwards a.base keyBeg
      (if a.liveZero ≤ a.cacheIndex then a.liveZero - 1 else a.cacheIndex) = b at hback
    cases hfw : searchForwards a.base a.liveZero keyBeg (a.base.length + 1) b with
    | none =>
      refine ⟨_, _, _, rfl, ⟨le_rfl, fun e he => ?_, fun h => absurd h (lt_irrefl _)⟩, ?_⟩
      · obtain ⟨m, hm, he⟩ := mem_elements_take.mp he
        by_cases hmb : m < b
        · exact hback m e hmb he
        · exact searchForwards_none hlimit (by omega) hfw m (by omega) e he
      · rw [hout]
    | some res =>
      obtain ⟨j, scan⟩ := res
      obtain ⟨hslot, hkey, hrest⟩ := searchForwards_some hfw
      have hj : ¬a.liveZero ≤ j := by
        intro hj
        rw [hlimit j hj] at hslot
        cases hslot
      simp only
      rw [if_neg hj]
      refine ⟨_, _, _, rfl, ⟨(slot_lt hslot).le, fun e he => ?_, fun _ => ⟨scan, hslot, hkey⟩⟩, ?_⟩
      · obtain ⟨m, hm, he⟩ := mem_elements_take.mp he
        by_cases hmb : m < b
        · exact hback m e hmb he
        · exact hrest m (by omega) hm e he
      · rw [hslot]

end Find

section Delete

variable {a : BrefArray}

theorem stop_set_none {l : List (Option Bref)} {i : Nat} {e : Bref} (hi : slot l i = some e) (n : Nat) :
    stop (l.set i none) n =
      if stop l n = i + 1 then stop (l.set i none) i else stop l n := by
  have hself : slot (l.set i none) i = none := by
    unfold slot
    rw [List.getElem?_set_self (slot_lt hi)]
    rfl
  have hother : ∀ m, m ≠ i → slot (l.set i none) m = slot l m := by
    intro m hm
    unfold slot
    rw [List.getElem?_set_ne (Ne.symm hm)]
  have hle := stop_le l n
  split
  next hlast =>
    have hle' := stop_le (l.set i none) i
    refine stop_eq (by omega) (fun m h1 h2 => ?_) fun hpos => slot_pred_stop hpos
    rcases lt_trichotomy m i with hm | rfl | hm
    · exact slot_of_stop_le h1 hm
    · exact hself
    · rw [hother m (by omega)]
      exact slot_of_stop_le (by omega) h2
  next hne =>
    refine stop_eq hle (fun m h1 h2 => ?_) fun hpos => ?_
    · by_cases hm : m = i
      · rw [hm]
        exact hself
      · rw [hother m hm]
        exact slot_of_stop_le h1 h2
    · obtain ⟨b, hb⟩ := slot_pred_stop hpos
      exact ⟨b, (hother _ (by omega)).trans hb⟩

/-- A present element is found at its slot, and deleting it does not touch the others. -/
theorem baseDelete_spec (hi : a.Inv) {elm scan : Bref} {blkmapupd : Bool}
    (hmem : scan ∈ elements a.base) (hkey : scan.key = elm.key)
    (hbits : blkmapupd = true ∨ scan.keybits = elm.keybits) :
    ∃ a' p q, baseDelete a elm blkmapupd = some (a', scan) ∧ a'.Inv ∧
      a'.base.length = a.base.length ∧ elements a.base = p ++ scan :: q ∧
      elements a'.base = p ++ q ∧ a'.stats = a.stats.delete scan := by
  obtain ⟨i, cacheIndex, keyNext, hfind, hfound, -⟩ := baseFind_spec hi 0 elm.key
  obtain ⟨m, hm⟩ := mem_elements.mp hmem
  have hle := scan.key_le_last
  have him : i = m := by
    rcases lt_trichotomy i m with hlt | heq | hgt
    · have hlen := slot_lt hm
      obtain ⟨scan', hslot, hend⟩ := hfound.here (by omega)
      have hbefore := slot_before hi.sorted hlt hslot hm
      unfold Bref.Before at hbefore
      omega
    · exact heq
    · have hbehind := hfound.behind scan (mem_elements_take.mpr ⟨m, hgt, hm⟩)
      omega
  subst him
  have hsame : ¬(scan.key ≠ elm.key ∨ blkmapupd = false ∧ scan.keybits ≠ elm.keybits) := by
    rintro (h | ⟨h1, h2⟩)
    · exact h hkey
    · rcases hbits with h | h
      · rw [h] at h1
        cases h1
      · exact h2 h
  have hset := elements_set_none hm
  have hsorted := hi.sorted
  rw [elements_of_slot hm] at hsorted
  refine ⟨⟨a.base.set i none, if a.liveZero = i + 1 then stop (a.base.set i none) i else a.liveZero,
    cacheIndex, a.stats.delete scan⟩, elements (a.base.take i), elements (a.base.drop (i + 1)), ?_,
    ⟨?_, ?_⟩, ?_, elements_of_slot hm, hset, rfl⟩
  · unfold baseDelete
    rw [hfind]
    simp only
    rw [hm]
    simp only
    rw [if_neg hsame]
  · simp only
    rw [hset]
    exact hsorted.sublist ((List.sublist_cons_self _ _).append_left _)
  · simp only
    rw [List.length_set, stop_set_none hm a.base.length, ← hi.live]
  · simp only
    rw [List.length_set]

end Delete

section Insert

variable {a : BrefArray} {elm : Bref} {i : Nat}

theorem validate_sorted {base : List (Option Bref)} (hs : (elements base).Pairwise Bref.Before) :
    validate none base = true ∧
      ∀ keyNext, (∀ e ∈ elements base, keyNext < e.key) → validate (some keyNext) base = true := by
  induction base with
  | nil => exact ⟨rfl, fun _ _ => rfl⟩
  | cons x base ih =>
    cases x with
    | none => exact ih hs
    | some scan =>
      obtain ⟨hhead, htail⟩ := List.pairwise_cons.mp hs
      have hrest := (ih htail).2 scan.last hhead
      refine ⟨hrest, fun keyNext h => ?_⟩
      have hfirst := h scan List.mem_cons_self
      unfold validate
      rw [hrest, Bool.and_true, Bool.not_eq_true', decide_eq_false_iff_not]
      omega

/-- The hole is empty, and the slots up to it are not. -/
def Hole.Nearest (base : List (Option Bref)) (i : Nat) : Hole → Prop
  | .before j => j < i ∧ base[j]? = some none
  | .after k => i < k ∧ k < base.length ∧ base[k]? = some none ∧
      ∀ m, i < m → m < k → base[m]? ≠ some none

theorem findHole_some {base : List (Option Bref)} {i fuel d : Nat} {hole : Hole}
    (hup : ∀ m, i < m → m ≤ i + d → base[m]? ≠ some none) (h : findHole base i fuel d = some hole) :
    hole.Nearest base i := by
  induction fuel generalizing d with
  | zero => cases h
  | succ fuel ih =>
    unfold findHole at h
    split at h
    next =>
      split at h
      next hb =>
        cases Option.some.inj h
        exact ⟨by omega, hb.2⟩
      next =>
        split at h
        next hk =>
          cases Option.some.inj h
          exact ⟨by omega, hk.1, hk.2, fun m h1 h2 => hup m h1 (by omega)⟩
        next hk =>
          refine ih (fun m h1 h2 => ?_) h
          rcases Nat.eq_or_lt_of_le h2 with rfl | hlt
          · intro hempty
            exact hk ⟨(List.getElem?_eq_some_iff.mp hempty).1, hempty⟩
          · exact hup m h1 (by omega)
    next => cases h

/-- The search sees every slot but the one at `i`. -/
theorem findHole_none {base : List (Option Bref)} {i fuel d : Nat} (hi : i ≤ base.length)
    (hf : base.length < d + fuel) (h : findHole base i fuel d = none) {m : Nat}
    (hm : m + d < i ∨ i + d < m) : base[m]? ≠ some none := by
  induction fuel generalizing d with
  | zero =>
    intro hempty
    have hlt := (List.getElem?_eq_some_iff.mp hempty).1
    omega
  | succ fuel ih =>
    intro hempty
    have hlt := (List.getElem?_eq_some_iff.mp hempty).1
    unfold findHole at h
    rw [if_pos (by omega)] at h
    split at h
    next => cases h
    next hb =>
      split at h
      next => cases h
      next hk =>
        by_cases hnext : m = i - (d + 1) ∨ m = i + (d + 1)
        · rcases hnext with rfl | rfl
          · rcases hm with hm | hm
            · exact hb ⟨by omega, hempty⟩
            · omega
          · exact hk ⟨hlt, hempty⟩
        · exact ih (by omega) h (by omega) hempty

theorem Found.before (hf : Found a elm.key i) {e : Bref} (he : e ∈ elements (a.base.take i)) :
    e.Before elm := hf.behind e he

/-- From the index on everything lies after an element that overlaps nothing. -/
theorem Found.after (hi : a.Inv) (hf : Found a elm.key i)
    (hdis : ∀ e ∈ elements a.base, e.Before elm ∨ elm.Before e) {e : Bref}
    (he : e ∈ elements (a.base.drop i)) : elm.Before e := by
  obtain ⟨m, hm, hslot⟩ := mem_elements_drop.mp he
  have hlen := slot_lt hslot
  obtain ⟨scan, hscan, hend⟩ := hf.here (by omega)
  have hfirst : elm.Before scan := by
    rcases hdis scan (mem_elements.mpr ⟨i, hscan⟩) with h | h
    · unfold Bref.Before at h
      omega
    · exact h
  rcases Nat.eq_or_lt_of_le hm with rfl | hlt
  · rw [hscan] at hslot
    cases Option.some.inj hslot
    exact hfirst
  · exact hfirst.trans (slot_before hi.sorted hlt hscan hslot)

theorem Found.sorted (hi : a.Inv) (hf : Found a elm.key i)
    (hdis : ∀ e ∈ elements a.base, e.Before elm ∨ elm.Before e) :
    (elements (a.base.take i) ++ elm :: elements (a.base.drop i)).Pairwise Bref.Before := by
  have hs := hi.sorted
  rw [← elements_take_append_drop a.base i] at hs
  obtain ⟨hp, hq, hpq⟩ := List.pairwise_append.mp hs
  refine List.pairwise_append.mpr ⟨hp, List.pairwise_cons.mpr ⟨fun e he => hf.after hi hdis he, hq⟩, ?_⟩
  intro e he f hf'
  rcases List.mem_cons.mp hf' with rfl | hf'
  · exact hf.before he
  · exact hpq e he f hf'

theorem elements_drop_liveZero (hi : a.Inv) : elements (a.base.drop a.liveZero) = [] := by
  refine List.eq_nil_iff_forall_not_mem.mpr fun e he => ?_
  obtain ⟨m, hm, hslot⟩ := mem_elements_drop.mp he
  rw [slot_of_stop_le (hi.live ▸ hm) (slot_lt hslot)] at hslot
  cases hslot

/-- Past the last element there is room at `live_zero`. -/
theorem append_spec (hi : a.Inv) (hlt : a.liveZero < a.base.length) (elm : Bref) :
    elements (a.base.set a.liveZero (some elm)) = elements a.base ++ [elm] ∧
      stop (a.base.set a.liveZero (some elm)) a.base.length = a.liveZero + 1 := by
  have hempty := elements_drop_liveZero hi
  have hnext : elements (a.base.drop (a.liveZero + 1)) = [] := by
    refine List.eq_nil_iff_forall_not_mem.mpr fun e he => ?_
    obtain ⟨m, hm, hslot⟩ := mem_elements_drop.mp he
    have hmem := mem_elements_drop.mpr ⟨m, (Nat.le_succ _).trans hm, hslot⟩
    rw [hempty] at hmem
    cases hmem
  constructor
  · rw [List.set_eq_take_append_cons_drop, if_pos hlt, elements_append, elements_some_cons, hnext,
      ← elements_take_append_drop a.base a.liveZero, hempty, List.append_nil]
  · refine stop_eq hlt (fun m h1 h2 => ?_) fun _ => ⟨elm, ?_⟩
    · have hset : slot (a.base.set a.liveZero (some elm)) m = slot a.base m := by
        unfold slot
        rw [List.getElem?_set_ne (by omega)]
      rw [hset]
      exact slot_of_stop_le (hi.live ▸ (show a.liveZero ≤ m by omega)) h2
    · unfold slot
      rw [Nat.add_sub_cancel, List.getElem?_set_self hlt]
      rfl

/-- Filling a hole before the index does not move `live_zero`. -/
theorem stop_fillBefore (elm : Bref) {base : List (Option Bref)} {i j : Nat} (hj : j < i)
    (hi : i ≤ base.length)
    (hlast : i = base.length → stop base base.length = base.length)
    (hhere : i < base.length → ∃ scan, slot base i = some scan) :
    stop (fillBefore base j i elm) base.length = stop base base.length := by
  rcases Nat.eq_or_lt_of_le hi with rfl | hlt
  · rw [hlast rfl]
    refine stop_eq le_rfl (fun m h1 h2 => by omega) fun _ => ⟨elm, ?_⟩
    exact slot_fillBefore_last hj le_rfl elm
  · obtain ⟨scan, hscan⟩ := hhere hlt
    refine stop_congr (i := i) (fun m h1 _ => slot_fillBefore hj hi elm h1) ?_
    by_contra hle
    rw [slot_of_stop_le (by omega) hlt] at hscan
    cases hscan

/-- Filling a hole after the index moves `live_zero` up if the hole was past the last element. -/
theorem stop_fillAfter (elm : Bref) {base : List (Option Bref)} {i k : Nat}
    (hn : Hole.Nearest base i (.after k)) (hhere : ∃ scan, slot base i = some scan) :
    stop (fillAfter base i k elm) base.length =
      if stop base base.length ≤ k then k + 1 else stop base base.length := by
  obtain ⟨hik, hk, hempty, hup⟩ := hn
  have hprev : ∃ scan, slot base (k - 1) = some scan := by
    by_cases hki : k - 1 = i
    · rw [hki]
      exact hhere
    · have hne := hup (k - 1) (by omega) (by omega)
      have hlt : k - 1 < base.length := by omega
      rw [List.getElem?_eq_getElem hlt] at hne
      cases hx : base[k - 1] with
      | none =>
        rw [hx] at hne
        exact absurd rfl hne
      | some scan => exact ⟨scan, slot_eq_some.mpr (by rw [List.getElem?_eq_getElem hlt, hx])⟩
  split
  next hle =>
    refine stop_eq hk (fun m h1 h2 => ?_) fun _ => ?_
    · rw [slot_fillAfter hik hk elm h1]
      exact slot_of_stop_le (by omega) h2
    · rw [Nat.add_sub_cancel, slot_fillAfter_last hik hk]
      exact hprev
  next hgt =>
    refine stop_congr (i := k + 1) (fun m h1 _ => slot_fillAfter hik hk elm h1) ?_
    have hne : stop base base.length ≠ k + 1 := by
      intro heq
      obtain ⟨scan, hscan⟩ := slot_pred_stop (show 0 < stop base base.length by omega)
      rw [heq, Nat.add_sub_cancel, slot_eq_some, hempty] at hscan
      cases hscan
    omega

/-- An element that overlaps nothing goes between the elements before and after it, if there is
an empty slot. -/
theorem baseInsert_spec (hi : a.Inv) (hroom : ∃ m : Nat, a.base[m]? = some none)
    (hdis : ∀ e ∈ elements a.base, e.Before elm ∨ elm.Before e) :
    ∃ a' p q, baseInsert a elm = some a' ∧ a'.Inv ∧ a'.base.length = a.base.length ∧
      elements a.base = p ++ q ∧ elements a'.base = p ++ elm :: q ∧
      a'.stats = a.stats.insert elm := by
  obtain ⟨i, cacheIndex, keyNext, hfind, hfound, -⟩ := baseFind_spec hi 0 elm.key
  have hsorted := hfound.sorted hi hdis
  have hsplit := elements_take_append_drop a.base i
  unfold baseInsert
  rw [hfind]
  simp only
  by_cases happ : i = a.base.length ∧ a.liveZero < a.base.length
  · obtain ⟨helems, hstop⟩ := append_spec hi happ.2 elm
    rw [if_pos happ]
    rw [happ.1, List.take_length, List.drop_length, elements_nil] at hsorted hsplit
    refine ⟨_, elements a.base, [], rfl, ⟨?_, ?_⟩, ?_, hsplit.symm, helems, rfl⟩
    · simp only
      rw [helems]
      exact hsorted
    · simp only
      rw [List.length_set, hstop]
    · simp only
      rw [List.length_set]
  · rw [if_neg happ]
    have hcheck : ((slot a.base i).any fun scan => decide (scan.key < elm.key ∨ scan.key ≤ elm.last)) =
        false := by
      cases hslot : slot a.base i with
      | none => rfl
      | some scan =>
        have hmem := mem_elements_drop.mpr ⟨i, le_rfl, hslot⟩
        have hafter := hfound.after hi hdis hmem
        have hle := elm.key_le_last
        unfold Bref.Before at hafter
        rw [Option.any_some, decide_eq_false_iff_not]
        omega
    rw [hcheck]
    simp only [Bool.false_eq_true, if_false]
    cases hhole : findHole a.base i (a.base.length + 1) 0 with
    | none =>
      obtain ⟨m, hm⟩ := hroom
      have hlt := (List.getElem?_eq_some_iff.mp hm).1
      have hne : m ≠ i := by
        rintro rfl
        obtain ⟨scan, hscan, _⟩ := hfound.here hlt
        rw [slot_eq_some, hm] at hscan
        cases hscan
      exact absurd hm (findHole_none hfound.le (by omega) hhole (by omega))
    | some hole =>
      have hnear := findHole_some (fun m h1 h2 => by omega) hhole
      cases hole with
      | before j =>
        obtain ⟨hj, hempty⟩ := hnear
        have helems := elements_fillBefore hj hempty elm
        have hvalid : validate none (fillBefore a.base j i elm) = true :=
          (validate_sorted (helems ▸ hsorted)).1
        have hlast : i = a.base.length → stop a.base a.base.length = a.base.length := by
          intro heq
          have hle := stop_le a.base a.base.length
          have hlive := hi.live
          by_contra hne
          exact happ ⟨heq, by omega⟩
        have hlen := length_fillBefore hj hfound.le elm
        have hstop := stop_fillBefore elm hj hfound.le hlast fun hlt =>
          (hfound.here hlt).imp fun _ h => h.1
        simp only
        rw [if_pos hvalid]
        refine ⟨_, elements (a.base.take i), elements (a.base.drop i), rfl, ⟨?_, ?_⟩, hlen,
          hsplit.symm, helems, rfl⟩
        · simp only
          rw [helems]
          exact hsorted
        · simp only
          rw [hlen, hstop, hi.live]
      | after k =>
        have hik := hnear.1
        have hkl := hnear.2.1
        have helems := elements_fillAfter hik hnear.2.2.1 elm
        have hvalid : validate none (fillAfter a.base i k elm) = true :=
          (validate_sorted (helems ▸ hsorted)).1
        have hlen := length_fillAfter hik hkl elm
        have hstop := stop_fillAfter elm hnear
          ((hfound.here (by omega)).imp fun _ h => h.1)
        simp only
        rw [if_pos hvalid]
        refine ⟨_, elements (a.base.take i), elements (a.base.drop i), rfl, ⟨?_, ?_⟩, hlen,
          hsplit.symm, helems, rfl⟩
        · simp only
          rw [helems]
          exact hsorted
        · simp only
          rw [hlen, hstop, hi.live]

end Insert

end BrefArray

end Hammer2
