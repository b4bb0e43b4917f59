import Hammer2.BrefArrayOps
import Hammer2.Run

namespace Hammer2

/-- `hammer2_base_insert`, `hammer2_base_delete` of the element that a chain stands for, and a
lookup, which leaves `cache_index` behind. -/
inductive ArrayAction where
  | insert (elm : Bref)
  | delete (elm : Bref) (blkmapupd : Bool)
  | find (keyNext keyBeg : Nat)

def arrayStep (a : BrefArray) : ArrayAction → Option BrefArray
  | .insert elm => a.baseInsert elm
  | .delete elm blkmapupd => (a.baseDelete elm blkmapupd).map Prod.fst
  | .find keyNext keyBeg =>
    (a.baseFind keyNext keyBeg).map fun (_, cacheIndex, _) => { a with cacheIndex := cacheIndex }

/-- What an array is for: a set of elements with disjoint key ranges. -/
def contentStep (content : List Bref) : ArrayAction → List Bref
  | .insert elm => elm :: content
  | .delete elm _ => content.filter fun e => e.key ≠ elm.key
  | .find _ _ => content

/-- An insertion has room and overlaps nothing, and a deletion is of a present element. -/
def ContentAllows (count : Nat) (content : List Bref) : ArrayAction → Prop
  | .insert elm => content.length < count ∧ ∀ e ∈ content, e.Before elm ∨ elm.Before e
  | .delete elm blkmapupd =>
    ∃ e ∈ content, e.key = elm.key ∧ (blkmapupd = true ∨ e.keybits = elm.keybits)
  | .find _ _ => True

def ContentAllowsAll (count : Nat) : List Bref → List ArrayAction → Prop
  | _, [] => True
  | content, act :: acts =>
    ContentAllows count content act ∧ ContentAllowsAll count (contentStep content act) acts

namespace BrefArray

open SlotList

theorem exists_empty_slot {l : List (Option Bref)} (h : (elements l).length < l.length) :
    ∃ m : Nat, l[m]? = some none := by
  induction l with
  | nil => cases h
  | cons x l ih =>
    cases x with
    | none => exact ⟨0, rfl⟩
    | some e =>
      rw [elements_some_cons, List.length_cons, List.length_cons] at h
      obtain ⟨m, hm⟩ := ih (by omega)
      exact ⟨m + 1, hm⟩

theorem filter_key_ne {p q : List Bref} {scan : Bref} {key : Nat} (hkey : scan.key = key)
    (hs : (p ++ scan :: q).Pairwise Bref.Before) :
    (p ++ scan :: q).filter (fun e => e.key ≠ key) = p ++ q := by
  obtain ⟨_, hq, hpq⟩ := List.pairwise_append.mp hs
  have hp : ∀ e ∈ p, decide (e.key ≠ key) = true := by
    intro e he
    have hbefore := hpq e he scan List.mem_cons_self
    have hle := e.key_le_last
    unfold Bref.Before at hbefore
    rw [decide_eq_true_eq]
    omega
  have hq' : ∀ e ∈ q, decide (e.key ≠ key) = true := by
    intro e he
    have hbefore := (List.pairwise_cons.mp hq).1 e he
    have hle := scan.key_le_last
    unfold Bref.Before at hbefore
    rw [decide_eq_true_eq]
    omega
  rw [List.filter_append, List.filter_eq_self.mpr hp, List.filter_cons_of_neg (by simp [hkey]),
    List.filter_eq_self.mpr hq']

/-- One step on the array does what it does on the set of elements. -/
theorem arrayStep_content {a : BrefArray} {content : List Bref} {act : ArrayAction} (hi : a.Inv)
    (hperm : (elements a.base).Perm content) (hok : ContentAllows a.base.length content act) :
    ∃ a', arrayStep a act = some a' ∧ a'.Inv ∧ a'.base.length = a.base.length ∧
      (elements a'.base).Perm (contentStep content act) := by
  cases act with
  | insert elm =>
    obtain ⟨hroom, hdis⟩ := hok
    rw [← hperm.length_eq] at hroom
    obtain ⟨a', p, q, hins, hinv, hlen, hold, hnew, -⟩ :=
      baseInsert_spec hi (exists_empty_slot hroom) fun e he => hdis e (hperm.mem_iff.mp he)
    refine ⟨a', hins, hinv, hlen, ?_⟩
    rw [hnew]
    exact List.perm_middle.trans ((hold ▸ hperm).cons elm)
  | delete elm blkmapupd =>
    obtain ⟨e, he, hkey, hbits⟩ := hok
    obtain ⟨a', p, q, hdel, hinv, hlen, hold, hnew, -⟩ :=
      baseDelete_spec hi (hperm.mem_iff.mpr he) hkey hbits
    refine ⟨a', ?_, hinv, hlen, ?_⟩
    · simp only [arrayStep]
      rw [hdel]
      rfl
    · have hsorted := hi.sorted
      rw [hold] at hsorted hperm
      have hfilter := hperm.filter fun e => e.key ≠ elm.key
      rw [filter_key_ne hkey hsorted] at hfilter
      rw [hnew]
      exact hfilter
  | find keyNext keyBeg =>
    obtain ⟨i, cacheIndex, keyNext', hfind, -, -⟩ := baseFind_spec hi keyNext keyBeg
    refine ⟨{ a with cacheIndex := cacheIndex }, ?_, ⟨hi.sorted, hi.live⟩, rfl, hperm⟩
    simp only [arrayStep]
    rw [hfind]
    rfl

theorem exec_content {a : BrefArray} {content : List Bref} (acts : List ArrayAction) (hi : a.Inv)
    (hperm : (elements a.base).Perm content)
    (hok : ContentAllowsAll a.base.length content acts) :
    ∃ a', Run.exec arrayStep a acts = some a' ∧ a'.Inv ∧ a'.base.length = a.base.length ∧
      (elements a'.base).Perm (acts.foldl contentStep content) := by
  induction acts generalizing a content with
  | nil => exact ⟨a, rfl, hi, rfl, hperm⟩
  | cons act acts ih =>
    obtain ⟨hact, hacts⟩ := hok
    obtain ⟨a₁, hstep, hi₁, hlen₁, hperm₁⟩ := arrayStep_content hi hperm hact
    obtain ⟨a₂, hexec, hi₂, hlen₂, hperm₂⟩ := ih hi₁ hperm₁ (hlen₁ ▸ hacts)
    refine ⟨a₂, ?_, hi₂, hlen₂.trans hlen₁, hperm₂⟩
    unfold Run.exec
    rw [hstep]
    exact hexec

end BrefArray

open SlotList in
/-- Every allowed sequence of insertions, deletions and lookups runs without a panic on a blockref
array, whatever holes and whatever `cache_index` it has, and leaves exactly the elements that were
inserted and not deleted, sorted and disjoint, with `live_zero` one past the last of them. -/
theorem base_array_run (a₀ : BrefArray) (acts : List ArrayAction)
    (hsorted : (elements a₀.base).Pairwise Bref.Before)
    (hok : ContentAllowsAll a₀.base.length (elements a₀.base) acts) :
    ∃ a, Run.exec arrayStep a₀.countbrefs acts = some a ∧
      (elements a.base).Pairwise Bref.Before ∧
      (elements a.base).Perm (acts.foldl contentStep (elements a₀.base)) ∧
      a.base.length = a₀.base.length ∧
      (∀ i, a.liveZero ≤ i → slot a.base i = none) ∧
      (0 < a.liveZero → ∃ e, slot a.base (a.liveZero - 1) = some e) := by
  have hinit : a₀.countbrefs.Inv := ⟨hsorted, rfl⟩
  obtain ⟨a, hexec, hi, hlen, hperm⟩ := BrefArray.exec_content acts hinit (List.Perm.refl _) hok
  refine ⟨a, hexec, hi.sorted, hperm, hlen, fun i hle => ?_, fun hpos => ?_⟩
  · by_cases hlt : i < a.base.length
    · exact slot_of_stop_le (hi.live ▸ hle) hlt
    · unfold slot
      rw [List.getElem?_eq_none (by omega)]
      rfl
  · rw [hi.live] at hpos ⊢
    exact slot_pred_stop hpos

/-- A data element of 16KB at a 16KB aligned key. -/
def dataBref (n : Nat) (h : n < 1024) : Bref where
  type := .data
  key := n * 16384
  keybits := 14
  dataOff := 14
  stats := ⟨0, 0, 0⟩
  keybits_lt := by omega
  fits := by omega

/-- An array of four slots with three elements, not counted yet. -/
def holesArray : BrefArray :=
  ⟨[some (dataBref 1 (by decide)), some (dataBref 3 (by decide)), some (dataBref 5 (by decide)), none],
    0, 7, ⟨0, 0, 0⟩⟩

/-- The deletion leaves a hole on the left. The first insertion fills the slot on the right, the
second one the hole. -/
def holesRun : List ArrayAction :=
  [.delete (dataBref 1 (by decide)) false, .insert (dataBref 4 (by decide)),
    .insert (dataBref 2 (by decide))]

theorem base_array_run_holes :
    ∃ a, Run.exec arrayStep holesArray.countbrefs holesRun = some a ∧
      (SlotList.elements a.base).map Bref.key = [32768, 49152, 65536, 81920] ∧
      (SlotList.elements a.base).Pairwise Bref.Before := by
  have hsorted : (SlotList.elements holesArray.base).Pairwise Bref.Before := by decide
  have hok : ContentAllowsAll holesArray.base.length (SlotList.elements holesArray.base) holesRun := by
    refine ⟨⟨dataBref 1 (by decide), by decide, rfl, Or.inr rfl⟩, ?_, ?_, trivial⟩
    · exact ⟨by decide, by decide⟩
    · exact ⟨by decide, by decide⟩
  have hkeys : (Run.exec arrayStep holesArray.countbrefs holesRun).map
      (fun a => (SlotList.elements a.base).map Bref.key) = some [32768, 49152, 65536, 81920] := by
    decide
  obtain ⟨a, hexec, hpair, -⟩ := base_array_run holesArray holesRun hsorted hok
  rw [hexec] at hkeys
  exact ⟨a, hexec, Option.some.inj hkeys, hpair⟩

end Hammer2
