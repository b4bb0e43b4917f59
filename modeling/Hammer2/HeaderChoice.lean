import Hammer2.FirstMax
import Hammer2.VolumeHeader

namespace Hammer2

open FirstMax

def volumeIdAbo : Nat := 0x11201705324d4148

/-- One round of the loop of the kernel's `hammer2_read_volume_header`, with the result of the read. -/
def kernelZone (mediasize : Nat) (slots : Nat → Option VolumeData)
    (best : Option (Nat × VolumeData)) (i : Nat) : Option (Nat × VolumeData) :=
  if mediasize ≤ i * zoneBytes then best
  else match slots i with
    | none => best
    | some vd => readZone mediasize (fun _ => vd) best i

def kernelReadVolumeHeader (mediasize : Nat) (slots : Nat → Option VolumeData) :
    Option (Nat × VolumeData) :=
  (List.range numVolhdrs).foldl (kernelZone mediasize slots) none

/-- The loop of the userland `hammer2_read_volume_header`, which ends at the first zone outside the
volume. -/
def userReadZones (size : Nat) (slots : Nat → Option VolumeData) :
    List Nat → Option (Nat × VolumeData) → Option (Nat × VolumeData)
  | [], best => best
  | i :: is, best =>
    if size ≤ i * zoneBytes then best
    else match slots i with
      | none => userReadZones size slots is best
      | some vd =>
        if vd.magic ≠ volumeIdHbo ∧ vd.magic ≠ volumeIdAbo then userReadZones size slots is best
        else if vd.magic = volumeIdAbo then userReadZones size slots is best
        else if ¬ vd.Intact then userReadZones size slots is best
        else userReadZones size slots is (pick (fun c => VolumeData.mirrorTid c.2) best (i, vd))

def userReadVolumeHeader (size : Nat) (slots : Nat → Option VolumeData) :
    Option (Nat × VolumeData) :=
  userReadZones size slots (List.range numVolhdrs) none

/-- The loop of `find_best_zone`. It gives up at a read error and looks at the magic only. -/
def findBestZones (size : Nat) (slots : Nat → Option VolumeData) :
    List Nat → Option (Nat × VolumeData) → Option (Nat × VolumeData)
  | [], best => best
  | i :: is, best =>
    if size ≤ i * zoneBytes then best
    else match slots i with
      | none => none
      | some vd =>
        if vd.magic ≠ volumeIdHbo ∧ vd.magic ≠ volumeIdAbo then findBestZones size slots is best
        else findBestZones size slots is (pick (fun c => VolumeData.mirrorTid c.2) best (i, vd))

def findBestZone (size : Nat) (slots : Nat → Option VolumeData) : Option Nat :=
  (findBestZones size slots (List.range numVolhdrs) none).map (·.1)

/-- The zone fsck works on: the volume is opened by the userland reader, and its size is the one in the
header found there. -/
def fsckZone (mediasize : Nat) (slots : Nat → Option VolumeData) : Option Nat :=
  (userReadVolumeHeader mediasize slots).bind fun c => findBestZone (VolumeData.voluSize c.2) slots

/-- The copies below `size` that could be read and pass a test. -/
def copies (size : Nat) (ok : VolumeData → Prop) [DecidablePred ok]
    (slots : Nat → Option VolumeData) (zones : List Nat) : List (Nat × VolumeData) :=
  zones.filterMap fun i =>
    if size ≤ i * zoneBytes then none
    else (slots i).bind fun vd => if ok vd then some (i, vd) else none

section Copies

variable {size : Nat} {ok : VolumeData → Prop} [DecidablePred ok] {slots : Nat → Option VolumeData}
  {zones : List Nat}

theorem mem_copies {i : Nat} {vd : VolumeData} :
    (i, vd) ∈ copies size ok slots zones ↔
      i ∈ zones ∧ i * zoneBytes < size ∧ slots i = some vd ∧ ok vd := by
  unfold copies
  rw [List.mem_filterMap]
  constructor
  · rintro ⟨j, hj, h⟩
    obtain ⟨hs, h⟩ := Option.ite_none_left_eq_some.mp h
    obtain ⟨w, hw, h⟩ := Option.bind_eq_some_iff.mp h
    obtain ⟨ho, ⟨⟩⟩ := Option.ite_none_right_eq_some.mp h
    exact ⟨hj, by omega, hw, ho⟩
  · rintro ⟨hz, hs, hv, ho⟩
    refine ⟨i, hz, ?_⟩
    rw [if_neg (by omega), hv, Option.bind_some, if_pos ho]

theorem copies_pairwise (hz : zones.Pairwise (· < ·)) :
    (copies size ok slots zones).Pairwise (·.1 < ·.1) := by
  unfold copies
  rw [List.pairwise_filterMap]
  refine hz.imp ?_
  intro i j hij a ha b hb
  have hfst : ∀ {i : Nat} {a : Nat × VolumeData}, (if size ≤ i * zoneBytes then none
      else (slots i).bind fun vd => if ok vd then some (i, vd) else none) = some a → a.1 = i := by
    intro i a h
    obtain ⟨-, h⟩ := Option.ite_none_left_eq_some.mp h
    obtain ⟨w, -, h⟩ := Option.bind_eq_some_iff.mp h
    obtain ⟨-, ⟨⟩⟩ := Option.ite_none_right_eq_some.mp h
    rfl
  rw [hfst ha, hfst hb]
  exact hij

/-- The zones from the first one outside the volume on have no copies. -/
theorem copies_nil {i : Nat} {is : List Nat} (hz : (i :: is).Pairwise (· < ·))
    (hs : size ≤ i * zoneBytes) : copies size ok slots (i :: is) = [] := by
  unfold copies
  refine List.filterMap_eq_nil_iff.mpr ?_
  intro j hj
  have hle : i ≤ j := by
    rcases List.mem_cons.mp hj with rfl | hj
    · exact Nat.le_refl _
    · exact Nat.le_of_lt ((List.pairwise_cons.mp hz).1 j hj)
  have hmul := Nat.mul_le_mul_right zoneBytes hle
  exact if_pos (by omega)

end Copies

/-- How recent a copy is. -/
def copyTid (c : Nat × VolumeData) : Nat := VolumeData.mirrorTid c.2

/-- The magics `find_best_zone` takes. -/
def VolumeData.AnyMagic (vd : VolumeData) : Prop :=
  vd.magic = volumeIdHbo ∨ vd.magic = volumeIdAbo

instance (vd : VolumeData) : Decidable vd.AnyMagic := inferInstanceAs (Decidable (_ ∨ _))

section Loops

variable {size : Nat} {slots : Nat → Option VolumeData}

theorem copies_cons (ok : VolumeData → Prop) [DecidablePred ok] (i : Nat) (is : List Nat) :
    copies size ok slots (i :: is) = copies size ok slots [i] ++ copies size ok slots is := by
  unfold copies
  rw [← List.filterMap_append]
  rfl

theorem copies_single (ok : VolumeData → Prop) [DecidablePred ok] {i : Nat} {vd : VolumeData}
    (hs : ¬ size ≤ i * zoneBytes) (hv : slots i = some vd) :
    copies size ok slots [i] = if ok vd then [(i, vd)] else [] := by
  unfold copies
  by_cases ho : ok vd <;> simp [hs, hv, ho]

theorem readZone_intact {i : Nat} {vd : VolumeData} (hs : ¬ size ≤ i * zoneBytes)
    (hi : vd.Intact) (best : Option (Nat × VolumeData)) :
    readZone size (fun _ => vd) best i = pick copyTid best (i, vd) := by
  unfold readZone pick
  rw [if_neg hs, if_neg (not_not.mpr hi)]
  split
  next => rfl
  next z w =>
    have hb : copyTid (z, w) = w.mirrorTid := rfl
    have hc : copyTid (i, vd) = vd.mirrorTid := rfl
    simp only [hb, hc]

theorem kernelZone_eq (best : Option (Nat × VolumeData)) (i : Nat) :
    kernelZone size slots best i =
      (copies size VolumeData.Intact slots [i]).foldl (pick copyTid) best := by
  unfold kernelZone
  split
  next hs => rw [copies_nil (by simp) hs, List.foldl_nil]
  next hs =>
    split
    next hv => simp [copies, hs, hv]
    next vd hv =>
      rw [copies_single _ hs hv]
      by_cases hi : vd.Intact
      · rw [readZone_intact hs hi, if_pos hi, List.foldl_cons, List.foldl_nil]
      · unfold readZone
        rw [if_neg hs, if_pos hi, if_neg hi, List.foldl_nil]

theorem kernel_foldl (zones : List Nat) (best : Option (Nat × VolumeData)) :
    zones.foldl (kernelZone size slots) best =
      (copies size VolumeData.Intact slots zones).foldl (pick copyTid) best := by
  induction zones generalizing best with
  | nil => rfl
  | cons i is ih => rw [List.foldl_cons, ih, kernelZone_eq, copies_cons _ i is, List.foldl_append]

theorem user_foldl {zones : List Nat} (hz : zones.Pairwise (· < ·))
    (best : Option (Nat × VolumeData)) :
    userReadZones size slots zones best =
      (copies size VolumeData.Intact slots zones).foldl (pick copyTid) best := by
  induction zones generalizing best with
  | nil => rfl
  | cons i is ih =>
    have ih := ih (List.pairwise_cons.mp hz).2
    unfold userReadZones
    split
    next hs => rw [copies_nil hz hs, List.foldl_nil]
    next hs =>
      rw [copies_cons, List.foldl_append]
      split
      next hv =>
        rw [ih]
        simp [copies, hs, hv]
      next vd hv =>
        rw [copies_single _ hs hv]
        by_cases hm : vd.magic ≠ volumeIdHbo ∧ vd.magic ≠ volumeIdAbo
        · rw [if_pos hm, ih, if_neg fun hi => hm.1 hi.1, List.foldl_nil]
        · rw [if_neg hm]
          split
          next ha =>
            have hne : ¬ vd.Intact := by
              intro hi
              have h := hi.1
              rw [ha] at h
              revert h
              decide
            rw [ih, if_neg hne, List.foldl_nil]
          next ha =>
            by_cases hi : vd.Intact
            · rw [if_neg (not_not.mpr hi), ih, if_pos hi, List.foldl_cons, List.foldl_nil]
              rfl
            · rw [if_pos hi, ih, if_neg hi, List.foldl_nil]

/-- Without a read error fsck takes the most recent copy with a magic. -/
theorem findBest_foldl {zones : List Nat} (hz : zones.Pairwise (· < ·))
    (hread : ∀ i ∈ zones, i * zoneBytes < size → slots i ≠ none)
    (best : Option (Nat × VolumeData)) :
    findBestZones size slots zones best =
      (copies size VolumeData.AnyMagic slots zones).foldl (pick copyTid) best := by
  induction zones generalizing best with
  | nil => rfl
  | cons i is ih =>
    have ih := ih (List.pairwise_cons.mp hz).2 fun j hj => hread j (List.mem_cons_of_mem _ hj)
    unfold findBestZones
    split
    next hs => rw [copies_nil hz hs, List.foldl_nil]
    next hs =>
      rw [copies_cons, List.foldl_append]
      split
      next hv => exact absurd hv (hread i List.mem_cons_self (by omega))
      next vd hv =>
        rw [copies_single _ hs hv]
        split
        next hm => rw [ih, if_neg fun ho => ho.elim hm.1 hm.2, List.foldl_nil]
        next hm =>
          have ho : vd.AnyMagic := by
            by_contra hno
            exact hm ⟨fun h => hno (Or.inl h), fun h => hno (Or.inr h)⟩
          rw [ih, if_pos ho]
          rfl

/-- With a read error fsck finds no zone. -/
theorem findBest_unreadable {zones : List Nat} (hz : zones.Pairwise (· < ·))
    (hread : ∃ i ∈ zones, i * zoneBytes < size ∧ slots i = none)
    (best : Option (Nat × VolumeData)) : findBestZones size slots zones best = none := by
  induction zones generalizing best with
  | nil => simp at hread
  | cons i is ih =>
    obtain ⟨j, hj, hjs, hv⟩ := hread
    have hle : i ≤ j := by
      rcases List.mem_cons.mp hj with rfl | hj
      · exact Nat.le_refl _
      · exact Nat.le_of_lt ((List.pairwise_cons.mp hz).1 j hj)
    have hmul := Nat.mul_le_mul_right zoneBytes hle
    unfold findBestZones
    rw [if_neg (by omega)]
    split
    next => rfl
    next vd hvi =>
      have hji : j ∈ is := by
        rcases List.mem_cons.mp hj with rfl | hj
        · rw [hv] at hvi
          cases hvi
        · exact hj
      have ih := ih (List.pairwise_cons.mp hz).2 ⟨j, hji, hjs, hv⟩
      split
      · exact ih _
      · exact ih _

end Loops

/-- The first copy is the more recent one, or as recent as the second and not behind it. -/
def Outranks (c d : Nat × VolumeData) : Prop :=
  copyTid d < copyTid c ∨ (copyTid d = copyTid c ∧ c.1 ≤ d.1)

/-- The kernel, the userland tools and fsck select the same zone, or none of them finds one. -/
def ToolsAgree (mediasize : Nat) (slots : Nat → Option VolumeData) : Prop :=
  (kernelReadVolumeHeader mediasize slots).map (·.1) =
      (userReadVolumeHeader mediasize slots).map (·.1) ∧
    (userReadVolumeHeader mediasize slots).map (·.1) = fsckZone mediasize slots

/-- An intact copy inside the device. -/
def IntactCopy (mediasize : Nat) (slots : Nat → Option VolumeData) (c : Nat × VolumeData) : Prop :=
  c.1 < numVolhdrs ∧ c.1 * zoneBytes < mediasize ∧ slots c.1 = some c.2 ∧ VolumeData.Intact c.2

/-- No copy is intact, or there is an intact one that outranks the other intact ones and every copy
below its `volu_size` that has a magic, is itself below its `volu_size`, and all copies there can be
read. -/
def HeaderOutranks (mediasize : Nat) (slots : Nat → Option VolumeData) : Prop :=
  (∀ c, ¬ IntactCopy mediasize slots c) ∨
    ∃ c, IntactCopy mediasize slots c ∧ (∀ d, IntactCopy mediasize slots d → Outranks c d) ∧
      c.1 * zoneBytes < VolumeData.voluSize c.2 ∧
      (∀ i, i < numVolhdrs → i * zoneBytes < VolumeData.voluSize c.2 → slots i ≠ none) ∧
      ∀ i vd, i < numVolhdrs → i * zoneBytes < VolumeData.voluSize c.2 → slots i = some vd →
        vd.AnyMagic → Outranks c (i, vd)

section Agree

variable {mediasize : Nat} {slots : Nat → Option VolumeData}

theorem zones_pairwise : (List.range numVolhdrs).Pairwise (· < ·) := List.pairwise_lt_range

theorem kernel_eq_user :
    kernelReadVolumeHeader mediasize slots = userReadVolumeHeader mediasize slots := by
  unfold kernelReadVolumeHeader userReadVolumeHeader
  rw [kernel_foldl, user_foldl zones_pairwise]

theorem mem_intact {c : Nat × VolumeData} :
    c ∈ copies mediasize VolumeData.Intact slots (List.range numVolhdrs) ↔
      IntactCopy mediasize slots c := by
  rw [mem_copies, List.mem_range]
  rfl

theorem user_eq_none :
    userReadVolumeHeader mediasize slots = none ↔ ∀ c, ¬ IntactCopy mediasize slots c := by
  unfold userReadVolumeHeader
  rw [user_foldl zones_pairwise, foldl_pick_eq_none, List.eq_nil_iff_forall_not_mem]
  simp only [mem_intact]

theorem user_eq_some {c : Nat × VolumeData} :
    userReadVolumeHeader mediasize slots = some c ↔
      IntactCopy mediasize slots c ∧ ∀ d, IntactCopy mediasize slots d → Outranks c d := by
  unfold userReadVolumeHeader
  rw [user_foldl zones_pairwise, foldl_pick_iff (copies_pairwise zones_pairwise)]
  simp only [mem_intact]
  rfl

/-- fsck takes zone `c` of the copies below `size`. -/
theorem findBestZone_eq_some (size : Nat) {c : Nat × VolumeData} (hc : slots c.1 = some c.2)
    (hlt : c.1 < numVolhdrs) (hm : VolumeData.AnyMagic c.2) :
    findBestZone size slots = some c.1 ↔
      c.1 * zoneBytes < size ∧
      (∀ i, i < numVolhdrs → i * zoneBytes < size → slots i ≠ none) ∧
      ∀ i vd, i < numVolhdrs → i * zoneBytes < size → slots i = some vd → vd.AnyMagic →
        Outranks c (i, vd) := by
  unfold findBestZone
  by_cases hread : ∃ i ∈ List.range numVolhdrs, i * zoneBytes < size ∧ slots i = none
  · rw [findBest_unreadable zones_pairwise hread]
    obtain ⟨i, hi, his, hv⟩ := hread
    simp only [Option.map_none, reduceCtorEq, false_iff]
    rintro ⟨-, h, -⟩
    exact h i (List.mem_range.mp hi) his hv
  · have hread' : ∀ i, i < numVolhdrs → i * zoneBytes < size → slots i ≠ none := by
      intro i hi his hv
      exact hread ⟨i, List.mem_range.mpr hi, his, hv⟩
    rw [findBest_foldl zones_pairwise fun i hi => hread' i (List.mem_range.mp hi),
      Option.map_eq_some_iff]
    have hmem : ∀ d : Nat × VolumeData,
        d ∈ copies size VolumeData.AnyMagic slots (List.range numVolhdrs) ↔
          d.1 < numVolhdrs ∧ d.1 * zoneBytes < size ∧ slots d.1 = some d.2 ∧
            VolumeData.AnyMagic d.2 := by
      intro d
      rw [mem_copies, List.mem_range]
    constructor
    · rintro ⟨d, hd, hdc⟩
      rw [foldl_pick_iff (copies_pairwise zones_pairwise)] at hd
      obtain ⟨hd, hall⟩ := hd
      obtain ⟨-, hds, hdv, -⟩ := (hmem d).mp hd
      have hdc : d = c := by
        refine Prod.ext hdc ?_
        rw [hdc, hc] at hdv
        exact (Option.some.inj hdv).symm
      subst d
      refine ⟨hds, hread', ?_⟩
      intro i vd hi his hv ho
      exact hall (i, vd) ((hmem (i, vd)).mpr ⟨hi, his, hv, ho⟩)
    · rintro ⟨hs, -, hall⟩
      refine ⟨c, ?_, rfl⟩
      rw [foldl_pick_iff (copies_pairwise zones_pairwise)]
      refine ⟨(hmem c).mpr ⟨hlt, hs, hc, hm⟩, ?_⟩
      intro d hd
      obtain ⟨hd, hds, hdv, hdo⟩ := (hmem d).mp hd
      exact hall d.1 d.2 hd hds hdv hdo

end Agree

/-- All tools pick the same header exactly when the newest intact one outranks whatever else has a
magic. -/
theorem tools_agree_iff (mediasize : Nat) (slots : Nat → Option VolumeData) :
    ToolsAgree mediasize slots ↔ HeaderOutranks mediasize slots := by
  unfold ToolsAgree fsckZone
  rw [kernel_eq_user]
  simp only [true_and]
  cases hu : userReadVolumeHeader mediasize slots with
  | none => exact ⟨fun _ => Or.inl (user_eq_none.mp hu), fun _ => rfl⟩
  | some c =>
    obtain ⟨hc, hall⟩ := user_eq_some.mp hu
    have hz := findBestZone_eq_some (VolumeData.voluSize c.2) hc.2.2.1 hc.1
      (Or.inl hc.2.2.2.1)
    rw [Option.map_some, Option.bind_some, eq_comm, hz]
    constructor
    · intro h
      exact Or.inr ⟨c, hc, hall, h⟩
    · rintro (h | ⟨d, hd, hdall, h⟩)
      · exact absurd hc (h c)
      · have hdu := user_eq_some.mpr ⟨hd, hdall⟩
        rw [hu] at hdu
        cases Option.some.inj hdu
        exact h

/-- A good header of an 8GB volume with `mirror_tid` 5. -/
def goodHeader : VolumeData :=
  (((VolumeData.setMagic (fun _ => 0#8) volumeIdHbo).setVoluSize 8589934592).setMirrorTid 5).updateIcrc

/-- A header with `mirror_tid` 6 whose check codes were not written. -/
def tornHeader : VolumeData := (VolumeData.setMagic (fun _ => 0#8) volumeIdHbo).setMirrorTid 6

/-- The good header in zone 0, the torn one in zone 1, and two cleared zones. -/
def tornSlots : Nat → Option VolumeData
  | 0 => some goodHeader
  | 1 => some tornHeader
  | _ => some fun _ => 0#8

theorem goodHeader_intact : goodHeader.Intact := by
  refine updateIcrc_intact ?_
  rw [magic_setMirrorTid, magic_setVoluSize]
  exact magic_setMagic _ _ (by decide)

theorem goodHeader_mirrorTid : goodHeader.mirrorTid = 5 := by
  unfold goodHeader
  rw [mirrorTid_updateIcrc]
  exact mirrorTid_setMirrorTid _ _ (by decide)

theorem goodHeader_voluSize : goodHeader.voluSize = 8589934592 := by
  unfold goodHeader
  rw [voluSize_updateIcrc, voluSize_setMirrorTid]
  exact voluSize_setVoluSize _ _ (by decide)

theorem tornHeader_mirrorTid : tornHeader.mirrorTid = 6 :=
  mirrorTid_setMirrorTid _ _ (by decide)

theorem tornHeader_magic : tornHeader.magic = volumeIdHbo := by
  unfold tornHeader
  rw [magic_setMirrorTid]
  exact magic_setMagic _ _ (by decide)

theorem tornHeader_not_intact : ¬ tornHeader.Intact := by
  intro h
  have h0 := h.2.1
  revert h0
  decide +kernel

theorem tornSlots_user : userReadVolumeHeader 8589934592 tornSlots = some (0, goodHeader) := by
  refine user_eq_some.mpr ⟨⟨by decide, by decide, rfl, goodHeader_intact⟩, ?_⟩
  rintro ⟨i, vd⟩ ⟨hi, -, hv, hint⟩
  dsimp only at hi hv hint
  match i with
  | 0 =>
    cases Option.some.inj hv
    exact Or.inr ⟨rfl, Nat.le_refl _⟩
  | 1 =>
    cases Option.some.inj hv
    exact absurd hint tornHeader_not_intact
  | n + 2 =>
    cases Option.some.inj hv
    exact absurd hint zero_not_intact

/-- fsck works on the torn header although the other tools use the good one. -/
theorem fsck_picks_torn_header : ¬ ToolsAgree 8589934592 tornSlots := by
  rintro ⟨-, h⟩
  unfold fsckZone at h
  rw [tornSlots_user, Option.map_some, Option.bind_some, eq_comm] at h
  have hz := (findBestZone_eq_some _ (c := (0, goodHeader)) rfl (by decide)
    (Or.inl goodHeader_intact.1)).mp h
  have hv : 1 * zoneBytes < goodHeader.voluSize := by
    rw [goodHeader_voluSize]
    decide
  rcases hz.2.2 1 tornHeader (by decide) hv rfl (Or.inl tornHeader_magic) with ho | ⟨ho, -⟩
  · unfold copyTid at ho
    dsimp only at ho
    rw [tornHeader_mirrorTid, goodHeader_mirrorTid] at ho
    omega
  · unfold copyTid at ho
    dsimp only at ho
    rw [tornHeader_mirrorTid, goodHeader_mirrorTid] at ho
    omega

end Hammer2
