import Hammer2.Newfs

namespace Hammer2

open ByteImage

/-- Nothing from `lim` on was written, and the device did not grow past `lim`. -/
structure Keeps (lim : Nat) (d d' : Device) : Prop where
  size_le : d.size ≤ d'.size
  le_size : d'.size ≤ max d.size lim
  bytes : ∀ k, lim ≤ k → d'.bytes k = d.bytes k

namespace Keeps

variable {lim lim' : Nat} {d d' d'' : Device}

theorem refl (lim : Nat) (d : Device) : Keeps lim d d :=
  ⟨Nat.le_refl _, Nat.le_max_left _ _, fun _ _ => rfl⟩

theorem trans (h : Keeps lim d d') (h' : Keeps lim d' d'') : Keeps lim d d'' where
  size_le := Nat.le_trans h.size_le h'.size_le
  le_size := by
    have := h.le_size
    have := h'.le_size
    omega
  bytes k hk := (h'.bytes k hk).trans (h.bytes k hk)

theorem mono (h : Keeps lim d d') (hlim : lim ≤ lim') : Keeps lim' d d' where
  size_le := h.size_le
  le_size := by
    have := h.le_size
    omega
  bytes k hk := h.bytes k (Nat.le_trans hlim hk)

end Keeps

theorem pwrite_eq_some {d d' : Device} {buf : Image} {off : Nat} (h : pwrite d buf off = some d') :
    off + pbufBytes < offMax ∧ d'.size = max d.size (off + pbufBytes) ∧
    d'.bytes = fun k => if off ≤ k ∧ k < off + pbufBytes then buf (k - off) else d.bytes k := by
  unfold pwrite at h
  split at h
  next hb =>
    cases Option.some.inj h
    exact ⟨hb.1, rfl, rfl⟩
  next => cases h

theorem pwrite_keeps {d d' : Device} {buf : Image} {off lim : Nat}
    (h : pwrite d buf off = some d') (hlim : off + pbufBytes ≤ lim) : Keeps lim d d' := by
  obtain ⟨-, hs, hb⟩ := pwrite_eq_some h
  refine ⟨by omega, by omega, ?_⟩
  intro k hk
  rw [hb]
  exact if_neg (by omega)

theorem clearBlocks_keeps {n off lim : Nat} {d d' : Device}
    (h : clearBlocks d off n = some d')
    (hlim : off + n * pbufBytes ≤ lim) : Keeps lim d d' := by
  induction n generalizing d off with
  | zero =>
    cases Option.some.inj h
    exact .refl _ _
  | succ n ih =>
    obtain ⟨d1, h1, h2⟩ := Option.bind_eq_some_iff.mp h
    rw [Nat.add_one_mul] at hlim
    exact (pwrite_keeps h1 (by omega)).trans (ih h2 (by omega))

theorem formatMisc_keeps {opt : MkfsOptions} {d d' : Device} {allocBase : Nat}
    (h : formatMisc opt d = some (d', allocBase)) :
    Keeps freemapLevel1Size d d' ∧ allocBase % pbufBytes = 0 ∧ allocBase < freemapLevel1Size := by
  obtain ⟨d1, h1, h⟩ := Option.bind_eq_some_iff.mp h
  obtain ⟨⟨hmod, hlt⟩, h⟩ := Option.ite_none_right_eq_some.mp h
  obtain ⟨d2, h2, heq⟩ := Option.map_eq_some_iff.mp h
  cases heq
  refine ⟨(clearBlocks_keeps h1 (by decide)).trans (clearBlocks_keeps h2 ?_), hmod, hlt⟩
  generalize (auxBase opt + opt.auxAreaSize) % offMod = a at hmod hlt
  unfold freemapLevel1Size pbufBytes bootBase zoneSeg at *
  omega

theorem formatInode_keeps {opt : MkfsOptions} {d d' : Device} {allocBase next : Nat}
    {blockset : Image} (h : formatInode opt d allocBase = some (d', next, blockset))
    (hmod : allocBase % pbufBytes = 0) (hlt : allocBase < freemapLevel1Size) :
    Keeps freemapLevel1Size d d' := by
  unfold formatInode at h
  dsimp only at h
  obtain ⟨-, h⟩ := Option.ite_none_right_eq_some.mp h
  obtain ⟨d1, h1, heq⟩ := Option.map_eq_some_iff.mp h
  cases heq
  refine pwrite_keeps h1 ?_
  unfold freemapLevel1Size pbufBytes at *
  omega

theorem formatRoot_keeps {opt : MkfsOptions} {vol : Volume} {d d' : Device} {allocBase : Nat}
    {blockset : Image} (h : formatRoot opt vol d = some (d', allocBase, blockset)) :
    Keeps freemapLevel1Size d d' := by
  unfold formatRoot at h
  split at h
  next =>
    obtain ⟨⟨d1, base⟩, hmisc, hinode⟩ := Option.bind_eq_some_iff.mp h
    obtain ⟨hkeep, hmod, hlt⟩ := formatMisc_keeps hmisc
    exact hkeep.trans (formatInode_keeps hinode hmod hlt)
  next =>
    cases Option.some.inj h
    exact .refl _ _

/-- A header block is put in its place and leaves the other zones alone. -/
theorem pwrite_header {d d' : Device} {hdr : VolumeData} {i : Nat}
    (h : pwrite d hdr (i * zoneBytes) = some d') (hend : ∀ k, pbufBytes ≤ k → hdr k = 0#8) (z : Nat) :
    d'.header z = if z = i then hdr else d.header z := by
  obtain ⟨-, -, hb⟩ := pwrite_eq_some h
  unfold Device.header Device.read
  rw [hb]
  funext k
  by_cases hk : k < pbufBytes
  · simp only [if_pos hk]
    by_cases hz : z = i
    · subst i
      rw [if_pos rfl, if_pos (by omega), Nat.add_sub_cancel_left]
    · rw [if_neg hz]
      have hout : ¬ (i * zoneBytes ≤ z * zoneBytes + k ∧
          z * zoneBytes + k < i * zoneBytes + pbufBytes) := by
        unfold zoneBytes pbufBytes at *
        omega
      simp only [if_neg hout, if_pos hk]
  · have hnil := hend k (by omega)
    by_cases hz : z = i
    · simp only [if_neg hk, if_pos hz, hnil]
    · simp only [if_neg hk, if_neg hz]

theorem writeHeaders_header {zones : List Nat} (hz : zones.Pairwise (· < ·)) {hdr : VolumeData}
    {size : Nat} {d d' : Device} (h : writeHeaders hdr size zones d = some d')
    (hend : ∀ k, pbufBytes ≤ k → hdr k = 0#8) (z : Nat) :
    d'.header z = if z ∈ zones ∧ z * zoneBytes < size then hdr else d.header z := by
  induction zones generalizing d with
  | nil =>
    cases Option.some.inj h
    rw [if_neg (by simp)]
  | cons i is ih =>
    obtain ⟨hi, his⟩ := List.pairwise_cons.mp hz
    unfold writeHeaders at h
    split at h
    next hs =>
      cases Option.some.inj h
      rw [if_neg]
      rintro ⟨hmem, hlt⟩
      rcases List.mem_cons.mp hmem with rfl | hmem
      · omega
      · have hmul := Nat.mul_le_mul_right zoneBytes (Nat.le_of_lt (hi z hmem))
        omega
    next hs =>
      obtain ⟨d1, h1, h2⟩ := Option.bind_eq_some_iff.mp h
      rw [ih his h2, pwrite_header h1 hend]
      by_cases hzi : z = i
      · subst z
        rw [if_pos rfl, ite_self, if_pos ⟨List.mem_cons_self, by omega⟩]
      · simp only [List.mem_cons, hzi, false_or, if_false]

theorem writeHeaders_size {zones : List Nat} {hdr : VolumeData} {size : Nat} {d d' : Device}
    (h : writeHeaders hdr size zones d = some d') (hsize : size % volumeAlign = 0) :
    d.size ≤ d'.size ∧ d'.size ≤ max d.size size := by
  induction zones generalizing d with
  | nil =>
    cases Option.some.inj h
    exact ⟨Nat.le_refl _, Nat.le_max_left _ _⟩
  | cons i is ih =>
    unfold writeHeaders at h
    split at h
    next =>
      cases Option.some.inj h
      exact ⟨Nat.le_refl _, Nat.le_max_left _ _⟩
    next hs =>
      obtain ⟨d1, h1, h2⟩ := Option.bind_eq_some_iff.mp h
      obtain ⟨-, hs1, -⟩ := pwrite_eq_some h1
      obtain ⟨hlo, hhi⟩ := ih h2
      have hfit : i * zoneBytes + pbufBytes ≤ size := by
        unfold zoneBytes volumeAlign pbufBytes at *
        omega
      omega

theorem Keeps.header {lim z : Nat} {d d' : Device} (h : Keeps lim d d') (hz : lim ≤ z * zoneBytes) :
    d'.header z = d.header z := by
  unfold Device.header Device.read
  funext k
  rw [h.bytes _ (by omega)]

/-- What formatting one volume leaves on its device. -/
structure VolumeFormatted (fso : Ondisk) (opt : MkfsOptions) (vol : Volume) (d d' : Device)
    (hdr : VolumeData) : Prop where
  size_pos : 0 < vol.size
  isHeader : ∃ allocBase blockset, hdr = volumeHeader fso opt vol allocBase blockset
  headers : ∀ z < numVolhdrs, d'.header z = if z * zoneBytes < vol.size then hdr else d.header z
  size_le : d.size ≤ d'.size
  le_size : d'.size ≤ max d.size freemapLevel1Size

theorem formatHammer2_spec {fso : Ondisk} {opt : MkfsOptions} {i : Nat} {d d' : Device}
    {hdr : VolumeData} (h : formatHammer2 fso opt i d = some (d', hdr))
    (hsize : (fso.volume i).size % volumeAlign = 0) (hfit : (fso.volume i).size ≤ d.size) :
    VolumeFormatted fso opt (fso.volume i) d d' hdr := by
  unfold formatHammer2 at h
  dsimp only at h
  obtain ⟨d1, h1, h⟩ := Option.bind_eq_some_iff.mp h
  obtain ⟨⟨d2, allocBase, blockset⟩, h2, h⟩ := Option.bind_eq_some_iff.mp h
  obtain ⟨d3, h3, heq⟩ := Option.map_eq_some_iff.mp h
  cases heq
  have hdlt := d.size_lt
  -- an empty volume has no last block to write
  have hpos : pbufBytes ≤ (fso.volume i).size := by
    obtain ⟨hlt, -, -⟩ := pwrite_eq_some h1
    by_contra hsmall
    have hmod : (offMod + (fso.volume i).size - pbufBytes) % offMod =
        offMod + (fso.volume i).size - pbufBytes := Nat.mod_eq_of_lt (by unfold offMod pbufBytes at *; omega)
    rw [hmod] at hlt
    unfold offMod offMax pbufBytes at *
    omega
  have hlast : (offMod + (fso.volume i).size - pbufBytes) % offMod + pbufBytes ≤
      (fso.volume i).size := by
    unfold offMod offMax pbufBytes at *
    omega
  have hkeep1 := (pwrite_keeps h1 hlast).mono (Nat.le_max_left _ freemapLevel1Size)
  have hkeep2 := formatRoot_keeps h2
  have hkeep := hkeep1.trans (hkeep2.mono (Nat.le_max_right (fso.volume i).size _))
  obtain ⟨hlo, hhi⟩ := writeHeaders_size h3 hsize
  dsimp only at hlo hhi
  refine ⟨by unfold pbufBytes at hpos; omega, ⟨_, _, rfl⟩, ?_, ?_, ?_⟩
  · intro z hz
    rw [writeHeaders_header List.pairwise_lt_range h3 fun k => volumeHeader_end _ _ _ _ _]
    simp only [List.mem_range, hz, true_and]
    split
    · rfl
    · refine hkeep.header ?_
      unfold zoneBytes freemapLevel1Size pbufBytes at *
      omega
  · exact Nat.le_trans hkeep.size_le hlo
  · have hle := hkeep.le_size
    omega

theorem formatVolumes_spec {fso : Ondisk} {opt : MkfsOptions} {is : List Nat} {f f' : Formatted}
    (hnd : is.Nodup) (h : formatVolumes fso opt is f = some f') :
    (∀ i ∈ is, formatHammer2 fso opt i (f.dev i) = some (f'.dev i, f'.hdr i)) ∧
    ∀ i, i ∉ is → f'.dev i = f.dev i ∧ f'.hdr i = f.hdr i := by
  induction is generalizing f with
  | nil =>
    cases Option.some.inj h
    simp
  | cons j js ih =>
    obtain ⟨hj, hjs⟩ := List.nodup_cons.mp hnd
    obtain ⟨⟨d, hdr⟩, h1, h2⟩ := Option.bind_eq_some_iff.mp h
    obtain ⟨hin, hout⟩ := ih hjs h2
    constructor
    · intro i hi
      rcases List.mem_cons.mp hi with rfl | hi
      · obtain ⟨hd, hh⟩ := hout i hj
        rw [hd, hh, h1]
        simp only [Function.update_self]
      · have hne : i ≠ j := fun heq => hj (heq ▸ hi)
        have hi := hin i hi
        simp only [Function.update_of_ne hne] at hi
        exact hi
    · intro i hi
      have hne : i ≠ j := fun heq => hi (heq ▸ List.mem_cons_self)
      obtain ⟨hd, hh⟩ := hout i fun hmem => hi (List.mem_cons_of_mem _ hmem)
      rw [hd, hh]
      simp only [Function.update_of_ne hne, true_and]

/-- What a successful run says about the layout and about each device. -/
theorem mkfs_spec {ac : Nat} {dev : Nat → Device} {opt : MkfsOptions} {fso : Ondisk} {f : Formatted}
    (h : mkfs ac dev opt = some (fso, f)) :
    ac ≤ maxVolumes ∧ fso = makeOndisk ac dev opt.version ∧ fso.Verify dev ∧
    ∀ i < ac, formatHammer2 fso (adjustOptions fso opt) i (dev i) = some (f.dev i, f.hdr i) := by
  obtain ⟨⟨hac, hver, -⟩, h⟩ := Option.ite_none_right_eq_some.mp h
  obtain ⟨f', hf, heq⟩ := Option.map_eq_some_iff.mp h
  cases heq
  refine ⟨hac, rfl, hver, ?_⟩
  intro i hi
  exact (formatVolumes_spec List.nodup_range hf).1 i (List.mem_range.mpr hi)

end Hammer2
