import Hammer2.NewfsSuperRoot

/-! `newfs_hammer2` hashes the labels and sorts their blockrefs. It does not resolve collisions. -/

namespace Hammer2

open ByteImage

section Keys

variable (run : NewfsRun)

theorem labelRefs_keys : (labelRefs run).map InodeRef.key = run.labels.map dirhash := by
  have hfst := List.zipIdx_map_fst 0 run.labels
  unfold labelRefs
  rw [List.map_map]
  conv_rhs => rw [← hfst, List.map_map]
  rfl

theorem sortRefs_sorted (refs : List InodeRef) :
    (sortRefs refs).Pairwise fun a b => a.key ≤ b.key := by
  have hsorted : (sortRefs refs).Pairwise fun a b => decide (a.key ≤ b.key) = true := by
    apply List.pairwise_mergeSort
    · intro a b c hab hbc
      rw [decide_eq_true_eq] at hab hbc ⊢
      exact BitVec.le_trans hab hbc
    · intro a b
      rw [Bool.or_eq_true, decide_eq_true_eq, decide_eq_true_eq]
      exact BitVec.le_total a.key b.key
  apply hsorted.imp
  intro a b hab
  exact of_decide_eq_true hab

/-- The keys increase strictly if and only if no two labels have the same hash. -/
theorem sorted_strict_iff :
    (((sortRefs (labelRefs run)).map InodeRef.toBref).Pairwise fun a b => a.key < b.key) ↔
      (run.labels.map dirhash).Nodup := by
  have hperm : ((sortRefs (labelRefs run)).map InodeRef.key).Perm (run.labels.map dirhash) := by
    rw [← labelRefs_keys]
    exact (List.mergeSort_perm _ _).map InodeRef.key
  rw [← hperm.nodup_iff, List.pairwise_map, List.Nodup, List.pairwise_map]
  constructor
  · intro hlt
    apply hlt.imp
    intro a b hab heq
    have hkey : a.key.toNat < b.key.toNat := hab
    rw [heq] at hkey
    exact Nat.lt_irrefl _ hkey
  · intro hne
    apply (hne.and (sortRefs_sorted (labelRefs run))).imp
    intro a b hab
    have hle : a.key.toNat ≤ b.key.toNat := hab.2
    exact Nat.lt_of_le_of_ne hle fun heq => hab.1 (BitVec.eq_of_toNat_eq heq)

end Keys

section Lookup

variable {run : NewfsRun} {disk : Image} (hdisk : InodesWritten run disk)

include hdisk

/-- Every element of the super-root is the blockref of a label. -/
theorem element_label {cacheIndex : Nat} {e : Bref} (he : e ∈ SlotList.elements
    (blocksetArray (inodeAt disk (formatHammer2Inode run).1.dataOff.toNat) cacheIndex).base) :
    ∃ p ∈ run.labels.zipIdx, e = (labelRef run run.base p.2 p.1).toBref := by
  rw [elements_sroot hdisk] at he
  obtain ⟨ref, hmem, rfl⟩ := List.mem_map.mp he
  obtain ⟨p, hp, rfl⟩ := mem_sortRefs hmem
  exact ⟨p, hp, rfl⟩

theorem label_element {label : Name} (hlabel : label ∈ run.labels) (cacheIndex : Nat) :
    ∃ e ∈ SlotList.elements
        (blocksetArray (inodeAt disk (formatHammer2Inode run).1.dataOff.toNat) cacheIndex).base,
      e.key = lhcBase label ∧ e.type = .inode ∧ NamedPfs (inodeAt disk e.dataOff) label ∧
        strcmpFilename label (inodeAt disk e.dataOff) := by
  rw [← List.zipIdx_map_fst 0 run.labels] at hlabel
  obtain ⟨p, hp, rfl⟩ := List.mem_map.mp hlabel
  refine ⟨(labelRef run run.base p.2 p.1).toBref, ?_, rfl, rfl, (labelRef_inode hdisk hp).1,
    (labelRef_inode hdisk hp).2.1⟩
  rw [elements_sroot hdisk]
  apply List.mem_map_of_mem
  unfold sortRefs
  rw [List.mem_mergeSort]
  exact List.mem_map_of_mem hp

variable (hnodup : (run.labels.map dirhash).Nodup)

include hnodup

theorem blocksetArray_inv (cacheIndex : Nat) :
    (blocksetArray (inodeAt disk (formatHammer2Inode run).1.dataOff.toNat) cacheIndex).Inv := by
  refine ⟨?_, rfl⟩
  rw [elements_sroot hdisk]
  apply List.Pairwise.imp_of_mem ?_ ((sorted_strict_iff run).mpr hnodup)
  intro e f he _ hlt
  obtain ⟨ref, _, rfl⟩ := List.mem_map.mp he
  exact hlt

theorem loaded_mergeInv {cacheIndex : Nat} {chains : List MemChain} (hloaded : Loaded
    (blocksetArray (inodeAt disk (formatHammer2Inode run).1.dataOff.toNat) cacheIndex) chains) :
    MergeInv (blocksetArray (inodeAt disk (formatHammer2Inode run).1.dataOff.toNat) cacheIndex)
      chains := by
  have hinv := blocksetArray_inv hdisk hnodup cacheIndex
  refine ⟨hinv, hloaded.sorted, fun chain hc e he => ?_⟩
  rcases pairwise_comparable hinv.sorted (hloaded.element chain hc).1 he with rfl | hcmp
  · exact Or.inl ⟨rfl, rfl⟩
  · exact Or.inr hcmp

/-- The search in the window of a label finds the entry of the label. -/
theorem label_found {label : Name} (hlabel : label ∈ run.labels) (fuel : Nat) {cacheIndex : Nat}
    {chains : List MemChain} (hloaded : Loaded
      (blocksetArray (inodeAt disk (formatHammer2Inode run).1.dataOff.toNat) cacheIndex) chains) :
    ∃ e, mountLookup disk (inodeAt disk (formatHammer2Inode run).1.dataOff.toNat) label (fuel + 1)
        cacheIndex chains = some (some e) ∧ NamedPfs (inodeAt disk e.dataOff) label := by
  have hinv := loaded_mergeInv hdisk hnodup hloaded
  obtain ⟨e, he, hkey, htype, hnamed, hstrcmp⟩ := label_element hdisk hlabel cacheIndex
  have hmod := lhcBase_mod label
  have hlt : lhcBase label < 18446744073709551616 := (dirhash label).isLt
  obtain ⟨r, hfind, hlowest⟩ := combinedFind_lowest hinv (lhcBase label)
    (show lhcBase label + dirhashLomask ≤ keyMax by unfold dirhashLomask keyMax; omega)
  have hunion : ∃ m, InUnion (blocksetArray (inodeAt disk (formatHammer2Inode run).1.dataOff.toNat)
      cacheIndex) chains m ∧ m.bref.Intersects (lhcBase label) (lhcBase label + dirhashLomask) := by
    have hint : e.Intersects (lhcBase label) (lhcBase label + dirhashLomask) := by
      refine ⟨?_, ?_⟩
      · rw [← hkey]
        exact e.key_le_last
      · rw [hkey]
        exact Nat.le_add_right _ _
    by_cases hmem : ∃ chain ∈ chains, chain.bref.key = e.key
    · obtain ⟨chain, hc, hck⟩ := hmem
      refine ⟨⟨chain.bref, some chain⟩, Or.inl ⟨chain, hc, rfl⟩, ?_, ?_⟩
      · show lhcBase label ≤ chain.bref.last
        rw [← hkey, ← hck]
        exact chain.bref.key_le_last
      · show chain.bref.key ≤ _
        rw [hck]
        exact hint.2
    · refine ⟨⟨e, none⟩, Or.inr ⟨rfl, he, fun chain hc hck => hmem ⟨chain, hc, hck⟩⟩, hint⟩
  have hfound : ∃ m, r.found = some m ∧ m.bref = e ∧ m.chain.any (·.deleted) = false := by
    unfold Lowest at hlowest
    cases hr : r.found with
    | none =>
      rw [hr] at hlowest
      obtain ⟨m, hm, hint⟩ := hunion
      exact absurd hint (hlowest m hm)
    | some m =>
      rw [hr] at hlowest
      obtain ⟨hm, hint, _, _⟩ := hlowest
      have helem : m.bref ∈ SlotList.elements (blocksetArray
          (inodeAt disk (formatHammer2Inode run).1.dataOff.toNat) cacheIndex).base ∧
          m.chain.any (·.deleted) = false := by
        rcases hm with ⟨chain, hc, rfl⟩ | ⟨hnone, hmem, _⟩
        · exact hloaded.element chain hc
        · refine ⟨hmem, ?_⟩
          rw [hnone]
          rfl
      obtain ⟨p, _, hp⟩ := element_label hdisk helem.1
      have hwindow : lhcBase label ≤ m.bref.key ∧ m.bref.key ≤ lhcBase label + 32767 := by
        refine ⟨?_, hint.2⟩
        have hlast := hint.1
        rwa [hp] at hlast ⊢
      have hkeymod : m.bref.key % 32768 = 0 := by
        rw [hp]
        exact lhcBase_mod p.1
      refine ⟨m, rfl, ?_, helem.2⟩
      rcases pairwise_comparable hinv.array.sorted he helem.1 with heq | hbefore | hbefore
      · exact heq
      · have hcmp := Bref.before_trichotomy_key hbefore
        omega
      · have hcmp := Bref.before_trichotomy_key hbefore
        omega
  obtain ⟨m, hr, rfl, hdeleted⟩ := hfound
  refine ⟨m.bref, ?_, hnamed⟩
  unfold mountLookup
  rw [labelLoop, hfind, Option.bind_some]
  dsimp only
  rw [hr]
  dsimp only
  rw [hdeleted, if_neg Bool.false_ne_true, if_neg (by rw [htype]; decide), if_pos ⟨htype, hstrcmp⟩]

end Lookup

/-- The super-root is in order and its labels are found if and only if no two labels, of `LOCAL`,
those of `-L` and the default, have the same hash. -/
theorem newfs_super_root_iff (run : NewfsRun) {disk : Image} (hdisk : InodesWritten run disk) :
    SuperRootWellFormed disk (formatHammer2Inode run).1 run.labels ↔
      (run.labels.map dirhash).Nodup := by
  rw [← sorted_strict_iff]
  constructor
  · intro h
    rw [← elements_sroot hdisk 0]
    exact h.increasing
  · intro hstrict
    have hnodup := (sorted_strict_iff run).mp hstrict
    refine ⟨?_, ?_, ?_, ?_, ?_⟩
    · rw [elements_sroot hdisk]
      exact hstrict
    · intro e he
      obtain ⟨p, hp, rfl⟩ := element_label hdisk he
      exact ⟨p.1, List.fst_mem_of_mem_zipIdx hp, (labelRef_inode hdisk hp).1, Nat.le_refl _,
        Nat.le_add_right _ _⟩
    · rw [inodeCheck_congr fun k hk => inodeAt_sroot hdisk hk, formatHammer2Inode_eq]
    · intro i hi e he
      rw [decodeBref_sroot hdisk hi] at he
      obtain ⟨ref, href, rfl⟩ := Option.map_eq_some_iff.mp he
      obtain ⟨p, hp, rfl⟩ := mem_sortRefs (List.mem_of_getElem? href)
      have hcheck : getLE (inodeAt disk (formatHammer2Inode run).1.dataOff.toNat)
          (0x200 + 128 * i + 0x40) 8 = (labelRef run run.base p.2 p.1).check.toNat := by
        rw [← InodeRef.check_image]
        apply getLE_shift
        intro k hk
        rw [Nat.add_assoc]
        exact inodeAt_blockref hdisk hi (by omega) href
      rw [hcheck, ← (labelRef_inode hdisk hp).2.2]
      rfl
    · intro label hlabel fuel cacheIndex chains hloaded
      exact label_found hdisk hnodup hlabel fuel hloaded

/-- `newfs_hammer2` with some `-L`, for a device whose name ends with `d`. -/
def labelRun (args : List CString) (labels : List Name) (h : mkfsLabels args 0x64#8 = some labels) :
    NewfsRun where
  args := args
  lastChar := 0x64#8
  labels := labels
  accepted := h
  now := 0
  supClid := 0
  supFsid := 0
  pfsClid := fun _ => 0
  pfsFsid := fun _ => 0
  allocBase := 12582912
  allocBase_lt := by decide

/-- The device after `labelRun`. -/
def writtenDisk (run : NewfsRun) : Image := fun k => (formatHammer2Inode run).2.1 (k - run.base)

theorem writtenDisk_written (run : NewfsRun) : InodesWritten run (writtenDisk run) := by
  intro k _
  unfold writtenDisk
  rw [show run.allocBase / pbufBytes * pbufBytes + k - run.base = k from Nat.add_sub_cancel_left _ _]

def defaultRun : NewfsRun := labelRun [] [labelLOCAL, labelROOT] (by decide)

theorem newfs_super_root_default :
    SuperRootWellFormed (writtenDisk defaultRun) (formatHammer2Inode defaultRun).1
      [labelLOCAL, labelROOT] :=
  (newfs_super_root_iff defaultRun (writtenDisk_written defaultRun)).mpr (by decide)

/-- `-L LOCAL` -/
def localTwice : NewfsRun :=
  labelRun [⟨labelLOCAL, by decide⟩] [labelLOCAL, labelLOCAL] (by decide)

/-- `-L LOCAL` gives two blockrefs the same key. -/
theorem newfs_label_twice :
    InodesWritten localTwice (writtenDisk localTwice) ∧
      ¬SuperRootWellFormed (writtenDisk localTwice) (formatHammer2Inode localTwice).1
        localTwice.labels := by
  refine ⟨writtenDisk_written localTwice, fun h => ?_⟩
  have hstrict := h.increasing
  rw [elements_sroot (writtenDisk_written localTwice), sorted_strict_iff] at hstrict
  exact List.not_nodup_pair (dirhash labelLOCAL) hstrict

end Hammer2
