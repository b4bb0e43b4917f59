import Hammer2.AlignedRange
import Hammer2.ChainCreate

namespace Hammer2

open AlignedRange

/-- The live children as the scan of a parent meets them: in the order of their keys, no two of them
for one key, each from a multiple of its width on. -/
structure FileKids (kids : List BlockTree) : Prop where
  ordered : kids.Pairwise fun t u => t.next ≤ u.key
  aligned : ∀ t ∈ kids, 2 ^ t.keybits ∣ t.key

def BlockTree.keys (t : BlockTree) : Set Nat := Set.Ico t.key t.next

theorem BlockTree.key_mem (t : BlockTree) : t.key ∈ t.keys :=
  ⟨le_rfl, Nat.lt_add_of_pos_right (Nat.two_pow_pos _)⟩

/-- The lowest of the narrowest children. -/
def Narrowest (kids : List BlockTree) (t : BlockTree) : Prop :=
  t ∈ kids ∧ ∀ u ∈ kids, t.keybits < u.keybits ∨ (t.keybits = u.keybits ∧ t.key ≤ u.key)

section MinElem

/-- One element that is no wider than what the scan holds replaces it, unless it is as wide and
not below. -/
theorem minElemStep_le (s : Nat × Nat) (t : BlockTree) :
    (minElemStep s t = s ∨ minElemStep s t = (t.key, t.keybits)) ∧
      ((minElemStep s t).2 < s.2 ∨ ((minElemStep s t).2 = s.2 ∧ (minElemStep s t).1 ≤ s.1)) ∧
      ((minElemStep s t).2 < t.keybits ∨
        ((minElemStep s t).2 = t.keybits ∧ (minElemStep s t).1 ≤ t.key)) := by
  unfold minElemStep
  split
  next hlt => exact ⟨Or.inr rfl, Or.inl hlt, Or.inr ⟨rfl, le_rfl⟩⟩
  next hge =>
    split
    next hsame =>
      refine ⟨Or.inr ?_, Or.inr ⟨rfl, hsame.2.le⟩, Or.inr ⟨hsame.1, le_rfl⟩⟩
      rw [hsame.1]
    next hother =>
      refine ⟨Or.inl rfl, Or.inr ⟨rfl, le_rfl⟩, ?_⟩
      omega

/-- What the scan ends with is the first state or an element, and no element is narrower, or as
narrow and lower. -/
theorem foldl_minElemStep (s : Nat × Nat) (kids : List BlockTree) :
    (kids.foldl minElemStep s = s ∨
        ∃ t ∈ kids, kids.foldl minElemStep s = (t.key, t.keybits)) ∧
      ((kids.foldl minElemStep s).2 < s.2 ∨
        ((kids.foldl minElemStep s).2 = s.2 ∧ (kids.foldl minElemStep s).1 ≤ s.1)) ∧
      ∀ u ∈ kids, (kids.foldl minElemStep s).2 < u.keybits ∨
        ((kids.foldl minElemStep s).2 = u.keybits ∧ (kids.foldl minElemStep s).1 ≤ u.key) := by
  induction kids generalizing s with
  | nil =>
    refine ⟨Or.inl rfl, Or.inr ⟨rfl, le_rfl⟩, ?_⟩
    intro u hu
    cases hu
  | cons t kids ih =>
    obtain ⟨hone, hs, ht⟩ := minElemStep_le s t
    obtain ⟨hrest, hle, hkids⟩ := ih (minElemStep s t)
    rw [List.foldl_cons]
    refine ⟨?_, by omega, ?_⟩
    · rcases hrest with hrest | ⟨u, hu, hrest⟩
      · rw [hrest]
        rcases hone with hone | hone
        · exact Or.inl hone
        · exact Or.inr ⟨t, List.mem_cons_self, hone⟩
      · exact Or.inr ⟨u, List.mem_cons_of_mem _ hu, hrest⟩
    · intro u hu
      rcases List.mem_cons.mp hu with rfl | hu
      · omega
      · exact hkids u hu

theorem minElem_narrowest {kids : List BlockTree} {key : Nat} (h : (minElem key kids).2 < 64) :
    ∃ t, Narrowest kids t ∧ minElem key kids = (t.key, t.keybits) := by
  obtain ⟨hres, -, hmin⟩ := foldl_minElemStep (key, 64) kids
  rcases hres with hres | ⟨t, ht, hres⟩
  · rw [minElem, hres] at h
    exact absurd h (lt_irrefl 64)
  · rw [hres] at hmin
    exact ⟨t, ⟨ht, hmin⟩, hres⟩

theorem minElem_le {kids : List BlockTree} {t : BlockTree} (key : Nat) (ht : t ∈ kids) :
    (minElem key kids).2 ≤ t.keybits := by
  rcases (foldl_minElemStep (key, 64) kids).2.2 t ht with hlt | ⟨heq, -⟩
  · exact hlt.le
  · exact heq.le

end MinElem

section Range

variable {kids : List BlockTree}

theorem FileKids.disjoint (h : FileKids kids) {t u : BlockTree} (ht : t ∈ kids) (hu : u ∈ kids)
    (hne : t ≠ u) : Disjoint t.keys u.keys := by
  have hapart : kids.Pairwise fun t u => Disjoint t.keys u.keys := by
    apply h.ordered.imp
    intro t u hle
    apply Set.disjoint_left.mpr
    intro k hk hk'
    exact absurd (hk.2.trans_le hle) (not_lt.mpr hk'.1)
  have hsymm : Std.Symm fun t u : BlockTree => Disjoint t.keys u.keys := ⟨fun _ _ hd => hd.symm⟩
  exact hapart.forall ht hu hne

/-- A range around the lowest of the narrowest children that is at least as wide cuts none of the
others. -/
theorem FileKids.inside_or_outside (h : FileKids kids) {t u : BlockTree} (ht : t ∈ kids)
    (hu : u ∈ kids) {bits : Nat} (hbits : t.keybits ≤ bits) :
    u.keys ⊆ (around t.key bits).keys ∨ Disjoint u.keys (around t.key bits).keys := by
  let narrow : AlignedRange := ⟨t.key, t.keybits, h.aligned t ht⟩
  let other : AlignedRange := ⟨u.key, u.keybits, h.aligned u hu⟩
  rcases le_or_gt u.keybits bits with hle | hlt
  · exact subset_or_disjoint (r := other) (s := around t.key bits) hle
  · -- a wider child that met the range would hold the narrowest child
    apply Or.inr
    apply Disjoint.symm
    apply (subset_or_disjoint (r := around t.key bits) (s := other) hlt.le).resolve_left
    intro hsub
    have hne : t ≠ u := fun heq => absurd (heq ▸ hbits) (not_le.mpr hlt)
    have hkey : t.key ∈ u.keys := hsub (around_self t.key bits)
    exact Set.disjoint_left.mp (h.disjoint ht hu hne) narrow.key_mem hkey

/-- The range that `hammer2_chain_indkey_file` chooses is as wide as the narrowest child and the fan-out
of the new indirect block together. It holds the lowest of the narrowest children and cuts no
other child. -/
theorem indkeyFile_range {ncount nradix : Nat} (key : Nat) (h : FileKids kids)
    (hradix : indRadix ncount = some nradix) (hroom : ∃ t ∈ kids, t.keybits + nradix < 64) :
    ∃ t keybits, Narrowest kids t ∧ indkeyFile key ncount kids = some (t.key, keybits) ∧
      keybits = t.keybits + nradix ∧ keybits < 64 ∧ t.keys ⊆ (around t.key keybits).keys ∧
      ∀ u ∈ kids, u.keys ⊆ (around t.key keybits).keys ∨
        Disjoint u.keys (around t.key keybits).keys := by
  obtain ⟨w, hw, hwidth⟩ := hroom
  have hle := minElem_le key hw
  have hnarrow : (minElem key kids).2 < 64 := by omega
  obtain ⟨t, ht, hmin⟩ := minElem_narrowest hnarrow
  rw [hmin] at hle
  have hinside : t.keys ⊆ (around t.key (t.keybits + nradix)).keys :=
    keys_subset (r := ⟨t.key, t.keybits, h.aligned t ht.1⟩) (Nat.le_add_right _ _)
      (key_mem _) (around_self _ _)
  refine ⟨t, t.keybits + nradix, ht, ?_, rfl, by omega, hinside, ?_⟩
  · rw [indkeyFile, hradix, Option.map_some, hmin]
  · intro u hu
    exact h.inside_or_outside ht.1 hu (Nat.le_add_right _ _)

theorem keys_load (t : BlockTree) : t.load.keys = t.keys := by
  cases t with
  | leaf place e => cases place <;> rfl
  | node place key keybits count kids => cases place <;> rfl

theorem inRange_iff {key keybits k : Nat} :
    inRange key keybits k = true ↔ k ∈ (around key keybits).keys := by
  rw [mem_around, inRange, decide_eq_true_iff]

/-- A split for file data leaves the keys of every child on one side of the new indirect block. -/
theorem chainSplit_data {parent : BlockArray} {e : Elem} {s : Split} (htype : e.type = .data)
    (hkids : FileKids parent.kids) (h : chainSplit parent e = some s) :
    (∀ t ∈ s.moved, t.keys ⊆ (around s.key s.keybits).keys) ∧
      ∀ t ∈ s.rest, Disjoint t.keys (around s.key s.keybits).keys := by
  obtain ⟨key, -, hkey, hbase, hbits, hmoved, hrest, -⟩ := chainSplit_some h
  rw [indkey, htype] at hkey
  obtain ⟨nradix, -, hkey⟩ := Option.map_eq_some_iff.mp hkey
  obtain ⟨hlow, hsum⟩ := Prod.mk.inj hkey
  have hnarrow : (minElem e.key parent.kids).2 < 64 := by omega
  obtain ⟨t, ht, hmin⟩ := minElem_narrowest hnarrow
  rw [hmin] at hlow hsum
  dsimp only at hlow hsum
  have hwide : t.keybits ≤ s.keybits := by omega
  have hside : ∀ u ∈ parent.kids, u.keys ⊆ (around key s.keybits).keys ∨
      Disjoint u.keys (around key s.keybits).keys := by
    intro u hu
    rw [← hlow]
    exact hkids.inside_or_outside ht.1 hu hwide
  have hrange : (around s.key s.keybits).keys = (around key s.keybits).keys := by
    ext k
    rw [mem_around, mem_around, hbase, Nat.mul_div_cancel _ (Nat.two_pow_pos _)]
  rw [hrange]
  constructor
  · intro t' ht'
    rw [hmoved] at ht'
    obtain ⟨u, hu, rfl⟩ := List.mem_map.mp ht'
    obtain ⟨hu, hin⟩ := List.mem_filter.mp hu
    rw [keys_load]
    apply (hside u hu).resolve_right
    exact Set.not_disjoint_iff.mpr ⟨u.key, u.key_mem, inRange_iff.mp hin⟩
  · intro u hu
    rw [hrest] at hu
    obtain ⟨hu, hout⟩ := List.mem_filter.mp hu
    apply (hside u hu).resolve_left
    intro hsub
    rw [inRange_iff.mpr (hsub u.key_mem)] at hout
    cases hout

end Range

/-- The four blockrefs of a file inode: an indirect block at 0 and the blocks that come after it. -/
def sequentialKids : List BlockTree :=
  [.node .both 0 23 128 [], .leaf .both ⟨.data, 0x800000, 16, 0⟩,
    .leaf .both ⟨.data, 0x810000, 16, 0⟩, .leaf .both ⟨.data, 0x820000, 16, 0⟩]

theorem sequentialKids_fileKids : FileKids sequentialKids where
  ordered := by decide
  aligned := by decide

theorem indkeyFile_range_sequential :
    ∃ t keybits, Narrowest sequentialKids t ∧
      indkeyFile 0x10000000000 128 sequentialKids = some (t.key, keybits) ∧
      keybits = t.keybits + 7 ∧ keybits < 64 ∧ t.keys ⊆ (around t.key keybits).keys ∧
      ∀ u ∈ sequentialKids, u.keys ⊆ (around t.key keybits).keys ∨
        Disjoint u.keys (around t.key keybits).keys :=
  indkeyFile_range 0x10000000000 sequentialKids_fileKids rfl
    ⟨.leaf .both ⟨.data, 0x800000, 16, 0⟩, by simp [sequentialKids], by decide⟩

/-- The four blockrefs of the inode of a file that is written near its largest offset. -/
def sparseKids : List BlockTree :=
  [0, 1, 2, 3].map fun i => .node .both (i * 2 ^ 58) 58 128 []

theorem sparseKids_fileKids : FileKids sparseKids where
  ordered := by decide
  aligned := by decide

/-- A write far beyond the end of the file: the new range starts at the first block after the indirect
block, and holds neither the key of the write nor the lowest key of the parent. Where the children
are wide already, the new width is no width of a range of keys. -/
theorem indkeyFile_range_elsewhere : FileKids sequentialKids ∧
    indkeyFile 0x10000000000 128 sequentialKids = some (0x800000, 23) ∧
    (∀ u ∈ sequentialKids, 0 ≤ u.key) ∧ (∃ u ∈ sequentialKids, u.key = 0) ∧
    0x10000000000 ∉ (around 0x800000 23).keys ∧ 0 ∉ (around 0x800000 23).keys ∧
    FileKids sparseKids ∧ indkeyFile 0x4000000000000000 128 sparseKids = some (0, 65) := by
  refine ⟨sequentialKids_fileKids, by decide, fun u _ => Nat.zero_le _, ?_, ?_, ?_,
    sparseKids_fileKids, by decide⟩
  · exact ⟨_, List.mem_cons_self, rfl⟩
  · rw [mem_around]
    decide
  · rw [mem_around]
    decide

end Hammer2
