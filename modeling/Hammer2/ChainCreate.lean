import Hammer2.ChainTree

namespace Hammer2

/-- The number of blockrefs in a new indirect block; `none` is a failed assertion. -/
def indirectCount (parent : BlockArray) (type : ElemType) : Option Nat :=
  match type with
  | .freemapLeaf => if parent.count ≤ 256 then some 256 else none
  | _ => some (max parent.count (if parent.kind = .directory then 32 else 128))

/-- The range of a new indirect block, by the type of the element that is created. -/
def indkey (e : Elem) (ncount : Nat) (kids : List BlockTree) : Option (Nat × Nat) :=
  match e.type with
  | .freemapLeaf => indkeyFreemap e.key kids
  | .data => indkeyFile e.key ncount kids
  | .dirent => indkeyDir e.key e.keybits ncount kids
  | .inode => indkeyDir e.key e.keybits ncount kids

/-- A chain is loaded before it is moved. -/
def BlockTree.load : BlockTree → BlockTree
  | .leaf .media e => .leaf .both e
  | .node .media key keybits count kids => .node .both key keybits count kids
  | t => t

/-- The new indirect block with the children that move into it, and those that stay. -/
structure Split where
  kind : ArrayKind
  key : Nat
  keybits : Nat
  count : Nat
  moved : List BlockTree
  rest : List BlockTree

/-- The choice and the move of `hammer2_chain_create_indirect`; `none` is a panic, a failed assertion or
a shift by 64 bits or more. -/
def chainSplit (parent : BlockArray) (e : Elem) : Option Split :=
  (indirectCount parent e.type).bind fun ncount =>
    (indkey e ncount parent.kids).bind fun (key, keybits) =>
      if keybits < 64 then
        let rest := parent.kids.filter fun t => !inRange key keybits t.key
        if rest.length < parent.count then
          some {
            kind := if e.type = .freemapLeaf then .freemapNode else .indirect
            key := key / 2 ^ keybits * 2 ^ keybits
            keybits := keybits
            count := ncount
            moved := (parent.kids.filter fun t => inRange key keybits t.key).map BlockTree.load
            rest := rest }
        else none
      else none

namespace Split

/-- The new indirect block as a parent. -/
def array (s : Split) : BlockArray := ⟨s.kind, s.count, s.moved⟩

/-- The old parent with an indirect block that has the given children. -/
def outer (s : Split) (parent : BlockArray) (kids : List BlockTree) : BlockArray :=
  { parent with kids := BlockTree.insertKid (.node .memory s.key s.keybits s.count kids) s.rest }

end Split

/-- The errors of `hammer2_chain_modify` on the way: of the full parent and of the new indirect block
when a number of retries is left, and of the new element. -/
structure CreateEnv where
  parentModify : Nat → Nat
  indirectModify : Nat → Nat
  elementModify : Nat

/-- `hammer2_chain_create` of a new element with its retry loop; the result is the parent and the
error. The chain is linked into its parent before its storage is allocated. `none` is a panic. -/
def chainCreate (env : CreateEnv) (e : Elem) : Nat → BlockArray → Option (BlockArray × Nat)
  | 0, _ => none
  | n + 1, parent =>
    if parent.kids.length < parent.count then
      some ({ parent with kids := BlockTree.insertKid (.leaf .memory e) parent.kids },
        env.elementModify)
    else if env.parentModify n ≠ 0 then some (parent, env.parentModify n)
    else
      (chainSplit parent e).bind fun s =>
        if env.indirectModify n ≠ 0 then some (parent, env.indirectModify n)
        else if inRange s.key s.keybits e.key then
          (chainCreate env e n s.array).map fun (nparent, error) =>
            (s.outer parent nparent.kids, error)
        else chainCreate env e n (s.outer parent s.moved)

/-- `maxloops` in `hammer2_chain_create` -/
def createLoops : Nat := 299999

/-- The retry loop gets to the point where the chain is linked. -/
def CreateLinks (env : CreateEnv) (e : Elem) : Nat → BlockArray → Prop
  | 0, _ => False
  | n + 1, parent =>
    parent.kids.length < parent.count ∨
      ¬parent.kids.length < parent.count ∧ env.parentModify n = 0 ∧ env.indirectModify n = 0 ∧
        ∃ s, chainSplit parent e = some s ∧
          CreateLinks env e n
            (if inRange s.key s.keybits e.key then s.array else s.outer parent s.moved)

/-- A failed creation leaves the visible elements as they were. -/
def CreateUnchanged (env : CreateEnv) (e : Elem) (n : Nat) (parent : BlockArray) : Prop :=
  ∀ parent' error, chainCreate env e n parent = some (parent', error) → error ≠ 0 →
    ∀ x, x ∈ parent'.leaves ↔ x ∈ parent.leaves

section Split

variable {parent : BlockArray} {e : Elem} {s : Split}

theorem leaves_load (t : BlockTree) : t.load.leaves = t.leaves := by
  cases t with
  | leaf place e => cases place <;> rfl
  | node place key keybits count kids => cases place <;> rfl

theorem leavesAll_load (ts : List BlockTree) :
    BlockTree.leavesAll (ts.map BlockTree.load) = BlockTree.leavesAll ts := by
  induction ts with
  | nil => rfl
  | cons t ts ih =>
    rw [List.map_cons, BlockTree.leavesAll, BlockTree.leavesAll, leaves_load, ih]

/-- What a split consists of. -/
theorem chainSplit_some (h : chainSplit parent e = some s) :
    ∃ key, indirectCount parent e.type = some s.count ∧
      indkey e s.count parent.kids = some (key, s.keybits) ∧
      s.key = key / 2 ^ s.keybits * 2 ^ s.keybits ∧ s.keybits < 64 ∧
      s.moved = (parent.kids.filter fun t => inRange key s.keybits t.key).map BlockTree.load ∧
      s.rest = parent.kids.filter (fun t => !inRange key s.keybits t.key) ∧
      s.rest.length < parent.count := by
  unfold chainSplit at h
  obtain ⟨ncount, hcount, h⟩ := Option.bind_eq_some_iff.mp h
  obtain ⟨⟨key, keybits⟩, hkey, h⟩ := Option.bind_eq_some_iff.mp h
  dsimp only at h
  split at h
  next hbits =>
    split at h
    next hrest =>
      cases h
      exact ⟨key, hcount, hkey, rfl, hbits, rfl, rfl, hrest⟩
    next => cases h
  next => cases h

/-- A split moves elements and keeps all of them. -/
theorem chainSplit_leaves (h : chainSplit parent e = some s) :
    (BlockTree.leavesAll s.moved ++ BlockTree.leavesAll s.rest).Perm parent.leaves := by
  obtain ⟨key, -, -, -, -, hmoved, hrest, -⟩ := chainSplit_some h
  rw [hmoved, hrest, leavesAll_load]
  have happend : ∀ ts us : List BlockTree,
      BlockTree.leavesAll ts ++ BlockTree.leavesAll us = BlockTree.leavesAll (ts ++ us) := by
    intro ts us
    rw [BlockTree.leavesAll_eq_flatMap, BlockTree.leavesAll_eq_flatMap,
      BlockTree.leavesAll_eq_flatMap, List.flatMap_append]
  rw [happend]
  exact BlockTree.leavesAll_perm (List.filter_append_perm _ _)

theorem outer_leaves (s : Split) (parent : BlockArray) (kids : List BlockTree) :
    (s.outer parent kids).leaves.Perm
      (BlockTree.leavesAll kids ++ BlockTree.leavesAll s.rest) :=
  BlockTree.leavesAll_insertKid _ _

theorem outer_moved_leaves (h : chainSplit parent e = some s) :
    (s.outer parent s.moved).leaves.Perm parent.leaves :=
  (outer_leaves s parent s.moved).trans (chainSplit_leaves h)

end Split

section Create

variable {env : CreateEnv} {e : Elem}

/-- The visible elements after the call: those of before with the new one if the chain was linked, and
otherwise those of before. -/
theorem chainCreate_leaves {n : Nat} {parent parent' : BlockArray} {error : Nat}
    (h : chainCreate env e n parent = some (parent', error)) :
    CreateLinks env e n parent ∧ error = env.elementModify ∧
        parent'.leaves.Perm (e :: parent.leaves) ∨
      ¬CreateLinks env e n parent ∧ error ≠ 0 ∧ parent'.leaves.Perm parent.leaves := by
  induction n generalizing parent parent' with
  | zero => cases h
  | succ n ih =>
    unfold chainCreate at h
    unfold CreateLinks
    split at h
    next hroom =>
      cases h
      exact Or.inl ⟨Or.inl hroom, rfl, BlockTree.leavesAll_insertKid _ _⟩
    next hfull =>
      split at h
      next herr =>
        cases h
        exact Or.inr ⟨by simp [hfull, herr], herr, List.Perm.refl _⟩
      next hmod =>
        obtain ⟨s, hs, h⟩ := Option.bind_eq_some_iff.mp h
        split at h
        next herr =>
          cases h
          exact Or.inr ⟨by simp [hfull, herr], herr, List.Perm.refl _⟩
        next hind =>
          have hmod' : env.parentModify n = 0 := not_not.mp hmod
          have hind' : env.indirectModify n = 0 := not_not.mp hind
          simp only [hfull, hmod', hind', hs, not_false_iff, true_and, false_or, Option.some.injEq,
            exists_eq_left']
          have hsplit := chainSplit_leaves hs
          split at h
          next hin =>
            obtain ⟨⟨nparent, error'⟩, hrec, heq⟩ := Option.map_eq_some_iff.mp h
            cases heq
            rw [if_pos hin]
            have hout := outer_leaves s parent nparent.kids
            rcases ih hrec with ⟨hl, he, hp⟩ | ⟨hl, he, hp⟩
            · refine Or.inl ⟨hl, he, hout.trans ?_⟩
              exact (hp.append_right _).trans (hsplit.cons e)
            · exact Or.inr ⟨hl, he, hout.trans ((hp.append_right _).trans hsplit)⟩
          next hin =>
            rw [if_neg hin]
            have hout := outer_moved_leaves hs
            rcases ih h with ⟨hl, he, hp⟩ | ⟨hl, he, hp⟩
            · exact Or.inl ⟨hl, he, hp.trans (hout.cons e)⟩
            · exact Or.inr ⟨hl, he, hp.trans hout⟩

/-- A call that links the chain returns. -/
theorem CreateLinks.returns {n : Nat} {parent : BlockArray} (h : CreateLinks env e n parent) :
    ∃ parent', chainCreate env e n parent = some (parent', env.elementModify) ∧
      e ∈ parent'.leaves := by
  suffices hret : ∃ r, chainCreate env e n parent = some r by
    obtain ⟨⟨parent', error⟩, hr⟩ := hret
    rcases chainCreate_leaves hr with ⟨-, rfl, hp⟩ | ⟨hl, -, -⟩
    · exact ⟨parent', hr, hp.mem_iff.mpr List.mem_cons_self⟩
    · exact absurd h hl
  induction n generalizing parent with
  | zero => exact h.elim
  | succ n ih =>
    unfold chainCreate
    unfold CreateLinks at h
    rcases h with hroom | ⟨hfull, hmod, hind, s, hs, hrec⟩
    · rw [if_pos hroom]
      exact ⟨_, rfl⟩
    · rw [if_neg hfull, hmod, hs, hind, if_neg (not_not.mpr rfl), Option.bind_some,
        if_neg (not_not.mpr rfl)]
      split at hrec
      next hin =>
        obtain ⟨r, hr⟩ := ih hrec
        rw [if_pos hin, hr]
        exact ⟨_, rfl⟩
      next hin =>
        rw [if_neg hin]
        exact ih hrec

/-- A creation that returns an error changes nothing just when the storage of the new element can be
allocated, or the call does not get as far as to link the chain, or the element was there before. -/
theorem chainCreate_unchanged_iff (env : CreateEnv) (e : Elem) (n : Nat) (parent : BlockArray) :
    CreateUnchanged env e n parent ↔
      env.elementModify = 0 ∨ ¬CreateLinks env e n parent ∨ e ∈ parent.leaves := by
  unfold CreateUnchanged
  constructor
  · intro h
    by_contra hnot
    push Not at hnot
    obtain ⟨hmod, hlinks, hnew⟩ := hnot
    obtain ⟨parent', hret, hmem⟩ := hlinks.returns
    exact hnew ((h parent' _ hret hmod e).mp hmem)
  · intro h parent' error hret herr x
    rcases chainCreate_leaves hret with ⟨hlinks, rfl, hp⟩ | ⟨-, -, hp⟩
    · rcases h with hmod | hl | hold
      · exact absurd hmod herr
      · exact absurd hlinks hl
      · rw [hp.mem_iff, List.mem_cons]
        exact or_iff_right_of_imp fun hx => hx ▸ hold
    · exact hp.mem_iff

/-- The first entry of an empty directory, with the device full. -/
theorem chainCreate_leaves_chain :
    ¬CreateUnchanged ⟨fun _ => 0, fun _ => 0, 0x20⟩ ⟨.dirent, 0x8000, 0, 10⟩ createLoops
      ⟨.directory, 4, []⟩ := by
  intro h
  have hlinks : CreateLinks ⟨fun _ => 0, fun _ => 0, 0x20⟩ ⟨.dirent, 0x8000, 0, 10⟩ createLoops
      ⟨.directory, 4, []⟩ := Or.inl (Nat.zero_lt_succ 3)
  obtain ⟨parent', hret, hmem⟩ := hlinks.returns
  have hold := (h parent' _ hret (Nat.succ_ne_zero 31) _).mp hmem
  cases hold

end Create

end Hammer2
