import Hammer2.Directory

namespace Hammer2

/-- What goes wrong in the backend of a rename; 0 stands for no error. The steps of the two scans are
numbered, and the deletion of a target entry is named by the key of the entry. -/
structure RenameFaults where
  noReplaced : Bool := false
  noSource : Bool := false
  sourceScan : Nat → Nat := fun _ => 0
  entryError : Nat := 0
  deleteError : Nat := 0
  resizeError : Nat := 0
  modifyError : Nat := 0
  noTarget : Bool := false
  targetScan : Nat → Nat := fun _ => 0
  targetDelete : Nat → Nat := fun _ => 0
  relookupError : Nat := 0
  createError : Nat := 0

/-- `HAMMER2_ERROR_EIO` and `HAMMER2_ERROR_ENOENT` -/
def renameErrorEio : Nat := 0x01
def renameErrorEnoent : Nat := 0x40

structure RenameRequest where
  fd : Nat
  name1 : Name
  td : Nat
  name2 : Name
  lhc : Nat
  /-- What `checkdirempty` returns for the directory that is replaced, if there is one. -/
  ip4 : Option Nat

section Backend

variable (faults : RenameFaults)

/-- The search for the source entry from step `n` of the scan on. -/
def scanSource (name : Name) : Nat → List (Nat × Dirent) → Except Nat (Nat × Dirent)
  | n, [] => .error (if faults.sourceScan n = 0 then renameErrorEnoent else faults.sourceScan n)
  | n, (key, e) :: rest =>
    if faults.sourceScan n ≠ 0 then .error (faults.sourceScan n)
    else if direntTest e name then .ok (key, e)
    else scanSource name (n + 1) rest

/-- The entry with its new name. A chain without a block needs no storage, so that only a change of
the size and a name in a block can fail. -/
def renameEntry (e : Dirent) (name : Name) : Except Nat Dirent :=
  if (name.length ≤ checkBytes ↔ e.data ≠ []) ∧ faults.resizeError ≠ 0 then .error faults.resizeError
  else if checkBytes < name.length ∧ faults.modifyError ≠ 0 then .error faults.modifyError
  else .ok (e.setName name)

/-- The loop that deletes the entries with the target name. `hammer2_chain_next` overwrites the error
of a deletion. -/
def deleteTargets (name : Name) : Nat → List (Nat × Dirent) → Dir → Dir × Nat
  | n, [], dir => (dir, faults.targetScan n)
  | n, (key, e) :: rest, dir =>
    if faults.targetScan n ≠ 0 then (dir, faults.targetScan n)
    else
      deleteTargets name (n + 1) rest
        (if direntTest e name ∧ faults.targetDelete key = 0 then Function.update dir key none else dir)

variable (req : RenameRequest)

/-- The part of `hammer2_xop_nrename` before the entry is taken from its directory: the error it ends
with, or the entry. -/
def renameSource (dirs : Nat → Dir) : Except Nat (Nat × Dirent) :=
  if req.ip4 ≠ none ∧ faults.noReplaced then .error renameErrorEio
  else if req.ip4.getD 0 ≠ 0 then .error (req.ip4.getD 0)
  else if faults.noSource then .error renameErrorEio
  else
    match scanSource faults req.name1 0 (window (dirs req.fd) (lhcBase req.name1)) with
    | .error error => .error error
    | .ok (key, e) =>
      if faults.entryError ≠ 0 then .error faults.entryError
      else if faults.deleteError ≠ 0 then .error faults.deleteError
      else .ok (key, e)

/-- The name of the entry changes. -/
def renames (key : Nat) : Bool := key ≠ req.lhc || req.name1 ≠ req.name2

/-- The rest of `hammer2_xop_nrename`, for an entry that is in no directory; `none` is a failed
assertion. -/
def renameTarget (dirs : Nat → Dir) (key : Nat) (e : Dirent) : Option ((Nat → Dir) × Nat) :=
  if faults.noTarget then some (dirs, renameErrorEio)
  else
    match (if renames req key then renameEntry faults e req.name2 else .ok e) with
    | .error error => some (dirs, error)
    | .ok e =>
      let scan := window (dirs req.td) (req.lhc / (dirhashLomask + 1) * (dirhashLomask + 1))
      let (tdir, error) := deleteTargets faults req.name2 0 scan (dirs req.td)
      let dirs := Function.update dirs req.td tdir
      if error ≠ 0 then some (dirs, error)
      else if faults.relookupError ≠ 0 ∨ (tdir req.lhc).isSome then none
      else if faults.createError ≠ 0 then some (dirs, faults.createError)
      else some (Function.update dirs req.td (Function.update tdir req.lhc (some e)), 0)

/-- `hammer2_xop_nrename` of a directory entry, with the error that it feeds. -/
def nrename (dirs : Nat → Dir) : Option ((Nat → Dir) × Nat) :=
  match renameSource faults req dirs with
  | .error error => some (dirs, error)
  | .ok (key, e) =>
    renameTarget faults req (Function.update dirs req.fd (Function.update (dirs req.fd) key none)) key e

end Backend

/-- A directory in which a lookup is that of a map. -/
def NameDir : Type := { dir : Dir // ∃ map, Represents dir map }

section Atomic

variable (faults : RenameFaults) (req : RenameRequest)

/-- If the backend feeds an error, both names resolve to what they did before. -/
def RenameAtomic (dirs : Nat → Dir) : Prop :=
  ∀ dirs' error, nrename faults req dirs = some (dirs', error) → error ≠ 0 →
    nresolve (dirs' req.fd) req.name1 = nresolve (dirs req.fd) req.name1 ∧
      nresolve (dirs' req.td) req.name2 = nresolve (dirs req.td) req.name2

/-- The resize or the modification of the entry for its new name fails. -/
def EntryFails (key : Nat) (e : Dirent) : Prop :=
  renames req key = true ∧
    ((req.name2.length ≤ checkBytes ↔ e.data ≠ []) ∧ faults.resizeError ≠ 0 ∨
      checkBytes < req.name2.length ∧ faults.modifyError ≠ 0)

/-- A step of the scan for target entries fails. -/
def ScanFails (dir : Dir) : Prop :=
  ∃ n ≤ (window dir (req.lhc / 32768 * 32768)).length, faults.targetScan n ≠ 0

/-- The key of the new entry is free once the target entries are deleted. -/
def KeyFree (dir : Dir) : Prop :=
  ∀ e, dir req.lhc = some e → direntTest e req.name2 = true ∧ faults.targetDelete req.lhc = 0

/-- A step after the deletion of the source entry fails; `dirs` are the directories without it. -/
def LateFailure (dirs : Nat → Dir) (key : Nat) (e : Dirent) : Prop :=
  faults.noTarget = true ∨ EntryFails faults req key e ∨ ScanFails faults req (dirs req.td) ∨
    faults.relookupError = 0 ∧ KeyFree faults req (dirs req.td) ∧ faults.createError ≠ 0

end Atomic

section Proofs

variable {faults : RenameFaults} {req : RenameRequest}

theorem scanSource_ok {name : Name} {n key : Nat} {e : Dirent} {scan : List (Nat × Dirent)}
    (h : scanSource faults name n scan = .ok (key, e)) :
    (key, e) ∈ scan ∧ direntTest e name = true := by
  induction scan generalizing n with
  | nil => cases h
  | cons p rest ih =>
    obtain ⟨k, e'⟩ := p
    unfold scanSource at h
    split at h
    next => cases h
    next =>
      split at h
      next ht =>
        cases h
        exact ⟨List.mem_cons_self, ht⟩
      next =>
        obtain ⟨hmem, ht⟩ := ih h
        exact ⟨List.mem_cons_of_mem _ hmem, ht⟩

theorem renameSource_ok {dirs : Nat → Dir} {key : Nat} {e : Dirent}
    (h : renameSource faults req dirs = .ok (key, e)) :
    dirs req.fd key = some e ∧ direntTest e req.name1 = true := by
  unfold renameSource at h
  split at h
  next => cases h
  next =>
    split at h
    next => cases h
    next =>
      split at h
      next => cases h
      next =>
        split at h
        next => cases h
        next k e' hscan =>
          split at h
          next => cases h
          next =>
            split at h
            next => cases h
            next =>
              cases h
              obtain ⟨hmem, ht⟩ := scanSource_ok hscan
              exact ⟨(mem_window.mp hmem).2, ht⟩

/-- The loop only deletes. -/
theorem deleteTargets_some {name : Name} {n key : Nat} {e : Dirent} {scan : List (Nat × Dirent)}
    {dir : Dir} (h : (deleteTargets faults name n scan dir).1 key = some e) : dir key = some e := by
  induction scan generalizing n dir with
  | nil => exact h
  | cons p rest ih =>
    obtain ⟨k, e'⟩ := p
    unfold deleteTargets at h
    split at h
    next => exact h
    next =>
      have h' := ih h
      split at h'
      next =>
        by_cases hk : key = k
        · rw [hk, Function.update_self] at h'
          cases h'
        · rwa [Function.update_of_ne hk] at h'
      next => exact h'

theorem deleteTargets_error {name : Name} {n : Nat} {scan : List (Nat × Dirent)} {dir : Dir} :
    (deleteTargets faults name n scan dir).2 = 0 ↔
      ∀ k ≤ scan.length, faults.targetScan (n + k) = 0 := by
  induction scan generalizing n dir with
  | nil => simp [deleteTargets]
  | cons p rest ih =>
    unfold deleteTargets
    split
    next he =>
      constructor
      · intro h
        exact absurd h he
      · intro h
        exact absurd (h 0 (Nat.zero_le _)) he
    next he =>
      rw [ih]
      constructor
      · intro h k hk
        cases k with
        | zero => exact not_not.mp he
        | succ k =>
          have hk' := h k (by simpa using hk)
          rwa [Nat.add_right_comm, Nat.add_assoc] at hk'
      · intro h k hk
        have hk' := h (k + 1) (by simpa using hk)
        rwa [← Nat.add_assoc, Nat.add_right_comm] at hk'

/-- An entry of the scan that stays was not asked to go, or resisted. -/
theorem deleteTargets_stays {name : Name} {n key : Nat} {e : Dirent} {scan : List (Nat × Dirent)}
    {dir : Dir} (herr : (deleteTargets faults name n scan dir).2 = 0) (hmem : (key, e) ∈ scan)
    (ht : direntTest e name = true) (hd : faults.targetDelete key = 0) :
    (deleteTargets faults name n scan dir).1 key = none := by
  have hstep : ∀ {n : Nat} {scan : List (Nat × Dirent)} {dir : Dir}, dir key = none →
      (deleteTargets faults name n scan dir).1 key = none := by
    intro n scan dir hnone
    cases hr : (deleteTargets faults name n scan dir).1 key with
    | none => rfl
    | some e' =>
      have := deleteTargets_some hr
      rw [hnone] at this
      cases this
  induction scan generalizing n dir with
  | nil => cases hmem
  | cons p rest ih =>
    obtain ⟨k, e'⟩ := p
    unfold deleteTargets at herr ⊢
    split at herr
    next he => exact absurd herr he
    next he =>
      rw [if_neg he]
      rcases List.mem_cons.mp hmem with heq | hmem
      · cases heq
        rw [if_pos ⟨ht, hd⟩]
        exact hstep (Function.update_self _ _ _)
      · exact ih herr hmem

/-- An entry that none of the deletions takes stays. -/
theorem deleteTargets_keeps {name : Name} {n key : Nat} {e : Dirent} {scan : List (Nat × Dirent)}
    {dir : Dir} (hdir : dir key = some e)
    (hk : ∀ e', (key, e') ∈ scan → ¬(direntTest e' name = true ∧ faults.targetDelete key = 0)) :
    (deleteTargets faults name n scan dir).1 key = some e := by
  induction scan generalizing n dir with
  | nil => exact hdir
  | cons p rest ih =>
    obtain ⟨k, e'⟩ := p
    unfold deleteTargets
    split
    next => exact hdir
    next =>
      refine ih ?_ fun e'' hmem => hk e'' (List.mem_cons_of_mem _ hmem)
      split
      next hcond =>
        have hne : key ≠ k := by
          rintro rfl
          exact hk e' List.mem_cons_self hcond
        rw [Function.update_of_ne hne]
        exact hdir
      next => exact hdir

/-- The key of the new entry lies in the scan of its own collision space. -/
theorem mem_targetScan {dir : Dir} {lhc : Nat} {e : Dirent} :
    (lhc, e) ∈ window dir (lhc / 32768 * 32768) ↔ dir lhc = some e := by
  unfold window dirhashLomask
  rw [mem_lookupRange]
  constructor
  · exact fun h => h.2.2
  · exact fun h => ⟨by omega, by omega, h⟩

theorem deleteTargets_free {dir : Dir} {n : Nat}
    (herr : (deleteTargets faults req.name2 n (window dir (req.lhc / 32768 * 32768)) dir).2 = 0) :
    (deleteTargets faults req.name2 n (window dir (req.lhc / 32768 * 32768)) dir).1 req.lhc = none ↔
      KeyFree faults req dir := by
  constructor
  · intro h e he
    by_contra hcond
    have hkeep : (deleteTargets faults req.name2 n (window dir (req.lhc / 32768 * 32768)) dir).1
        req.lhc = some e := by
      refine deleteTargets_keeps he fun e' hmem hc => ?_
      cases he.symm.trans (mem_targetScan.mp hmem)
      exact hcond hc
    rw [h] at hkeep
    cases hkeep
  · intro h
    cases hr : (deleteTargets faults req.name2 n (window dir (req.lhc / 32768 * 32768)) dir).1
        req.lhc with
    | none => rfl
    | some e =>
      have he := deleteTargets_some hr
      obtain ⟨ht, hd⟩ := h e he
      rw [deleteTargets_stays herr (mem_targetScan.mpr he) ht hd] at hr
      cases hr

theorem renameEntry_error {key : Nat} {e : Dirent} :
    (∃ error, (if renames req key then renameEntry faults e req.name2 else .ok e) = .error error) ↔
      EntryFails faults req key e := by
  unfold EntryFails renameEntry
  by_cases hr : renames req key = true
  · simp only [hr, if_true, true_and]
    split
    next h => simp [h]
    next h =>
      split
      next hm => simp [hm]
      next hm => simp [h, hm]
  · simp [hr]

/-- An error of the change of the entry is one. -/
theorem renameEntry_ne_zero {key error : Nat} {e : Dirent}
    (h : (if renames req key then renameEntry faults e req.name2 else .ok e) = .error error) :
    error ≠ 0 := by
  unfold renameEntry at h
  split at h
  next =>
    split at h
    next hr =>
      cases h
      exact hr.2
    next =>
      split at h
      next hm =>
        cases h
        exact hm.2
      next => cases h
  next => cases h

/-- The scan of the loop over the target entries, as the conditions speak of it. -/
theorem renameTarget_scan (dirs : Nat → Dir) :
    ScanFails faults req (dirs req.td) ↔
      (deleteTargets faults req.name2 0 (window (dirs req.td) (req.lhc / 32768 * 32768))
        (dirs req.td)).2 ≠ 0 := by
  rw [ne_eq, deleteTargets_error]
  unfold ScanFails
  push Not
  simp only [Nat.zero_add]

/-- Every result of the second part: without a late failure it has no error, with one it has, and then
the directories only lose entries. -/
theorem renameTarget_result {dirs dirs' : Nat → Dir} {key error : Nat} {e : Dirent}
    (h : renameTarget faults req dirs key e = some (dirs', error)) :
    (error ≠ 0 ↔ LateFailure faults req dirs key e) ∧
      (error ≠ 0 → ∀ d k e', dirs' d k = some e' → dirs d k = some e') := by
  unfold renameTarget dirhashLomask at h
  unfold LateFailure
  split at h
  next hn =>
    cases h
    exact ⟨by simp [hn, renameErrorEio], fun _ _ _ _ h => h⟩
  next hn =>
    split at h
    next error' hentry =>
      cases h
      have hne := renameEntry_ne_zero hentry
      exact ⟨iff_of_true hne (Or.inr (Or.inl (renameEntry_error.mp ⟨_, hentry⟩))),
        fun _ _ _ _ h => h⟩
    next e₂ hentry =>
      have hok : ¬EntryFails faults req key e := by
        intro hf
        obtain ⟨error', he⟩ := renameEntry_error.mpr hf
        rw [hentry] at he
        cases he
      have hless : ∀ d k e', Function.update dirs req.td
          (deleteTargets faults req.name2 0 (window (dirs req.td) (req.lhc / 32768 * 32768))
            (dirs req.td)).1 d k = some e' → dirs d k = some e' := by
        intro d k e' hk
        by_cases hd : d = req.td
        · subst hd
          rw [Function.update_self] at hk
          exact deleteTargets_some hk
        · rwa [Function.update_of_ne hd] at hk
      dsimp only at h
      split at h
      next hs =>
        cases h
        exact ⟨iff_of_true hs (Or.inr (Or.inr (Or.inl ((renameTarget_scan dirs).mpr hs)))),
          fun _ => hless⟩
      next hs =>
        have hscan : ¬ScanFails faults req (dirs req.td) := fun hf =>
          hs ((renameTarget_scan dirs).mp hf)
        split at h
        next => cases h
        next hpanic =>
          push Not at hpanic
          have hfree : KeyFree faults req (dirs req.td) :=
            (deleteTargets_free (not_not.mp hs)).mp (by simpa using hpanic.2)
          split at h
          next hc =>
            cases h
            exact ⟨iff_of_true hc (Or.inr (Or.inr (Or.inr ⟨hpanic.1, hfree, hc⟩))), fun _ => hless⟩
          next hc =>
            cases h
            simp [hn, hok, hscan, hc]

/-- A late failure does feed an error. -/
theorem renameTarget_fails {dirs : Nat → Dir} {key : Nat} {e : Dirent}
    (h : LateFailure faults req dirs key e) :
    ∃ dirs' error, renameTarget faults req dirs key e = some (dirs', error) := by
  unfold renameTarget dirhashLomask
  split
  next => exact ⟨_, _, rfl⟩
  next hn =>
    split
    next => exact ⟨_, _, rfl⟩
    next e₂ hentry =>
      dsimp only
      split
      next => exact ⟨_, _, rfl⟩
      next hs =>
        rcases h with hn' | hf | hf | ⟨hre, hfree, hc⟩
        · exact absurd hn' hn
        · obtain ⟨error', he⟩ := renameEntry_error.mpr hf
          rw [hentry] at he
          cases he
        · exact absurd ((renameTarget_scan dirs).mp hf) hs
        · have hnone := (deleteTargets_free (not_not.mp hs)).mpr hfree
          rw [if_neg (by simp [hre, hnone]), if_pos hc]
          exact ⟨_, _, rfl⟩

/-- The directories without the source entry. -/
def takeEntry (dirs : Nat → Dir) (fd key : Nat) : Nat → Dir :=
  Function.update dirs fd (Function.update (dirs fd) key none)

theorem takeEntry_some {dirs : Nat → Dir} {fd key k : Nat} {e : Dirent}
    (h : takeEntry dirs fd key fd k = some e) : dirs fd k = some e ∧ k ≠ key := by
  unfold takeEntry at h
  rw [Function.update_self] at h
  by_cases hk : k = key
  · rw [hk, Function.update_self] at h
    cases h
  · rw [Function.update_of_ne hk] at h
    exact ⟨h, hk⟩

/-- Without its only entry a name does not resolve. -/
theorem nresolve_lost {dir dir' : Dir} {map : Name → Option Nat} (hrep : Represents dir map)
    {key : Nat} {e : Dirent} {name : Name} (hkey : dir key = some e) (ht : direntTest e name = true)
    (hless : ∀ k e', dir' k = some e' → dir k = some e' ∧ k ≠ key) : nresolve dir' name = none := by
  unfold nresolve
  cases hl : direntLookup dir' name with
  | none => rfl
  | some p =>
    obtain ⟨k, e'⟩ := p
    obtain ⟨hk, ht', -⟩ := direntLookup_some hl
    obtain ⟨hk', hne⟩ := hless k e' hk
    exact absurd (hrep.unique k key e' e name hk' hkey ht' ht) hne

/-- A late failure takes the old name away. -/
theorem LateFailure.not_atomic {dirs : Nat → Dir} {map : Name → Option Nat} {key : Nat} {e : Dirent}
    (hrep : Represents (dirs req.fd) map) (hsrc : renameSource faults req dirs = .ok (key, e))
    (h : LateFailure faults req (takeEntry dirs req.fd key) key e) :
    ¬RenameAtomic faults req dirs := by
  intro hatomic
  obtain ⟨hkey, ht⟩ := renameSource_ok hsrc
  obtain ⟨dirs', error, hres⟩ := renameTarget_fails h
  obtain ⟨hiff, hless⟩ := renameTarget_result hres
  have herr := hiff.mpr h
  have hlost : nresolve (dirs' req.fd) req.name1 = none :=
    nresolve_lost hrep hkey ht fun k e' hk => takeEntry_some (hless herr req.fd k e' hk)
  have hrun : nrename faults req dirs = some (dirs', error) := by
    unfold nrename
    rw [hsrc]
    exact hres
  have hsame := (hatomic dirs' error hrun herr).1
  rw [hlost, hrep.nresolve_eq, (hrep.of_test hkey ht).2] at hsame
  cases hsame

/-- A rename that feeds an error leaves both names alone just when no step fails once the source entry
is deleted. -/
theorem nrename_atomic_iff (faults : RenameFaults) (req : RenameRequest) (dirs : Nat → NameDir) :
    RenameAtomic faults req (fun d => (dirs d).1) ↔
      ∀ key e, renameSource faults req (fun d => (dirs d).1) = .ok (key, e) →
        ¬LateFailure faults req (takeEntry (fun d => (dirs d).1) req.fd key) key e := by
  constructor
  · intro h key e hsrc hlate
    obtain ⟨map, hrep⟩ := (dirs req.fd).2
    exact hlate.not_atomic hrep hsrc h
  · intro h dirs' error hres herr
    unfold nrename at hres
    cases hsrc : renameSource faults req (fun d => (dirs d).1) with
    | error error' =>
      rw [hsrc] at hres
      cases hres
      exact ⟨rfl, rfl⟩
    | ok p =>
      obtain ⟨key, e⟩ := p
      rw [hsrc] at hres
      exact absurd ((renameTarget_result hres).1.mp herr) (h key e hsrc)

/-- No operation of the backend fails. -/
def RenameFaults.none (faults : RenameFaults) : Prop :=
  faults.noReplaced = false ∧ faults.noSource = false ∧ (∀ n, faults.sourceScan n = 0) ∧
    faults.entryError = 0 ∧ faults.deleteError = 0 ∧ faults.resizeError = 0 ∧
    faults.modifyError = 0 ∧ faults.noTarget = false ∧ (∀ n, faults.targetScan n = 0) ∧
    (∀ key, faults.targetDelete key = 0) ∧ faults.relookupError = 0 ∧ faults.createError = 0

theorem scanSource_find {name : Name} (hf : ∀ n, faults.sourceScan n = 0) (n : Nat)
    (scan : List (Nat × Dirent)) :
    scanSource faults name n scan =
      match scan.find? fun p => direntTest p.2 name with
      | some p => .ok p
      | .none => .error renameErrorEnoent := by
  induction scan generalizing n with
  | nil => simp [scanSource, hf]
  | cons p rest ih =>
    obtain ⟨k, e⟩ := p
    unfold scanSource
    rw [if_neg (by simp [hf]), List.find?_cons]
    cases ht : direntTest e name with
    | true => rfl
    | false => exact ih (n + 1)

theorem deleteTargets_matches (hscan : ∀ n, faults.targetScan n = 0)
    (hdel : ∀ key, faults.targetDelete key = 0) (dir : Dir) :
    deleteTargets faults req.name2 0 (window dir (req.lhc / 32768 * 32768)) dir =
      (deleteMatches dir req.lhc req.name2, 0) := by
  have herr : (deleteTargets faults req.name2 0 (window dir (req.lhc / 32768 * 32768)) dir).2 = 0 :=
    deleteTargets_error.mpr fun k _ => hscan _
  have hmem : ∀ key e, (key, e) ∈ window dir (req.lhc / 32768 * 32768) ↔
      key / 32768 = req.lhc / 32768 ∧ dir key = some e := by
    intro key e
    unfold window dirhashLomask
    rw [mem_lookupRange]
    constructor
    · rintro ⟨h1, h2, h3⟩
      exact ⟨by omega, h3⟩
    · rintro ⟨h1, h3⟩
      exact ⟨by omega, by omega, h3⟩
  suffices hkeys : ∀ key,
      (deleteTargets faults req.name2 0 (window dir (req.lhc / 32768 * 32768)) dir).1 key =
        deleteMatches dir req.lhc req.name2 key from Prod.ext (funext hkeys) herr
  intro key
  cases hd : deleteMatches dir req.lhc req.name2 key with
  | some e =>
    obtain ⟨hkey, hstay⟩ := deleteMatches_some hd
    refine deleteTargets_keeps hkey fun e' hm hc => hstay ⟨((hmem key e').mp hm).1, ?_⟩
    cases hkey.symm.trans ((hmem key e').mp hm).2
    exact hc.1
  | none =>
    cases hr : (deleteTargets faults req.name2 0 (window dir (req.lhc / 32768 * 32768)) dir).1 key with
    | none => rfl
    | some e =>
      have hkey := deleteTargets_some hr
      by_cases hc : key / 32768 = req.lhc / 32768 ∧ direntTest e req.name2 = true
      · have hgone := deleteTargets_stays herr ((hmem key e).mpr ⟨hc.1, hkey⟩) hc.2 (hdel key)
        rw [hr] at hgone
        cases hgone
      · unfold deleteMatches dirhashLomask at hd
        rw [hkey] at hd
        dsimp only at hd
        rw [if_neg hc] at hd
        cases hd

/-- Without failures this is the rename that moves the binding of a name. -/
theorem nrename_ok (hf : faults.none) (dirs dirs' : Nat → Dir) :
    nrename faults req dirs = some (dirs', 0) ↔
      xopNrename dirs req.fd req.name1 req.td req.name2 req.lhc (req.ip4.map (· = 0)) = .ok dirs' := by
  obtain ⟨hrep, hsrc, hss, hent, hdel, hres, hmod, htgt, hts, htd, hre, hcr⟩ := hf
  unfold nrename renameSource xopNrename direntLookup
  rw [scanSource_find hss, if_neg (by simp [hrep])]
  have hip : (req.ip4.map fun n => decide (n = 0)) = some false ↔ req.ip4.getD 0 ≠ 0 := by
    cases req.ip4 with
    | none => simp
    | some n => simp
  by_cases h4 : req.ip4.getD 0 ≠ 0
  · rw [if_pos h4, if_pos (hip.mpr h4)]
    simp [h4]
  · rw [if_neg h4, if_neg fun h => h4 (hip.mp h), if_neg (by simp [hsrc])]
    cases (window (dirs req.fd) (lhcBase req.name1)).find? fun p => direntTest p.2 req.name1 with
    | none => simp [renameErrorEnoent]
    | some p =>
      obtain ⟨key, e⟩ := p
      dsimp only
      rw [if_neg (by simp [hent]), if_neg (by simp [hdel])]
      dsimp only
      unfold renameTarget
      rw [if_neg (by simp [htgt])]
      have hentry : (if renames req key then renameEntry faults e req.name2 else .ok e) =
          .ok (if key ≠ req.lhc ∨ req.name1 ≠ req.name2 then e.setName req.name2 else e) := by
        unfold renames renameEntry
        simp only [hres, hmod]
        by_cases hn : key ≠ req.lhc ∨ req.name1 ≠ req.name2
        · rw [if_pos hn, if_pos (by simpa using hn)]
          simp
        · rw [if_neg hn, if_neg (by simpa using hn)]
      rw [hentry]
      unfold dirhashLomask
      dsimp only
      rw [deleteTargets_matches hts htd]
      dsimp only
      generalize deleteMatches _ req.lhc req.name2 = tdir
      by_cases hl : (tdir req.lhc).isSome = true
      · simp [hl]
      · simp [hl, hre, hcr]

/-- A directory with one file `a`. -/
def fileDir : Dir :=
  Function.update (fun _ => none) (lhcBase [0x61#8])
    (some ((⟨7, 2, 0, [], []⟩ : Dirent).setName [0x61#8]))

theorem fileDir_represents :
    Represents fileDir (Function.update (fun _ => none) [0x61#8] (some 7)) := by
  have hempty : Represents (fun _ => none) (fun _ => none) := by
    refine ⟨?_, ?_, ?_, ?_⟩
    · intro key e h
      cases h
    · intro key e h
      cases h
    · intro key key' e e' name h
      cases h
    · intro name inum h
      cases h
  refine hempty.insert rfl rfl rfl (by decide) (setName_encoded _ _)

/-- The file gets a name of 65 bytes in another directory. -/
def longRename : RenameRequest :=
  ⟨0, [0x61#8], 1, List.replicate 65 0x62#8, lhcBase (List.replicate 65 0x62#8), none⟩

/-- The block for the long name cannot be allocated: the file is gone. -/
theorem nrename_loses_entry :
    ¬RenameAtomic { resizeError := 0x20 } longRename (fun _ => fileDir) := by
  have hsrc : ∃ key e, renameSource { resizeError := 0x20 } longRename (fun _ => fileDir) =
      .ok (key, e) := by
    unfold renameSource longRename
    rw [scanSource_find fun _ => rfl]
    cases hl : direntLookup fileDir [0x61#8] with
    | none =>
      have hfound := fileDir_represents.nresolve_eq [0x61#8]
      unfold nresolve at hfound
      rw [hl, Function.update_self] at hfound
      cases hfound
    | some p =>
      unfold direntLookup at hl
      dsimp only
      rw [hl]
      exact ⟨p.1, p.2, rfl⟩
  obtain ⟨key, e, hsrc⟩ := hsrc
  have hdata : e.data = [] := by
    have hkey : fileDir key = some e := (renameSource_ok hsrc).1
    unfold fileDir at hkey
    by_cases hk : key = lhcBase [0x61#8]
    · rw [hk, Function.update_self] at hkey
      cases hkey
      rfl
    · rw [Function.update_of_ne hk] at hkey
      cases hkey
  refine LateFailure.not_atomic fileDir_represents hsrc (Or.inr (Or.inl ⟨?_, Or.inl ⟨?_, ?_⟩⟩))
  · have hne : longRename.name1 ≠ longRename.name2 := by decide
    unfold renames
    rw [decide_eq_true hne, Bool.or_true]
  · rw [hdata]
    decide
  · decide

end Proofs

end Hammer2
