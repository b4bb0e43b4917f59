import Hammer2.CursorLoop
import Hammer2.Newfs
import Hammer2.PfsNames

namespace Hammer2

open CursorLoop

/-- `HAMMER2_BREF_TYPE_INODE` -/
def brefTypeInode : Nat := 1

/-- `DMSG_LABEL_SIZE` -/
def dmsgLabelSize : Nat := 128

/-- `DMSG_SPAN_PROTO_1` -/
def dmsgSpanProto1 : Nat := 1

/-- What the scans read of the inode of a PFS. -/
structure PfsData where
  pfsClid : Nat
  pfsFsid : Nat
  pfsType : Nat
  nameLen : Nat
  filename : Name

/-- A chain that the scans meet under the super-root. -/
structure RootChain where
  key : Nat
  type : Nat
  error : Nat
  pfsroot : Bool
  data : Option PfsData

/-- What `hammer2_chain_lookup` and `hammer2_chain_next` return for all keys, and the error that the
last of these calls leaves. -/
structure RootScan where
  parent : Bool
  chains : List RootChain
  last : Nat

/-- The chains that a loop has passed, as it left them, and what else it has built up. -/
structure ScanState (ρ : Type) where
  visited : List RootChain
  acc : ρ

/-- How a scan returns; `locked` is the lock of the inode of the super-root. -/
structure ScanResult (ρ : Type) where
  visited : List RootChain
  acc : ρ
  locked : Bool

variable {ρ : Type}

def ScanState.pass (s : ScanState ρ) (c : RootChain) (acc : ρ) : ScanState ρ :=
  ⟨s.visited ++ [c], acc⟩

/-- One turn of the loop of `hammer2_fixup_pfses`; `modify` is the error that `hammer2_chain_modify`
returns. `hammer2_chain_next` clears the error that the turn has collected. -/
def fixupTurn (modify : Nat → Nat) (s : ScanState Nat) (c : RootChain) : Turn (ScanState Nat) :=
  if c.type ≠ brefTypeInode then .again s
  else if c.error ≠ 0 then .next (s.pass c 0)
  else if c.pfsroot then .next (s.pass c 0)
  else if modify c.key ≠ 0 then .next (s.pass c 0)
  else match c.data with
    | none => .fault
    | some _ => .next (s.pass { c with pfsroot := true } 0)

/-- `hammer2_fixup_pfses`, with the error that it returns. -/
def fixupPfses (modify : Nat → Nat) (scan : RootScan) (fuel : Nat) : Outcome (ScanResult Nat) :=
  if scan.parent = false then .fault
  else (run (fixupTurn modify) fuel ⟨[], 0⟩ scan.chains).map fun s => ⟨s.visited, scan.last, false⟩

/-- One turn of the loop of `hammer2_update_pmps`. -/
def pmpsTurn (dev : PfsDev) (s : ScanState (List Pmp)) (c : RootChain) : Turn (ScanState (List Pmp)) :=
  if c.error ≠ 0 then .next (s.pass c s.acc)
  else if c.type ≠ brefTypeInode then .next (s.pass c s.acc)
  else match c.data with
    | none => .fault
    | some data => .next (s.pass c (pfsalloc dev s.acc data.pfsClid data.filename))

/-- `hammer2_update_pmps`, with the list of PFSs that it leaves. -/
def updatePmps (dev : PfsDev) (pfslist : List Pmp) (scan : RootScan) (fuel : Nat) :
    Outcome (ScanResult (List Pmp)) :=
  if scan.parent = false then .fault
  else (run (pmpsTurn dev) fuel ⟨[], pfslist⟩ scan.chains).map fun s => ⟨s.visited, s.acc, false⟩

/-- A `LNK_SPAN` message. -/
structure LnkSpan where
  peerId : Nat
  pfsId : Nat
  pfsType : Nat
  peerType : Nat
  protoVersion : Nat
  peerLabel : Name

def PfsData.span (data : PfsData) : LnkSpan where
  peerId := data.pfsClid
  pfsId := data.pfsFsid
  pfsType := data.pfsType
  peerType := dmsgPeerHammer2
  protoVersion := dmsgSpanProto1
  peerLabel := data.filename.take (min data.nameLen (dmsgLabelSize - 1))

/-- One turn of the loop of `hammer2_update_spans`. -/
def spansTurn (s : ScanState (List LnkSpan)) (c : RootChain) : Turn (ScanState (List LnkSpan)) :=
  if c.type ≠ brefTypeInode then .again s
  else match c.data with
    | none => .fault
    | some data => .next (s.pass c (s.acc ++ [data.span]))

/-- `hammer2_update_spans`, with the messages that it writes. Without the root chain it returns past
the unlock. -/
def updateSpans (scan : RootScan) (fuel : Nat) : Outcome (ScanResult (List LnkSpan)) :=
  if scan.parent = false then .done ⟨[], [], true⟩
  else (run spansTurn fuel ⟨[], []⟩ scan.chains).map fun s => ⟨s.visited, s.acc, false⟩

/-- What the fixup leaves of a chain. -/
def markPfsroot (c : RootChain) : RootChain :=
  if c.type = brefTypeInode ∧ c.error = 0 then { c with pfsroot := true } else c

/-- The fixup returns with the inode unlocked, has passed each chain once, and has marked the inodes
that have no error. -/
def FixupRight (modify : Nat → Nat) (scan : RootScan) : Prop :=
  ∃ fuel r, fixupPfses modify scan fuel = .done r ∧ r.locked = false ∧
    r.visited = scan.chains.map markPfsroot

def PmpsRight (dev : PfsDev) (pfslist : List Pmp) (scan : RootScan) : Prop :=
  ∃ fuel r, updatePmps dev pfslist scan fuel = .done r ∧ r.locked = false ∧ r.visited = scan.chains

def SpansRight (scan : RootScan) : Prop :=
  ∃ fuel r, updateSpans scan fuel = .done r ∧ r.locked = false ∧ r.visited = scan.chains

/-- The fixup passes a chain: it is an inode, and its data is there if its name is printed. -/
def FixupPasses (modify : Nat → Nat) (c : RootChain) : Prop :=
  c.type = brefTypeInode ∧
    (c.error = 0 → c.pfsroot = false → modify c.key = 0 → c.data.isSome = true)

def PmpsPasses (c : RootChain) : Prop :=
  c.type = brefTypeInode → c.error = 0 → c.data.isSome = true

def SpansPasses (c : RootChain) : Prop := c.type = brefTypeInode ∧ c.data.isSome = true

/-- An inode without an error can be modified if it is not marked. -/
def Modifiable (modify : Nat → Nat) (c : RootChain) : Prop :=
  c.error = 0 → c.pfsroot = false → modify c.key = 0

/-- What the fixup leaves of a chain that it passes. -/
def fixupChain (modify : Nat → Nat) (c : RootChain) : RootChain :=
  if c.error = 0 ∧ modify c.key = 0 then { c with pfsroot := true } else c

theorem foldl_pass {f : RootChain → RootChain} {g : ρ → RootChain → ρ} (l : List RootChain)
    (s : ScanState ρ) :
    l.foldl (fun s c => s.pass (f c) (g s.acc c)) s =
      ⟨s.visited ++ l.map f, l.foldl g s.acc⟩ := by
  induction l generalizing s with
  | nil => simp
  | cons c l ih =>
    rw [List.foldl_cons, ih]
    simp [ScanState.pass]

/-- A scan whose turns do the same to the lock and to the list of chains returns as it should just
when no chain holds it up. -/
theorem scan_right_iff {turn : ScanState ρ → RootChain → Turn (ScanState ρ)} {good : RootChain → Prop}
    {f : RootChain → RootChain} {g : ρ → RootChain → ρ}
    (hnext : ∀ s c, good c → turn s c = .next (s.pass (f c) (g s.acc c)))
    (hstall : ∀ s c, ¬ good c → (∃ s', turn s c = .again s') ∨ turn s c = .fault) (acc : ρ)
    (out : ρ → ρ) (chains target : List RootChain) :
    (∃ fuel r, (run turn fuel ⟨[], acc⟩ chains).map
        (fun s => ScanResult.mk s.visited (out s.acc) false) = .done r ∧
      r.locked = false ∧ r.visited = target) ↔
      (∀ c ∈ chains, good c) ∧ chains.map f = target := by
  have hfold : chains.foldl (fun s c => s.pass (f c) (g s.acc c)) (ScanState.mk [] acc) =
      ⟨chains.map f, chains.foldl g acc⟩ := foldl_pass chains ⟨[], acc⟩
  have hloop (s' : ScanState ρ) : (∃ fuel, run turn fuel ⟨[], acc⟩ chains = .done s') ↔
      (∀ c ∈ chains, good c) ∧ s' = ⟨chains.map f, chains.foldl g acc⟩ := by
    rw [← hfold]
    exact done_iff hnext hstall
  constructor
  · rintro ⟨fuel, r, hr, -, hvisited⟩
    obtain ⟨s', hs, rfl⟩ := Outcome.map_eq_done.mp hr
    obtain ⟨hgood, rfl⟩ := (hloop s').mp ⟨fuel, hs⟩
    exact ⟨hgood, hvisited⟩
  · rintro ⟨hgood, htarget⟩
    obtain ⟨fuel, hs⟩ := (hloop _).mpr ⟨hgood, rfl⟩
    exact ⟨fuel, _, Outcome.map_eq_done.mpr ⟨_, hs, rfl⟩, rfl, htarget⟩

theorem fixupTurn_next {modify : Nat → Nat} (s : ScanState Nat) (c : RootChain)
    (h : FixupPasses modify c) : fixupTurn modify s c = .next (s.pass (fixupChain modify c) 0) := by
  obtain ⟨htype, hdata⟩ := h
  unfold fixupTurn fixupChain
  rw [if_neg (by simpa using htype)]
  by_cases herror : c.error = 0
  · rw [if_neg (by simpa using herror)]
    by_cases hflag : c.pfsroot = true
    · rw [if_pos hflag]
      have hsame : { c with pfsroot := true } = c := by rw [← hflag]
      split
      next => rw [hsame]
      next => rfl
    · rw [if_neg hflag]
      by_cases hm : modify c.key = 0
      · obtain ⟨data, hd⟩ := Option.isSome_iff_exists.mp (hdata herror (by simpa using hflag) hm)
        rw [if_neg (by simpa using hm), if_pos ⟨herror, hm⟩, hd]
      · rw [if_pos hm, if_neg (by simp [hm])]
  · rw [if_pos herror, if_neg (by simp [herror])]

theorem fixupTurn_stalls {modify : Nat → Nat} (s : ScanState Nat) (c : RootChain)
    (h : ¬ FixupPasses modify c) :
    (∃ s', fixupTurn modify s c = .again s') ∨ fixupTurn modify s c = .fault := by
  unfold FixupPasses at h
  unfold fixupTurn
  by_cases htype : c.type = brefTypeInode
  · right
    simp only [htype, true_and, not_forall] at h
    obtain ⟨herror, hflag, hm, hdata⟩ := h
    have hnone : c.data = none := by simpa using hdata
    rw [if_neg (by simpa using htype), if_neg (by simpa using herror), if_neg (by simp [hflag]),
      if_neg (by simpa using hm), hnone]
  · left
    exact ⟨s, if_pos htype⟩

/-- Every chain that the fixup passes is marked as it should be just when it can be modified. -/
theorem map_fixupChain_iff {modify : Nat → Nat} {l : List RootChain}
    (h : ∀ c ∈ l, c.type = brefTypeInode) :
    l.map (fixupChain modify) = l.map markPfsroot ↔ ∀ c ∈ l, Modifiable modify c := by
  rw [List.map_inj_left]
  refine forall₂_congr fun c hc => ?_
  unfold fixupChain markPfsroot Modifiable
  by_cases herror : c.error = 0
  · by_cases hm : modify c.key = 0
    · simp [h c hc, herror, hm]
    · rw [if_neg (by simp [hm]), if_pos ⟨h c hc, herror⟩]
      constructor
      · intro heq _ hflag
        rw [heq] at hflag
        cases hflag
      · intro hmod
        cases hflag : c.pfsroot with
        | false => exact absurd (hmod herror hflag) hm
        | true => rw [← hflag]
  · rw [if_neg (by simp [herror]), if_neg (by simp [herror])]
    exact iff_of_true rfl fun h0 => absurd h0 herror

theorem fixupPfses_right_iff (modify : Nat → Nat) (scan : RootScan) :
    FixupRight modify scan ↔
      scan.parent = true ∧ ∀ c ∈ scan.chains, FixupPasses modify c ∧ Modifiable modify c := by
  have hscan := scan_right_iff (f := fixupChain modify) (g := fun _ _ => 0) fixupTurn_next
    fixupTurn_stalls 0 (fun _ => scan.last) scan.chains (scan.chains.map markPfsroot)
  unfold FixupRight fixupPfses
  by_cases hparent : scan.parent = true
  · simp only [hparent, Bool.true_eq_false, if_false, hscan, true_and, forall_and]
    refine and_congr_right fun hpass => ?_
    exact map_fixupChain_iff fun c hc => (hpass c hc).1
  · simp [hparent]

/-- What the loop of `hammer2_update_pmps` adds for a chain. -/
def pmpsAdd (dev : PfsDev) (pfslist : List Pmp) (c : RootChain) : List Pmp :=
  if c.error = 0 ∧ c.type = brefTypeInode then
    c.data.elim pfslist fun data => pfsalloc dev pfslist data.pfsClid data.filename
  else pfslist

theorem pmpsTurn_next {dev : PfsDev} (s : ScanState (List Pmp)) (c : RootChain) (h : PmpsPasses c) :
    pmpsTurn dev s c = .next (s.pass (id c) (pmpsAdd dev s.acc c)) := by
  unfold pmpsTurn pmpsAdd
  by_cases herror : c.error = 0
  · rw [if_neg (by simpa using herror)]
    by_cases htype : c.type = brefTypeInode
    · obtain ⟨data, hd⟩ := Option.isSome_iff_exists.mp (h htype herror)
      rw [if_neg (by simpa using htype), if_pos ⟨herror, htype⟩, hd]
      rfl
    · rw [if_pos htype, if_neg (by simp [htype])]
      rfl
  · rw [if_pos herror, if_neg (by simp [herror])]
    rfl

theorem pmpsTurn_stalls {dev : PfsDev} (s : ScanState (List Pmp)) (c : RootChain)
    (h : ¬ PmpsPasses c) : (∃ s', pmpsTurn dev s c = .again s') ∨ pmpsTurn dev s c = .fault := by
  right
  unfold PmpsPasses at h
  simp only [not_forall] at h
  obtain ⟨htype, herror, hdata⟩ := h
  have hnone : c.data = none := by simpa using hdata
  unfold pmpsTurn
  rw [if_neg (by simpa using herror), if_neg (by simpa using htype), hnone]

theorem updatePmps_right_iff (dev : PfsDev) (pfslist : List Pmp) (scan : RootScan) :
    PmpsRight dev pfslist scan ↔ scan.parent = true ∧ ∀ c ∈ scan.chains, PmpsPasses c := by
  have hscan := scan_right_iff (f := id) (g := pmpsAdd dev) pmpsTurn_next pmpsTurn_stalls pfslist id
    scan.chains scan.chains
  unfold PmpsRight updatePmps
  by_cases hparent : scan.parent = true
  · simp only [id_eq] at hscan
    simp only [hparent, Bool.true_eq_false, if_false, hscan, true_and, List.map_id, and_true]
  · simp [hparent]

theorem spansTurn_next (s : ScanState (List LnkSpan)) (c : RootChain) (h : SpansPasses c) :
    spansTurn s c = .next (s.pass (id c) (s.acc ++ (c.data.map PfsData.span).toList)) := by
  obtain ⟨htype, hdata⟩ := h
  obtain ⟨data, hd⟩ := Option.isSome_iff_exists.mp hdata
  unfold spansTurn
  rw [if_neg (by simpa using htype), hd]
  rfl

theorem spansTurn_stalls (s : ScanState (List LnkSpan)) (c : RootChain) (h : ¬ SpansPasses c) :
    (∃ s', spansTurn s c = .again s') ∨ spansTurn s c = .fault := by
  unfold spansTurn
  by_cases htype : c.type = brefTypeInode
  · right
    have hnone : c.data = none := by
      cases hd : c.data with
      | none => rfl
      | some data => exact absurd ⟨htype, by simp [hd]⟩ h
    rw [if_neg (by simpa using htype), hnone]
  · left
    exact ⟨s, if_pos htype⟩

theorem updateSpans_right_iff (scan : RootScan) :
    SpansRight scan ↔ scan.parent = true ∧ ∀ c ∈ scan.chains, SpansPasses c := by
  have hscan := scan_right_iff (f := id)
    (g := fun acc c => acc ++ (c.data.map PfsData.span).toList) spansTurn_next spansTurn_stalls [] id
    scan.chains scan.chains
  unfold SpansRight updateSpans
  by_cases hparent : scan.parent = true
  · simp only [id_eq] at hscan
    simp only [hparent, Bool.true_eq_false, if_false, hscan, true_and, List.map_id, and_true]
  · simp [hparent]

/-- Each scan of the super-root returns as it should just when the root chain is there and every chain
lets its loop pass. -/
theorem super_root_scans_iff (dev : PfsDev) (pfslist : List Pmp) (modify : Nat → Nat)
    (scan : RootScan) :
    (FixupRight modify scan ↔
      scan.parent = true ∧ ∀ c ∈ scan.chains, FixupPasses modify c ∧ Modifiable modify c) ∧
    (PmpsRight dev pfslist scan ↔ scan.parent = true ∧ ∀ c ∈ scan.chains, PmpsPasses c) ∧
    (SpansRight scan ↔ scan.parent = true ∧ ∀ c ∈ scan.chains, SpansPasses c) :=
  ⟨fixupPfses_right_iff modify scan, updatePmps_right_iff dev pfslist scan,
    updateSpans_right_iff scan⟩

/-- A super-root that has a directory entry under it. -/
def direntScanRoot : RootScan := ⟨true, [⟨0x8000, 4, 0, false, none⟩], 0⟩

theorem fixup_hangs_on_dirent : (∀ fuel, fixupPfses (fun _ => 0) direntScanRoot fuel = .running) ∧
    ¬ FixupRight (fun _ => 0) direntScanRoot := by
  have hrun (fuel : Nat) : run (fixupTurn fun _ => 0) fuel ⟨[], 0⟩ direntScanRoot.chains = .running := by
    induction fuel with
    | zero => rfl
    | succ fuel ih => exact ih
  have hfixup (fuel : Nat) : fixupPfses (fun _ => 0) direntScanRoot fuel = .running := by
    unfold fixupPfses
    rw [hrun fuel]
    rfl
  refine ⟨hfixup, ?_⟩
  rintro ⟨fuel, r, hr, -⟩
  rw [hfixup fuel] at hr
  cases hr

end Hammer2
