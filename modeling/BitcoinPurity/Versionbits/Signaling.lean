import BitcoinPurity.Versionbits.State

/-!
Deployment status (`deploymentstatus.h`), mandatory signaling in header validation, and the
scan for inherited RDTS violations at startup.

The startup scan repeats the mandatory-signaling rule without its exemption from
`nPurityActivationHeight` on.  `findRdtsSignalingViolations_agrees_iff` says exactly when the
two agree on a block; `purity_block_is_violation` is a block the running node accepts and the
next start invalidates.
-/

namespace BitcoinPurity

/-! ## Algorithm -/

variable (params : DeploymentParams)

section

variable (pindexPrev : BlockPtr)

def heightAfter : Int := if pindexPrev = [] then 0 else nHeight pindexPrev + 1

def deploymentActiveAfter (dep : DeploymentPos) : Bool :=
  if dep = .reducedData ∧ heightAfter pindexPrev ≥ params.nPurityActivationHeight then true
  else if getStateFor params dep pindexPrev ≠ .active then false
  else if (params.vDeployments dep).activeDuration = intMax then true
  else decide (heightAfter pindexPrev <
    addInt (getStateSinceHeightFor params dep pindexPrev) (params.vDeployments dep).activeDuration)

def getReducedDataGrandfatherHeight : Int :=
  if !deploymentActiveAfter params pindexPrev .reducedData then 0
  else if heightAfter pindexPrev ≥ params.nPurityActivationHeight ∧
      heightAfter pindexPrev ≥ params.nReducedDataGrandfatherFixHeight then
    params.nReducedDataGrandfatherHeight
  else getStateSinceHeightFor params .reducedData pindexPrev

def deploymentMustSignalAfter (dep : DeploymentPos) (state : ThresholdState) : Bool :=
  let deployment := params.vDeployments dep
  let nPeriod : Int := params.nMinerConfirmationWindow
  if pindexPrev ≠ [] ∧ nHeight pindexPrev + 1 ≥ params.nPurityActivationHeight then false
  else if deployment.maxActivationHeight ≥ intMax then false
  else if state ≠ .started then false
  else decide (heightAfter pindexPrev ≥ deployment.maxActivationHeight - 2 * nPeriod) &&
    decide (heightAfter pindexPrev < deployment.maxActivationHeight - nPeriod)

end

def DeploymentPos.name : DeploymentPos → String
  | .testdummy => "testdummy"
  | .taproot => "taproot"
  | .reducedData => "reduced_data"

/-- One round of `ContextualCheckBlockHeaderVolatile`: the reject reason for `pos`. -/
def checkMandatorySignal (h : CBlockHeader) (pindexPrev : BlockPtr) (pos : DeploymentPos) :
    Option String :=
  if deploymentMustSignalAfter params pindexPrev pos (getStateFor params pos pindexPrev) &&
      !signalsBit h.nVersion (params.vDeployments pos).bit then
    some ("bad-version-" ++ pos.name)
  else none

/-- `ContextualCheckBlockHeaderVolatile`: the reject reason, if any. -/
def contextualCheckBlockHeaderVolatile (h : CBlockHeader) (pindexPrev : BlockPtr) : Option String :=
  [.testdummy, .taproot, .reducedData].findSome? (checkMandatorySignal params h pindexPrev)

/-- One round of the scan of `FindRdtsSignalingViolations`. -/
def isRdtsViolation (s : Chainstate) (index : BlockPtr) : Bool :=
  let deployment := params.vDeployments .reducedData
  let period : Int := params.nMinerConfirmationWindow
  match index with
  | [] => false
  | h :: pprev =>
    if (s.data index).nStatus.failedMask then false
    else if nHeight index < deployment.maxActivationHeight - 2 * period ∨
        nHeight index ≥ deployment.maxActivationHeight - period then false
    else if getStateFor params .reducedData pprev ≠ .started then false
    else !signalsBit h.nVersion deployment.bit

def findRdtsSignalingViolations (s : Chainstate) : List BlockPtr :=
  if (params.vDeployments .reducedData).maxActivationHeight ≥ intMax then []
  else s.known.filter (isRdtsViolation params s)

/-! ## Lemmas -/

variable {params}

/-- The rule the startup scan applies: no exemption from the purity height on. -/
def MissesWindow (params : DeploymentParams) (h : CBlockHeader) (pprev : BlockPtr) : Prop :=
  let deployment := params.vDeployments .reducedData
  deployment.maxActivationHeight < intMax ∧
    deployment.maxActivationHeight - 2 * params.nMinerConfirmationWindow ≤ nHeight pprev + 1 ∧
    nHeight pprev + 1 < deployment.maxActivationHeight - params.nMinerConfirmationWindow ∧
    getStateFor params .reducedData pprev = .started ∧
    signalsBit h.nVersion deployment.bit = false

variable {h : CBlockHeader} {pprev : BlockPtr}

theorem mem_findRdtsSignalingViolations {s : Chainstate}
    (hk : h :: pprev ∈ s.known) (hf : (s.data (h :: pprev)).nStatus.failedMask = false) :
    h :: pprev ∈ findRdtsSignalingViolations params s ↔ MissesWindow params h pprev := by
  have hh : nHeight (h :: pprev) = nHeight pprev + 1 := by
    simp only [nHeight_eq, List.length_cons]
    omega
  unfold findRdtsSignalingViolations MissesWindow
  split
  · next hm => grind
  · next hm =>
    rw [List.mem_filter]
    simp only [hk, true_and, isRdtsViolation, hf, Bool.false_eq_true, if_false]
    grind

theorem deploymentMustSignalAfter_iff {dep : DeploymentPos}
    {state : ThresholdState} (hp : pprev ≠ []) :
    deploymentMustSignalAfter params pprev dep state ↔
      nHeight pprev + 1 < params.nPurityActivationHeight ∧
      (params.vDeployments dep).maxActivationHeight < intMax ∧ state = .started ∧
      (params.vDeployments dep).maxActivationHeight - 2 * params.nMinerConfirmationWindow ≤
        nHeight pprev + 1 ∧
      nHeight pprev + 1 < (params.vDeployments dep).maxActivationHeight -
        params.nMinerConfirmationWindow := by
  have hh : heightAfter pprev = nHeight pprev + 1 := if_neg hp
  unfold deploymentMustSignalAfter
  constructor
  · grind
  · rintro ⟨h1, h2, h3, h4, h5⟩
    rw [if_neg (by omega), if_neg (by omega), if_neg (by simp [h3])]
    simp only [Bool.and_eq_true, decide_eq_true_eq]
    omega

theorem checkMandatorySignal_isSome (hp : pprev ≠ []) :
    (checkMandatorySignal params h pprev .reducedData).isSome ↔
      nHeight pprev + 1 < params.nPurityActivationHeight ∧ MissesWindow params h pprev := by
  have hsome : (checkMandatorySignal params h pprev .reducedData).isSome ↔
      deploymentMustSignalAfter params pprev .reducedData (getStateFor params .reducedData pprev) ∧
        signalsBit h.nVersion (params.vDeployments .reducedData).bit = false := by
    unfold checkMandatorySignal
    grind
  rw [hsome, deploymentMustSignalAfter_iff hp]
  unfold MissesWindow
  tauto

/-! ## Top theorem -/

/-- **The startup scan and header validation agree on a block** iff it is not a block from the
purity height on that misses the window. -/
theorem findRdtsSignalingViolations_agrees_iff (params : DeploymentParams) (s : Chainstate)
    (h : CBlockHeader) (pprev : BlockPtr) (hk : h :: pprev ∈ s.known)
    (hf : (s.data (h :: pprev)).nStatus.failedMask = false) (hp : pprev ≠ []) :
    (h :: pprev ∈ findRdtsSignalingViolations params s ↔
        (checkMandatorySignal params h pprev .reducedData).isSome) ↔
      ¬ (params.nPurityActivationHeight ≤ nHeight pprev + 1 ∧ MissesWindow params h pprev) := by
  rw [mem_findRdtsSignalingViolations hk hf, checkMandatorySignal_isSome hp]
  grind

/-- Periods of two blocks, RDTS due at height 8, and the purity height inside its window. -/
def purityInWindow : DeploymentParams where
  nRuleChangeActivationThreshold := 2
  nMinerConfirmationWindow := 2
  vDeployments
    | .reducedData => { bit := 4, nStartTime := 0, nTimeout := 2 ^ 63 - 1, maxActivationHeight := 8 }
    | _ => {}
  nPurityActivationHeight := 5

def silentHeader (nTime : Nat) : CBlockHeader :=
  { nVersion := 0x20000000, hashMerkleRoot := 0, nTime, nBits := 0, nNonce := 0 }

/-- A branch of `n` such blocks, one second apart. -/
def silentBranch : Nat → BlockPtr
  | 0 => []
  | n + 1 => silentHeader n :: silentBranch n

/-- The block index that holds the first `n` blocks of it. -/
def silentIndex (n : Nat) : Chainstate where
  known := (List.range n).map fun i => silentBranch (i + 1)
  data _ := {}
  blocksUnlinked := []
  setBlockIndexCandidates := []
  tip := []
  failedBlocks := []
  nBlockSequenceId := 0
  calls := 0

/-- Below the purity height both copies of the rule refuse a silent block. -/
theorem findRdtsSignalingViolations_agrees_height_four :
    silentBranch 5 ∈ findRdtsSignalingViolations purityInWindow (silentIndex 6) ↔
      (checkMandatorySignal purityInWindow (silentHeader 4) (silentBranch 4)
        .reducedData).isSome := by
  refine (findRdtsSignalingViolations_agrees_iff purityInWindow (silentIndex 6) (silentHeader 4)
    (silentBranch 4) (by decide) (by decide) (by decide)).mpr ?_
  rintro ⟨hp, -⟩
  exact absurd hp (by decide)

/-- **A silent block at the purity height** passes header validation, and the startup scan
returns it as a violation. -/
theorem purity_block_is_violation : silentBranch 6 ∈ (silentIndex 6).known ∧
    ((silentIndex 6).data (silentBranch 6)).nStatus.failedMask = false ∧
    nHeight (silentBranch 6) = purityInWindow.nPurityActivationHeight ∧
    contextualCheckBlockHeaderVolatile purityInWindow (silentHeader 5) (silentBranch 5) = none ∧
    silentBranch 6 ∈ findRdtsSignalingViolations purityInWindow (silentIndex 6) := by
  decide

end BitcoinPurity
