import BitcoinPurity.Chain.Index
import Mathlib.Data.List.Sort

/-!
Versionbits deployments: `AbstractThresholdConditionChecker` for
`VersionBitsConditionChecker`, as it runs on an empty cache.

With an empty cache the walk back always ends in `DEFINED`, so the states of the periods
are computed forward from there (`getStateFor`).  The end of a window is a sum of `int`s that
wraps (`addInt`); other `int` values are unbounded integers, and the absent limit
`std::numeric_limits<int>::max()` keeps its number.
-/

namespace BitcoinPurity

/-! ## Parameters -/

def intMax : Int := 2 ^ 31 - 1

/-- The sum of two `int`s. -/
def addInt (a b : Int) : Int := (a + b).bmod (2 ^ 32)

theorem addInt_eq {a b : Int} (hlo : -2 ^ 31 ≤ a + b) (hhi : a + b ≤ intMax) :
    addInt a b = a + b := by
  unfold intMax at hhi
  exact Int.bmod_eq_of_le_mul_two (by omega) (by omega)

structure BIP9Deployment where
  bit : Nat := 28
  nStartTime : Int := -2
  nTimeout : Int := -2
  minActivationHeight : Int := 0
  maxActivationHeight : Int := intMax
  activeDuration : Int := intMax
  threshold : Int := 0
deriving DecidableEq, Repr

def alwaysActive : Int := -1

def neverActive : Int := -2

inductive DeploymentPos
  | testdummy
  | taproot
  | reducedData
deriving DecidableEq, Repr

/-- The fields of `Consensus::Params` that the deployments read. -/
structure DeploymentParams where
  nRuleChangeActivationThreshold : Int
  nMinerConfirmationWindow : Nat
  vDeployments : DeploymentPos → BIP9Deployment
  nPurityActivationHeight : Int := intMax
  nReducedDataGrandfatherHeight : Int := intMax
  nReducedDataGrandfatherFixHeight : Int := intMax

/-! ## The state machine -/

inductive ThresholdState
  | defined
  | started
  | lockedIn
  | active
  | failed
  | expired
deriving DecidableEq, Repr

def getMedianTimePast (b : BlockPtr) : Int :=
  let pmedian := ((b.take 11).map (·.nTime)).insertionSort (· ≤ ·)
  pmedian.getD (pmedian.length / 2) 0

/-- Does the version field signal for `bit`? -/
def signalsBit (nVersion : BitVec 32) (bit : Nat) : Bool :=
  nVersion &&& 0xE0000000#32 == 0x20000000#32 && nVersion &&& (1#32 <<< bit) != 0#32

variable (params : DeploymentParams) (dep : DeploymentPos)

def deploymentThreshold : Int :=
  if (params.vDeployments dep).threshold > 0 then (params.vDeployments dep).threshold
  else params.nRuleChangeActivationThreshold

def condition (h : CBlockHeader) : Bool := signalsBit h.nVersion (params.vDeployments dep).bit

variable (pindexPrev : BlockPtr)

/-- The block whose period decides the state of the block after `pindexPrev`. -/
def periodParent : BlockPtr :=
  getAncestor pindexPrev
    (nHeight pindexPrev - (nHeight pindexPrev + 1) % params.nMinerConfirmationWindow)

/-- The walk back of `GetStateFor`: the period ends from the first one past the start time up to
the block, lowest first. -/
def toCompute : Nat → BlockPtr → List BlockPtr → List BlockPtr
  | 0, _, acc => acc
  | fuel + 1, pindexPrev, acc =>
    if pindexPrev = [] ∨ getMedianTimePast pindexPrev < (params.vDeployments dep).nStartTime then acc
    else
      toCompute fuel (getAncestor pindexPrev (nHeight pindexPrev - params.nMinerConfirmationWindow))
        (pindexPrev :: acc)

/-- One round of the walk forward: the state and `activation_height` after the period that ends
in `pindexPrev`. -/
def nextState (st : ThresholdState × Int) (pindexPrev : BlockPtr) : ThresholdState × Int :=
  let deployment := params.vDeployments dep
  let nPeriod : Int := params.nMinerConfirmationWindow
  match st.1 with
  | .defined =>
    if getMedianTimePast pindexPrev ≥ deployment.nStartTime then (.started, st.2) else st
  | .started =>
    let count := (pindexPrev.take params.nMinerConfirmationWindow).countP (condition params dep)
    if (count : Int) ≥ deploymentThreshold params dep then (.lockedIn, st.2)
    else if deployment.maxActivationHeight < intMax ∧
        nHeight pindexPrev + 1 ≥ deployment.maxActivationHeight - nPeriod then (.lockedIn, st.2)
    else if getMedianTimePast pindexPrev ≥ deployment.nTimeout then (.failed, st.2)
    else st
  | .lockedIn =>
    if nHeight pindexPrev + 1 ≥ deployment.minActivationHeight then
      (.active, if deployment.activeDuration < intMax then nHeight pindexPrev + 1 else st.2)
    else st
  | .active =>
    if deployment.activeDuration < intMax ∧
        nHeight pindexPrev + 1 ≥ addInt st.2 deployment.activeDuration then (.expired, st.2)
    else st
  | .failed => st
  | .expired => st

/-- `GetStateFor`, on an empty cache. -/
def getStateFor : ThresholdState :=
  if (params.vDeployments dep).nStartTime = alwaysActive then .active
  else if (params.vDeployments dep).nStartTime = neverActive then .failed
  else
    let p := periodParent params pindexPrev
    ((toCompute params dep (p.length + 1) p []).foldl (nextState params dep) (.defined, 0)).1

def sinceWalk (initialState : ThresholdState) : Nat → BlockPtr → Int
  | 0, pindexPrev => nHeight pindexPrev + 1
  | fuel + 1, pindexPrev =>
    let previousPeriodParent :=
      getAncestor pindexPrev (nHeight pindexPrev - params.nMinerConfirmationWindow)
    if previousPeriodParent ≠ [] ∧ getStateFor params dep previousPeriodParent = initialState then
      sinceWalk initialState fuel previousPeriodParent
    else nHeight pindexPrev + 1

/-- `GetStateSinceHeightFor`, on an empty cache. -/
def getStateSinceHeightFor : Int :=
  if (params.vDeployments dep).nStartTime = alwaysActive ∨
      (params.vDeployments dep).nStartTime = neverActive then 0
  else
    let initialState := getStateFor params dep pindexPrev
    if initialState = .defined then 0
    else sinceWalk params dep initialState pindexPrev.length (periodParent params pindexPrev)

end BitcoinPurity
