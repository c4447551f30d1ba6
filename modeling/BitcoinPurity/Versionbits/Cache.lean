import BitcoinPurity.Lib.Median
import BitcoinPurity.Versionbits.State

/-!
The cache of the versionbits state machine: `GetStateFor` and `GetStateSinceHeightFor` as they
call each other, and `VersionBitsCache`.

The two functions are written over the function they call, and the knot is tied on the depth of
the calls (`getStateForWith`): `none` is a failed `assert`, or a recursion deeper than that.

* `periodMachine` is what they are for: the state machine run period by period from genesis.
* `SoundCache` is the invariant of a cache: its entries are period ends with the state of the machine,
  and below an entry that is not `DEFINED` the next period end is an entry too.
* `queries_transparent`: every sequence of queries on one `VersionBitsCache` returns the answers of
  the machine.
-/

namespace BitcoinPurity

open List Option Function Nat

/-! ## The code -/

abbrev ThresholdConditionCache := BlockPtr → Option ThresholdState

section

variable (params : DeploymentParams) (dep : DeploymentPos)

variable (pindexPrev : BlockPtr)

/-- The period end before the period end `pindexPrev`. -/
def previousPeriodParent : BlockPtr :=
  getAncestor pindexPrev (nHeight pindexPrev - params.nMinerConfirmationWindow)

/-- The walk back of `GetStateFor`; the head of the list is the back of `vToCompute`. -/
def walkBack : Nat → ThresholdConditionCache → BlockPtr → List BlockPtr →
    ThresholdConditionCache × BlockPtr × List BlockPtr
  | 0, cache, pindexPrev, vToCompute => (cache, pindexPrev, vToCompute)
  | fuel + 1, cache, pindexPrev, vToCompute =>
    if (cache pindexPrev).isSome then (cache, pindexPrev, vToCompute)
    else if pindexPrev = [] ∨ getMedianTimePast pindexPrev < (params.vDeployments dep).nStartTime then
      (update cache pindexPrev (some .defined), pindexPrev, vToCompute)
    else
      walkBack fuel cache (previousPeriodParent params pindexPrev) (pindexPrev :: vToCompute)

def walkForward : List BlockPtr → ThresholdConditionCache → ThresholdState × Int →
    ThresholdState × ThresholdConditionCache
  | [], cache, st => (st.1, cache)
  | pindexPrev :: vToCompute, cache, st =>
    let stNext := nextState params dep st pindexPrev
    walkForward vToCompute (update cache pindexPrev (some stNext.1)) stNext

/-- `GetStateFor`, over the `GetStateSinceHeightFor` it calls. -/
def getStateForBody
    (since : BlockPtr → ThresholdConditionCache → Option (Int × ThresholdConditionCache))
    (pindexPrev : BlockPtr) (cache : ThresholdConditionCache) :
    Option (ThresholdState × ThresholdConditionCache) :=
  if (params.vDeployments dep).nStartTime = alwaysActive then some (.active, cache)
  else if (params.vDeployments dep).nStartTime = neverActive then some (.failed, cache)
  else
    let p := periodParent params pindexPrev
    let (cache, p, vToCompute) := walkBack params dep (p.length + 1) cache p []
    (cache p).bind fun state =>
      if vToCompute = [] then some (state, cache)
      else
        (if state = .active ∧ (params.vDeployments dep).activeDuration < intMax then since p cache
          else some (0, cache)).map fun (activationHeight, cache) =>
            walkForward params dep vToCompute cache (state, activationHeight)

/-- The loop of `GetStateSinceHeightFor`; the height of the block bounds it. -/
def sinceLoop
    (get : BlockPtr → ThresholdConditionCache → Option (ThresholdState × ThresholdConditionCache))
    (initialState : ThresholdState) :
    Nat → BlockPtr → ThresholdConditionCache → Option (Int × ThresholdConditionCache)
  | 0, _, _ => none
  | fuel + 1, pindexPrev, cache =>
    let previous := previousPeriodParent params pindexPrev
    if previous = [] then some (nHeight pindexPrev + 1, cache)
    else
      (get previous cache).bind fun (state, cache) =>
        if state = initialState then sinceLoop get initialState fuel previous cache
        else some (nHeight pindexPrev + 1, cache)

/-- `GetStateSinceHeightFor`, over the `GetStateFor` it calls. -/
def getStateSinceHeightForBody
    (get : BlockPtr → ThresholdConditionCache → Option (ThresholdState × ThresholdConditionCache))
    (pindexPrev : BlockPtr) (cache : ThresholdConditionCache) :
    Option (Int × ThresholdConditionCache) :=
  if (params.vDeployments dep).nStartTime = alwaysActive ∨
      (params.vDeployments dep).nStartTime = neverActive then some (0, cache)
  else
    (get pindexPrev cache).bind fun (initialState, cache) =>
      if initialState = .defined then some (0, cache)
      else
        let p := periodParent params pindexPrev
        if p = [] then none
        else sinceLoop params get initialState (p.length + 1) p cache

/-- `GetStateFor` with at most `depth` calls of it open. -/
def getStateForWith : Nat → BlockPtr → ThresholdConditionCache →
    Option (ThresholdState × ThresholdConditionCache)
  | 0 => fun _ _ => none
  | depth + 1 =>
    getStateForBody params dep (getStateSinceHeightForBody params dep (getStateForWith depth))

/-- `GetStateSinceHeightFor` with at most `depth` calls of `GetStateFor` open. -/
def getStateSinceHeightForWith (depth : Nat) : BlockPtr → ThresholdConditionCache →
    Option (Int × ThresholdConditionCache) :=
  getStateSinceHeightForBody params dep (getStateForWith params dep depth)

/-! ## The machine -/

/-- One period of the machine: the state, and the height since which it holds. -/
def machineStep (st : ThresholdState × Int) (pindexPrev : BlockPtr) : ThresholdState × Int :=
  let next := (nextState params dep st pindexPrev).1
  (next, if next = st.1 then st.2 else nHeight pindexPrev + 1)

/-- The machine run from genesis: it steps at the end of every period. -/
def periodMachine : BlockPtr → ThresholdState × Int
  | [] => (.defined, 0)
  | x :: b =>
    if (b.length + 1) % params.nMinerConfirmationWindow = 0 then
      machineStep params dep (periodMachine b) (x :: b)
    else periodMachine b

/-- The state of the block after `pindexPrev`. -/
def periodState : ThresholdState :=
  if (params.vDeployments dep).nStartTime = alwaysActive then .active
  else if (params.vDeployments dep).nStartTime = neverActive then .failed
  else (periodMachine params dep pindexPrev).1

def periodSince : Int :=
  if (params.vDeployments dep).nStartTime = alwaysActive ∨
      (params.vDeployments dep).nStartTime = neverActive then 0
  else (periodMachine params dep pindexPrev).2

end

/-! ## Median time past -/

/-- Each block's time exceeds its parent's median time past. -/
def TimesIncrease (b : BlockPtr) : Prop :=
  ∀ x y, (x :: y) <:+ b → y ≠ [] → getMedianTimePast y < x.nTime

theorem TimesIncrease.suffix {a b : BlockPtr} (h : TimesIncrease b) (hab : a <:+ b) :
    TimesIncrease a :=
  fun x y hxy => h x y (hxy.trans hab)

theorem timesIncrease_cons {x : CBlockHeader} {b : BlockPtr} :
    TimesIncrease (x :: b) ↔ (b ≠ [] → getMedianTimePast b < x.nTime) ∧ TimesIncrease b := by
  constructor
  · intro h
    exact ⟨h x b (suffix_refl _), h.suffix (suffix_cons x b)⟩
  · rintro ⟨hx, hb⟩ y z hyz hz
    rcases suffix_cons_iff.1 hyz with he | hyz
    · cases he
      exact hx hz
    · exact hb y z hyz hz

instance decidableTimesIncrease : DecidablePred TimesIncrease
  | [] => isTrue fun _ _ h => absurd (List.suffix_nil.mp h) (by simp)
  | _ :: b =>
    have := decidableTimesIncrease b
    decidable_of_iff _ timesIncrease_cons.symm

theorem getMedianTimePast_eq (b : BlockPtr) :
    getMedianTimePast b = Median.upper ((b.map fun h => (h.nTime : Int)).take 11) 0 := by
  unfold getMedianTimePast Median.upper
  simp

/-- **The median time past does not decrease along a branch.** -/
theorem getMedianTimePast_mono {a b : BlockPtr} (h : TimesIncrease b) (hab : a <:+ b)
    (ha : a ≠ []) : getMedianTimePast a ≤ getMedianTimePast b := by
  induction b with
  | nil => exact absurd (suffix_nil.1 hab) ha
  | cons x b ih =>
    rcases suffix_cons_iff.1 hab with rfl | hab
    · exact le_refl _
    have hb : b ≠ [] := by
      rintro rfl
      exact ha (suffix_nil.1 hab)
    refine (ih (h.suffix (suffix_cons x b)) hab).trans ?_
    have hx := h x b (suffix_refl _) hb
    rw [getMedianTimePast_eq] at hx
    rw [getMedianTimePast_eq, getMedianTimePast_eq]
    exact Median.upper_take_le (by simpa using hb) (by decide) (le_of_lt hx)

/-! ## Periods -/

section

variable {params : DeploymentParams} {dep : DeploymentPos}

theorem previousPeriodParent_eq (p : BlockPtr) :
    previousPeriodParent params p = p.drop params.nMinerConfirmationWindow := by
  unfold previousPeriodParent getAncestor
  have hh := nHeight_eq p
  by_cases hlen : p.length ≤ params.nMinerConfirmationWindow
  · rw [if_pos (by omega), drop_eq_nil_of_le hlen]
  rw [if_neg (by omega)]
  congr 1
  omega

theorem periodParent_eq (p : BlockPtr) :
    periodParent params p = p.drop (p.length % params.nMinerConfirmationWindow) := by
  have hlen : nHeight p + 1 = p.length := by
    rw [nHeight_eq]
    omega
  unfold periodParent getAncestor
  generalize params.nMinerConfirmationWindow = w
  have hmod : (nHeight p + 1) % w = ((p.length % w : Nat) : Int) := by
    rw [hlen]
    exact (Int.natCast_emod _ _).symm
  have hle := mod_le p.length w
  by_cases he : p.length % w = p.length
  · rw [if_pos (by omega), he, drop_length]
  rw [if_neg (by omega)]
  congr 1
  omega

/-- A block at the end of a period, or the null pointer. -/
def PeriodEnd (params : DeploymentParams) (p : BlockPtr) : Prop :=
  p.length % params.nMinerConfirmationWindow = 0

theorem periodParent_end (b : BlockPtr) : PeriodEnd params (periodParent params b) := by
  rw [PeriodEnd, periodParent_eq b, length_drop]
  exact sub_mod_eq_zero_of_mod_eq (by simp)

variable {p b : BlockPtr}

theorem PeriodEnd.periodParent (h : PeriodEnd params p) : periodParent params p = p := by
  rw [periodParent_eq p, h, drop_zero]

theorem PeriodEnd.previous (h : PeriodEnd params p) :
    PeriodEnd params (previousPeriodParent params p) := by
  rw [previousPeriodParent_eq p, PeriodEnd, length_drop]
  by_cases hp : p = []
  · simp [hp]
  · rw [← mod_eq_sub_mod (le_of_dvd (length_pos_iff.2 hp) (dvd_of_mod_eq_zero h))]
    exact h

theorem succ_mod (n : Nat) {w : Nat} (hw : 0 < w) :
    (n + 1) % w = if n % w + 1 = w then 0 else n % w + 1 := by
  have hn : n + 1 = w * (n / w) + (n % w + 1) := by
    rw [← add_assoc, div_add_mod]
  have hlt := mod_lt n hw
  split
  · next he => rw [hn, he, ← mul_succ, mul_mod_right]
  · next he => rw [hn, mul_add_mod, mod_eq_of_lt (by omega)]

theorem periodMachine_periodParent (b : BlockPtr) (hP : 0 < params.nMinerConfirmationWindow) :
    periodMachine params dep (periodParent params b) = periodMachine params dep b := by
  rw [periodParent_eq b]
  induction b with
  | nil => rfl
  | cons x b ih =>
    by_cases h0 : (b.length + 1) % params.nMinerConfirmationWindow = 0
    · rw [length_cons, h0, drop_zero]
    have hsucc : (b.length + 1) % params.nMinerConfirmationWindow =
        b.length % params.nMinerConfirmationWindow + 1 := by
      rw [succ_mod _ hP] at h0 ⊢
      grind
    rw [length_cons, hsucc, drop_succ_cons, ih]
    conv_rhs => rw [periodMachine, if_neg h0]

theorem PeriodEnd.periodMachine_eq (h : PeriodEnd params p) (hp : p ≠ [])
    (hP : 0 < params.nMinerConfirmationWindow) (dep : DeploymentPos) :
    periodMachine params dep p =
      machineStep params dep (periodMachine params dep (previousPeriodParent params p)) p := by
  cases p with
  | nil => exact absurd rfl hp
  | cons x b =>
    have hlen : (b.length + 1) % params.nMinerConfirmationWindow = 0 := h
    rw [periodMachine, if_pos hlen, ← periodMachine_periodParent b hP, periodParent_eq b,
      previousPeriodParent_eq]
    have hmod : b.length % params.nMinerConfirmationWindow + 1 = params.nMinerConfirmationWindow := by
      rw [succ_mod _ hP] at hlen
      split at hlen
      · assumption
      · cases hlen
    rw [← hmod, drop_succ_cons, hmod]

theorem PeriodEnd.since_eq (h : PeriodEnd params p) (hp : p ≠ [])
    (hP : 0 < params.nMinerConfirmationWindow) (dep : DeploymentPos) :
    (periodMachine params dep p).2 = if (periodMachine params dep p).1 =
          (periodMachine params dep (previousPeriodParent params p)).1 then
        (periodMachine params dep (previousPeriodParent params p)).2 else nHeight p + 1 := by
  rw [h.periodMachine_eq hp hP dep]
  rfl

theorem previousPeriodParent_length (hp : p ≠ []) (hP : 0 < params.nMinerConfirmationWindow) :
    (previousPeriodParent params p).length < p.length := by
  have := length_pos_iff.2 hp
  rw [previousPeriodParent_eq, length_drop]
  omega

theorem periodMachine_defined (ht : TimesIncrease b)
    (hb : b = [] ∨ getMedianTimePast b < (params.vDeployments dep).nStartTime) :
    periodMachine params dep b = (.defined, 0) := by
  induction b with
  | nil => rfl
  | cons x b ih =>
    have hx := hb.resolve_left (by simp)
    have hprev : periodMachine params dep b = (.defined, 0) := by
      refine ih (ht.suffix (suffix_cons x b)) ?_
      by_cases he : b = []
      · exact .inl he
      · exact .inr (lt_of_le_of_lt (getMedianTimePast_mono ht (suffix_cons x b) he) hx)
    unfold periodMachine
    rw [hprev]
    split
    · have hn : nextState params dep (.defined, 0) (x :: b) = (.defined, 0) := if_neg (by omega)
      unfold machineStep
      rw [hn]
      rfl
    · rfl

theorem nextState_defined {st : ThresholdState × Int}
    (h : (nextState params dep st p).1 = .defined) : st.1 = .defined := by
  obtain ⟨st, n⟩ := st
  cases st with
  | defined => rfl
  | started =>
    simp only [nextState] at h
    grind
  | lockedIn =>
    simp only [nextState] at h
    split at h <;> cases h
  | active =>
    simp only [nextState] at h
    split at h <;> cases h
  | failed => cases h
  | expired => cases h

theorem periodMachine_since_defined (h : (periodMachine params dep b).1 = .defined) :
    (periodMachine params dep b).2 = 0 := by
  induction b with
  | nil => rfl
  | cons x b ih =>
    unfold periodMachine at h ⊢
    split
    · next hend =>
      rw [if_pos hend] at h
      have hprev := nextState_defined h
      unfold machineStep at h ⊢
      grind
    · next hend =>
      rw [if_neg hend] at h
      exact ih h

/-- The second component of the walk forward matters only in `ACTIVE` with a finite duration. -/
def Tracks (params : DeploymentParams) (dep : DeploymentPos) (st st' : ThresholdState × Int) : Prop :=
  st.1 = st'.1 ∧ (st.1 = .active → (params.vDeployments dep).activeDuration < intMax → st.2 = st'.2)

/-- **One round of the walk forward is one period of the machine.** -/
theorem Tracks.nextState {st st' : ThresholdState × Int} (h : Tracks params dep st st')
    (p : BlockPtr) : Tracks params dep (nextState params dep st p)
    (machineStep params dep st' p) := by
  obtain ⟨s, n⟩ := st
  obtain ⟨s', n'⟩ := st'
  obtain ⟨rfl, h2⟩ := h
  unfold machineStep
  cases s with
  | defined =>
    simp only [BitcoinPurity.nextState]
    split <;> exact ⟨rfl, fun ha => by cases ha⟩
  | started =>
    simp only [BitcoinPurity.nextState]
    split
    · exact ⟨rfl, fun ha => by cases ha⟩
    split
    · exact ⟨rfl, fun ha => by cases ha⟩
    · split <;> exact ⟨rfl, fun ha => by cases ha⟩
  | lockedIn =>
    simp only [BitcoinPurity.nextState]
    split
    · refine ⟨rfl, fun _ hd => ?_⟩
      simp [hd]
    · exact ⟨rfl, fun ha => by cases ha⟩
  | active =>
    simp only [BitcoinPurity.nextState]
    by_cases hd : (params.vDeployments dep).activeDuration < intMax
    · have hn : n = n' := h2 rfl hd
      subst hn
      split
      · exact ⟨rfl, fun ha => by cases ha⟩
      · exact ⟨rfl, fun _ _ => rfl⟩
    · rw [if_neg (fun hc => hd hc.1), if_neg (fun hc => hd hc.1)]
      exact ⟨rfl, fun _ hd' => absurd hd' hd⟩
  | failed => exact ⟨rfl, fun ha => by cases ha⟩
  | expired => exact ⟨rfl, fun ha => by cases ha⟩

end

/-! ## Sound caches -/

/-- **The invariant of a cache.** -/
structure SoundCache (params : DeploymentParams) (dep : DeploymentPos)
    (cache : ThresholdConditionCache) : Prop where
  periodEnd : ∀ p st, cache p = some st → PeriodEnd params p
  value : ∀ p st, cache p = some st → st = (periodMachine params dep p).1
  closed : ∀ p st, cache p = some st → st ≠ .defined →
    (cache (previousPeriodParent params p)).isSome

/-- The period ends above `q` up to `p`, lowest first. -/
def Climbs (params : DeploymentParams) : BlockPtr → List BlockPtr → BlockPtr → Prop
  | q, [], p => q = p
  | q, x :: l, p => x ≠ [] ∧ PeriodEnd params x ∧ previousPeriodParent params x = q ∧ Climbs params x l p

section

variable {params : DeploymentParams} {dep : DeploymentPos} {cache cache' : ThresholdConditionCache}

theorem SoundCache.empty (params : DeploymentParams) (dep : DeploymentPos) :
    SoundCache params dep fun _ => none :=
  ⟨fun _ _ h => (nomatch h), fun _ _ h => (nomatch h), fun _ _ h => (nomatch h)⟩

variable {p q b : BlockPtr} {st : ThresholdState} {fuel : Nat} {l : List BlockPtr}

theorem isSome_update (h : (cache q).isSome) : (update cache p (some st) q).isSome := by
  by_cases he : q = p
  · rw [he, update_self]
    rfl
  · rw [update_of_ne he]
    exact h

theorem SoundCache.update (h : SoundCache params dep cache) (hp : PeriodEnd params p)
    (hst : st = (periodMachine params dep p).1)
    (hprev : st ≠ .defined → (cache (previousPeriodParent params p)).isSome) :
    SoundCache params dep (update cache p (some st)) := by
  refine ⟨fun q st' hq => ?_, fun q st' hq => ?_, fun q st' hq hne => isSome_update ?_⟩
  all_goals
    by_cases he : q = p
    · grind
    · rw [update_of_ne he] at hq
      first
        | exact h.periodEnd q st' hq
        | exact h.value q st' hq
        | exact h.closed q st' hq hne

theorem previousPeriodParent_suffix (p : BlockPtr) : previousPeriodParent params p <:+ p :=
  getAncestor_suffix _ _

variable (hP : 0 < params.nMinerConfirmationWindow)
include hP

/-- **The walk back** ends in an entry of the cache. -/
theorem walkBack_spec {p0 : BlockPtr}
    (h : SoundCache params dep cache) (hp : PeriodEnd params p) (ht : TimesIncrease p)
    (hl : Climbs params p l p0) (hfuel : p.length < fuel) :
    ∃ cache' q l', walkBack params dep fuel cache p l = (cache', q, l') ∧ SoundCache params dep cache' ∧
      (cache' q).isSome ∧ Climbs params q l' p0 := by
  induction fuel generalizing p l with
  | zero => omega
  | succ fuel ih =>
    unfold walkBack
    split
    next hc =>
      exact ⟨cache, p, l, rfl, h, hc, hl⟩
    split
    next hs =>
      have hd := congrArg Prod.fst (periodMachine_defined ht hs)
      refine ⟨_, p, l, rfl, h.update hp hd.symm fun hn => absurd rfl hn, ?_, hl⟩
      rw [update_self]
      rfl
    next hs =>
      have hne := (not_or.1 hs).1
      have hlen := previousPeriodParent_length hne hP
      exact ih hp.previous (ht.suffix (previousPeriodParent_suffix p)) ⟨hne, hp, rfl, hl⟩ (by omega)

/-- **The walk forward** computes the state of its last block and keeps the cache sound. -/
theorem walkForward_spec (st : ThresholdState × Int)
    (h : SoundCache params dep cache) (hq : (cache q).isSome) (hl : Climbs params q l p)
    (hst : Tracks params dep st (periodMachine params dep q)) :
    ∃ cache', walkForward params dep l cache st = ((periodMachine params dep p).1, cache') ∧
      SoundCache params dep cache' ∧ (cache' p).isSome := by
  induction l generalizing q st cache with
  | nil =>
    cases hl
    exact ⟨cache, by rw [walkForward, hst.1], h, hq⟩
  | cons x l ih =>
    obtain ⟨hx, hend, rfl, hl⟩ := hl
    have hnext := hst.nextState x
    rw [← hend.periodMachine_eq hx hP dep] at hnext
    refine ih _ (h.update hend hnext.1 fun _ => hq) ?_ hl hnext
    rw [update_self]
    rfl

/-- A call that finds its period in the cache returns what is there. -/
def Hits (params : DeploymentParams)
    (get : BlockPtr → ThresholdConditionCache → Option (ThresholdState × ThresholdConditionCache)) :
    Prop :=
  ∀ b cache st, cache (periodParent params b) = some st → get b cache = some (st, cache)

variable
  {get : BlockPtr → ThresholdConditionCache → Option (ThresholdState × ThresholdConditionCache)}

/-- **The walk of `GetStateSinceHeightFor`** stays in the cache and ends where the state began. -/
theorem sinceLoop_spec
    (hget : Hits params get) (h : SoundCache params dep cache) (hp : cache p = some st)
    (hst : st ≠ .defined) (hfuel : p.length < fuel) :
    sinceLoop params get st fuel p cache = some ((periodMachine params dep p).2, cache) := by
  induction fuel generalizing p with
  | zero => omega
  | succ fuel ih =>
    have hend := h.periodEnd p st hp
    have hval := h.value p st hp
    have hne : p ≠ [] := by
      rintro rfl
      exact hst hval
    have hprev := h.closed p st hp hst
    obtain ⟨st', hst'⟩ := isSome_iff_exists.1 hprev
    have hval' := h.value _ _ hst'
    have hsince := hend.since_eq hne hP dep
    rw [← hval, ← hval'] at hsince
    unfold sinceLoop
    by_cases h0 : previousPeriodParent params p = []
    · simp only [if_pos h0]
      have hd : st' = .defined := by
        rw [hval', h0]
        rfl
      rw [hsince, if_neg (by rw [hd]; exact hst)]
    · simp only [if_neg h0]
      rw [hget _ cache st' (by rw [hend.previous.periodParent]; exact hst'), bind_some]
      by_cases he : st' = st
      · have hlen := previousPeriodParent_length hne hP
        rw [if_pos he, ih (he ▸ hst') (by omega), hsince, if_pos he.symm]
      · rw [if_neg he, hsince, if_neg (Ne.symm he)]

section

variable {since : BlockPtr → ThresholdConditionCache → Option (Int × ThresholdConditionCache)}
    (ha : (params.vDeployments dep).nStartTime ≠ alwaysActive)
    (hn : (params.vDeployments dep).nStartTime ≠ neverActive)
include ha hn

omit hP in
theorem getStateForBody_hits : Hits params (getStateForBody params dep since) := by
  intro b cache st hc
  unfold getStateForBody
  rw [if_neg ha, if_neg hn]
  have hw : walkBack params dep ((periodParent params b).length + 1) cache (periodParent params b) [] =
      (cache, periodParent params b, []) := by
    unfold walkBack
    rw [if_pos (by rw [hc]; rfl)]
  simp [hw, hc]

theorem getStateSinceHeightForBody_spec (hget : Hits params get)
    (hb : get b cache = some ((periodMachine params dep b).1, cache'))
    (h : SoundCache params dep cache') (hp : (cache' (periodParent params b)).isSome) :
    getStateSinceHeightForBody params dep get b cache =
      some ((periodMachine params dep b).2, cache') := by
  obtain ⟨st, hst⟩ := isSome_iff_exists.1 hp
  have hval := h.value _ _ hst
  rw [periodMachine_periodParent b hP] at hval
  unfold getStateSinceHeightForBody
  rw [if_neg (by simp [ha, hn]), hb, bind_some]
  simp only
  split
  next hd =>
    rw [periodMachine_since_defined hd]
  next hd =>
  have hne : periodParent params b ≠ [] := by
    intro he
    rw [← periodMachine_periodParent b hP, he] at hd
    exact hd rfl
  rw [if_neg hne, ← hval, sinceLoop_spec hP hget h hst (hval ▸ hd) (lt_succ_self _),
    periodMachine_periodParent b hP]

/-- **`GetStateFor` on a sound cache**, if the height it may ask for is right. -/
theorem getStateForBody_spec
    (hsince : ∀ q cache, SoundCache params dep cache → cache q = some .active →
      since q cache = some ((periodMachine params dep q).2, cache))
    (h : SoundCache params dep cache) (ht : TimesIncrease b) :
    ∃ cache', getStateForBody params dep since b cache =
        some ((periodMachine params dep b).1, cache') ∧
      SoundCache params dep cache' ∧ (cache' (periodParent params b)).isSome := by
  obtain ⟨cache1, q, l, hw, h1, hq, hl⟩ := walkBack_spec hP (l := []) h
    (periodParent_end b) (ht.suffix (getAncestor_suffix _ _)) rfl (lt_succ_self _)
  obtain ⟨st, hst⟩ := isSome_iff_exists.1 hq
  have hval := h1.value q st hst
  unfold getStateForBody
  rw [if_neg ha, if_neg hn]
  simp only [hw, hst, bind_some]
  rw [← periodMachine_periodParent b hP]
  cases l with
  | nil =>
    cases hl
    exact ⟨cache1, by rw [if_pos rfl, hval], h1, hq⟩
  | cons x l =>
    rw [if_neg (by simp)]
    split
    next hact =>
      rw [hsince q cache1 h1 (hact.1 ▸ hst)]
      obtain ⟨cache', h2, h3⟩ := walkForward_spec hP
        (st, (periodMachine params dep q).2) h1 hq hl ⟨hval, fun _ _ => rfl⟩
      exact ⟨cache', congrArg some h2, h3⟩
    next hact =>
    obtain ⟨cache', h2, h3⟩ := walkForward_spec hP (st, 0) h1 hq hl
      ⟨hval, fun h4 h5 => absurd ⟨h4, h5⟩ hact⟩
    exact ⟨cache', congrArg some h2, h3⟩

end

/-- **`GetStateFor` returns the state of the machine**; two calls of it are open at most. -/
theorem getStateForWith_eq (depth : Nat) (h : SoundCache params dep cache) (ht : TimesIncrease b) :
    ∃ cache', getStateForWith params dep (depth + 2) b cache =
        some (periodState params dep b, cache') ∧ SoundCache params dep cache' ∧
      ((params.vDeployments dep).nStartTime ≠ alwaysActive →
        (params.vDeployments dep).nStartTime ≠ neverActive →
        (cache' (periodParent params b)).isSome) := by
  unfold periodState
  by_cases ha : (params.vDeployments dep).nStartTime = alwaysActive
  · refine ⟨cache, ?_, h, fun hn => absurd ha hn⟩
    unfold getStateForWith getStateForBody
    rw [if_pos ha, if_pos ha]
  by_cases hn : (params.vDeployments dep).nStartTime = neverActive
  · refine ⟨cache, ?_, h, fun _ hn' => absurd hn hn'⟩
    unfold getStateForWith getStateForBody
    rw [if_neg ha, if_pos hn, if_neg ha, if_pos hn]
  rw [if_neg ha, if_neg hn]
  -- the inner calls find their periods in the cache
  have hget : Hits params (getStateForWith params dep (depth + 1)) :=
    getStateForBody_hits ha hn
  have hsince : ∀ q cache, SoundCache params dep cache → cache q = some .active →
      getStateSinceHeightForBody params dep (getStateForWith params dep (depth + 1)) q cache =
        some ((periodMachine params dep q).2, cache) := by
    intro q cache hs hq
    have hq' : cache (periodParent params q) = some .active := by
      rw [(hs.periodEnd q _ hq).periodParent]
      exact hq
    refine getStateSinceHeightForBody_spec hP ha hn hget ?_ hs (by rw [hq']; rfl)
    rw [hget q cache .active hq', ← hs.value q _ hq]
  obtain ⟨cache', h1, h2, h3⟩ := getStateForBody_spec hP ha hn hsince h ht
  exact ⟨cache', h1, h2, fun _ _ => h3⟩

/-- **`GetStateSinceHeightFor` returns the height of the machine.** -/
theorem getStateSinceHeightForWith_eq (depth : Nat)
    (h : SoundCache params dep cache) (ht : TimesIncrease b) :
    ∃ cache', getStateSinceHeightForWith params dep (depth + 2) b cache =
        some (periodSince params dep b, cache') ∧ SoundCache params dep cache' := by
  unfold periodSince getStateSinceHeightForWith
  by_cases hs : (params.vDeployments dep).nStartTime = alwaysActive ∨
      (params.vDeployments dep).nStartTime = neverActive
  · refine ⟨cache, ?_, h⟩
    unfold getStateSinceHeightForBody
    rw [if_pos hs, if_pos hs]
  obtain ⟨ha, hn⟩ := not_or.1 hs
  obtain ⟨cache', h1, h2, h3⟩ := getStateForWith_eq hP depth h ht
  rw [periodState, if_neg ha, if_neg hn] at h1
  rw [if_neg hs]
  exact ⟨cache', getStateSinceHeightForBody_spec hP ha hn (getStateForBody_hits ha hn) h1 h2
    (h3 ha hn), h2⟩

/-! ### The empty cache -/

theorem Climbs.tracks {st : ThresholdState × Int}
    (hl : Climbs params q l p) (hst : Tracks params dep st (periodMachine params dep q)) :
    Tracks params dep (l.foldl (nextState params dep) st) (periodMachine params dep p) := by
  induction l generalizing q st with
  | nil =>
    cases hl
    exact hst
  | cons x l ih =>
    obtain ⟨hx, hend, rfl, hl⟩ := hl
    have hnext := hst.nextState x
    rw [← hend.periodMachine_eq hx hP dep] at hnext
    exact ih hl hnext

theorem toCompute_climbs (dep : DeploymentPos) {p0 : BlockPtr} (hp : PeriodEnd params p)
    (hl : Climbs params p l p0)
    (hfuel : p.length < fuel) :
    ∃ q, q <:+ p ∧ (q = [] ∨ getMedianTimePast q < (params.vDeployments dep).nStartTime) ∧
      Climbs params q (toCompute params dep fuel p l) p0 := by
  induction fuel generalizing p l with
  | zero => omega
  | succ fuel ih =>
    unfold toCompute
    split
    next hs =>
      exact ⟨p, suffix_refl p, hs, hl⟩
    next hs =>
    have hne := (not_or.1 hs).1
    have hlen := previousPeriodParent_length hne hP
    have hl' : Climbs params (previousPeriodParent params p) (p :: l) p0 := ⟨hne, hp, rfl, hl⟩
    obtain ⟨q, hq, h1, h2⟩ := ih hp.previous hl' (by omega)
    exact ⟨q, hq.trans (previousPeriodParent_suffix p), h1, h2⟩

theorem getStateFor_eq_periodState (ht : TimesIncrease b) :
    getStateFor params dep b = periodState params dep b := by
  obtain ⟨q, hq, hs, hl⟩ := toCompute_climbs hP dep (l := []) (periodParent_end b) rfl
    (lt_succ_self _)
  have hd := periodMachine_defined (ht.suffix (hq.trans (getAncestor_suffix _ _))) hs
  have h0 : Tracks params dep (.defined, 0) (periodMachine params dep q) := by
    rw [hd]
    exact ⟨rfl, fun _ _ => rfl⟩
  have h1 := hl.tracks hP h0
  unfold getStateFor periodState
  rw [← periodMachine_periodParent b hP]
  simp [h1.1]

theorem sinceWalk_eq (ha : (params.vDeployments dep).nStartTime ≠ alwaysActive)
    (hn : (params.vDeployments dep).nStartTime ≠ neverActive) (hp : PeriodEnd params p)
    (ht : TimesIncrease p) (hd : (periodMachine params dep p).1 ≠ .defined)
    (hfuel : p.length ≤ fuel) :
    sinceWalk params dep (periodMachine params dep p).1 fuel p = (periodMachine params dep p).2 := by
  induction fuel generalizing p with
  | zero =>
    have h0 : p = [] := length_eq_zero_iff.1 (by omega)
    rw [h0] at hd
    exact absurd rfl hd
  | succ fuel ih =>
    have hne : p ≠ [] := by
      rintro rfl
      exact hd rfl
    let q := previousPeriodParent params p
    have hlen : q.length < p.length := previousPeriodParent_length hne hP
    have htp : TimesIncrease q := ht.suffix (previousPeriodParent_suffix p)
    have hprev : getStateFor params dep q = (periodMachine params dep q).1 := by
      rw [getStateFor_eq_periodState hP htp, periodState, if_neg ha, if_neg hn]
    have hsince := hp.since_eq hne hP dep
    unfold sinceWalk
    simp only
    split
    · next hc =>
      have he : (periodMachine params dep q).1 = (periodMachine params dep p).1 :=
        hprev.symm.trans hc.2
      rw [hsince, if_pos he.symm, ← he]
      exact ih hp.previous htp (he ▸ hd) (by omega)
    · next hc =>
      rw [hsince, if_neg]
      intro he
      refine hc ⟨fun h0 => ?_, hprev.trans he.symm⟩
      rw [show previousPeriodParent params p = [] from h0] at he
      exact hd he

theorem getStateSinceHeightFor_eq_periodSince (ht : TimesIncrease b) :
    getStateSinceHeightFor params dep b = periodSince params dep b := by
  unfold getStateSinceHeightFor periodSince
  split
  · rfl
  next hs =>
  obtain ⟨ha, hn⟩ := not_or.1 hs
  rw [getStateFor_eq_periodState hP ht, periodState, if_neg ha, if_neg hn,
    ← periodMachine_periodParent b hP]
  simp only
  split
  · next hd => exact (periodMachine_since_defined hd).symm
  next hd =>
  exact sinceWalk_eq hP ha hn (periodParent_end b) (ht.suffix (getAncestor_suffix _ _)) hd
    (getAncestor_suffix _ _).length_le

end

/-! ## `VersionBitsCache` -/

abbrev VersionBitsCache := DeploymentPos → ThresholdConditionCache

variable (params : DeploymentParams)

def deploymentMask (pos : DeploymentPos) : BitVec 32 :=
  1#32 <<< (params.vDeployments pos).bit

def deploymentPositions : List DeploymentPos := [.testdummy, .taproot, .reducedData]

/-- The public calls of `VersionBitsCache` that read or change the caches. -/
inductive VersionBitsQuery
  | state (pos : DeploymentPos) (pindexPrev : BlockPtr)
  | stateSinceHeight (pos : DeploymentPos) (pindexPrev : BlockPtr)
  | computeBlockVersion (pindexPrev : BlockPtr)
  | clear
deriving DecidableEq

/-- What a call returns. -/
inductive VersionBitsAnswer
  | state (st : ThresholdState)
  | height (h : Int)
  | version (v : BitVec 32)
  | cleared
deriving DecidableEq

def versionWith (pos : DeploymentPos) (st : ThresholdState) (nVersion : BitVec 32) : BitVec 32 :=
  if st = .lockedIn ∨ st = .started then nVersion ||| deploymentMask params pos else nVersion

def computeBlockVersionLoop (params : DeploymentParams) (depth : Nat) (pindexPrev : BlockPtr) :
    List DeploymentPos → BitVec 32 → VersionBitsCache → Option (BitVec 32 × VersionBitsCache)
  | [], nVersion, caches => some (nVersion, caches)
  | pos :: rest, nVersion, caches =>
    (getStateForWith params pos depth pindexPrev (caches pos)).bind fun (st, cache) =>
      computeBlockVersionLoop params depth pindexPrev rest (versionWith params pos st nVersion)
        (update caches pos cache)

/-- One call, with at most `depth` calls of `GetStateFor` open. -/
def VersionBitsQuery.run (depth : Nat) :
    VersionBitsQuery → VersionBitsCache → Option (VersionBitsAnswer × VersionBitsCache)
  | .state pos b, caches =>
    (getStateForWith params pos depth b (caches pos)).map fun (st, cache) =>
      (.state st, update caches pos cache)
  | .stateSinceHeight pos b, caches =>
    (getStateSinceHeightForWith params pos depth b (caches pos)).map fun (h, cache) =>
      (.height h, update caches pos cache)
  | .computeBlockVersion b, caches =>
    (computeBlockVersionLoop params depth b deploymentPositions 0x20000000#32 caches).map
      fun (v, caches) => (.version v, caches)
  | .clear, _ => some (.cleared, fun _ _ => none)

/-- A sequence of calls on one cache, with their answers. -/
def runQueries (params : DeploymentParams) (depth : Nat) :
    List VersionBitsQuery → VersionBitsCache → Option (List VersionBitsAnswer × VersionBitsCache)
  | [], caches => some ([], caches)
  | q :: qs, caches =>
    (q.run params depth caches).bind fun (answer, caches) =>
      (runQueries params depth qs caches).map fun (answers, caches) => (answer :: answers, caches)

def VersionBitsQuery.machineAnswer : VersionBitsQuery → VersionBitsAnswer
  | .state pos b => .state (periodState params pos b)
  | .stateSinceHeight pos b => .height (periodSince params pos b)
  | .computeBlockVersion b => .version (deploymentPositions.foldl
      (fun v pos => versionWith params pos (periodState params pos b) v) 0x20000000#32)
  | .clear => .cleared

def VersionBitsQuery.block : VersionBitsQuery → BlockPtr
  | .state _ b => b
  | .stateSinceHeight _ b => b
  | .computeBlockVersion b => b
  | .clear => []

section

variable {params : DeploymentParams} {caches : VersionBitsCache}

def AllSound (params : DeploymentParams) (caches : VersionBitsCache) : Prop :=
  ∀ pos, SoundCache params pos (caches pos)

theorem AllSound.update (h : AllSound params caches) {pos : DeploymentPos}
    {cache : ThresholdConditionCache} (hc : SoundCache params pos cache) :
    AllSound params (update caches pos cache) :=
  (forall_update_iff caches fun pos => SoundCache params pos).2 ⟨hc, fun pos' _ => h pos'⟩

variable (hP : 0 < params.nMinerConfirmationWindow)
include hP

theorem computeBlockVersionLoop_eq (depth : Nat)
    {b : BlockPtr} (ht : TimesIncrease b) (l : List DeploymentPos) (v : BitVec 32)
    (h : AllSound params caches) :
    ∃ caches', computeBlockVersionLoop params (depth + 2) b l v caches =
        some (l.foldl (fun v pos => versionWith params pos (periodState params pos b) v) v, caches') ∧
      AllSound params caches' := by
  induction l generalizing v caches with
  | nil => exact ⟨caches, rfl, h⟩
  | cons pos l ih =>
    obtain ⟨cache, h1, h2, -⟩ := getStateForWith_eq hP depth (h pos) ht
    obtain ⟨caches', h3, h4⟩ := ih (versionWith params pos (periodState params pos b) v) (h.update h2)
    refine ⟨caches', ?_, h4⟩
    unfold computeBlockVersionLoop
    rw [h1]
    exact h3

/-- **One call** on sound caches. -/
theorem VersionBitsQuery.run_eq (depth : Nat)
    (q : VersionBitsQuery) (ht : TimesIncrease q.block) (h : AllSound params caches) :
    ∃ caches', q.run params (depth + 2) caches = some (q.machineAnswer params, caches') ∧
      AllSound params caches' := by
  cases q with
  | state pos b =>
    obtain ⟨cache, h1, h2, -⟩ := getStateForWith_eq hP depth (h pos) (b := b) ht
    exact ⟨update caches pos cache, by rw [VersionBitsQuery.run, h1]; rfl, h.update h2⟩
  | stateSinceHeight pos b =>
    obtain ⟨cache, h1, h2⟩ := getStateSinceHeightForWith_eq hP depth (h pos) (b := b) ht
    exact ⟨update caches pos cache, by rw [VersionBitsQuery.run, h1]; rfl, h.update h2⟩
  | computeBlockVersion b =>
    obtain ⟨caches', h1, h2⟩ := computeBlockVersionLoop_eq hP depth (b := b) ht
      deploymentPositions 0x20000000#32 h
    exact ⟨caches', by rw [VersionBitsQuery.run, h1]; rfl, h2⟩
  | clear => exact ⟨_, rfl, fun pos => .empty params pos⟩

theorem runQueries_eq (depth : Nat)
    {qs : List VersionBitsQuery} (ht : ∀ q ∈ qs, TimesIncrease q.block)
    (h : AllSound params caches) :
    ∃ caches', runQueries params (depth + 2) qs caches =
        some (qs.map (·.machineAnswer params), caches') ∧ AllSound params caches' := by
  induction qs generalizing caches with
  | nil => exact ⟨caches, rfl, h⟩
  | cons q qs ih =>
    obtain ⟨caches1, h1, h2⟩ := q.run_eq hP depth (ht q mem_cons_self) h
    obtain ⟨caches2, h3, h4⟩ := ih (fun q' hq' => ht q' (mem_cons_of_mem q hq')) h2
    refine ⟨caches2, ?_, h4⟩
    unfold runQueries
    rw [h1]
    simp [h3]

/-- **The cache is transparent**: every sequence of queries on one `VersionBitsCache` returns, with
at most two calls of `GetStateFor` open; each answer is the one that an empty cache gives, and the
one of the machine run from genesis. -/
theorem queries_transparent {depth : Nat}
    (hd : 2 ≤ depth) {qs : List VersionBitsQuery} (ht : ∀ q ∈ qs, TimesIncrease q.block) :
    ∃ answers, (∃ caches, runQueries params depth qs (fun _ _ => none) = some (answers, caches)) ∧
      List.Forall₂ (fun q answer => answer = q.machineAnswer params ∧
        ∃ caches, q.run params depth (fun _ _ => none) = some (answer, caches)) qs answers := by
  obtain ⟨d, rfl⟩ : ∃ d, depth = d + 2 := ⟨depth - 2, by omega⟩
  have hempty : AllSound params fun _ _ => none := fun pos => .empty params pos
  obtain ⟨caches, h1, -⟩ := runQueries_eq hP d ht hempty
  refine ⟨_, ⟨caches, h1⟩, ?_⟩
  rw [forall₂_map_right_iff, forall₂_same]
  intro q hq
  obtain ⟨caches', h2, -⟩ := q.run_eq hP d (ht q hq) hempty
  exact ⟨rfl, caches', h2⟩

end

/-- A deployment that starts at once, is locked in by its height and lasts for one period. -/
def shortDeployment : DeploymentParams where
  nRuleChangeActivationThreshold := 3
  nMinerConfirmationWindow := 2
  vDeployments _ := { nStartTime := 0, nTimeout := 10, maxActivationHeight := 4, activeDuration := 2 }

/-- A branch of `k` headers that leaves the common ones at height `n`. -/
def timedBranch (nonce n : Nat) : Nat → BlockPtr
  | 0 => []
  | k + 1 => ⟨0x20000000#32, 0, k + 1, 0, if k < n then 0 else nonce⟩ :: timedBranch nonce n k

def forkQueries : List VersionBitsQuery :=
  [.state .taproot (timedBranch 1 6 7), .stateSinceHeight .taproot (timedBranch 2 6 8),
    .state .taproot (timedBranch 1 6 9)]

/-- The second and the third query find the height of the activation through the cache that the
first one left. -/
theorem queries_transparent_fork : ∃ caches,
    runQueries shortDeployment 2 forkQueries (fun _ _ => none) =
      some ([.state .active, .height 8, .state .expired], caches) := by
  have hP : 0 < shortDeployment.nMinerConfirmationWindow := by decide
  have ht : ∀ q ∈ forkQueries, TimesIncrease q.block := by decide
  obtain ⟨answers, ⟨caches, hrun⟩, hall⟩ := queries_transparent hP (le_refl 2) ht
  have hanswers : answers = forkQueries.map (·.machineAnswer shortDeployment) := by
    rw [← forall₂_eq_eq_eq, forall₂_map_right_iff]
    exact (hall.imp fun _ _ h => h.1).flip
  have hmachine : forkQueries.map (·.machineAnswer shortDeployment) =
      [.state .active, .height 8, .state .expired] := by decide
  exact ⟨caches, by rw [hrun, hanswers, hmachine]⟩

end BitcoinPurity
