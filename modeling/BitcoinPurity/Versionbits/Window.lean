import BitcoinPurity.Versionbits.Cache
import BitcoinPurity.Versionbits.Signaling

/-!
When a deployment is active: the window of a temporary deployment, and the height by which a
deployment with `max_activation_height` is active.

Both are read off the machine that steps once a period, by `machine_induction`.

* `deploymentActiveAfter_window`: `DeploymentActiveAfter` is true in a window of `active_duration`
  blocks, whatever the cache holds, and `EXPIRED` and `FAILED` are final.
* `maxActivationHeight_deadline`: the forced lock-in meets `max_activation_height`.
-/

namespace BitcoinPurity

open List

/-! ## Algorithm -/

/-- `DeploymentActiveAfter`, on the cache of the deployment. -/
def deploymentActiveAfterWith (params : DeploymentParams) (dep : DeploymentPos) (depth : Nat)
    (pindexPrev : BlockPtr) (cache : ThresholdConditionCache) :
    Option (Bool × ThresholdConditionCache) :=
  if dep = .reducedData ∧ heightAfter pindexPrev ≥ params.nPurityActivationHeight then
    some (true, cache)
  else
    (getStateForWith params dep depth pindexPrev cache).bind fun (state, cache) =>
      if state ≠ .active then some (false, cache)
      else if (params.vDeployments dep).activeDuration = intMax then some (true, cache)
      else
        (getStateSinceHeightForWith params dep depth pindexPrev cache).map fun (height, cache) =>
          (decide (heightAfter pindexPrev < addInt height (params.vDeployments dep).activeDuration),
            cache)

/-- `ACTIVE` for the block at height `a` of the chain, and for none below it. -/
def FirstActive (params : DeploymentParams) (dep : DeploymentPos) (chain : BlockPtr) (a : Nat) :
    Prop :=
  (∃ q, q <:+ chain ∧ q.length = a ∧ getStateFor params dep q = .active) ∧
    ∀ q, q <:+ chain → q.length < a → getStateFor params dep q ≠ .active

/-! ## The machine from a block on -/

section

variable {params : DeploymentParams} {dep : DeploymentPos} {b p q : BlockPtr} {n : Int}

theorem heightAfter_eq (p : BlockPtr) : heightAfter p = p.length := by
  unfold heightAfter
  split
  · next h => rw [h, length_nil, Nat.cast_zero]
  · rw [nHeight_eq]
    omega

@[elab_as_elim]
theorem machine_induction (params : DeploymentParams) (dep : DeploymentPos)
    {motive : BlockPtr → Prop} (p : BlockPtr) (hqp : q <:+ p) (hq : motive q)
    (hstay : ∀ x b, motive b → periodMachine params dep (x :: b) = periodMachine params dep b →
      motive (x :: b)) (hstep : ∀ x b, motive b → periodMachine params dep (x :: b) =
      machineStep params dep (periodMachine params dep b) (x :: b) → motive (x :: b)) :
    motive p := by
  induction p with
  | nil => exact suffix_nil.1 hqp ▸ hq
  | cons x b ih =>
    rcases suffix_cons_iff.1 hqp with rfl | hqb
    · exact hq
    by_cases hend : (b.length + 1) % params.nMinerConfirmationWindow = 0
    · exact hstep x b (ih hqb) (by rw [periodMachine, if_pos hend])
    · exact hstay x b (ih hqb) (by rw [periodMachine, if_neg hend])

theorem machineStep_lockedIn (p : BlockPtr) : machineStep params dep (.lockedIn, n) p =
    if nHeight p + 1 ≥ (params.vDeployments dep).minActivationHeight then (.active, nHeight p + 1)
    else (.lockedIn, n) := by
  simp only [machineStep, nextState]
  split <;> simp

theorem final_state (hqp : q <:+ p) (hq : (periodMachine params dep q).1 = .expired ∨
    (periodMachine params dep q).1 = .failed) :
    (periodMachine params dep p).1 = (periodMachine params dep q).1 := by
  refine machine_induction params dep p hqp rfl (fun x b h hm => by rw [hm, h]) fun x b h hm => ?_
  rcases hs : periodMachine params dep b with ⟨st, n⟩
  rw [← h, hs] at hq ⊢
  rw [hm, hs]
  rcases hq with hq | hq <;> cases hq <;> rfl

theorem since_spec (p : BlockPtr) : (periodMachine params dep p).1 ≠ .defined →
    ∃ q, q <:+ p ∧ (q.length : Int) = (periodMachine params dep p).2 ∧
      (periodMachine params dep q).1 = (periodMachine params dep p).1 := by
  refine machine_induction params dep p nil_suffix (fun h => absurd rfl h)
    (fun x b ih hm h => ?_) fun x b ih hm h => ?_
  · grind
  · have hnext : (periodMachine params dep (x :: b)).1 =
        (nextState params dep (periodMachine params dep b) (x :: b)).1 := by rw [hm, machineStep]
    by_cases hsame : (periodMachine params dep (x :: b)).1 = (periodMachine params dep b).1
    · obtain ⟨q, hqb, hq, hst⟩ := ih (hsame ▸ h)
      refine ⟨q, hqb.trans (suffix_cons x b), ?_, hst.trans hsame.symm⟩
      rw [hm, machineStep, if_pos (hnext.symm.trans hsame)]
      exact hq
    · refine ⟨x :: b, suffix_refl _, ?_, rfl⟩
      rw [hm, machineStep, if_neg fun he => hsame (hnext.trans he), nHeight_eq]
      omega

/-- **After the activation** the deployment is active, or expired once its duration is over. -/
theorem active_or_expired (hqp : q <:+ p) (hq : (periodMachine params dep q).1 = .active)
    (hfits : (params.vDeployments dep).activeDuration < intMax →
      addInt (periodMachine params dep q).2 (params.vDeployments dep).activeDuration =
        (periodMachine params dep q).2 + (params.vDeployments dep).activeDuration) :
    periodMachine params dep p = periodMachine params dep q ∨
      (periodMachine params dep p).1 = .expired ∧ (periodMachine params dep q).2 +
        (params.vDeployments dep).activeDuration ≤ p.length := by
  refine machine_induction params dep p hqp (.inl rfl) (fun x b ih hm => ?_) fun x b ih hm => ?_
  · grind
  · rcases ih with ih | ⟨h1, h2⟩
    · rcases hs : periodMachine params dep q with ⟨st, n⟩
      rw [hs] at hq ih hfits
      cases hq
      rw [hm, ih]
      by_cases hover : (params.vDeployments dep).activeDuration < intMax ∧
          nHeight (x :: b) + 1 ≥ addInt n (params.vDeployments dep).activeDuration
      · refine .inr ⟨by simp [machineStep, nextState, hover], ?_⟩
        rw [nHeight_eq, hfits hover.1] at hover
        omega
      · exact .inl (by simp [machineStep, nextState, hover])
    · refine .inr ⟨?_, ?_⟩
      · rw [final_state (suffix_cons x b) (.inl h1), h1]
      · rw [length_cons]
        omega

/-- **After the lock-in** the deployment is locked in, active, or over. -/
theorem lockedIn_or_later (hqp : q <:+ p) (hq : (periodMachine params dep q).1 = .lockedIn ∨
    (periodMachine params dep q).1 = .active)
    (hfits : (params.vDeployments dep).activeDuration < intMax → ∀ n : Nat, n ≤ p.length →
      addInt n (params.vDeployments dep).activeDuration =
        n + (params.vDeployments dep).activeDuration) :
    (periodMachine params dep p).1 = .lockedIn ∨ (periodMachine params dep p).1 = .active ∨
      (periodMachine params dep p).1 = .expired ∧ ∃ r, r <:+ p ∧
        (periodMachine params dep r).1 = .active ∧
        r.length + (params.vDeployments dep).activeDuration ≤ p.length := by
  -- from the first active block on, the duration counts
  have hactive : ∀ {r}, r <:+ p → (periodMachine params dep r).1 = .active →
      (periodMachine params dep p).1 = .active ∨ (periodMachine params dep p).1 = .expired ∧
        ∃ r, r <:+ p ∧ (periodMachine params dep r).1 = .active ∧
          r.length + (params.vDeployments dep).activeDuration ≤ p.length := by
    intro r hrp hr
    obtain ⟨r', hr', hlen, hst⟩ := since_spec r (by rw [hr]; simp)
    have hle := (hr'.trans hrp).length_le
    rcases active_or_expired hrp hr (fun hD => hlen ▸ hfits hD _ hle) with h | ⟨h1, h2⟩
    · exact .inl (h ▸ hr)
    · exact .inr ⟨h1, r', hr'.trans hrp, hst.trans hr, hlen ▸ h2⟩
  rcases hq with hq | hq
  · have hleft : (periodMachine params dep p).1 = .lockedIn ∨
        ∃ r, r <:+ p ∧ (periodMachine params dep r).1 = .active := by
      refine machine_induction params dep p hqp (.inl hq) (fun x b ih hm => ?_) fun x b ih hm => ?_
      · grind
      · rcases ih with ih | ⟨r, hr, h⟩
        · rcases hs : periodMachine params dep b with ⟨st, n⟩
          rw [hs] at ih hm
          cases ih
          rw [machineStep_lockedIn] at hm
          grind
        · exact .inr ⟨r, hr.trans (suffix_cons x b), h⟩
    grind
  · exact .inr (hactive hqp hq)

theorem minActivationHeight_le (p : BlockPtr) : (periodMachine params dep p).1 = .active →
    (params.vDeployments dep).minActivationHeight ≤ p.length := by
  refine machine_induction params dep p nil_suffix (fun h => nomatch h)
    (fun x b ih hm h => ?_) fun x b ih hm h => ?_
  · have := ih (hm ▸ h)
    rw [length_cons]
    omega
  · rcases hs : periodMachine params dep b with ⟨st, n⟩
    rw [hs] at ih hm
    rw [hm] at h
    have hlen := nHeight_eq (x :: b)
    cases st with
    | active =>
      have := ih rfl
      rw [length_cons]
      omega
    | lockedIn =>
      rw [machineStep_lockedIn] at h
      split at h
      · omega
      · cases h
    | _ =>
      simp only [machineStep, nextState] at h
      grind

theorem periodMachine_period (hP : 0 < params.nMinerConfirmationWindow) (hqp : q <:+ p)
    (hlen : p.length = q.length + params.nMinerConfirmationWindow)
    (hend : params.nMinerConfirmationWindow ∣ p.length) :
    periodMachine params dep p = machineStep params dep (periodMachine params dep q) p := by
  have hp : p ≠ [] := fun h => by simp [h] at hlen; omega
  have hq : previousPeriodParent params p = q := by
    rw [previousPeriodParent_eq, suffix_iff_eq_drop.1 hqp, hlen, Nat.add_sub_cancel_left]
  have hperiod : PeriodEnd params p := Nat.mod_eq_zero_of_dvd hend
  rw [hperiod.periodMachine_eq hp hP, hq]

/-- **The forced lock-in** comes one period below the height. -/
theorem lockedIn_by {M : Nat} (hP : 0 < params.nMinerConfirmationWindow)
    (hM : (params.vDeployments dep).maxActivationHeight = M) (hset : (M : Int) < intMax)
    (hdvd : params.nMinerConfirmationWindow ∣ M) (hqp : q <:+ p)
    (hq : q.length + 2 * params.nMinerConfirmationWindow = M)
    (hp : M ≤ p.length + params.nMinerConfirmationWindow)
    (h : (periodMachine params dep q).1 = .started) :
    ∃ e, e <:+ p ∧ e.length + params.nMinerConfirmationWindow = M ∧
      (periodMachine params dep e).1 = .lockedIn := by
  obtain ⟨e, hep, hlen⟩ : ∃ e, e <:+ p ∧ e.length + params.nMinerConfirmationWindow = M :=
    ⟨p.drop (p.length + params.nMinerConfirmationWindow - M), drop_suffix _ _,
      by rw [length_drop]; omega⟩
  have hqe : q <:+ e := suffix_of_suffix_length_le hqp hep (by omega)
  have hend := (Nat.dvd_add_left (dvd_refl _)).1 (hlen ▸ hdvd)
  refine ⟨e, hep, hlen, ?_⟩
  rw [periodMachine_period hP hqe (by omega) hend]
  rcases hs : periodMachine params dep q with ⟨st, n⟩
  rw [hs] at h
  cases h
  have hforced : nHeight e + 1 ≥ (M : Int) - params.nMinerConfirmationWindow := by
    rw [nHeight_eq]
    omega
  simp [machineStep, nextState, hM, hset, hforced]

/-- No deployment is locked in longer than a period from `min_activation_height` on. -/
theorem machineStep_ne_lockedIn {st : ThresholdState × Int} (hst : st.1 ≠ .started)
    (hp : (params.vDeployments dep).minActivationHeight ≤ p.length) :
    (machineStep params dep st p).1 ≠ .lockedIn := by
  rcases st with ⟨st, n⟩
  cases st with
  | lockedIn =>
    rw [machineStep_lockedIn, if_pos (by rw [nHeight_eq]; omega)]
    simp
  | _ =>
    simp only [machineStep, nextState]
    grind

end

/-! ## The states -/

section

variable {params : DeploymentParams} {dep : DeploymentPos} {chain p q : BlockPtr}

theorem getStateFor_alwaysActive (h : (params.vDeployments dep).nStartTime = alwaysActive)
    (b : BlockPtr) : getStateFor params dep b = .active := by
  rw [getStateFor, if_pos h]

theorem getStateFor_neverActive (h : (params.vDeployments dep).nStartTime = neverActive)
    (b : BlockPtr) : getStateFor params dep b = .failed := by
  rw [getStateFor, if_neg (by rw [h]; decide), if_pos h]

variable (hP : 0 < params.nMinerConfirmationWindow)
include hP

theorem getStateFor_machine (ha : (params.vDeployments dep).nStartTime ≠ alwaysActive)
    (hn : (params.vDeployments dep).nStartTime ≠ neverActive) (ht : TimesIncrease p) :
    getStateFor params dep p = (periodMachine params dep p).1 ∧
      getStateSinceHeightFor params dep p = (periodMachine params dep p).2 := by
  rw [getStateFor_eq_periodState hP ht, getStateSinceHeightFor_eq_periodSince hP ht, periodState,
    periodSince, if_neg ha, if_neg hn, if_neg (not_or.2 ⟨ha, hn⟩)]
  exact ⟨rfl, rfl⟩

/-- What `FirstActive` says of a block: `ACTIVE` since the first height, or out of the window. -/
theorem FirstActive.spec {a : Nat} (h : FirstActive params dep chain a)
    (ht : TimesIncrease chain) (hp : p <:+ chain)
    (hfits : addInt a (params.vDeployments dep).activeDuration =
      a + (params.vDeployments dep).activeDuration) :
    getStateFor params dep p = .active ∧ a ≤ p.length ∧ getStateSinceHeightFor params dep p = a ∨
      getStateFor params dep p ≠ .active ∧ (p.length < a ∨
        a + (params.vDeployments dep).activeDuration ≤ p.length) := by
  obtain ⟨⟨q, hq, hqa, hact⟩, hfirst⟩ := h
  by_cases ha : (params.vDeployments dep).nStartTime = alwaysActive
  · have hnil := hfirst [] nil_suffix
    rw [getStateFor_alwaysActive ha] at hnil
    have h0 : a = 0 := Nat.eq_zero_of_not_pos fun h => hnil h rfl
    refine .inl ⟨getStateFor_alwaysActive ha p, by omega, ?_⟩
    rw [getStateSinceHeightFor, if_pos (.inl ha), h0, Nat.cast_zero]
  by_cases hn : (params.vDeployments dep).nStartTime = neverActive
  · simp [getStateFor_neverActive hn] at hact
  have hmach : ∀ r, r <:+ chain → _ := fun r hr => getStateFor_machine hP ha hn (ht.suffix hr)
  rw [(hmach q hq).1] at hact
  rw [(hmach p hp).1, (hmach p hp).2]
  by_cases hlen : p.length < a
  · exact .inr ⟨(hmach p hp).1 ▸ hfirst p hp hlen, .inl hlen⟩
  -- the machine is active since the first height
  have hsince : (periodMachine params dep q).2 = a := by
    obtain ⟨r, hr, hrlen, hst⟩ := since_spec q (by rw [hact]; simp)
    grind
  have hqp : q <:+ p := suffix_of_suffix_length_le hq hp (by omega)
  rcases active_or_expired hqp hact (fun _ => hsince.symm ▸ hfits) with h | ⟨h1, h2⟩
  · rw [h, hact, hsince]
    exact .inl ⟨rfl, by omega, rfl⟩
  · rw [h1, ← hsince]
    exact .inr ⟨by simp, .inr h2⟩

theorem deploymentActiveAfterWith_eq (depth : Nat)
    {cache : ThresholdConditionCache} (h : SoundCache params dep cache) (ht : TimesIncrease p) :
    (deploymentActiveAfterWith params dep (depth + 2) p cache).map Prod.fst =
      some (deploymentActiveAfter params p dep) := by
  obtain ⟨cache1, h1, hs, -⟩ := getStateForWith_eq hP depth h ht
  obtain ⟨cache2, h2, -⟩ := getStateSinceHeightForWith_eq hP depth hs ht
  unfold deploymentActiveAfterWith deploymentActiveAfter
  simp only [h1, h2, getStateFor_eq_periodState hP ht, getStateSinceHeightFor_eq_periodSince hP ht,
    Option.bind_some]
  split
  · rfl
  split
  · rfl
  split <;> rfl

/-- **The window**: a temporary deployment that is first active at height `a` is active for the
heights from `a` on and below `a + active_duration`, if this is an `int`, after any queries of the
cache; `EXPIRED` and `FAILED` are final. -/
theorem deploymentActiveAfter_window (ht : TimesIncrease chain)
    (hint : -2 ^ 31 ≤ (params.vDeployments dep).activeDuration)
    (hD : (params.vDeployments dep).activeDuration < intMax) :
    (∀ a, FirstActive params dep chain a → a + (params.vDeployments dep).activeDuration ≤ intMax →
      ∀ p, p <:+ chain →
      ¬ (dep = .reducedData ∧ (p.length : Int) ≥ params.nPurityActivationHeight) →
      ∀ depth qs answers caches, 2 ≤ depth → (∀ q ∈ qs, TimesIncrease q.block) →
        runQueries params depth qs (fun _ _ => none) = some (answers, caches) →
        ∃ active cache, deploymentActiveAfterWith params dep depth p (caches dep) =
            some (active, cache) ∧ active = deploymentActiveAfter params p dep ∧
          (active ↔ a ≤ p.length ∧
            (p.length : Int) < a + (params.vDeployments dep).activeDuration)) ∧
    ∀ q p, q <:+ p → p <:+ chain →
      getStateFor params dep q = .expired ∨ getStateFor params dep q = .failed →
      getStateFor params dep p = getStateFor params dep q := by
  constructor
  · intro a hfirst hmax p hp hpurity depth qs answers caches hdepth hqs hrun
    have hfits := addInt_eq (by omega) hmax
    obtain ⟨d, rfl⟩ : ∃ d, depth = d + 2 := ⟨depth - 2, by omega⟩
    obtain ⟨caches', h1, hsound⟩ := runQueries_eq hP d hqs fun pos => .empty params pos
    obtain rfl : caches' = caches := by grind
    have heq := deploymentActiveAfterWith_eq hP d (hsound dep) (ht.suffix hp)
    obtain ⟨⟨active, cache⟩, hw, hfst⟩ := Option.map_eq_some_iff.1 heq
    refine ⟨active, cache, hw, hfst, ?_⟩
    rw [show active = _ from hfst, deploymentActiveAfter, heightAfter_eq, if_neg hpurity]
    rcases hfirst.spec hP ht hp hfits with ⟨hst, hle, hsince⟩ | ⟨hst, hout⟩
    · grind
    grind
  · intro q p hqp hp hq
    by_cases ha : (params.vDeployments dep).nStartTime = alwaysActive
    · rw [getStateFor_alwaysActive ha, getStateFor_alwaysActive ha]
    by_cases hn : (params.vDeployments dep).nStartTime = neverActive
    · rw [getStateFor_neverActive hn, getStateFor_neverActive hn]
    rw [(getStateFor_machine hP ha hn (ht.suffix (hqp.trans hp))).1] at hq ⊢
    rw [(getStateFor_machine hP ha hn (ht.suffix hp)).1]
    exact final_state hqp hq

omit hP in
theorem deploymentActiveAfter_window_short :
    FirstActive shortDeployment .taproot (timedBranch 1 6 9) 6 ∧ ∃ active cache,
      deploymentActiveAfterWith shortDeployment .taproot 2 (timedBranch 1 6 7) (fun _ => none) =
        some (active, cache) ∧ active := by
  have hfirst : FirstActive shortDeployment .taproot (timedBranch 1 6 9) 6 := by
    refine ⟨⟨timedBranch 1 6 6, by decide, rfl, by decide⟩, fun q hq => ?_⟩
    revert q
    simp only [← mem_tails]
    decide
  obtain ⟨active, cache, hrun, -, hiff⟩ := (deploymentActiveAfter_window (by decide) (by decide)
    (by decide) (by decide)).1 6 hfirst (by decide) (timedBranch 1 6 7) (by decide) (by decide) 2 []
    [] _ (le_refl 2) (by simp) rfl
  exact ⟨hfirst, active, cache, hrun, hiff.2 (by decide)⟩

/-- The longest window that is not for ever. -/
def longDeployment : DeploymentParams :=
  { shortDeployment with
    vDeployments := fun dep =>
      { shortDeployment.vDeployments dep with activeDuration := intMax - 1 } }

omit hP in
/-- The end of the window wraps: the deployment is not active in its first period, and then over. -/
theorem deploymentActiveAfter_wraps : FirstActive longDeployment .taproot (timedBranch 1 6 9) 6 ∧
    deploymentActiveAfter longDeployment (timedBranch 1 6 6) .taproot = false ∧
    getStateFor longDeployment .taproot (timedBranch 1 6 8) = .expired := by
  refine ⟨⟨⟨timedBranch 1 6 6, by decide, rfl, by decide⟩, fun q hq => ?_⟩, by decide, by decide⟩
  revert q
  simp only [← mem_tails]
  decide

/-- `EXPIRED`, with an active block of the branch that is `active_duration` blocks below. -/
def Served (params : DeploymentParams) (dep : DeploymentPos) (p : BlockPtr) : Prop :=
  getStateFor params dep p = .expired ∧ ∃ r, r <:+ p ∧ getStateFor params dep r = .active ∧
    r.length + (params.vDeployments dep).activeDuration ≤ p.length

/-- **The deadline**: a deployment with `max_activation_height` that is started two periods below
it, or was locked in by then, is locked in one period below it and active at it, whatever the blocks
signal, unless its duration is over; with a start time it is not active below
`min_activation_height`.  A window that starts at `max_activation_height` ends at an `int`. -/
theorem maxActivationHeight_deadline (ht : TimesIncrease chain) {M : Int}
    (hM : (params.vDeployments dep).maxActivationHeight = M)
    (hint : -2 ^ 31 ≤ (params.vDeployments dep).activeDuration)
    (hmax : (params.vDeployments dep).activeDuration < intMax →
      M + (params.vDeployments dep).activeDuration ≤ intMax)
    (hset : M < intMax) (hdvd : (params.nMinerConfirmationWindow : Int) ∣ M)
    (hmin : (params.vDeployments dep).minActivationHeight ≤ M) :
    (∀ q p, q <:+ p → p <:+ chain → (q.length : Int) = M - 2 * params.nMinerConfirmationWindow →
      (getStateFor params dep q = .started ∨ ∃ e, e <:+ q ∧
        (getStateFor params dep e = .lockedIn ∨ getStateFor params dep e = .active)) →
      ((p.length : Int) = M - params.nMinerConfirmationWindow →
        getStateFor params dep p = .lockedIn ∨ getStateFor params dep p = .active ∨
          Served params dep p) ∧
      ((p.length : Int) = M → getStateFor params dep p = .active ∨ Served params dep p)) ∧
    ((params.vDeployments dep).nStartTime ≠ alwaysActive → ∀ p, p <:+ chain →
      getStateFor params dep p = .active →
      (params.vDeployments dep).minActivationHeight ≤ p.length) := by
  by_cases ha : (params.vDeployments dep).nStartTime = alwaysActive
  · have hact := getStateFor_alwaysActive ha
    exact ⟨fun q p _ _ _ _ => ⟨fun _ => .inr (.inl (hact p)), fun _ => .inl (hact p)⟩,
      fun h => absurd ha h⟩
  by_cases hn : (params.vDeployments dep).nStartTime = neverActive
  · have hfailed := getStateFor_neverActive hn
    simp [hfailed]
  have hmach : ∀ {r}, r <:+ chain → getStateFor params dep r = (periodMachine params dep r).1 :=
    fun hr => (getStateFor_machine hP ha hn (ht.suffix hr)).1
  -- from the lock-in on
  have hfits : ∀ {p : BlockPtr}, p.length ≤ M → (params.vDeployments dep).activeDuration < intMax →
      ∀ n : Nat, n ≤ p.length → addInt n (params.vDeployments dep).activeDuration =
        n + (params.vDeployments dep).activeDuration := by
    intro p hp hD n hn
    have := hmax hD
    exact addInt_eq (by omega) (by omega)
  have hlater : ∀ {e p}, e <:+ p → p <:+ chain → p.length ≤ M →
      ((periodMachine params dep e).1 = .lockedIn ∨ (periodMachine params dep e).1 = .active) →
      getStateFor params dep p = .lockedIn ∨ getStateFor params dep p = .active ∨
        Served params dep p := by
    intro e p hep hp hle he
    rcases lockedIn_or_later hep he (hfits hle) with h | h | ⟨h, r, hr, hact, hlen⟩
    · exact .inl ((hmach hp).trans h)
    · exact .inr (.inl ((hmach hp).trans h))
    · exact .inr (.inr ⟨(hmach hp).trans h, r, hr, (hmach (hr.trans hp)).trans hact, hlen⟩)
  refine ⟨fun q p hqp hp hq hst => ?_, fun _ p hp hact =>
    minActivationHeight_le p ((hmach hp).symm.trans hact)⟩
  lift M to Nat using by omega
  have hdvd' := Int.natCast_dvd_natCast.1 hdvd
  have hby : M ≤ p.length + params.nMinerConfirmationWindow → ∃ e, e <:+ p ∧
      e.length + params.nMinerConfirmationWindow ≤ M ∧
      ((periodMachine params dep e).1 = .lockedIn ∨ (periodMachine params dep e).1 = .active) := by
    intro hlen
    rcases hst with hst | ⟨e, he, hst⟩
    · rw [hmach (hqp.trans hp)] at hst
      obtain ⟨e, hep, helen, he⟩ := lockedIn_by hP hM hset hdvd' hqp (by omega) hlen hst
      exact ⟨e, hep, helen.le, .inl he⟩
    grind
  constructor
  · grind
  · intro hlen
    obtain ⟨e, hep, helen, he⟩ := hby (by omega)
    refine (hlater hep hp (by omega) he).resolve_left ?_
    -- the period below the height starts locked in, active or over
    obtain ⟨r, hrp, hrlen⟩ : ∃ r, r <:+ p ∧ p.length = r.length + params.nMinerConfirmationWindow :=
      ⟨p.drop params.nMinerConfirmationWindow, drop_suffix _ _, by rw [length_drop]; omega⟩
    have her : e <:+ r := suffix_of_suffix_length_le hep hrp (by omega)
    have hr : (periodMachine params dep r).1 ≠ .started := by
      rcases lockedIn_or_later her he (hfits (by omega)) with h | h | ⟨h, -⟩ <;> rw [h] <;> simp
    rw [hmach hp, periodMachine_period hP hrp hrlen (by rw [Int.natCast_inj.1 hlen]; exact hdvd')]
    exact machineStep_ne_lockedIn hr (by omega)

end

/-- A deployment without timeout that half of a period locks in, for one period. -/
def earlyDeployment : DeploymentParams where
  nRuleChangeActivationThreshold := 1
  nMinerConfirmationWindow := 2
  vDeployments dep :=
    { bit := 0, nStartTime := if dep = .taproot then 0 else alwaysActive, nTimeout := 2 ^ 63 - 1,
      minActivationHeight := 2, maxActivationHeight := 16, activeDuration := 2 }

/-- A branch of `k` headers that all signal. -/
def signalingBranch (k : Nat) : BlockPtr :=
  (List.range k).reverse.map fun i => ⟨0x20000001#32, 0, i + 1, 0, 0⟩

/-- Signaled early, the deployment is over one period below `max_activation_height`; always active,
it does not wait for `min_activation_height`. -/
theorem maxActivationHeight_over : TimesIncrease (signalingBranch 16) ∧
    (∀ dep, (earlyDeployment.vDeployments dep).maxActivationHeight = 16 ∧
      (earlyDeployment.vDeployments dep).minActivationHeight = 2 ∧
      (earlyDeployment.nMinerConfirmationWindow : Int) ∣ 16) ∧
    getStateFor earlyDeployment .taproot (signalingBranch 4) = .lockedIn ∧
    getStateFor earlyDeployment .taproot (signalingBranch 6) = .active ∧
    getStateFor earlyDeployment .taproot (signalingBranch 14) = .expired ∧
    getStateFor earlyDeployment .testdummy [] = .active :=
  ⟨by decide, fun _ => ⟨rfl, rfl, by decide⟩, by decide, by decide, by decide, by decide⟩

theorem maxActivationHeight_deadline_early :
    Served earlyDeployment .taproot (signalingBranch 16) := by
  have hP : 0 < earlyDeployment.nMinerConfirmationWindow := by decide
  have hM : (earlyDeployment.vDeployments .taproot).maxActivationHeight = 16 := rfl
  obtain ⟨-, hdeadline⟩ := (maxActivationHeight_deadline hP (by decide) hM (by decide)
    (fun _ => by decide) (by decide) (by decide) (by decide)).1 (signalingBranch 12)
    (signalingBranch 16) (by decide) (suffix_refl _) (by decide)
    (.inr ⟨signalingBranch 4, by decide, by decide⟩)
  exact (hdeadline (by decide)).resolve_left (by decide)

end BitcoinPurity
