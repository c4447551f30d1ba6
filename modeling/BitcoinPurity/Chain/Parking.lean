import BitcoinPurity.Chain.Accept
import BitcoinPurity.Lib.Runs
import Mathlib.Logic.Equiv.List

/-!
Deep-reorg parking over whole runs of `ProcessNewBlockHeaders` and `ProcessNewBlock`, each
call running to completion.

Between calls the node is *settled*: the only candidate is the tip itself.  So every candidate
a call sees was made by its own `AcceptBlock`, whose parking decision looked at the tip the
call starts from; `rewindDepth_le_of_call` turns that into the bound on the tip's move.
-/

namespace BitcoinPurity

open List

/-! ## Runs -/

variable (env : Env)

/-- A node that knows and has connected the genesis block only. -/
def freshChainstate : Chainstate where
  known := [[env.genesis]]
  data b := if b = [env.genesis] then
      { nStatus := { validity := .transactions, haveData := true }, nTx := 1, chainTxCount := 1,
        nSequenceId := seqIdInitFromDisk + 1 }
    else {}
  blocksUnlinked := []
  setBlockIndexCandidates := [[env.genesis]]
  tip := [env.genesis]
  failedBlocks := []
  nBlockSequenceId := seqIdInitFromDisk + 2
  calls := 0

/-- The calls a run is made of. -/
inductive Call
  | headers (minPowChecked : Bool) (calls : List HeaderCall)
  | block (fuel : Nat) (call : BlockCall)

def Call.run : Call → Chainstate → Option Chainstate
  | .headers minPowChecked calls, s => s.processNewBlockHeaders env minPowChecked calls
  | .block fuel call, s => s.processNewBlock env fuel call

def Reachable (s : Chainstate) : Prop := Runs.Reach (Call.run env) (freshChainstate env) s

/-! ## The settled node -/

/-- Between calls the tip is the only candidate. -/
structure Settled (env : Env) (s : Chainstate) : Prop where
  wf : s.Wf env
  cand : ∀ c ∈ s.setBlockIndexCandidates, c = s.tip

namespace Chainstate

theorem fresh_haveBranch (env : Env) {b : BlockPtr} (h : b <:+ [env.genesis]) :
    (freshChainstate env).HaveBranch b := by
  intro x hx hxb
  have hxg := hxb.trans h
  rcases suffix_cons_iff.1 hxg with rfl | hn
  · simp [freshChainstate]
  · exact absurd (suffix_nil.1 hn) hx

theorem fresh_flag {env : Env} {b : BlockPtr} (f : BlockStatus → Bool)
    (hf : ∀ v d, f { validity := v, haveData := d } = false := by intros; rfl) :
    f ((freshChainstate env).data b).nStatus = false := by
  unfold freshChainstate
  dsimp only
  split
  · exact hf _ _
  · exact hf _ _

theorem fresh_settled (env : Env) : Settled env (freshChainstate env) := by
  have hg := Rooted.genesisOnly env
  refine ⟨⟨hg, ?_, ?_, ?_, ?_, nodup_nil, ?_, fresh_haveBranch env (suffix_refl _), ?_, ?_⟩, ?_⟩
  · intro b hb
    rw [mem_singleton.1 hb]
    exact hg
  · intro b hb
    by_cases he : b = [env.genesis]
    · rw [he]
      exact mem_singleton.2 rfl
    · simp [freshChainstate, he] at hb
  · intro c hc
    rw [mem_singleton.1 hc]
    exact hg
  · intro e he
    cases he
  · intro b hb
    by_cases he : b = [env.genesis]
    · rw [he]
      exact fresh_haveBranch env (suffix_refl _)
    · simp [freshChainstate, he, BlockData.haveNumChainTxs] at hb
  · intro c hc
    rw [mem_singleton.1 hc]
    exact fresh_haveBranch env (suffix_refl _)
  · intro c hc
    rw [mem_singleton.1 hc]
    have hirr := irrefl_of (fun a b => (freshChainstate env).workLess env a b) [env.genesis]
    show (freshChainstate env).workLess env [env.genesis] [env.genesis] = false
    simpa using hirr
  · intro c hc
    rw [mem_singleton.1 hc]
    rfl

variable {env : Env} {s s' : Chainstate}

theorem Selecting.settled {root m : BlockPtr} (h : Selecting env root (fun _ _ => False) s m)
    (hend : m = s.tip ∨ m = [] ∧ s.setBlockIndexCandidates = []) : Settled env s := by
  refine ⟨h.wf, fun c hc => ?_⟩
  rcases hend with rfl | ⟨-, hnil⟩
  · have h1 : ¬ s.workLess env c s.tip := by
      rw [h.wf.cand_above c hc]
      simp
    have h2 : ¬ s.workLess env s.tip c :=
      fun hlt => h.cached_above h.wf.tip_rooted.ne_nil c hc hlt
    rcases trichotomous_of (fun a b => s.workLess env a b) c s.tip with h3 | h3 | h3
    · exact absurd h3 h1
    · exact h3
    · exact absurd h3 h2
  · simp [hnil] at hc

theorem Selecting.activateLoop {root m : BlockPtr} {fuel n : Nat}
    (h : Selecting env root (fun _ _ => False) s m) (ha : activateLoop env fuel n m s = some s') :
    Settled env s' ∧ root <:+ s'.tip := by
  induction n generalizing s m with
  | zero => cases ha
  | succ n ih =>
    unfold Chainstate.activateLoop at ha
    split at ha
    · cases ha
    · next hi =>
      cases ha
      obtain ⟨hsel, hend⟩ := h.activateIteration hi
      exact ⟨hsel.settled (hend rfl), hsel.tip⟩
    · next hi => exact ih (h.activateIteration hi).1 ha

theorem processNewBlockHeaders_spec {minPow : Bool} {l : List HeaderCall}
    (h : s.processNewBlockHeaders env minPow l = some s') (hs : Settled env s) :
    Settled env s' ∧ s'.tip = s.tip := by
  induction l generalizing s with
  | nil =>
    cases h
    exact ⟨hs, rfl⟩
  | cons call l ih =>
    have one : ∀ {s1 : Chainstate} {a : Bool},
        s.acceptBlockHeader env call minPow = some (s1, a) → Settled env s1 ∧ s1.tip = s.tip := by
      intro s1 a ha
      obtain ⟨hw, hg, -⟩ := acceptBlockHeader_spec ha hs.wf
      refine ⟨⟨hw, fun c hc => ?_⟩, hg.tip⟩
      rw [hg.tip]
      exact hs.cand c (hg.candidates ▸ hc)
    unfold processNewBlockHeaders at h
    grind

/-- **One `ProcessNewBlock` call** settles the node again and moves the tip by a bounded
rewind. -/
theorem processNewBlock_spec (hon : env.parkDeepReorg) (hd : 1 ≤ env.parkReorgDepth)
    {fuel : Nat} {call : BlockCall} (h : s.processNewBlock env fuel call = some s')
    (hs : Settled env s) : Settled env s' ∧ rewindDepth s.tip s'.tip ≤ env.parkReorgDepth := by
  have hself : rewindDepth s.tip s.tip ≤ env.parkReorgDepth :=
    (rewindDepth_le_iff (by omega)).2 (drop_suffix _ _)
  unfold processNewBlock at h
  split at h
  · cases h
    exact ⟨hs, hself⟩
  split at h
  · cases h
  · next ha =>
    cases h
    obtain ⟨hacc, hsame⟩ := acceptBlock_spec ha hs.wf
    refine ⟨⟨hacc.wf, fun c hc => ?_⟩, hacc.tip ▸ hself⟩
    rw [hacc.tip]
    exact hs.cand c (hsame rfl ▸ hc)
  · next s1 ha =>
    obtain ⟨hacc, -⟩ := acceptBlock_spec ha hs.wf
    -- the old candidate is the tip, and a new one was accepted at this tip
    have hcand : ∀ c ∈ s1.setBlockIndexCandidates, s.tip.drop env.parkReorgDepth.toNat <:+ c := by
      intro c hc
      rcases hacc.cand c hc with hc | ⟨hbc, hle⟩
      · rw [hs.cand c hc]
        exact drop_suffix _ _
      · exact ((rewindDepth_le_iff (by omega)).1 (hle hon)).trans hbc
    have hsel : Selecting env (s.tip.drop env.parkReorgDepth.toNat) (fun _ _ => False) s1 [] :=
      ⟨hacc.wf, hacc.tip ▸ drop_suffix _ _, hcand, fun hn => absurd rfl hn, fun hn => absurd rfl hn⟩
    obtain ⟨hset, hroot⟩ := hsel.activateLoop h
    exact ⟨hset, (rewindDepth_le_iff (by omega)).2 hroot⟩

end Chainstate

/-- **Every call of a run**, whatever it delivers and whatever `ConnectBlock` answers. -/
theorem Settled.call {env : Env} (hon : env.parkDeepReorg) (hd : 1 ≤ env.parkReorgDepth)
    {s s' : Chainstate} (hs : Settled env s) (c : Call) (h : c.run env s = some s') :
    Settled env s' ∧ rewindDepth s.tip s'.tip ≤ env.parkReorgDepth := by
  cases c with
  | headers minPow l =>
    obtain ⟨h1, h2⟩ := Chainstate.processNewBlockHeaders_spec h hs
    refine ⟨h1, (rewindDepth_le_iff (by omega)).2 ?_⟩
    rw [h2]
    exact drop_suffix _ _
  | block fuel call => exact Chainstate.processNewBlock_spec hon hd h hs

theorem Reachable.settled {env : Env} (hon : env.parkDeepReorg)
    (hd : 1 ≤ env.parkReorgDepth) {s : Chainstate} (h : Reachable env s) : Settled env s :=
  h.invariant (Chainstate.fresh_settled env) fun _ c _ hs hc => (hs.call hon hd c hc).1

/-! ## A small network -/

def regtestHeader (nNonce : Nat) : CBlockHeader :=
  { nVersion := 4, hashMerkleRoot := 0, nTime := 0, nBits := 0x207fffff, nNonce }

/-- An injective placement of the entries. -/
def headerAddr (b : BlockPtr) : Nat :=
  Encodable.encode (b.map fun h => (h.nVersion.toNat, h.hashMerkleRoot, h.nTime, h.nBits, h.nNonce))

theorem headerAddr_injective : Function.Injective headerAddr := by
  refine Encodable.encode_injective.comp (map_injective_iff.2 ?_)
  rintro ⟨v, m, t, n, c⟩ ⟨v', m', t', n', c'⟩ h
  simp only [Prod.mk.injEq, BitVec.toNat_inj] at h
  simp [h]

/-- A network where every block connects, with parking at `parkReorgDepth`. -/
def regtestEnv (parkReorgDepth : Int) : Env where
  genesis := regtestHeader 0
  getHash _ := 0
  powLimit := 2 ^ 255 - 1
  minimumChainWork := 0
  segwitHeight := 0
  parkDeepReorg := true
  parkReorgDepth
  addr := headerAddr
  addr_inj := headerAddr_injective
  connectBlock _ _ := .ok
  disconnectBlock _ _ := true

def regtestBranch (nonces : List Nat) : BlockPtr :=
  nonces.map regtestHeader ++ [regtestHeader 0]

def regtestCall (nonces : List Nat) : BlockCall where
  header := regtestBranch nonces
  contextualOk := true
  vtxSize := 1
  forceProcessing := true
  minPowChecked := true
  checkBlock := true
  bodyCheck := .valid
  writeBlock := true

def regtestRun (blocks : List (List Nat)) : Option Chainstate :=
  Runs.runAll (Call.run env) (blocks.map fun nonces => .block 5 (regtestCall nonces))
    (freshChainstate env)

/-! ## Top theorem -/

/-- **No completed call rewinds more than `parkReorgDepth` blocks.** -/
theorem rewindDepth_le_of_call (hon : env.parkDeepReorg)
    (hd : 1 ≤ env.parkReorgDepth) {s s' : Chainstate} (hs : Reachable env s) (c : Call)
    (h : c.run env s = some s') : rewindDepth s.tip s'.tip ≤ env.parkReorgDepth :=
  ((hs.settled hon hd).call hon hd c h).2

/-- Two blocks on a side branch of depth one: the call that delivers the second rewinds one
block. -/
theorem rewindDepth_le_of_call_regtest : ∃ s s' : Chainstate,
    regtestRun (regtestEnv 1) [[1], [2]] = some s ∧
    (Call.block 5 (regtestCall [3, 2])).run (regtestEnv 1) s = some s' ∧
    s.tip = regtestBranch [1] ∧ s'.tip = regtestBranch [3, 2] ∧ rewindDepth s.tip s'.tip ≤ 1 := by
  have htip : (regtestRun (regtestEnv 1) [[1], [2]]).map (·.tip) = some (regtestBranch [1]) := by
    decide
  have htip' : ((regtestRun (regtestEnv 1) [[1], [2]]).bind fun s =>
      ((Call.block 5 (regtestCall [3, 2])).run (regtestEnv 1) s).map (·.tip)) =
      some (regtestBranch [3, 2]) := by decide
  obtain ⟨s, h, ht⟩ := Option.map_eq_some_iff.1 htip
  rw [h] at htip'
  obtain ⟨s', hc, ht'⟩ := Option.map_eq_some_iff.1 htip'
  refine ⟨s, s', h, hc, ht, ht', ?_⟩
  exact rewindDepth_le_of_call (regtestEnv 1) rfl (by decide) (Runs.reach_of_runAll h) _ hc

end BitcoinPurity
