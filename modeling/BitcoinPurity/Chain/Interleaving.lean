import BitcoinPurity.Chain.Parking

/-!
Deep-reorg parking when `ProcessNewBlock` callers interleave.

`cs_main` makes two things atomic: one `AcceptBlock` call, and one outer iteration of the
running `ActivateBestChain`, which keeps its `pindexMostWork` while other callers accept
blocks.  The parking decision looks at the tip of the moment, not at the block the running
call is on its way to, so a branch accepted in between can be deeper than `parkReorgDepth`
once that call is done (`interleaving_disconnects_two`).  A call that meets an invalid block also
disconnects what it has connected itself (`invalidBlock_disconnects_two`).

`disconnected_le_of_iteration`: where every block connects, and an acceptance during a running
call is also judged against that call's starting tip and cached block, no call disconnects more
than `parkReorgDepth` blocks.
-/

namespace BitcoinPurity

open Option

/-- No block that is connected is found invalid or mutated. -/
def Env.NoneFails (env : Env) : Prop :=
  ∀ n b, env.connectBlock n b ≠ .invalid ∧ env.connectBlock n b ≠ .mutated

/-! ## What the functions of chain selection disconnect -/

namespace Chainstate

variable {env : Env} {s s' : Chainstate} {m b : BlockPtr}

theorem removeChain_disconnects (t : BlockPtr) (test : BlockStatus) (b : BlockPtr)
    (s : Chainstate) : (removeChain t test b s).disconnects = s.disconnects := by
  induction b generalizing s with
  | nil => rfl
  | cons x b ih =>
    unfold removeChain
    split
    · rfl
    refine (ih _).trans ?_
    show (markUnusable test s (x :: b)).disconnects = s.disconnects
    unfold markUnusable addUnlinkedBlock
    split_ifs <;> rfl

theorem findMostWorkChain_disconnects (h : s.findMostWorkChain env = some (s', m)) :
    s'.disconnects = s.disconnects :=
  (findMostWorkLoop_induct (P := fun t => t.disconnects = s.disconnects)
    (fun ht _ _ => (removeChain_disconnects ..).trans ht) rfl h).1

theorem connectTip_disconnects (hv : env.NoneFails) {r : ConnectOutcome}
    (h : s.connectTip env b = some (s', r)) : r = .ok ∧ s'.disconnects = s.disconnects := by
  unfold connectTip at h
  split at h
  · cases h
  simp only at h
  split at h
  · cases h
    unfold markConnected
    split <;> exact ⟨rfl, rfl⟩
  · next hr => exact absurd hr (hv _ _).1
  · next hr => exact absurd hr (hv _ _).2
  · cases h

theorem connectBlocks_disconnects (hv : env.NoneFails) {old front : BlockPtr} {l : List BlockPtr}
    {p : Progress} (h : connectBlocks env old front l s = some (s', p)) :
    p ≠ .invalidFound ∧ s'.disconnects = s.disconnects := by
  induction l generalizing s with
  | nil =>
    cases h
    exact ⟨by simp, rfl⟩
  | cons b l ih =>
    unfold connectBlocks at h
    split at h
    · cases h
    · cases h
    · next hs => cases (connectTip_disconnects hv hs).1
    · next hs => cases (connectTip_disconnects hv hs).1
    next s1 hs =>
    obtain ⟨s2, h2, h3⟩ := bind_eq_some_iff.1 h
    have hd : s2.disconnects = s.disconnects := by
      rw [pruneBlockIndexCandidates_eq h2]
      exact (connectTip_disconnects hv hs).2
    grind

/-- **One step towards `m`** disconnects the blocks above the fork. -/
theorem activateBestChainStep_disconnects (hv : env.NoneFails) (ht : s.tip ≠ []) {inv : Bool}
    (h : s.activateBestChainStep env m = some (s', inv)) :
    inv = false ∧
      s'.disconnects + (Branch.meet m s.tip).length = s.disconnects + s.tip.length := by
  obtain ⟨s1, h1, h2⟩ := bind_eq_some_iff.1 h
  rw [findFork_eq_meet] at h1
  -- the loop keeps the sum of the count and the height
  obtain ⟨⟨hne, hsum⟩, hfork⟩ := disconnectTo_induct
    (P := fun t => t.tip ≠ [] ∧ t.disconnects + t.tip.length = s.disconnects + s.tip.length)
    (fun {t t'} ⟨hne, hsum⟩ hd => by
      obtain ⟨-, htip, hne', hcount⟩ := disconnectTip_spec hd
      have := List.length_pos_iff.2 hne
      grind) ⟨ht, rfl⟩ h1
  rw [hfork.resolve_left hne] at hsum
  refine connectLoop_induct (P := fun t inv => inv = false ∧ t.disconnects + _ = _) ?_
    ⟨rfl, hsum⟩ h2
  rintro t t' height b p ⟨-, hcount⟩ hb
  obtain ⟨hp, he⟩ := connectBlocks_disconnects hv hb
  exact ⟨by simpa using hp, he ▸ hcount⟩

end Chainstate

/-! ## The interleaved node -/

/-- A running `ActivateBestChain`: the tip it started from, its `pindexMostWork`, and how many
blocks it has disconnected. -/
structure Activation where
  startTip : BlockPtr
  cached : BlockPtr
  disconnected : Nat
deriving DecidableEq

/-- The chain state, the callers that wait for `m_chainstate_mutex`, and the call that holds it. -/
structure Node where
  chain : Chainstate
  waiting : Nat
  running : Option Activation

/-- The atomic steps. -/
inductive Step
  | accept (call : BlockCall)
  | iterate (fuel : Nat)

namespace Node

def fresh (env : Env) : Node := ⟨freshChainstate env, 0, none⟩

/-- The call that the next iteration belongs to: the running one, or a new one. -/
def activation (n : Node) : Activation := n.running.getD ⟨n.chain.tip, [], 0⟩

/-- The blocks that this call has disconnected when the iteration ends with `s`. -/
def disconnectedAfter (n : Node) (s : Chainstate) : Nat :=
  n.activation.disconnected + (s.disconnects - n.chain.disconnects)

/-- A step; an iteration needs a running call or a waiting caller. -/
def step (env : Env) : Step → Node → Option Node
  | .accept call, n => (n.chain.acceptBlock env call).map fun (s, accepted) =>
      { n with chain := s, waiting := n.waiting + accepted.toNat }
  | .iterate fuel, n =>
    if n.running = none ∧ n.waiting = 0 then none
    else
      (n.chain.activateIteration env fuel n.activation.cached).map fun (s, cached, done) =>
        { chain := s
          waiting := if n.running = none then n.waiting - 1 else n.waiting
          running := if done then none
            else some { n.activation with cached, disconnected := n.disconnectedAfter s } }

/-- A body that is not parked is also no deeper than `parkReorgDepth` for the running call:
seen from the tip it started at, and from the block it is on its way to. -/
def timely (env : Env) (n : Node) : Step → Bool
  | .iterate _ => true
  | .accept call =>
    match n.running with
    | none => true
    | some a =>
      decide (rewindDepth n.chain.tip call.header > env.parkReorgDepth) ||
        decide (rewindDepth a.startTip call.header ≤ env.parkReorgDepth) &&
          (decide (a.cached = []) || decide (rewindDepth a.cached call.header ≤ env.parkReorgDepth))

/-- A step of a run in which every acceptance is timely. -/
def timelyStep (env : Env) (st : Step) (n : Node) : Option Node :=
  if n.timely env st then n.step env st else none

/-! ## What one step can do -/

variable {env : Env} {n n' : Node}

theorem step_accept {call : BlockCall} (h : n.step env (.accept call) = some n') :
    ∃ s r, n.chain.acceptBlock env call = some (s, r) ∧ n'.chain = s ∧ n'.running = n.running := by
  obtain ⟨⟨s, r⟩, h1, rfl⟩ := map_eq_some_iff.1 h
  exact ⟨s, r, h1, rfl, rfl⟩

theorem step_iterate {fuel : Nat} (h : n.step env (.iterate fuel) = some n') :
    ∃ m done, n.chain.activateIteration env fuel n.activation.cached = some (n'.chain, m, done) ∧
      n'.running = if done then none
        else some ⟨n.activation.startTip, m, n.disconnectedAfter n'.chain⟩ := by
  simp only [step] at h
  split at h
  · cases h
  obtain ⟨⟨s, m, done⟩, h1, rfl⟩ := map_eq_some_iff.1 h
  exact ⟨m, done, h1, rfl⟩

/-! ## The invariant -/

/-- `c` keeps the `d`-th ancestor of `a`. -/
def Near (env : Env) (a c : BlockPtr) : Prop := a.drop env.parkReorgDepth.toNat <:+ c

/-- Where a call is that started at `start`: it has not moved yet, or it is on its way from the
fork up to the cached block and has disconnected what was above the fork. -/
def OnWay (start tip cached : BlockPtr) (disconnected : Nat) : Prop :=
  tip = start ∧ disconnected = 0 ∨
  cached ≠ [] ∧ tip <:+ cached ∧ Branch.meet cached start <:+ tip ∧
    disconnected + (Branch.meet cached start).length = start.length

/-- While no call runs, every candidate is near the tip; while one runs, everything is near its
starting tip, and the candidates above the cached block are near that block. -/
def Inv (env : Env) (n : Node) : Prop :=
  match n.running with
  | none => n.chain.Wf env ∧ ∀ c ∈ n.chain.setBlockIndexCandidates, Near env n.chain.tip c
  | some a =>
    n.chain.Selecting env (a.startTip.drop env.parkReorgDepth.toNat) (Near env) a.cached ∧
      OnWay a.startTip n.chain.tip a.cached a.disconnected

theorem inv_fresh (env : Env) : Inv env (fresh env) := by
  refine ⟨(Chainstate.fresh_settled env).wf, fun c hc => ?_⟩
  rw [(Chainstate.fresh_settled env).cand c hc]
  exact List.drop_suffix _ _

theorem Inv.activation (h : Inv env n) :
    n.chain.Selecting env (n.activation.startTip.drop env.parkReorgDepth.toNat) (Near env)
      n.activation.cached ∧
    OnWay n.activation.startTip n.chain.tip n.activation.cached n.activation.disconnected := by
  unfold Inv at h
  unfold Node.activation
  cases hr : n.running with
  | some a =>
    rw [hr] at h
    exact h
  | none =>
    rw [hr] at h
    -- a call that starts now has no cached block
    exact ⟨⟨h.1, List.drop_suffix _ _, h.2, fun hn => absurd rfl hn, fun hn => absurd rfl hn⟩,
      .inl ⟨rfl, rfl⟩⟩

theorem near_of_rewindDepth (hd : 1 ≤ env.parkReorgDepth) {a b c : BlockPtr}
    (h : rewindDepth a b ≤ env.parkReorgDepth) (hbc : b <:+ c) : Near env a c :=
  ((rewindDepth_le_iff (by omega)).1 h).trans hbc

theorem Inv.accept (hon : env.parkDeepReorg) (hd : 1 ≤ env.parkReorgDepth) {call : BlockCall}
    (h : Inv env n) (ht : n.timely env (.accept call))
    (hs : n.step env (.accept call) = some n') : Inv env n' := by
  obtain ⟨s, r, ha, rfl, hrun⟩ := step_accept hs
  unfold Inv at h ⊢
  rw [hrun]
  cases hr : n.running with
  | none =>
    rw [hr] at h
    obtain ⟨hw, hc⟩ := h
    obtain ⟨hacc, -⟩ := Chainstate.acceptBlock_spec ha hw
    refine ⟨hacc.wf, fun c hcc => ?_⟩
    rw [hacc.tip]
    rcases hacc.cand c hcc with hcc | ⟨hbc, hle⟩
    · exact hc c hcc
    · exact near_of_rewindDepth hd (hle hon) hbc
  | some a =>
    rw [hr] at h
    obtain ⟨h, hway⟩ := h
    obtain ⟨hacc, -⟩ := Chainstate.acceptBlock_spec ha h.wf
    -- a body that makes a candidate is not parked, so the two further bounds hold
    have htimely : rewindDepth n.chain.tip call.header ≤ env.parkReorgDepth →
        rewindDepth a.startTip call.header ≤ env.parkReorgDepth ∧
          (a.cached ≠ [] → rewindDepth a.cached call.header ≤ env.parkReorgDepth) := by
      intro hle
      simp only [timely, hr, Bool.or_eq_true, Bool.and_eq_true, decide_eq_true_eq] at ht
      grind
    refine ⟨⟨hacc.wf, hacc.tip ▸ h.tip, ?_, ?_, ?_⟩, hacc.tip ▸ hway⟩
    · intro c hc
      rcases hacc.cand c hc with hc | ⟨hbc, hle⟩
      · exact h.cand c hc
      · exact near_of_rewindDepth hd (htimely (hle hon)).1 hbc
    · intro hne
      obtain ⟨h1, h2, h3⟩ := h.cached_root hne
      exact ⟨h1, h2, hacc.haveBranch _ h3⟩
    · intro hne c hc hlt
      rcases hacc.cand c hc with hc | ⟨hbc, hle⟩
      · refine h.cached_above hne c hc ?_
        rw [← hacc.order _ _ hne (h.cached_root hne).2.2 (h.wf.cand_rooted c hc).ne_nil
          (h.wf.cand_data c hc)]
        exact hlt
      · exact near_of_rewindDepth hd ((htimely (hle hon)).2 hne) hbc

section

open Chainstate

variable {root start : BlockPtr} {Above : BlockPtr → BlockPtr → Prop} {s s' : Chainstate}
  {m m' : BlockPtr} {k : Nat}

theorem OnWay.activateBestChainStep (hv : env.NoneFails) (hsel : Selecting env root Above s m)
    {inv : Bool} (hs : s.activateBestChainStep env m = some (s', inv)) (hm : m ≠ [])
    (h : OnWay start s.tip m k) :
    OnWay start s'.tip (if inv then [] else m) (k + (s'.disconnects - s.disconnects)) ∧
      s.disconnects ≤ s'.disconnects := by
  obtain ⟨rfl, hcount⟩ := activateBestChainStep_disconnects hv hsel.wf.tip_rooted.ne_nil hs
  obtain ⟨-, hfork, htm, -⟩ := activateBestChainStep_spec hs hsel.wf.tip_rooted hsel.wf.cand_above
  have hle := (Branch.meet_suffix_right m s.tip).length_le
  show OnWay start s'.tip m _ ∧ _
  refine ⟨.inr ⟨hm, htm, ?_⟩, by omega⟩
  rcases h with ⟨rfl, rfl⟩ | ⟨-, hon, hup, hlen⟩
  · exact ⟨hfork, by omega⟩
  · -- the tip is already below `m`
    rw [Branch.meet_comm, Branch.meet_eq_left hon] at hfork hcount
    exact ⟨hup.trans hfork, by omega⟩

theorem OnWay.activateIteration (hv : env.NoneFails) {fuel : Nat} {done : Bool}
    (hsel : Selecting env root Above s m) (h : OnWay start s.tip m k)
    (hi : activateIteration env fuel s m = some (s', m', done)) :
    OnWay start s'.tip m' (k + (s'.disconnects - s.disconnects)) := by
  refine (activateIteration_induct (P := fun t c => Selecting env root Above t c ∧
    OnWay start t.tip c (k + (t.disconnects - s.disconnects)) ∧ s.disconnects ≤ t.disconnects)
    ?_ ?_ ⟨hsel, by simpa using h, le_rfl⟩ hi).1.2.1
  · rintro t t' c ⟨hsel, hway, hle⟩ hf
    obtain ⟨hsel', ht, -⟩ := hsel.findMostWorkChain hf
    rw [findMostWorkChain_disconnects hf, ht]
    exact ⟨hsel', .inl (hway.resolve_right fun hw => hw.1 rfl), hle⟩
  · rintro t t' c inv ⟨hsel, hway, hle⟩ hm hs
    obtain ⟨hway', hle'⟩ := hway.activateBestChainStep hv hsel hs hm
    refine ⟨hsel.step hm hs, ?_, hle.trans hle'⟩
    grind

end

theorem Inv.iterate (hv : env.NoneFails) (hd : 1 ≤ env.parkReorgDepth) {fuel : Nat}
    (h : Inv env n) (hs : n.step env (.iterate fuel) = some n') :
    Inv env n' ∧ (n.disconnectedAfter n'.chain : Int) ≤ env.parkReorgDepth := by
  obtain ⟨m, done, hi, hrun⟩ := step_iterate hs
  obtain ⟨hsel0, hway0⟩ := h.activation
  obtain ⟨hsel, hend⟩ := hsel0.activateIteration hi
  have hway : OnWay n.activation.startTip n'.chain.tip m (n.disconnectedAfter n'.chain) :=
    hway0.activateIteration hv hsel0 hi
  constructor
  rotate_left
  · rcases hway with ⟨-, h0⟩ | ⟨hm, -, -, hlen⟩
    · omega
    · have := (Branch.suffix_meet (hsel.cached_root hm).1 (List.drop_suffix _ _)).length_le
      rw [List.length_drop] at this
      omega
  unfold Inv
  rw [hrun]
  cases done with
  | true =>
    refine ⟨hsel.wf, fun c hc => ?_⟩
    rcases hend rfl with rfl | ⟨-, hnil⟩
    · rcases trichotomous_of (fun a b => n'.chain.workLess env a b) c n'.chain.tip with h1 | h1 | h1
      · simp [hsel.wf.cand_above c hc] at h1
      · rw [h1]
        exact List.drop_suffix _ _
      · exact hsel.cached_above hsel.wf.tip_rooted.ne_nil c hc h1
    · simp [hnil] at hc
  | false => exact ⟨hsel, hway⟩

theorem Inv.timelyStep (hv : env.NoneFails) (hon : env.parkDeepReorg)
    (hd : 1 ≤ env.parkReorgDepth) {st : Step} (h : Inv env n)
    (hs : n.timelyStep env st = some n') : Inv env n' := by
  unfold Node.timelyStep at hs
  split at hs
  · next ht =>
    cases st with
    | accept call => exact h.accept hon hd ht hs
    | iterate fuel => exact (h.iterate hv hd hs).1
  · cases hs

end Node

/-! ## Top theorems -/

/-- **In a run of timely steps without invalid blocks no `ActivateBestChain` call disconnects
more than `parkReorgDepth` blocks**, after any number of its iterations. -/
theorem disconnected_le_of_iteration (env : Env) (hon : env.parkDeepReorg)
    (hd : 1 ≤ env.parkReorgDepth) (hv : env.NoneFails) {n n' : Node}
    (hn : Runs.Reach (fun st n => n.timelyStep env st) (Node.fresh env) n) (fuel : Nat)
    (h : n.step env (.iterate fuel) = some n') :
    (n.disconnectedAfter n'.chain : Int) ≤ env.parkReorgDepth := by
  have hinv : n.Inv env :=
    hn.invariant (Node.inv_fresh env) fun _ _ _ hi hs => hi.timelyStep hv hon hd hs
  exact (hinv.iterate hv hd h).2

/-- The tip a call starts at, the tip after an iteration of it, and what it has disconnected. -/
def iteration (env : Env) (n : Node) : Option (BlockPtr × BlockPtr × Nat) :=
  (n.step env (.iterate 5)).map fun n' =>
    (n.activation.startTip, n'.chain.tip, n.disconnectedAfter n'.chain)

theorem iteration_of_run {env : Env} {run : Option Node} {t t' : BlockPtr} {k : Nat}
    (h : run.bind (iteration env) = some (t, t', k)) :
    ∃ n n', run = some n ∧ n.step env (.iterate 5) = some n' ∧ n.activation.startTip = t ∧
      n'.chain.tip = t' ∧ n.disconnectedAfter n'.chain = k := by
  obtain ⟨n, rfl, h⟩ := bind_eq_some_iff.1 h
  obtain ⟨n', hs, h'⟩ := map_eq_some_iff.1 h
  simp only [Prod.mk.injEq] at h'
  exact ⟨n, n', rfl, hs, h'⟩

/-- Bodies of a side branch delivered while a call is half way to `[2, 1]`. -/
def lateBranch : List Step :=
  [.accept (regtestCall [1]), .accept (regtestCall [2, 1]), .iterate 5,
    .accept (regtestCall [3]), .accept (regtestCall [4, 3]), .accept (regtestCall [5, 4, 3]),
    .iterate 5]

/-- A depth of two allows the late branch, and the call that follows disconnects two blocks. -/
theorem disconnected_le_of_iteration_regtest : ∃ n n' : Node,
    Runs.runAll (fun st n => n.timelyStep (regtestEnv 2) st) lateBranch (Node.fresh (regtestEnv 2)) =
      some n ∧
    n.step (regtestEnv 2) (.iterate 5) = some n' ∧
    n.activation.startTip = regtestBranch [2, 1] ∧ n'.chain.tip = regtestBranch [5, 4, 3] ∧
    (n.disconnectedAfter n'.chain : Int) ≤ 2 := by
  refine (iteration_of_run (by decide : _ = some (_, _, 2))).imp fun n ⟨n', h, hs, ht, ht', _⟩ =>
    ⟨n', h, hs, ht, ht', ?_⟩
  exact disconnected_le_of_iteration (regtestEnv 2) rfl (by decide)
    (by simp [Env.NoneFails, regtestEnv]) (Runs.reach_of_runAll h) 5 hs

/-- **With depth one the same branch is not parked**: each body rewinds one block when it is
accepted, but the running call then reaches `[2, 1]`, and the next call disconnects two. -/
theorem interleaving_disconnects_two : ∃ n n' : Node,
    Runs.runAll (fun st n => n.step (regtestEnv 1) st) lateBranch (Node.fresh (regtestEnv 1)) =
      some n ∧
    n.step (regtestEnv 1) (.iterate 5) = some n' ∧
    n.activation.startTip = regtestBranch [2, 1] ∧ n'.chain.tip = regtestBranch [5, 4, 3] ∧
    n.disconnectedAfter n'.chain = 2 ∧ (regtestEnv 1).parkReorgDepth = 1 :=
  (iteration_of_run (by decide)).imp fun _ ⟨n', h, hs, ht, ht', hk⟩ =>
    ⟨n', h, hs, ht, ht', hk, rfl⟩

/-- A network where block `[3, 2, 1]` turns out to be invalid. -/
def failingEnv : Env :=
  { regtestEnv 1 with
    connectBlock := fun _ b => if b = regtestBranch [3, 2, 1] then .invalid else .ok }

/-- **An invalid block**: all bodies are accepted while no call runs.  The call connects `[2, 1]`,
finds `[3, 2, 1]` invalid, and disconnects the two blocks for the other branch. -/
theorem invalidBlock_disconnects_two : ∃ n n' : Node,
    Runs.runAll (fun st n => n.timelyStep failingEnv st)
      [.accept (regtestCall [1]), .accept (regtestCall [2, 1]), .accept (regtestCall [3, 2, 1]),
        .accept (regtestCall [4]), .accept (regtestCall [5, 4]), .accept (regtestCall [6, 5, 4]),
        .iterate 5, .iterate 5, .iterate 5] (Node.fresh failingEnv) = some n ∧
    n.step failingEnv (.iterate 5) = some n' ∧
    n.activation.startTip = regtestBranch [] ∧ n'.chain.tip = regtestBranch [6, 5, 4] ∧
    n.disconnectedAfter n'.chain = 2 :=
  iteration_of_run (by decide)

end BitcoinPurity
