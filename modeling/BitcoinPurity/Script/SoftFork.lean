import BitcoinPurity.Script.Verify

/-!
# Script verification flags are soft forks

`interpreter.h` says of the `SCRIPT_VERIFY_*` flags that the scripts acceptable under `A | B`
are acceptable under `A`.  The proof compares the run under a flag set `G` with the run under a
subset `F` of it, function by function: in the order `Tightens`, the run under `G` fails more
often and otherwise computes the same state.  `evalScript_tightens` is the simulation over the
whole instruction set, `verifyWitnessProgram_tightens` adds the witness paths, and
`verifyScript_mono` is the whole.  Only in `verifyPrograms` do the two runs part: without the
witness or the P2SH flag, `F` skips a part that `G` executes, and it must not then apply the clean
stack rule to the stack it has.  That is what `CoherentFlags` is for.
-/

namespace BitcoinPurity

open Tighten

/-! ## Flag sets -/

/-- Every bit of `F` is a bit of `G`. -/
def FlagsSubset (F G : ScriptFlags) : Prop := F &&& G = F

/-- The combinations of flags that `VerifyScript` asserts. -/
structure CoherentFlags (flags : ScriptFlags) : Prop where
  witness : hasFlag flags scriptVerifyWitness → hasFlag flags scriptVerifyP2SH
  cleanStack : hasFlag flags scriptVerifyCleanStack →
    hasFlag flags scriptVerifyP2SH ∧ hasFlag flags scriptVerifyWitness

theorem hasFlag_mask {flags m f : ScriptFlags} (h : m &&& f = f) :
    hasFlag (flags &&& m) f = hasFlag flags f := by
  unfold hasFlag
  rw [BitVec.and_assoc, h]

namespace FlagsSubset

variable {F G : ScriptFlags}

theorem has (h : FlagsSubset F G) {f : ScriptFlags} (hf : hasFlag F f) : hasFlag G f := by
  simp only [hasFlag, bne_iff_ne] at hf ⊢
  intro hG
  apply hf
  calc F &&& f = F &&& G &&& f := by rw [h]
    _ = F &&& (G &&& f) := BitVec.and_assoc ..
    _ = 0 := by rw [hG]; simp

theorem mask (h : FlagsSubset F G) (m : ScriptFlags) : FlagsSubset (F &&& m) (G &&& m) := by
  calc F &&& m &&& (G &&& m) = F &&& G &&& (m &&& m) := by ac_rfl
    _ = F &&& m := by rw [h, BitVec.and_self]

theorem of_mask (F m : ScriptFlags) : FlagsSubset (F &&& m) F := by
  calc F &&& m &&& F = F &&& F &&& m := by ac_rfl
    _ = F &&& m := by rw [BitVec.and_self]

theorem maxElementSize_le (h : FlagsSubset F G) : maxElementSize G ≤ maxElementSize F := by
  unfold maxElementSize
  by_cases hF : hasFlag F scriptVerifyReducedData
  · simp [hF, h.has hF]
  · split <;> decide

theorem maxControlSize_le (h : FlagsSubset F G) : maxControlSize G ≤ maxControlSize F := by
  unfold maxControlSize
  by_cases hF : hasFlag F scriptVerifyReducedData
  · simp [hF, h.has hF]
  · split <;> decide

theorem rejectIf (h : FlagsSubset F G) {f : ScriptFlags} {bad : Bool} {e : ScriptError} :
    Tightens (rejectIf G f bad e) (rejectIf F f bad e) := by
  refine .guard fun hF => ?_
  rw [Bool.and_eq_true] at hF ⊢
  exact ⟨h.has hF.1, hF.2⟩

theorem limit {n a b : Nat} {e : ScriptError} (h : a ≤ b) :
    Tightens (errorIf (decide (n > a)) e) (errorIf (decide (n > b)) e) := by
  refine .guard fun hb => ?_
  rw [decide_eq_true_eq] at hb ⊢
  omega

theorem onlyUnder (h : FlagsSubset F G) (f : ScriptFlags) {x y : Result Unit} (hxy : Tightens x y) :
    Tightens (if hasFlag G f then x else .ok ()) (if hasFlag F f then y else .ok ()) := by
  by_cases hF : hasFlag F f
  · simpa [hF, h.has hF] using hxy
  · rw [if_neg hF]
    exact .added

end FlagsSubset

/-- The run under the larger flag set is the tighter one. -/
abbrev FlagsSubset.Tightens {F G : ScriptFlags} (_ : FlagsSubset F G) {α : Type}
    (run : ScriptFlags → Result α) : Prop :=
  Tighten.Tightens (run G) (run F)

/-! ## Signatures and numbers -/

section

variable {F G : ScriptFlags} (h : FlagsSubset F G)

theorem scriptNum_tightens {vch : Bytes} {n : Nat} :
    h.Tightens fun G => scriptNum (requireMinimal G) vch n :=
  .bind (.refl _) fun _ => .bind h.rejectIf fun _ => .refl _

theorem lockTimeOperand_tightens {vch : Bytes} : h.Tightens (lockTimeOperand · vch) :=
  .bind (scriptNum_tightens h) fun _ => .refl _

variable {crypto : Crypto} {checker : BaseSignatureChecker} {sigversion : SigVersion}
  {sig pubkey data program : Bytes} {scriptCode pc script scriptSig scriptPubKey : CScript}
  {sigs keys st stack stackCopy witness : List Bytes} {execdata : ScriptExecutionData}
  {s : EvalState} {i ikey2 nKeysCount nSigsCount fuel witversion : Nat} {opcode : UInt8}
  {verify fSuccess fExec notIf roll isP2SH : Bool}

theorem checkSignatureEncoding_tightens : h.Tightens (checkSignatureEncoding crypto · sig) := by
  refine .ite (fun _ => .refl _) fun _ => ?_
  refine .bind h.rejectIf fun _ => ?_
  exact .bind (h.onlyUnder _ (.refl _)) fun _ => h.rejectIf

theorem checkPubKeyEncoding_tightens : h.Tightens (checkPubKeyEncoding · sigversion pubkey) :=
  .bind h.rejectIf fun _ => h.rejectIf

theorem dropSignature_tightens : h.Tightens (dropSignature · sigversion sig scriptCode) :=
  .ite (fun _ => .bind h.rejectIf fun _ => .refl _) fun _ => .refl _

theorem evalChecksigPreTapscript_tightens :
    h.Tightens (evalChecksigPreTapscript crypto checker · sigversion sig pubkey scriptCode) := by
  refine .bind (dropSignature_tightens h) fun _ => ?_
  refine .bind (checkSignatureEncoding_tightens h) fun _ => ?_
  refine .bind (checkPubKeyEncoding_tightens h) fun _ => ?_
  exact .bind h.rejectIf fun _ => .refl _

theorem evalChecksigTapscript_tightens :
    h.Tightens (evalChecksigTapscript checker · sig pubkey execdata) := by
  refine .bind (.refl _) fun _ => ?_
  refine .ite (fun _ => .refl _) fun _ => .ite (fun _ => .refl _) fun _ => ?_
  exact .bind h.rejectIf fun _ => .refl _

theorem evalChecksig_tightens :
    h.Tightens (evalChecksig crypto checker · sigversion sig pubkey s) := by
  cases sigversion with
  | base | witnessV0 => exact .bind (evalChecksigPreTapscript_tightens h) fun _ => .refl _
  | taproot => exact .refl _
  | tapscript => exact evalChecksigTapscript_tightens h

/-! ## Multisig -/

theorem dropSignatures_tightens : h.Tightens (dropSignatures · sigversion sigs scriptCode) := by
  induction sigs generalizing scriptCode with
  | nil => exact .refl _
  | cons sig sigs ih => exact .bind (dropSignature_tightens h) fun _ => ih

theorem checkMultiSigLoop_tightens :
    h.Tightens (checkMultiSigLoop crypto checker · sigversion scriptCode sigs keys) := by
  -- every pass uses up one key
  induction keys generalizing sigs with
  | nil => cases sigs <;> exact .refl _
  | cons pubkey keys ih =>
    cases sigs with
    | nil => exact .refl _
    | cons sig sigs =>
      refine .bind (checkSignatureEncoding_tightens h) fun _ => ?_
      refine .bind (checkPubKeyEncoding_tightens h) fun _ => ?_
      exact .ite (fun _ => .refl _) fun _ => ih

theorem popMultiSigArguments_tightens :
    h.Tightens (popMultiSigArguments · fSuccess i ikey2 st) := by
  induction i generalizing ikey2 st with
  | zero => exact .refl _
  | succ i ih =>
    cases st with
    | nil => exact .refl _
    | cons x st => exact .bind h.rejectIf fun _ => ih

theorem evalMultiSigArguments_tightens :
    h.Tightens (evalMultiSigArguments crypto checker · sigversion nKeysCount nSigsCount s) := by
  refine .bind (.refl _) fun _ => ?_
  refine .bind (dropSignatures_tightens h) fun scriptCode => ?_
  exact checkMultiSigLoop_tightens h

theorem finishMultiSig_tightens :
    h.Tightens (finishMultiSig · verify fSuccess nKeysCount nSigsCount st) := by
  refine .bind (popMultiSigArguments_tightens h) fun st => ?_
  cases st with
  | nil => exact .refl _
  | cons dummy st => exact .bind h.rejectIf fun _ => .refl _

theorem evalCheckMultiSig_tightens :
    h.Tightens (evalCheckMultiSig crypto checker · sigversion verify s) := by
  refine .ite (fun _ => .refl _) fun _ => ?_
  cases hst : s.stack with
  | nil => exact .refl _
  | cons x st =>
    refine .bind (scriptNum_tightens h) fun nKeysCount => ?_
    refine .bind (.refl _) fun _ => .bind (.refl _) fun _ => .bind (.refl _) fun _ => ?_
    refine .bind (scriptNum_tightens h) fun nSigsCount => .bind (.refl _) fun _ => ?_
    refine .bind (evalMultiSigArguments_tightens h) fun _ => ?_
    exact .bind (finishMultiSig_tightens h) fun _ => .refl _

/-! ## Instructions -/

theorem evalCheckSig_tightens : h.Tightens (evalCheckSig crypto checker · sigversion verify s) := by
  unfold evalCheckSig
  split
  · exact .bind (evalChecksig_tightens h) fun _ => .refl _
  · exact .refl _

theorem evalCheckSigAdd_tightens : h.Tightens (evalCheckSigAdd crypto checker · sigversion s) := by
  refine .ite (fun _ => .refl _) fun _ => ?_
  split
  · refine .bind (scriptNum_tightens h) fun _ => ?_
    exact .bind (evalChecksig_tightens h) fun _ => .refl _
  · exact .refl _

theorem evalCheckLockTimeVerify_tightens : h.Tightens (evalCheckLockTimeVerify checker · s) := by
  refine h.onlyUnder _ ?_
  cases s.stack with
  | nil => exact .refl _
  | cons x st => exact .bind (lockTimeOperand_tightens h) fun _ => .refl _

theorem evalCheckSequenceVerify_tightens : h.Tightens (evalCheckSequenceVerify checker · s) := by
  refine h.onlyUnder _ ?_
  cases s.stack with
  | nil => exact .refl _
  | cons x st => exact .bind (lockTimeOperand_tightens h) fun _ => .refl _

theorem evalIf_tightens : h.Tightens (evalIf · sigversion fExec notIf s) := by
  refine .ite (fun _ => ?_) fun _ => .refl _
  cases s.stack with
  | nil => exact .refl _
  | cons vch st =>
    refine .bind (.refl _) fun _ => ?_
    exact .bind h.rejectIf fun _ => .bind h.rejectIf fun _ => .refl _

theorem evalPick_tightens : h.Tightens fun G => evalPick (requireMinimal G) roll s := by
  unfold evalPick
  split
  · exact .bind (scriptNum_tightens h) fun _ => .refl _
  · exact .refl _

theorem evalUnary_tightens {op : UnaryOp} :
    h.Tightens fun G => evalUnary (requireMinimal G) op s := by
  unfold evalUnary
  split
  · exact .bind (scriptNum_tightens h) fun _ => .refl _
  · exact .refl _

theorem evalBinary_tightens {op : BinaryOp} :
    h.Tightens fun G => evalBinary (requireMinimal G) op s := by
  unfold evalBinary
  split
  · refine .bind (scriptNum_tightens h) fun _ => ?_
    exact .bind (scriptNum_tightens h) fun _ => .refl _
  · exact .refl _

theorem evalWithin_tightens : h.Tightens fun G => evalWithin (requireMinimal G) s := by
  unfold evalWithin
  split
  · refine .bind (scriptNum_tightens h) fun _ => .bind (scriptNum_tightens h) fun _ => ?_
    exact .bind (scriptNum_tightens h) fun _ => .refl _
  · exact .refl _

/-- **One instruction**, over all cases of the switch. -/
theorem evalOpcode_tightens {op : Opcode} :
    h.Tightens (evalOpcode crypto checker · sigversion fExec op pc s) := by
  cases op with
  | checkLockTimeVerify => exact .bind (evalCheckLockTimeVerify_tightens h) fun _ => .refl _
  | checkSequenceVerify => exact .bind (evalCheckSequenceVerify_tightens h) fun _ => .refl _
  | upgradableNop => exact .bind h.rejectIf fun _ => .refl _
  | ifOp notIf => exact evalIf_tightens h
  | pick roll => exact evalPick_tightens h
  | unary op => exact evalUnary_tightens h
  | binary op => exact evalBinary_tightens h
  | within => exact evalWithin_tightens h
  | checkSig verify => exact evalCheckSig_tightens h
  | checkSigAdd => exact evalCheckSigAdd_tightens h
  | checkMultiSig verify => exact evalCheckMultiSig_tightens h
  -- the other instructions read no flag
  | push | num _ | nop | elseOp | endIf | verify | returnOp | stack _ | equal _ | hash _
  | codeSeparator | disabled | invalid => exact .refl _

/-! ## EvalScript -/

theorem execute_tightens : h.Tightens (execute crypto checker · sigversion opcode data pc s) := by
  refine .ite (fun _ => .bind h.rejectIf fun _ => .refl _) fun _ => ?_
  exact .ite (fun _ => evalOpcode_tightens h) fun _ => .refl _

theorem evalStep_tightens : h.Tightens (evalStep crypto checker · sigversion opcode data pc s) := by
  refine .bind (FlagsSubset.limit h.maxElementSize_le) fun _ => ?_
  refine .bind (.refl _) fun _ => .bind (.refl _) fun _ => .bind h.rejectIf fun _ => ?_
  exact .bind (execute_tightens h) fun _ => .refl _

theorem evalLoop_tightens : h.Tightens (evalLoop crypto checker · sigversion fuel pc s) := by
  induction fuel generalizing pc s with
  | zero => exact .refl _
  | succ fuel ih =>
    cases pc with
    | nil => exact .refl _
    | cons b pc =>
      simp only [evalLoop]
      cases getOp (b :: pc) with
      | none => exact .refl _
      | some r =>
        obtain ⟨opcode, data, pc⟩ := r
        exact .bind (evalStep_tightens h) fun _ => ih

/-- **The simulation of `EvalScript`**: more flags, fewer successes, the same final stack. -/
theorem evalScript_tightens :
    h.Tightens (evalScript crypto checker · sigversion stack script execdata) := by
  refine .bind (.refl _) fun _ => .bind (.refl _) fun _ => ?_
  exact .bind (evalLoop_tightens h) fun _ => .refl _

/-! ## Witness programs -/

theorem limit_any {l : List Bytes} {a b : Nat} {e : ScriptError} (hab : a ≤ b) :
    Tightens (errorIf (l.any fun elem => decide (elem.length > a)) e)
      (errorIf (l.any fun elem => decide (elem.length > b)) e) := by
  refine .guard fun hb => ?_
  simp only [List.any_eq_true, decide_eq_true_eq] at hb ⊢
  obtain ⟨elem, hmem, hlt⟩ := hb
  exact ⟨elem, hmem, by omega⟩

theorem runWitnessScript_tightens :
    h.Tightens (runWitnessScript crypto checker · stack script sigversion execdata) := by
  refine .bind (limit_any h.maxElementSize_le) fun _ => ?_
  exact .bind (evalScript_tightens h) fun _ => .refl _

theorem executeWitnessScript_tightens :
    h.Tightens (executeWitnessScript crypto checker · stack script sigversion execdata) := by
  refine .ite (fun _ => ?_) fun _ => runWitnessScript_tightens h
  cases scanOpSuccess script.length script with
  | badOpcode => exact .refl _
  | found => exact h.rejectIf
  | absent => exact .bind (.refl _) fun _ => runWitnessScript_tightens h

theorem verifyWitnessV0_tightens : h.Tightens (verifyWitnessV0 crypto checker · stack program) := by
  refine .ite (fun _ => ?_) fun _ => .ite (fun _ => ?_) fun _ => .refl _
  · cases stack.getLast? with
    | none => exact .refl _
    | some script => exact .bind (.refl _) fun _ => executeWitnessScript_tightens h
  · exact .bind (.refl _) fun _ => executeWitnessScript_tightens h

theorem verifyTaprootSpend_tightens :
    h.Tightens (verifyTaprootSpend crypto checker · witness stack program execdata) := by
  refine .ite (fun _ => .refl _) fun _ => ?_
  refine .bind (.refl _) fun _ => .bind (FlagsSubset.limit h.maxControlSize_le) fun _ => ?_
  refine .bind (.refl _) fun _ => .bind (.refl _) fun _ => ?_
  exact .ite (fun _ => executeWitnessScript_tightens h) fun _ => h.rejectIf

theorem verifyTaproot_tightens : h.Tightens (verifyTaproot crypto checker · witness program) := by
  refine h.onlyUnder _ ?_
  refine .ite (fun _ => .refl _) fun _ => .ite (fun _ => ?_) fun _ => verifyTaprootSpend_tightens h
  exact .bind h.rejectIf fun _ => verifyTaprootSpend_tightens h

theorem verifyWitnessProgram_tightens :
    h.Tightens (verifyWitnessProgram crypto checker · witness witversion program isP2SH) := by
  refine .ite (fun _ => verifyWitnessV0_tightens h) fun _ => ?_
  refine .ite (fun _ => verifyTaproot_tightens h) fun _ => ?_
  exact .ite (fun _ => .refl _) fun _ => h.rejectIf

/-! ## VerifyScript -/

theorem evalSigAndPubKey_tightens :
    h.Tightens (evalSigAndPubKey crypto checker · scriptSig scriptPubKey) := by
  have hsig : h.Tightens fun G => evalScript crypto checker (if isPayToScriptHash scriptPubKey
      then G &&& ~~~scriptVerifyReducedData else G) .base [] scriptSig {} := by
    split
    · exact evalScript_tightens (h.mask _)
    · exact evalScript_tightens h
  refine .bind hsig fun r => ?_
  exact .bind (evalScript_tightens h) fun _ => .refl _

theorem evalRedeemScript_tightens :
    h.Tightens (evalRedeemScript crypto checker · scriptSig stackCopy) := by
  refine .bind (.refl _) fun _ => ?_
  cases stackCopy with
  | nil => exact .refl _
  | cons pubKey2 stack =>
    refine .bind h.rejectIf fun _ => ?_
    exact .bind (evalScript_tightens h) fun _ => .refl _

/-- Without the witness flag the run under `F` has nothing left to check but the redeem
script, and that only under the P2SH flag. -/
theorem verifyPrograms_tightens_of_not_witness (hF : CoherentFlags F)
    (hw : hasFlag F scriptVerifyWitness = false) :
    h.Tightens (verifyPrograms crypto checker · scriptSig scriptPubKey witness stackCopy stack) := by
  have hc : hasFlag F scriptVerifyCleanStack = false := by
    cases hc : hasFlag F scriptVerifyCleanStack with
    | false => rfl
    | true => simp [(hF.cleanStack hc).2] at hw
  have hleft : ∀ r, checkLeftovers F witness r = .ok () := by
    simp [checkLeftovers, rejectIf, errorIf, hw, hc, bind_eq_ok]
  intro u hu
  obtain ⟨r1, -, hu⟩ := bind_eq_ok.1 hu
  obtain ⟨r2, hp2sh, -⟩ := bind_eq_ok.1 hu
  have hbare : verifyBareWitness crypto checker F scriptSig scriptPubKey witness stack =
      .ok (false, stack) := by
    simp [verifyBareWitness, hw]
  refine bind_eq_ok.2 ⟨_, hbare, ?_⟩
  by_cases hp : hasFlag F scriptVerifyP2SH ∧ isPayToScriptHash scriptPubKey
  · -- the redeem script was evaluated under `G` too
    simp only [verifyPayToScriptHash, h.has hp.1, hp.2] at hp2sh
    obtain ⟨e, he, -⟩ := bind_eq_ok.1 hp2sh
    have he' := evalRedeemScript_tightens h e he
    refine bind_eq_ok.2 ⟨(false, e.2), ?_, hleft _⟩
    simp [verifyPayToScriptHash, verifyP2SHWitness, hp, he', hw, bind_eq_ok]
  · refine bind_eq_ok.2 ⟨(false, stack), ?_, hleft _⟩
    simp [verifyPayToScriptHash, if_neg hp]

theorem verifyPrograms_tightens_of_witness (hF : CoherentFlags F)
    (hw : hasFlag F scriptVerifyWitness) :
    h.Tightens (verifyPrograms crypto checker · scriptSig scriptPubKey witness stackCopy stack) := by
  have hp := hF.witness hw
  refine .bind ?bare fun r => .bind ?p2sh fun r => ?left
  case bare =>
    simp only [verifyBareWitness, hw, h.has hw]
    cases isWitnessProgram scriptPubKey with
    | none => exact .refl _
    | some p =>
      exact .bind (.refl _) fun _ => .bind (verifyWitnessProgram_tightens h) fun _ => .refl _
  case p2sh =>
    simp only [verifyPayToScriptHash, verifyP2SHWitness, hw, h.has hw, hp, h.has hp]
    refine .ite (fun _ => ?_) fun _ => .refl _
    refine .bind (evalRedeemScript_tightens h) fun e => ?_
    cases isWitnessProgram e.1 with
    | none => exact .refl _
    | some p =>
      exact .bind (.refl _) fun _ => .bind (verifyWitnessProgram_tightens h) fun _ => .refl _
  case left =>
    simp only [checkLeftovers, hw, h.has hw, hp, h.has hp, Bool.and_self, Bool.not_true,
      Bool.and_false]
    refine .bind (.refl _) fun _ => .bind h.rejectIf fun _ => ?_
    exact .bind (.refl _) fun _ => h.rejectIf

theorem verifyScript_tightens (scriptSig scriptPubKey : CScript) (witness : Option (List Bytes))
    (hF : CoherentFlags F) :
    h.Tightens (verifyScript crypto checker · scriptSig scriptPubKey witness) := by
  refine .bind h.rejectIf fun _ => ?_
  refine .bind (evalSigAndPubKey_tightens h) fun r => ?_
  cases hw : hasFlag F scriptVerifyWitness with
  | true => exact verifyPrograms_tightens_of_witness h hF hw
  | false => exact verifyPrograms_tightens_of_not_witness h hF hw

end

theorem coherent_of_verifyScript {crypto : Crypto} {checker : BaseSignatureChecker}
    {flags : ScriptFlags} {scriptSig scriptPubKey : CScript} {witness : Option (List Bytes)}
    (h : verifyScript crypto checker flags scriptSig scriptPubKey witness = .ok ()) :
    CoherentFlags flags := by
  simp only [verifyScript, verifyPrograms, checkLeftovers, bind_eq_ok] at h
  obtain ⟨_, -, _, -, _, -, _, -, _, hclean, _, -, _, hwitness, -⟩ := h
  constructor
  · intro hw
    simpa [hw] using hwitness
  · intro hc
    simpa [hc] using hclean

/-! ## Top theorem -/

/-- **Flags are soft forks**: a spend that passes under `G` passes under every coherent subset
of `G`.  No coherence is asked of `G`, since `VerifyScript` asserts it. -/
theorem verifyScript_mono (crypto : Crypto) (checker : BaseSignatureChecker)
    (scriptSig scriptPubKey : CScript) (witness : Option (List Bytes)) (F G : ScriptFlags)
    (h : FlagsSubset F G) (hF : CoherentFlags F)
    (hG : verifyScript crypto checker G scriptSig scriptPubKey witness = .ok ()) :
    verifyScript crypto checker F scriptSig scriptPubKey witness = .ok () :=
  verifyScript_tightens h scriptSig scriptPubKey witness hF () hG

/-- Truncations in place of the hash functions. -/
def sampleCrypto : Crypto where
  ripemd160 b := (b ++ List.replicate 20 0).take 20
  sha1 b := (b ++ List.replicate 20 0).take 20
  sha256 b := (b ++ List.replicate 32 0).take 32
  checkLowS _ := true
  checkTapTweak _ _ _ _ := true

/-- Accepts every signature, and lock times up to 5. -/
def sampleChecker : BaseSignatureChecker where
  checkECDSASignature _ _ _ _ := true
  checkSchnorrSignature _ _ _ execdata := .ok execdata
  checkLockTime n := decide (n ≤ 5)
  checkSequence _ := false

/-- `5 CHECKLOCKTIMEVERIFY DROP <key> CHECKSIG` -/
def lockedRedeemScript : CScript := [0x55, 0xb1, 0x75, 0x02, 0x03, 0xaa, 0xac]

def lockedScriptPubKey : CScript :=
  [opHash160, 0x14] ++ sampleCrypto.hash160 lockedRedeemScript ++ [opEqual]

def lockedScriptSig : CScript := [0x01, 0x30] ++ pushData lockedRedeemScript

/-- A P2SH spend under clean stack, minimal pushes, lock times and reduced data is one under
P2SH alone. -/
theorem verifyScript_mono_locked :
    verifyScript sampleCrypto sampleChecker scriptVerifyP2SH lockedScriptSig lockedScriptPubKey
      none = .ok () :=
  verifyScript_mono sampleCrypto sampleChecker lockedScriptSig lockedScriptPubKey none
    scriptVerifyP2SH
    (scriptVerifyP2SH ||| scriptVerifyWitness ||| scriptVerifyCleanStack |||
      scriptVerifyMinimalData ||| scriptVerifyCheckLockTimeVerify ||| scriptVerifyReducedData)
    (by unfold FlagsSubset; decide +kernel)
    ⟨by decide +kernel, by decide +kernel⟩
    (by rfl)

end BitcoinPurity
