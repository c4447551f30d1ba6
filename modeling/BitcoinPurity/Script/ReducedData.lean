import Mathlib.Data.List.Basic
import BitcoinPurity.Script.SoftFork

/-!
# The data a spend can carry under reduced data

`SCRIPT_VERIFY_REDUCED_DATA` is enforced in five places: the push size check of `EvalScript`, the
stack of a P2SH spend below its redeem script, the witness stack in `ExecuteWitnessScript`, and
the annex and control block checks of a taproot spend.  Together with the flags that discourage
unknown witness programs, unknown leaf versions and `OP_SUCCESSx` they leave no way around
(`verifyScript_reduced`): `evalScript_pushedData` bounds the pushes of every script that is
evaluated, and `evalScript_pushOnly` says that the stack of a push-only script is what it pushed,
so that the check of the P2SH stack is one of the scriptSig's pushes.

The one item the interpreter leaves to the signature checker is the signature of a taproot key
path spend; `GenericTransactionSignatureChecker` takes 64 or 65 bytes
(`genericCheckSchnorrSignature_size`).
-/

namespace BitcoinPurity

open Tighten List

/-! ## Instructions and what they push -/

/-- The instructions of a script, as far as it can be read.  The fuel is the number of bytes
left. -/
def instructionsFrom : Nat → CScript → List (UInt8 × Bytes)
  | 0, _ => []
  | fuel + 1, pc =>
    match getOp pc with
    | none => []
    | some (opcode, data, pc) => (opcode, data) :: instructionsFrom fuel pc

def instructions (script : CScript) : List (UInt8 × Bytes) := instructionsFrom script.length script

/-- The data in each instruction, empty in one that is no data push. -/
def pushedData (script : CScript) : List Bytes := (instructions script).map Prod.snd

def pushedValue (i : UInt8 × Bytes) : Bytes :=
  match Opcode.ofByte i.1 with
  | .num n => serialize n
  | _ => i.2

/-- The redeem script of a P2SH spend: what the last instruction of its scriptSig pushes. -/
def redeemScript (scriptSig : CScript) : Option CScript :=
  ((instructions scriptSig).map pushedValue).getLast?

/-- No item is longer than `MAX_SCRIPT_ELEMENT_SIZE_REDUCED`. -/
def Reduced (items : List Bytes) : Prop := ∀ item ∈ items, item.length ≤ maxScriptElementSizeReduced

theorem getOp_data {opcode : UInt8} {data : Bytes} {pc pc' : CScript}
    (h : getOp pc = some (opcode, data, pc')) (hop : ¬ opcode ≤ opPushData4) : data = [] := by
  cases pc with
  | nil => cases h
  | cons b pc =>
    simp only [getOp] at h
    grind

theorem ofByte_of_le {opcode : UInt8} (h : opcode ≤ opPushData4) :
    Opcode.ofByte opcode = .push := by
  rw [Opcode.ofByte, if_pos h]

theorem length_le_pushedValue {fuel : Nat} {pc : CScript} :
    ∀ i ∈ instructionsFrom fuel pc, i.2.length ≤ (pushedValue i).length := by
  induction fuel generalizing pc with
  | zero => nofun
  | succ fuel ih =>
    intro i hi
    rw [instructionsFrom] at hi
    split at hi
    · cases hi
    next opcode data pc' hop =>
      rcases mem_cons.1 hi with rfl | hi
      · by_cases hle : opcode ≤ opPushData4
        · rw [pushedValue, ofByte_of_le hle]
        · rw [getOp_data hop hle]
          exact Nat.zero_le _
      · exact ih i hi

/-! ## Evaluation -/

section

variable {crypto : Crypto} {checker : BaseSignatureChecker} {flags : ScriptFlags}
  {sigversion : SigVersion}

variable {data : Bytes} {opcode : UInt8} {pc : CScript} {s s' : EvalState}

theorem evalLoop_data {fuel : Nat}
    (h : evalLoop crypto checker flags sigversion fuel pc s = .ok s') :
    ∀ i ∈ instructionsFrom fuel pc, i.2.length ≤ maxElementSize flags := by
  induction fuel generalizing pc s with
  | zero => nofun
  | succ fuel ih =>
    cases pc with
    | nil => nofun
    | cons b pc =>
      intro i hi
      rw [instructionsFrom] at hi
      simp only [evalLoop] at h
      split at hi
      · cases hi
      next opcode data pc' hop =>
        rw [hop] at h
        obtain ⟨s1, hstep, hrest⟩ := bind_eq_ok.1 h
        rcases mem_cons.1 hi with rfl | hi
        · obtain ⟨_, hsize, -⟩ := bind_eq_ok.1 hstep
          simpa [errorIf] using hsize
        · exact ih hrest i hi

variable {script : CScript} {execdata : ScriptExecutionData} {r : List Bytes × ScriptExecutionData}

/-- **A script that is evaluated pushes no more than the flags allow**, in the branches that are not
taken too. -/
theorem evalScript_pushedData {stack : List Bytes}
    (h : evalScript crypto checker flags sigversion stack script execdata = .ok r) :
    ∀ data ∈ pushedData script, data.length ≤ maxElementSize flags := by
  simp only [evalScript, bind_eq_ok] at h
  obtain ⟨_, -, _, -, s, hloop, -⟩ := h
  intro data hdata
  obtain ⟨i, hi, rfl⟩ := mem_map.1 hdata
  exact evalLoop_data hloop i hi

/-! ## Push-only scripts -/

theorem execute_pushOnly (hop : opcode ≤ op16)
    (h : execute crypto checker flags sigversion opcode data pc s = .ok s') :
    s' = if s.vfExec.allTrue then { s with stack := pushedValue (opcode, data) :: s.stack }
      else s := by
  unfold execute at h
  by_cases hexec : s.vfExec.allTrue
  swap
  · have hif : ¬ opIf ≤ opcode := fun hif => absurd (UInt8.le_trans hif hop) (by decide)
    simp only [hexec, hif] at h
    cases h
    rw [if_neg hexec]
  rw [if_pos hexec]
  simp only [hexec] at h
  by_cases hle : opcode ≤ opPushData4
  · simp only [hle] at h
    obtain ⟨_, -, ⟨⟩⟩ := bind_eq_ok.1 h
    rw [pushedValue, ofByte_of_le hle]
  unfold pushedValue
  simp only [Opcode.ofByte, hle] at h ⊢
  by_cases hnum : opcode = 0x4f ∨ op1 ≤ opcode ∧ opcode ≤ op16
  · simp only [hnum] at h ⊢
    cases h
    rfl
  -- what is left of the range is OP_RESERVED
  have hreserved : opcode.toNat = 0x50 := by
    have h1 := UInt8.le_iff_toNat_le.1 hop
    have h2 : ¬ opcode.toNat ≤ opPushData4.toNat := fun h => hle (UInt8.le_iff_toNat_le.2 h)
    have h3 : ¬ opcode.toNat = (0x4f : UInt8).toNat := fun h =>
      hnum (.inl (UInt8.toNat_inj.1 h))
    have h4 : ¬ op1.toNat ≤ opcode.toNat := fun h =>
      hnum (.inr ⟨UInt8.le_iff_toNat_le.2 h, hop⟩)
    simp only [opPushData4, op1, UInt8.reduceToNat] at h2 h3 h4
    omega
  rw [if_neg hnum, hreserved] at h
  cases h

theorem evalStep_pushOnly (hop : opcode ≤ op16)
    (h : evalStep crypto checker flags sigversion opcode data pc s = .ok s') :
    (s.vfExec.allTrue → s'.stack = pushedValue (opcode, data) :: s.stack) ∧
      s'.vfExec = s.vfExec := by
  have hcount : countOp sigversion opcode s = s := by
    have : ¬ opcode > op16 := by simpa using hop
    simp [countOp, this]
  simp only [evalStep, bind_eq_ok] at h
  obtain ⟨_, -, _, -, _, -, _, -, s1, hrun, _, -, ⟨⟩⟩ := h
  rw [hcount] at hrun
  rw [execute_pushOnly hop hrun]
  split
  · exact ⟨fun _ => rfl, rfl⟩
  next hexec => exact ⟨fun h => absurd h hexec, rfl⟩

theorem evalLoop_pushOnly {fuel : Nat} (hpush : isPushOnlyFrom fuel pc) (hexec : s.vfExec.allTrue)
    (h : evalLoop crypto checker flags sigversion fuel pc s = .ok s') :
    s'.stack = ((instructionsFrom fuel pc).map pushedValue).reverse ++ s.stack := by
  induction fuel generalizing pc s with
  | zero =>
    cases h
    rfl
  | succ fuel ih =>
    cases pc with
    | nil =>
      cases h
      rfl
    | cons b pc =>
      rw [isPushOnlyFrom, if_neg (by simp)] at hpush
      simp only [evalLoop] at h
      cases hop : getOp (b :: pc) with
      | none =>
        simp [hop] at hpush
      | some op =>
        simp only [hop] at hpush h
        split at hpush
        · cases hpush
        next hgt =>
        obtain ⟨s1, hstep, hrest⟩ := bind_eq_ok.1 h
        obtain ⟨hstack, hvf⟩ := evalStep_pushOnly (by simpa using hgt) hstep
        rw [ih hpush (by rw [hvf, hexec]) hrest, hstack hexec]
        simp [instructionsFrom, hop]

/-- **The stack of a push-only script** is what it pushed, the last on top. -/
theorem evalScript_pushOnly (hpush : isPushOnly script)
    (h : evalScript crypto checker flags sigversion [] script execdata = .ok r) :
    r.1 = ((instructions script).map pushedValue).reverse := by
  simp only [evalScript, bind_eq_ok] at h
  obtain ⟨_, -, _, -, s, hloop, _, -, ⟨⟩⟩ := h
  rw [evalLoop_pushOnly hpush rfl hloop]
  simp [instructions]

/-! ## Witness programs -/

end

/-- The flags under which the bounds hold: P2SH, witness, taproot and all of
`REDUCED_DATA_MANDATORY_VERIFY_FLAGS`. -/
def reducedDataFlags : ScriptFlags :=
  scriptVerifyP2SH ||| scriptVerifyWitness ||| scriptVerifyTaproot ||| reducedDataMandatoryVerifyFlags

/-- How a spend uses its witness. -/
inductive WitnessKind
  | none | scriptHash | keyHash | taproot | other
  deriving DecidableEq, Repr

def witnessKind (program : Option (Nat × Bytes)) (isP2SH : Bool) : WitnessKind :=
  match program with
  | none => .none
  | some (version, program) =>
    if version = 0 then
      if program.length = 32 then .scriptHash
      else if program.length = 20 then .keyHash
      else .other
    else if version = 1 ∧ program.length = 32 ∧ isP2SH = false then .taproot
    else .other

def spentWitnessKind (scriptSig scriptPubKey : CScript) : WitnessKind :=
  if isPayToScriptHash scriptPubKey then
    witnessKind ((redeemScript scriptSig).bind isWitnessProgram) true
  else witnessKind (isWitnessProgram scriptPubKey) false

/-- The bounds on a witness: every item is short but a P2WSH script, a leaf script and its control
block, which has at most seven nodes and the leaf version `0xc0`; what is executed pushes only
short items; a taproot spend has no annex. -/
def WitnessReduced : WitnessKind → List Bytes → Prop
  | .none, witness => witness = []
  | .other, witness => witness = []
  | .keyHash, witness => Reduced witness
  | .scriptHash, witness =>
    ∃ items script, witness = items ++ [script] ∧ Reduced items ∧ Reduced (pushedData script)
  | .taproot, witness =>
    hasAnnex witness = false ∧
      ((∃ sig, witness = [sig] ∧ sig.length ≤ maxScriptElementSizeReduced) ∨
        ∃ items script control, witness = items ++ [script, control] ∧ Reduced items ∧
          Reduced (pushedData script) ∧ control.length ≤ 33 + 7 * 32 ∧
          control.getD 0 0 &&& 0xfe = 0xc0)

section

variable {crypto : Crypto} {checker : BaseSignatureChecker} {flags : ScriptFlags}
  (hflags : FlagsSubset reducedDataFlags flags)
include hflags

theorem maxElementSize_reduced : maxElementSize flags = maxScriptElementSizeReduced := by
  rw [maxElementSize, if_pos (hflags.has (by decide))]

theorem rejectIf_ne_ok {f : ScriptFlags} (hf : hasFlag reducedDataFlags f) (e : ScriptError) :
    rejectIf flags f true e ≠ .ok () := by
  rw [rejectIf, hflags.has hf]
  intro h
  cases h

variable {execdata : ScriptExecutionData} {script scriptSig : CScript} {sigversion : SigVersion}
  {stack witness : List Bytes} {isP2SH : Bool} {program : Bytes} {r : Bool × List Bytes}

theorem runWitnessScript_reduced
    (h : runWitnessScript crypto checker flags stack script sigversion execdata = .ok ()) :
    Reduced stack ∧ Reduced (pushedData script) := by
  obtain ⟨_, hstack, h⟩ := bind_eq_ok.1 h
  obtain ⟨r, heval, -⟩ := bind_eq_ok.1 h
  have hpushed := evalScript_pushedData heval
  rw [maxElementSize_reduced hflags] at hpushed hstack
  refine ⟨?_, hpushed⟩
  simpa [errorIf, Reduced] using hstack

theorem executeWitnessScript_reduced
    (h : executeWitnessScript crypto checker flags stack script sigversion execdata = .ok ()) :
    Reduced stack ∧ Reduced (pushedData script) := by
  unfold executeWitnessScript at h
  split at h
  · split at h
    · cases h
    · exact absurd h (rejectIf_ne_ok hflags (by decide) _)
    · obtain ⟨_, -, h⟩ := bind_eq_ok.1 h
      exact runWitnessScript_reduced hflags h
  · exact runWitnessScript_reduced hflags h

theorem verifyWitnessV0_reduced
    (h : verifyWitnessV0 crypto checker flags witness program = .ok ()) :
    WitnessReduced (witnessKind (some (0, program)) isP2SH) witness := by
  unfold verifyWitnessV0 at h
  simp only [witnessKind]
  split at h
  next h32 =>
    rw [if_pos h32]
    split at h
    · cases h
    next script hlast =>
      obtain ⟨_, -, h⟩ := bind_eq_ok.1 h
      obtain ⟨hitems, hpushed⟩ := executeWitnessScript_reduced hflags h
      have hsplit := dropLast_append_getLast? script hlast
      exact ⟨witness.dropLast, script, hsplit.symm, hitems, hpushed⟩
  next h32 =>
    rw [if_neg h32]
    split at h
    next h20 =>
      rw [if_pos h20]
      obtain ⟨_, -, h⟩ := bind_eq_ok.1 h
      exact (executeWitnessScript_reduced hflags h).1
    next => cases h

/-- Only signatures of at most `MAX_SCRIPT_ELEMENT_SIZE_REDUCED` bytes pass the Schnorr check of a
key path spend. -/
def ShortSchnorr (checker : BaseSignatureChecker) : Prop :=
  ∀ sig pubkey execdata r, checker.checkSchnorrSignature sig pubkey .taproot execdata = .ok r →
    sig.length ≤ maxScriptElementSizeReduced

/-- `GenericTransactionSignatureChecker::CheckSchnorrSignature`, over the signature hash of the
transaction and the signature verification. -/
def genericCheckSchnorrSignature (requireSighashAll : Bool)
    (signatureHashSchnorr : ScriptExecutionData → UInt8 → SigVersion →
      Option (Bytes × ScriptExecutionData))
    (verifySchnorrSignature : (sig pubkey sighash : Bytes) → Bool)
    (sig pubkey : Bytes) (sigversion : SigVersion) (execdata : ScriptExecutionData) :
    Result ScriptExecutionData := do
  failIf (!(sigversion == .taproot || sigversion == .tapscript)) .abort
  failIf (pubkey.length != 32) .abort
  errorIf (sig.length != 64 && sig.length != 65) .schnorrSigSize
  let hashtype := if sig.length = 65 then sig.getLastD 0 else 0
  errorIf (sig.length == 65 && requireSighashAll && hashtype != 1) .sigHashType
  errorIf (sig.length == 65 && hashtype == 0) .schnorrSigHashType
  match signatureHashSchnorr execdata hashtype sigversion with
  | none => setError .schnorrSigHashType
  | some (sighash, execdata) => do
    errorIf (!verifySchnorrSignature (sig.take 64) pubkey sighash) .schnorrSig
    .ok execdata

variable {requireSighashAll : Bool}
  {signatureHashSchnorr :
    ScriptExecutionData → UInt8 → SigVersion → Option (Bytes × ScriptExecutionData)}
  {verifySchnorrSignature : (sig pubkey sighash : Bytes) → Bool}

omit hflags in
theorem genericCheckSchnorrSignature_size {sig pubkey : Bytes} {r : ScriptExecutionData}
    (h : genericCheckSchnorrSignature requireSighashAll signatureHashSchnorr verifySchnorrSignature
      sig pubkey sigversion execdata = .ok r) : sig.length = 64 ∨ sig.length = 65 := by
  simp only [genericCheckSchnorrSignature, bind_eq_ok] at h
  obtain ⟨_, -, _, -, _, hsize, -⟩ := h
  rw [errorIf] at hsize
  by_contra hne
  simp only [not_or] at hne
  simp [hne.1, hne.2] at hsize

omit hflags in
theorem shortSchnorr_generic {checker : BaseSignatureChecker}
    (h : checker.checkSchnorrSignature = genericCheckSchnorrSignature requireSighashAll
      signatureHashSchnorr verifySchnorrSignature) : ShortSchnorr checker := by
  intro sig pubkey execdata r hok
  rw [h] at hok
  have hlimit : maxScriptElementSizeReduced = 256 := rfl
  rcases genericCheckSchnorrSignature_size hok with hsize | hsize <;> omega

omit hflags in
theorem eq_append_two (h : 2 ≤ witness.length) : witness = witness.dropLast.dropLast ++
      [witness.dropLast.getLastD [], witness.getLastD []] := by
  have hne : witness ≠ [] := by
    rintro rfl
    simp at h
  have hne' : witness.dropLast ≠ [] := by
    intro hnil
    have := congrArg length hnil
    rw [length_dropLast, length_nil] at this
    omega
  have hlast (l : List Bytes) (hl : l ≠ []) : l.dropLast ++ [l.getLastD []] = l := by
    rw [getLastD_eq_getLast?, getLast?_eq_some_getLast hl, Option.getD_some,
      dropLast_append_getLast hl]
  rw [append_cons, hlast _ hne', hlast _ hne]

theorem verifyTaproot_reduced (hchecker : ShortSchnorr checker)
    (h : verifyTaproot crypto checker flags witness program = .ok ()) :
    WitnessReduced .taproot witness := by
  unfold verifyTaproot at h
  rw [if_pos (hflags.has (by decide))] at h
  split at h
  · cases h
  next hlen =>
  split at h
  · obtain ⟨_, hannex, -⟩ := bind_eq_ok.1 h
    exact absurd hannex (rejectIf_ne_ok hflags (by decide) _)
  next hannex =>
  refine ⟨by simpa using hannex, ?_⟩
  unfold verifyTaprootSpend at h
  split at h
  next hone =>
    obtain ⟨sig, rfl⟩ := length_eq_one_iff.1 hone
    obtain ⟨r, hsig, -⟩ := bind_eq_ok.1 h
    exact .inl ⟨sig, rfl, hchecker _ _ _ _ hsig⟩
  next hone =>
    simp only [bind_eq_ok] at h
    obtain ⟨_, -, _, hcontrol, _, -, _, -, h⟩ := h
    split at h
    next hleaf =>
      obtain ⟨hitems, hpushed⟩ := executeWitnessScript_reduced hflags h
      refine .inr ⟨_, _, _, eq_append_two (by omega), hitems, hpushed, ?_, hleaf⟩
      have hmax : maxControlSize flags = 33 + 7 * 32 := by
        rw [maxControlSize, if_pos (hflags.has (by decide))]
        rfl
      rw [hmax] at hcontrol
      simpa [errorIf] using hcontrol
    next => exact absurd h (rejectIf_ne_ok hflags (by decide) _)

theorem verifyWitnessProgram_reduced (hchecker : ShortSchnorr checker) {version : Nat}
    (h : verifyWitnessProgram crypto checker flags witness version program isP2SH = .ok ()) :
    WitnessReduced (witnessKind (some (version, program)) isP2SH) witness := by
  unfold verifyWitnessProgram at h
  split at h
  next hv0 =>
    subst hv0
    exact verifyWitnessV0_reduced hflags h
  next hv0 =>
  simp only [witnessKind, if_neg hv0]
  split at h
  next htaproot =>
    rw [if_pos htaproot]
    exact verifyTaproot_reduced hflags hchecker h
  next htaproot =>
  rw [if_neg htaproot]
  split at h
  next hanchor => exact isEmpty_iff.1 hanchor.1
  next => exact absurd h (rejectIf_ne_ok hflags (by decide) _)

/-! ## The whole spend -/

/-- The bounds on a spend.  Of a P2SH scriptSig only the last instruction, which pushes the redeem
script, is exempt. -/
structure ReducedSpend (scriptSig scriptPubKey : CScript) (witness : List Bytes) : Prop where
  pubKey : Reduced (pushedData scriptPubKey)
  sig : isPayToScriptHash scriptPubKey = false → Reduced (pushedData scriptSig)
  redeem : isPayToScriptHash scriptPubKey →
    Reduced (pushedData scriptSig).dropLast ∧
      ∃ script, redeemScript scriptSig = some script ∧ Reduced (pushedData script)
  witness : WitnessReduced (spentWitnessKind scriptSig scriptPubKey) witness

omit hflags in
theorem isWitnessProgram_of_p2sh (h : isPayToScriptHash script) :
    isWitnessProgram script = none := by
  have hop : script.getD 0 0 = opHash160 := by
    simp only [isPayToScriptHash, Bool.and_eq_true, beq_iff_eq] at h
    exact h.1.1.2
  unfold isWitnessProgram
  split
  · rfl
  · rw [hop]
    rfl

theorem evalRedeemScript_reduced {sigFlags : ScriptFlags} {r : List Bytes × ScriptExecutionData}
    {e : CScript × List Bytes}
    (hsig : evalScript crypto checker sigFlags .base [] scriptSig {} = .ok r)
    (h : evalRedeemScript crypto checker flags scriptSig r.1 = .ok e) :
    Reduced (pushedData scriptSig).dropLast ∧ redeemScript scriptSig = some e.1 ∧
      Reduced (pushedData e.1) := by
  obtain ⟨_, hpush, h⟩ := bind_eq_ok.1 h
  have hstack := evalScript_pushOnly (by simpa [errorIf] using hpush) hsig
  split at h
  · cases h
  next pubKey2 stack hr =>
  simp only [bind_eq_ok] at h
  obtain ⟨_, hshort, r', heval, _, -, _, -, ⟨⟩⟩ := h
  have hvalues : (instructions scriptSig).map pushedValue = stack.reverse ++ [pubKey2] := by
    rw [← reverse_reverse ((instructions scriptSig).map pushedValue), ← hstack, hr, reverse_cons]
  have hpushed := evalScript_pushedData heval
  rw [maxElementSize_reduced hflags] at hpushed
  refine ⟨?_, ?_, hpushed⟩
  · -- each instruction but the last pushes an element that is below the redeem script
    have hstackShort : Reduced stack := by
      rw [rejectIf, hflags.has (by decide)] at hshort
      simpa [errorIf, Reduced] using hshort
    intro data hdata
    rw [pushedData, ← map_dropLast] at hdata
    obtain ⟨i, hi, rfl⟩ := mem_map.1 hdata
    have hmem : pushedValue i ∈ stack := by
      have := mem_map_of_mem (f := pushedValue) hi
      grind
    exact (length_le_pushedValue i (dropLast_subset _ hi)).trans (hstackShort _ hmem)
  · rw [redeemScript, hvalues, getLast?_concat]

/-- A witness program, bare or as a redeem script. -/
theorem verifyWitness_reduced (isP2SH : Bool) (hchecker : ShortSchnorr checker)
    (h : (if isP2SH then verifyP2SHWitness crypto checker flags scriptSig script witness stack false
      else verifyBareWitness crypto checker flags scriptSig script witness stack) = .ok r) :
    (r.1 → WitnessReduced (witnessKind (isWitnessProgram script) isP2SH) witness) ∧
      (r.1 = false → isWitnessProgram script = none) := by
  cases isP2SH
  all_goals
    simp only [Bool.false_eq_true, if_false, if_true, verifyP2SHWitness, verifyBareWitness] at h
    rw [if_pos (hflags.has (by decide))] at h
    split at h
    next version program hprogram =>
      obtain ⟨_, -, h⟩ := bind_eq_ok.1 h
      obtain ⟨_, hverify, ⟨⟩⟩ := bind_eq_ok.1 h
      exact ⟨fun _ => hprogram ▸ verifyWitnessProgram_reduced hflags hchecker hverify, by simp⟩
    next hprogram =>
      cases h
      exact ⟨by simp, fun _ => hprogram⟩

theorem checkLeftovers_witness {program : Option (Nat × Bytes)}
    (hused : (r.1 → WitnessReduced (witnessKind program isP2SH) witness) ∧
      (r.1 = false → program = none)) (h : checkLeftovers flags witness r = .ok ()) :
    WitnessReduced (witnessKind program isP2SH) witness := by
  simp only [checkLeftovers, bind_eq_ok] at h
  obtain ⟨_, -, _, -, _, -, h⟩ := h
  cases hr : r.1 with
  | true => exact hused.1 hr
  | false =>
    rw [hused.2 hr]
    rw [rejectIf, hflags.has (by decide), hr] at h
    simpa [errorIf, witnessKind, WitnessReduced] using h

omit hflags in
/-- **Reduced data bounds what a spend can carry.**  Under the flags of the soft fork and a checker
that takes only short Schnorr signatures, a spend that passes has only short pushes and witness
items, but for the exempt ones. -/
theorem verifyScript_reduced (crypto : Crypto) (checker : BaseSignatureChecker)
    (flags : ScriptFlags) (scriptSig scriptPubKey : CScript) (witness : Option (List Bytes))
    (hflags : FlagsSubset reducedDataFlags flags) (hchecker : ShortSchnorr checker)
    (h : verifyScript crypto checker flags scriptSig scriptPubKey witness = .ok ()) :
    ReducedSpend scriptSig scriptPubKey (witness.getD []) := by
  simp only [verifyScript, evalSigAndPubKey, verifyPrograms, bind_eq_ok] at h
  obtain ⟨_, -, r, ⟨sig, hsig, pubKey, hpubKey, _, -, _, -, heval⟩, bare, hbare, r, hp2sh,
    hleft⟩ := h
  cases heval
  have hused := verifyWitness_reduced hflags false hchecker hbare
  have hpushed := evalScript_pushedData hpubKey
  rw [maxElementSize_reduced hflags] at hpushed
  cases htype : isPayToScriptHash scriptPubKey with
  | false =>
    simp only [htype, Bool.false_eq_true, if_false] at hsig
    have hpushedSig := evalScript_pushedData hsig
    rw [maxElementSize_reduced hflags] at hpushedSig
    simp only [verifyPayToScriptHash, htype, Bool.and_false] at hp2sh
    cases hp2sh
    refine ⟨hpushed, fun _ => hpushedSig, fun h => absurd h (by simp [htype]), ?_⟩
    rw [spentWitnessKind, if_neg (by simp [htype])]
    exact checkLeftovers_witness hflags hused hleft
  | true =>
    have hnone : bare.1 = false := by
      cases hb : bare.1 with
      | false => rfl
      | true =>
        rw [verifyBareWitness, if_pos (hflags.has (by decide)), isWitnessProgram_of_p2sh htype]
          at hbare
        cases hbare
        cases hb
    simp only [verifyPayToScriptHash, htype, hflags.has (show hasFlag reducedDataFlags
      scriptVerifyP2SH = true by decide)] at hp2sh
    obtain ⟨e, hredeem, hp2sh⟩ := bind_eq_ok.1 hp2sh
    rw [hnone] at hp2sh
    obtain ⟨hrest, hscript, hpushed2⟩ := evalRedeemScript_reduced hflags hsig hredeem
    refine ⟨hpushed, fun h => absurd h (by simp [htype]), fun _ => ⟨hrest, e.1, hscript, hpushed2⟩, ?_⟩
    rw [spentWitnessKind, if_pos htype, hscript]
    exact checkLeftovers_witness hflags (verifyWitness_reduced hflags true hchecker hp2sh) hleft

end

/-- The signature checker of transactions, with a verification that accepts. -/
def transactionChecker : BaseSignatureChecker :=
  { sampleChecker with
    checkSchnorrSignature := genericCheckSchnorrSignature false
      (fun execdata _ _ => some ([], execdata)) (fun _ _ _ => true) }

theorem shortSchnorr_transactionChecker : ShortSchnorr transactionChecker :=
  shortSchnorr_generic (show transactionChecker.checkSchnorrSignature =
    genericCheckSchnorrSignature false (fun execdata _ _ => some ([], execdata))
      (fun _ _ _ => true) from rfl)

def sampleTaproot : CScript := [op1, 0x20] ++ List.replicate 32 1

theorem verifyScript_reduced_keyPath : ReducedSpend [] sampleTaproot [replicate 64 0] :=
  verifyScript_reduced sampleCrypto transactionChecker reducedDataFlags [] sampleTaproot
    (some [replicate 64 0]) BitVec.and_self shortSchnorr_transactionChecker (by rfl)

/-- A checker that takes any Schnorr signature lets a key path spend carry 300 bytes in its one
witness item. -/
theorem verifyScript_long_keyPath : FlagsSubset reducedDataFlags reducedDataFlags ∧
      verifyScript sampleCrypto sampleChecker reducedDataFlags [] sampleTaproot
        (some [replicate 300 0]) = .ok () ∧
      spentWitnessKind [] sampleTaproot = .taproot ∧
      ¬ ReducedSpend [] sampleTaproot [replicate 300 0] := by
  refine ⟨BitVec.and_self, by rfl, by decide, fun h => ?_⟩
  obtain ⟨-, ⟨sig, hsig, hlen⟩ | ⟨items, script, control, hitems, -⟩⟩ := h.witness
  · cases hsig
    rw [length_replicate] at hlen
    exact absurd hlen (by decide)
  · have hlen := congrArg length hitems
    grind

end BitcoinPurity
