import EdgeProver.Lib.BigEndian
import EdgeProver.Protocol

/-! `EvmProof` on the wire: the flat record that bincode carries, and the bound each commit is checked against
before `CommitBytes::new`, whose assertion would abort the process. -/
namespace EdgeProver.Wire

/-- A call that can panic: `none` is the panic, the `Except` inside is what the call returned. -/
abbrev Fallible (α : Type) := ExceptT String Option α

abbrev Bytes32 := {bytes : Bytes // bytes.length = 32}

/-- `Vec<u8>::try_into::<[u8; 32]>`. -/
def tryIntoBytes32 (bytes : Bytes) : Option Bytes32 := if h : bytes.length = 32 then some ⟨bytes, h⟩ else none

/-- Exclusive upper bound for canonical BabyBear digest encodings. -/
def babybearModulusPow8Be : Bytes :=
  [0x00, 0x98, 0xc2, 0x9b, 0x8b, 0x2f, 0x1b, 0x6f, 0x4c, 0x0a, 0x66, 0x71, 0x44, 0x70, 0xa4, 0x03,
   0x61, 0x2c, 0x60, 0x05, 0xc4, 0x90, 0x00, 0x06, 0x27, 0x00, 0x00, 0x03, 0xc0, 0x00, 0x00, 0x01]

def babybearModulus : Nat := 2013265921

/-- The `CommitBytes` of `continuations_v2`. -/
structure CommitBytesApi (C : Type) where
  /-- `CommitBytes::new`, or `none` where its assertion panics. -/
  new : Bytes32 → Option C
  asSlice : C → Bytes32

/-- A commit is the 32 bytes it was made from, and `new` asserts that their number is below `p^8`. -/
structure CommitBytesApi.Documented {C : Type} (api : CommitBytesApi C) : Prop where
  new_panics : ∀ bytes, api.new bytes = none ↔ babybearModulus ^ 8 ≤ BigEndian.value bytes.val
  asSlice_new : ∀ {bytes c}, api.new bytes = some c → api.asSlice c = bytes
  asSlice_injective : Function.Injective api.asSlice

structure AppExecutionCommit (C : Type) where
  appExeCommit : C
  appVmCommit : C
  deriving DecidableEq, Repr

structure ProofData where
  accumulator : Bytes
  proof : Bytes
  deriving DecidableEq, Repr

structure EvmProof (C : Type) where
  version : String
  appCommit : AppExecutionCommit C
  userPublicValues : Bytes
  proofData : ProofData
  deriving DecidableEq, Repr

structure EvmProofWire where
  version : String
  appExeCommit : Bytes
  appVmCommit : Bytes
  userPublicValues : Bytes
  accumulator : Bytes
  proof : Bytes
  deriving DecidableEq, Repr

/-- `bincode::serialize` and `bincode::deserialize`, at the wire record. -/
structure Bincode where
  serialize : EvmProofWire → Except String Bytes
  deserialize : Bytes → Except String EvmProofWire

def Bincode.RoundTrips (bincode : Bincode) (wire : EvmProofWire) : Prop :=
  (bincode.serialize wire).bind bincode.deserialize = .ok wire

section
variable {C : Type} (api : CommitBytesApi C) (bincode : Bincode)

/-- `wrap_err`. The text of the alternate `Display` form. -/
def wrapErr {α : Type} (context : String) (result : Except String α) : Except String α :=
  result.mapError fun err => s!"{context}: {err}"

def encode (wire : EvmProofWire) : Except String Bytes :=
  wrapErr "failed to bincode-encode wire payload" (bincode.serialize wire)

def decode (bytes : Bytes) : Except String EvmProofWire :=
  wrapErr "failed to bincode-decode wire payload" (bincode.deserialize bytes)

def hex (bytes : Bytes) : String :=
  String.ofList (bytes.flatMap fun byte => [Nat.digitChar (byte.toNat / 16), Nat.digitChar (byte.toNat % 16)])

def commitBytes (bytes : Bytes) (field : String) : Fallible C := do
  let len := bytes.length
  let some bytes := tryIntoBytes32 bytes | throw s!"{field} must be 32 bytes, got {len}"
  if babybearModulusPow8Be ≤ bytes.val then
    throw s!"{field} (0x{hex bytes.val}) is not a canonical CommitBytes (>= p^8)"
  ExceptT.lift (api.new bytes)

def EvmProofWire.ofEvmProof (proof : EvmProof C) : EvmProofWire where
  version := proof.version
  appExeCommit := (api.asSlice proof.appCommit.appExeCommit).val
  appVmCommit := (api.asSlice proof.appCommit.appVmCommit).val
  userPublicValues := proof.userPublicValues
  accumulator := proof.proofData.accumulator
  proof := proof.proofData.proof

def EvmProof.tryFrom (wire : EvmProofWire) : Fallible (EvmProof C) := do
  let appExeCommit ← commitBytes api wire.appExeCommit "app_exe_commit"
  let appVmCommit ← commitBytes api wire.appVmCommit "app_vm_commit"
  return {
    version := wire.version
    appCommit := ⟨appExeCommit, appVmCommit⟩
    userPublicValues := wire.userPublicValues
    proofData := ⟨wire.accumulator, wire.proof⟩ }

def encodeEvmProof (proof : EvmProof C) : Except String Bytes := encode bincode (.ofEvmProof api proof)

def decodeEvmProof (bytes : Bytes) : Fallible (EvmProof C) := do
  let wire ← ExceptT.mk (some (decode bincode bytes))
  EvmProof.tryFrom api wire

end

/-- The bytes are a commit: 32 of them, below `p^8`. -/
def IsCanonical (bytes : Bytes) : Prop := bytes.length = 32 ∧ BigEndian.value bytes < babybearModulus ^ 8

def EvmProof.Canonical {C : Type} (api : CommitBytesApi C) (proof : EvmProof C) : Prop :=
  IsCanonical (api.asSlice proof.appCommit.appExeCommit).val ∧
    IsCanonical (api.asSlice proof.appCommit.appVmCommit).val

private theorem value_babybearModulusPow8Be : BigEndian.value babybearModulusPow8Be = babybearModulus ^ 8 := by decide

private theorem modulus_le_iff {bytes : Bytes} (hlength : bytes.length = 32) :
    babybearModulusPow8Be ≤ bytes ↔ babybearModulus ^ 8 ≤ BigEndian.value bytes := by
  have hlt : bytes < babybearModulusPow8Be ↔ BigEndian.value bytes < BigEndian.value babybearModulusPow8Be :=
    BigEndian.lt_iff_value_lt hlength
  rw [value_babybearModulusPow8Be] at hlt
  rw [← Nat.not_lt, ← hlt]
  exact List.not_lt.symm

section
variable {C : Type} {api : CommitBytesApi C} {bincode : Bincode} {bytes : Bytes} {field : String}

private theorem commitBytes_of_length (h : bytes.length ≠ 32) :
    commitBytes api bytes field = throw s!"{field} must be 32 bytes, got {bytes.length}" := by
  rw [commitBytes, tryIntoBytes32, dif_neg h]

private theorem commitBytes_of_modulus_le (hlength : bytes.length = 32)
    (h : babybearModulus ^ 8 ≤ BigEndian.value bytes) :
    commitBytes api bytes field =
      throw s!"{field} (0x{hex bytes}) is not a canonical CommitBytes (>= p^8)" := by
  have hbound : babybearModulusPow8Be ≤ bytes := (modulus_le_iff hlength).mpr h
  rw [commitBytes, tryIntoBytes32, dif_pos hlength]
  dsimp only
  rw [if_pos hbound]
  rfl

/-- A canonical commit passes both checks, so the assertion of `CommitBytes::new` holds. -/
theorem commitBytes_of_canonical (laws : api.Documented) (h : IsCanonical bytes) :
    ∃ c, commitBytes api bytes field = pure c ∧ (api.asSlice c).val = bytes := by
  obtain ⟨hlength, hvalue⟩ := h
  have hbound : ¬ babybearModulusPow8Be ≤ bytes := by
    rw [modulus_le_iff hlength]
    exact Nat.not_le_of_lt hvalue
  cases hnew : api.new ⟨bytes, hlength⟩ with
  | none => exact absurd ((laws.new_panics _).mp hnew) (Nat.not_le_of_lt hvalue)
  | some c =>
    refine ⟨c, ?_, congrArg Subtype.val (laws.asSlice_new hnew)⟩
    rw [commitBytes, tryIntoBytes32, dif_pos hlength]
    dsimp only
    rw [if_neg hbound, hnew]
    rfl

/-- Every byte string is a commit, or gets an error that names its field. -/
theorem commitBytes_cases (laws : api.Documented) (bytes : Bytes) (field : String) :
    (IsCanonical bytes ∧ ∃ c, commitBytes api bytes field = pure c ∧ (api.asSlice c).val = bytes) ∨
      (¬ IsCanonical bytes ∧ ∃ reason, commitBytes api bytes field = throw (field ++ reason)) := by
  by_cases hlength : bytes.length = 32
  · by_cases hvalue : BigEndian.value bytes < babybearModulus ^ 8
    · exact .inl ⟨⟨hlength, hvalue⟩, commitBytes_of_canonical laws ⟨hlength, hvalue⟩⟩
    · refine .inr ⟨fun h => hvalue h.2, s!" (0x{hex bytes}) is not a canonical CommitBytes (>= p^8)", ?_⟩
      rw [commitBytes_of_modulus_le hlength (Nat.le_of_not_lt hvalue)]
      simp only [String.append_assoc]
      rfl
  · refine .inr ⟨fun h => hlength h.1, s!" must be 32 bytes, got {bytes.length}", ?_⟩
    rw [commitBytes_of_length hlength]
    simp only [String.append_assoc]
    rfl

private theorem commitBytes_returns (laws : api.Documented) (bytes : Bytes) (field : String) :
    (commitBytes api bytes field).run ≠ none := by
  rcases commitBytes_cases laws bytes field with ⟨-, c, hc, -⟩ | ⟨-, reason, hreason⟩
  · rw [hc]
    exact Option.some_ne_none _
  · rw [hreason]
    exact Option.some_ne_none _

private theorem commitBytes_accepts_iff (laws : api.Documented) (bytes : Bytes) (field : String) :
    (∃ c, commitBytes api bytes field = pure c) ↔ IsCanonical bytes := by
  constructor
  · rintro ⟨c, hc⟩
    rcases commitBytes_cases laws bytes field with ⟨hcanonical, -⟩ | ⟨-, reason, hreason⟩
    · exact hcanonical
    · rw [hreason] at hc
      cases hc
  · intro hcanonical
    obtain ⟨c, hc, -⟩ := commitBytes_of_canonical laws hcanonical
    exact ⟨c, hc⟩

private theorem commitBytes_asSlice (laws : api.Documented) {c : C} (h : IsCanonical (api.asSlice c).val) :
    commitBytes api (api.asSlice c).val field = pure c := by
  obtain ⟨c', hc', hslice⟩ := commitBytes_of_canonical laws h
  rw [hc', laws.asSlice_injective (Subtype.ext hslice)]

private theorem tryFrom_returns (laws : api.Documented) (wire : EvmProofWire) :
    (EvmProof.tryFrom api wire).run ≠ none := by
  rcases commitBytes_cases laws wire.appExeCommit "app_exe_commit" with ⟨-, exe, hexe, -⟩ | ⟨-, reason, hexe⟩
  · rcases commitBytes_cases laws wire.appVmCommit "app_vm_commit" with ⟨-, vm, hvm, -⟩ | ⟨-, reason, hvm⟩
    · rw [EvmProof.tryFrom, hexe, pure_bind, hvm, pure_bind]
      exact Option.some_ne_none _
    · rw [EvmProof.tryFrom, hexe, pure_bind, hvm]
      exact Option.some_ne_none _
  · rw [EvmProof.tryFrom, hexe]
    exact Option.some_ne_none _

private theorem tryFrom_ofEvmProof (laws : api.Documented) {proof : EvmProof C} (h : proof.Canonical api) :
    EvmProof.tryFrom api (.ofEvmProof api proof) = pure proof := by
  have hexe : commitBytes api (EvmProofWire.ofEvmProof api proof).appExeCommit "app_exe_commit" =
      pure proof.appCommit.appExeCommit := commitBytes_asSlice laws h.1
  have hvm : commitBytes api (EvmProofWire.ofEvmProof api proof).appVmCommit "app_vm_commit" =
      pure proof.appCommit.appVmCommit := commitBytes_asSlice laws h.2
  rw [EvmProof.tryFrom, hexe, pure_bind, hvm, pure_bind]
  rfl

private theorem decodeEvmProof_returns (laws : api.Documented) (bytes : Bytes) :
    (decodeEvmProof api bincode bytes).run ≠ none := by
  cases hwire : decode bincode bytes with
  | error err =>
    rw [decodeEvmProof, hwire]
    exact Option.some_ne_none _
  | ok wire =>
    rw [decodeEvmProof, hwire]
    exact tryFrom_returns laws wire

/-- What bincode reads back, `decode` reads back from what `encode` wrote. -/
theorem decode_encode {wire : EvmProofWire} (h : bincode.RoundTrips wire) :
    ∃ bytes, encode bincode wire = .ok bytes ∧ decode bincode bytes = .ok wire := by
  rw [Bincode.RoundTrips] at h
  cases hbytes : bincode.serialize wire with
  | error err =>
    rw [hbytes] at h
    cases h
  | ok bytes =>
    rw [hbytes] at h
    change bincode.deserialize bytes = .ok wire at h
    refine ⟨bytes, ?_, ?_⟩
    · rw [encode, hbytes]
      rfl
    · rw [decode, h]
      rfl

private theorem decodeEvmProof_encodeEvmProof (laws : api.Documented) {proof : EvmProof C} (h : proof.Canonical api)
    (hbincode : bincode.RoundTrips (.ofEvmProof api proof)) :
    ∃ bytes, encodeEvmProof api bincode proof = .ok bytes ∧ decodeEvmProof api bincode bytes = pure proof := by
  obtain ⟨bytes, hencode, hdecode⟩ := decode_encode hbincode
  refine ⟨bytes, hencode, ?_⟩
  rw [decodeEvmProof, hdecode]
  exact tryFrom_ofEvmProof laws h

end

abbrev CheckedBytes := {bytes : Bytes32 // BigEndian.value bytes.val < babybearModulus ^ 8}

def checkedBytesApi : CommitBytesApi CheckedBytes where
  new bytes := if h : BigEndian.value bytes.val < babybearModulus ^ 8 then some ⟨bytes, h⟩ else none
  asSlice c := c.val

private theorem checkedBytesApi_documented : checkedBytesApi.Documented where
  new_panics bytes := by
    rw [checkedBytesApi, dite_eq_right_iff]
    constructor
    · intro h
      exact Nat.le_of_not_lt fun hlt => Option.some_ne_none _ (h hlt)
    · intro h hlt
      exact absurd hlt (Nat.not_lt_of_le h)
  asSlice_new {bytes c} h := by
    rw [checkedBytesApi, Option.dite_none_right_eq_some] at h
    obtain ⟨hlt, h⟩ := h
    exact congrArg Subtype.val (Option.some.inj h).symm
  asSlice_injective := Subtype.val_injective

/-- The length of a field, in eight bytes from the least significant one. -/
def putLength (length : Nat) : Bytes := (List.range 8).map fun i => UInt8.ofNat (length / 256 ^ i)

def putVec (bytes : Bytes) : Bytes := putLength bytes.length ++ bytes

def takeVec (bytes : Bytes) : Except String (Bytes × Bytes) :=
  let length := BigEndian.value (bytes.take 8).reverse
  if bytes.length < 8 + length then .error "io error: unexpected end of file"
  else .ok ((bytes.drop 8).take length, bytes.drop (8 + length))

def fixint : Bincode where
  serialize wire := .ok <| putVec wire.version.toUTF8.data.toList ++ putVec wire.appExeCommit ++ putVec
    wire.appVmCommit ++
    putVec wire.userPublicValues ++ putVec wire.accumulator ++ putVec wire.proof
  deserialize bytes := do
    let (version, bytes) ← takeVec bytes
    let some version := String.fromUTF8? ⟨version.toArray⟩ | throw "string is not valid utf8"
    let (appExeCommit, bytes) ← takeVec bytes
    let (appVmCommit, bytes) ← takeVec bytes
    let (userPublicValues, bytes) ← takeVec bytes
    let (accumulator, bytes) ← takeVec bytes
    let (proof, _) ← takeVec bytes
    return { version, appExeCommit, appVmCommit, userPublicValues, accumulator, proof }

def lastCommit : CheckedBytes := ⟨⟨babybearModulusPow8Be.dropLast ++ [0x00], rfl⟩, by decide⟩

def sampleProof : EvmProof CheckedBytes where
  version := "v2.0"
  appCommit := ⟨lastCommit, ⟨⟨List.replicate 32 0, rfl⟩, by decide⟩⟩
  userPublicValues := [1, 2, 3]
  proofData := ⟨[4, 5, 6], [7, 8, 9]⟩

private theorem checkedBytes_isCanonical (c : CheckedBytes) : IsCanonical (checkedBytesApi.asSlice c).val :=
  ⟨c.val.property, c.property⟩

private theorem sampleProof_roundTrips : fixint.RoundTrips (.ofEvmProof checkedBytesApi sampleProof) := by
  rw [Bincode.RoundTrips]
  decide +kernel

/-- The parser takes exactly the 32-byte strings below `p^8`, it and the decoder reach no assertion, and a proof comes
back from the wire as it went out. -/
theorem evm_proof_wire_safe {C : Type} (api : CommitBytesApi C) (laws : api.Documented) (bincode : Bincode) :
    (∀ bytes field, (∃ c, commitBytes api bytes field = pure c) ↔
        bytes.length = 32 ∧ BigEndian.value bytes < 2013265921 ^ 8) ∧
      (∀ bytes field, (commitBytes api bytes field).run ≠ none) ∧
      (∀ bytes, (decodeEvmProof api bincode bytes).run ≠ none) ∧
      ∀ proof : EvmProof C, proof.Canonical api → bincode.RoundTrips (.ofEvmProof api proof) →
        ∃ bytes, encodeEvmProof api bincode proof = .ok bytes ∧ decodeEvmProof api bincode bytes = pure proof :=
  ⟨commitBytes_accepts_iff laws, commitBytes_returns laws, decodeEvmProof_returns laws,
    fun _ hproof hbincode => decodeEvmProof_encodeEvmProof laws hproof hbincode⟩

theorem evm_proof_wire_safe_sample :
    (commitBytes checkedBytesApi (babybearModulusPow8Be.dropLast ++ [0x00]) "app_exe_commit").run ≠ none ∧
      ∃ bytes, encodeEvmProof checkedBytesApi fixint sampleProof = .ok bytes ∧
        decodeEvmProof checkedBytesApi fixint bytes = pure sampleProof := by
  obtain ⟨-, hreturns, -, hround⟩ := evm_proof_wire_safe checkedBytesApi checkedBytesApi_documented fixint
  exact ⟨hreturns _ _, hround sampleProof ⟨checkedBytes_isCanonical _, checkedBytes_isCanonical _⟩
    sampleProof_roundTrips⟩

end EdgeProver.Wire
