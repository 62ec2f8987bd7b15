import Mathlib.Data.Nat.Notation

/-! The manager's configuration and what `validate` accepts. -/
namespace EdgeProver

structure ServerConfig where
  numWorkers : Nat
  deriving DecidableEq, Repr

structure ProversConfig where
  maxAppProvers : Nat
  maxLeafProvers : Nat
  maxInternalProvers : Nat
  deriving DecidableEq, Repr

structure ProofConfig where
  timeoutSecs : Nat
  leafPackThreshold : Nat
  persistFinalProofsDir : Option String
  compressPersistedFinalProofs : Bool
  persistLeafFailureAppProofsDir : Option String
  leafArity : Nat
  internalArity : Nat
  deriving DecidableEq, Repr

structure LifecycleConfig where
  webhookUrl : Option String
  timeoutMs : Nat
  deriving DecidableEq, Repr

structure ManagerConfig where
  server : ServerConfig
  proof : ProofConfig
  provers : ProversConfig
  lifecycle : LifecycleConfig
  deriving DecidableEq, Repr

def ProofConfig.default : ProofConfig where
  timeoutSecs := 300
  leafPackThreshold := 48
  persistFinalProofsDir := none
  compressPersistedFinalProofs := false
  persistLeafFailureAppProofsDir := none
  leafArity := 4
  internalArity := 3

def LifecycleConfig.default : LifecycleConfig := ⟨none, 6000⟩

def isWhitespace (c : Char) : Bool :=
  let n := c.toNat
  (9 ≤ n && n ≤ 13) || n == 0x20 || n == 0x85 || n == 0xA0 || n == 0x1680 || (0x2000 ≤ n && n ≤ 0x200A) ||
    n == 0x2028 || n == 0x2029 || n == 0x202F || n == 0x205F || n == 0x3000

/-- `s.trim().is_empty()`. -/
def isBlank (s : String) : Bool := s.toList.all isWhitespace

/-- `if failed { bail!(message) }`. -/
def bail (failed : Bool) (message : String) : Except String Unit :=
  if failed then .error message else .ok ()

def ManagerConfig.validate (config : ManagerConfig) : Except String Unit := do
  bail (config.server.numWorkers == 0) "server.num_workers must be > 0"
  bail (config.provers.maxAppProvers == 0) "provers.max_app_provers must be > 0"
  bail (config.provers.maxLeafProvers == 0) "provers.max_leaf_provers must be > 0"
  bail (config.provers.maxInternalProvers == 0) "provers.max_internal_provers must be > 0"
  bail (config.proof.timeoutSecs == 0) "proof.timeout_secs must be > 0"
  bail (config.proof.leafPackThreshold == 0) "proof.leaf_pack_threshold must be > 0"
  bail (config.proof.leafArity == 0) "proof.leaf_arity must be > 0"
  bail (config.proof.internalArity == 0) "proof.internal_arity must be > 0"
  bail (config.proof.persistFinalProofsDir == some "") "proof.persist_final_proofs_dir must not be empty"
  bail (config.proof.compressPersistedFinalProofs && config.proof.persistFinalProofsDir.isNone)
    "proof.compress_persisted_final_proofs requires proof.persist_final_proofs_dir"
  bail (config.proof.persistLeafFailureAppProofsDir == some "")
    "proof.persist_leaf_failure_app_proofs_dir must not be empty"
  match config.lifecycle.webhookUrl with
  | some url =>
    bail (isBlank url) "lifecycle.webhook_url must not be empty when set"
    bail (config.lifecycle.timeoutMs == 0) "lifecycle.timeout_ms must be > 0"
  | none => pure ()

theorem bail_bind_ok {α : Type} {failed : Bool} {message : String} {next : Unit → Except String α} {a : α}
    (h : (bail failed message >>= next) = .ok a) : failed = false ∧ next () = .ok a := by
  cases failed with
  | true => exact nomatch h
  | false => exact ⟨rfl, h⟩

private theorem ManagerConfig.counts_ne {config : ManagerConfig} (h : config.validate = .ok ()) :
    (config.provers.maxLeafProvers ≠ 0 ∧ config.provers.maxInternalProvers ≠ 0) ∧
      config.proof.leafArity ≠ 0 ∧ config.proof.internalArity ≠ 0 := by
  rw [ManagerConfig.validate] at h
  obtain ⟨-, h⟩ := bail_bind_ok h
  obtain ⟨-, h⟩ := bail_bind_ok h
  obtain ⟨hleafProvers, h⟩ := bail_bind_ok h
  obtain ⟨hinternalProvers, h⟩ := bail_bind_ok h
  obtain ⟨-, h⟩ := bail_bind_ok h
  obtain ⟨-, h⟩ := bail_bind_ok h
  obtain ⟨hleaf, h⟩ := bail_bind_ok h
  obtain ⟨hinternal, -⟩ := bail_bind_ok h
  exact ⟨⟨beq_eq_false_iff_ne.mp hleafProvers, beq_eq_false_iff_ne.mp hinternalProvers⟩,
    beq_eq_false_iff_ne.mp hleaf, beq_eq_false_iff_ne.mp hinternal⟩

/-- An accepted configuration gives every prover kind at least one thread. -/
theorem ManagerConfig.provers_pos {config : ManagerConfig} (h : config.validate = .ok ()) :
    0 < config.provers.maxLeafProvers ∧ 0 < config.provers.maxInternalProvers := by
  obtain ⟨⟨hleaf, hinternal⟩, -⟩ := config.counts_ne h
  exact ⟨Nat.pos_of_ne_zero hleaf, Nat.pos_of_ne_zero hinternal⟩

/-- An accepted configuration has arities that can be divided by, and asks no more of them. -/
theorem ManagerConfig.arities_pos {config : ManagerConfig} (h : config.validate = .ok ()) :
    0 < config.proof.leafArity ∧ 0 < config.proof.internalArity := by
  obtain ⟨-, hleaf, hinternal⟩ := config.counts_ne h
  exact ⟨Nat.pos_of_ne_zero hleaf, Nat.pos_of_ne_zero hinternal⟩

end EdgeProver
