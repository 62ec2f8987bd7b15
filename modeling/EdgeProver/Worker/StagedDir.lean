import Mathlib.Logic.Function.Basic
import EdgeProver.Lib.TaskPool
import EdgeProver.Protocol

/-! The staged directory `/dev/shm/edge_{proof_uuid}` of one proof on a worker, and the tasks of the
worker that write, remove and read it. A file operation is one step. -/
namespace EdgeProver

inductive DeferralArtifactKind where
  | state
  | input
  deriving DecidableEq, Repr

/-- A deferral artifact, which `deferral_state_filename` and `deferral_input_filename` give a name of its own. -/
structure ArtifactFile where
  kind : DeferralArtifactKind
  circuitIdx : Nat
  deriving DecidableEq, Repr

structure WorkDir where
  modified : Time
  files : ArtifactFile → Option Bytes
  /-- The `.tmp` files. -/
  temps : ArtifactFile → Option Bytes

def WorkDir.empty (now : Time) : WorkDir := ⟨now, fun _ => none, fun _ => none⟩

structure StagingArea where
  dir : Option WorkDir
  /-- The proof is in `active_uploaded_proofs`. -/
  active : Bool
  /-- The `DeferralInput` bundle acknowledged last. -/
  acked : Option (List Bytes)

namespace StagingArea

def start : StagingArea := ⟨none, false, none⟩

def input (area : StagingArea) (circuitIdx : Nat) : Option Bytes :=
  area.dir.bind (·.files ⟨.input, circuitIdx⟩)

def inputTemp (area : StagingArea) (circuitIdx : Nat) : Option Bytes :=
  area.dir.bind (·.temps ⟨.input, circuitIdx⟩)

end StagingArea

inductive StagingOp where
  /- `handle_sharded_app_prove`, and `cleanup_uploaded_input_dir` at its end. -/
  | accept
  | deactivate
  | removeDir
  /- One pass of `cleanup_stale_uploaded_inputs`. -/
  | scan
  | stat
  | recheck
  /- `handle_upload_deferral_bundle`. -/
  | upload (kind : DeferralArtifactKind) (artifacts : List Bytes)
  | createDir (kind : DeferralArtifactKind) (artifacts : List Bytes) (circuitIdx : Nat)
  | writeTemp (kind : DeferralArtifactKind) (artifacts : List Bytes) (circuitIdx : Nat)
  | rename (kind : DeferralArtifactKind) (artifacts : List Bytes) (circuitIdx : Nat)
  | received (kind : DeferralArtifactKind) (artifacts : List Bytes)
  /- `run_deferral_tail_merge`. -/
  | merge
  | readInput (circuitIdx : Nat)
  deriving DecidableEq, Repr

def staleUploadedInputTtl : Time := 600 * 1000000000

/-- What a deployment fixes: the circuits of the loaded keyset, and the bytes that decode to a `DeferralInput`. -/
structure DeferralKeyset where
  circuits : Nat
  decodes : Bytes → Bool

abbrev StagingOutcome := TaskPool.Outcome StagingArea StagingOp Unit

def StagingArea.goOn (area : StagingArea) (next : List StagingOp) : StagingOutcome := ⟨area, next, [], ()⟩

/-- The reads of the tail merge from this circuit on, and the cleanup once they are done. -/
def DeferralKeyset.readFrom (keyset : DeferralKeyset) (circuitIdx : Nat) : List StagingOp :=
  if circuitIdx < keyset.circuits then [.readInput circuitIdx] else [.removeDir]

/-- The files of a bundle from this circuit on, and the answer once they are written. -/
def writeFrom (kind : DeferralArtifactKind) (artifacts : List Bytes) (circuitIdx : Nat) : List StagingOp :=
  if circuitIdx < artifacts.length then [.createDir kind artifacts circuitIdx] else [.received kind artifacts]

/-- One file operation, or one look at `active_uploaded_proofs`. -/
def StagingOp.exec (keyset : DeferralKeyset) (now : Time) (area : StagingArea) : StagingOp → StagingOutcome
  | .accept => { area with active := true }.goOn []
  | .deactivate => { area with active := false }.goOn []
  | .removeDir => { area with dir := none }.goOn []
  | .scan => area.goOn (if area.dir.isNone || area.active then [] else [.stat])
  | .stat =>
    match area.dir with
    | none => area.goOn []
    | some dir => area.goOn (if max (now - dir.modified) 0 < staleUploadedInputTtl then [] else [.recheck])
  | .recheck => area.goOn (if area.active then [] else [.removeDir])
  | .upload kind artifacts =>
    area.goOn (if artifacts.length ≠ keyset.circuits then [] else writeFrom kind artifacts 0)
  | .createDir kind artifacts circuitIdx =>
    { area with dir := some (area.dir.getD (.empty now)) }.goOn [.writeTemp kind artifacts circuitIdx]
  | .writeTemp kind artifacts circuitIdx =>
    match area.dir with
    | none => area.goOn []
    | some dir =>
      { area with
        dir := some { dir with
          modified := now
          temps := Function.update dir.temps ⟨kind, circuitIdx⟩ artifacts[circuitIdx]? } }.goOn
        [.rename kind artifacts circuitIdx]
  | .rename kind artifacts circuitIdx =>
    match area.dir.bind fun dir => (dir.temps ⟨kind, circuitIdx⟩).map fun bytes => (dir, bytes) with
    | none => area.goOn []
    | some (dir, bytes) =>
      { area with
        dir := some {
          modified := now
          files := Function.update dir.files ⟨kind, circuitIdx⟩ (some bytes)
          temps := Function.update dir.temps ⟨kind, circuitIdx⟩ none } }.goOn
        (writeFrom kind artifacts (circuitIdx + 1))
  | .received kind artifacts =>
    match kind with
    | .state => area.goOn []
    | .input => { area with acked := some artifacts }.goOn []
  | .merge => area.goOn (keyset.readFrom 0)
  | .readInput circuitIdx =>
    match area.input circuitIdx with
    | none => area.goOn []
    | some bytes => area.goOn (if keyset.decodes bytes then keyset.readFrom (circuitIdx + 1) else [])

inductive Touches : List StagingOp → Prop
  /-- The app prove, which cleans up once its result stream is drained. -/
  | appProve : Touches [.accept, .deactivate, .removeDir]
  /-- A janitor pass. -/
  | janitor : Touches [.scan]
  /-- A bundle from the manager: the states before the kickoff, the inputs before each dispatch attempt. -/
  | push (kind : DeferralArtifactKind) (artifacts : List Bytes) : Touches [.upload kind artifacts]
  /-- The tail merge that a dispatch the worker accepted comes to. -/
  | tailMerge : Touches [.merge]

abbrev StagingPool := TaskPool.Pool StagingArea StagingOp
abbrev StagingLabel := TaskPool.Label Time StagingOp

/-- Any of the tasks may come at any time. -/
def TouchesDir (_ : StagingPool) (l : StagingLabel) : Prop := ∀ task, l = .arrive task → Touches task

abbrev StagingTrace (keyset : DeferralKeyset) :=
  TaskPool.Trace (StagingOp.exec keyset) TouchesDir (⟨.start, []⟩ : StagingPool)

/-- A read of the circuit's `DeferralInput` by a tail merge that comes after an acknowledged push of
this bundle. -/
structure ReadAfter (artifacts : List Bytes) (circuitIdx : Nat) (entry : StagingPool × StagingLabel) : Prop where
  read : ∃ now, entry.2 = .run (.readInput circuitIdx) now
  acked : entry.1.state.acked = some artifacts

/-- Every tail merge after an acknowledged push finds the pushed bytes in every file it reads. -/
def Delivered (trace : List (StagingPool × StagingLabel)) : Prop :=
  ∀ recent entry older artifacts circuitIdx, trace = recent ++ entry :: older →
    ReadAfter artifacts circuitIdx entry → entry.1.state.input circuitIdx = artifacts[circuitIdx]?

namespace StagingOp

/-- The steps of a push of inputs and of a tail merge, up to its cleanup. -/
def delivers : StagingOp → Bool
  | .upload .input _ | .createDir .input _ _ | .writeTemp .input _ _ | .rename .input _ _ | .received .input _ => true
  | .merge | .readInput _ => true
  | _ => false

/-- The steps that remove the directory, or come to that without another look at its age. -/
def clears : StagingOp → Bool
  | .accept | .deactivate | .removeDir | .recheck => true
  | _ => false

def busy (op : StagingOp) : Bool := op.delivers || op.clears

end StagingOp

def pushArrives (entry : StagingPool × StagingLabel) : Bool :=
  match entry.2 with
  | .arrive [.upload .input _] => true
  | _ => false

def mergeArrives (entry : StagingPool × StagingLabel) : Bool :=
  match entry.2 with
  | .arrive [.merge] => true
  | _ => false

def acknowledged (entry : StagingPool × StagingLabel) : Bool :=
  match entry.2 with
  | .run (.received .input _) _ => true
  | _ => false

/-- A push of inputs was acknowledged, and neither a push nor a tail merge has come since. -/
def readyToMerge : List (StagingPool × StagingLabel) → Bool
  | [] => false
  | entry :: older => acknowledged entry || (!pushArrives entry && !mergeArrives entry && readyToMerge older)

/-- What comes has its place in the order: no app prove after the first push of inputs; a push of inputs when the
app prove has cleaned up, no janitor pass is past its look at the age of the directory, and no other push or tail
merge is under way; a tail merge for each acknowledged push, before anything else is pushed. From the first push on
no janitor pass looks at a directory that was left alone for the time of `STALE_UPLOADED_INPUT_TTL`. -/
def orderly (older : List (StagingPool × StagingLabel)) (entry : StagingPool × StagingLabel) : Bool :=
  match entry.2 with
  | .arrive (.accept :: _) => !older.any pushArrives
  | .arrive [.upload .input _] => entry.1.ops.all (!·.busy)
  | .arrive [.merge] => readyToMerge older
  | .run .stat now =>
    !older.any pushArrives || entry.1.state.dir.all fun dir => decide (now - dir.modified < staleUploadedInputTtl)
  | _ => true

def orderlyTrace : List (StagingPool × StagingLabel) → Bool
  | [] => true
  | entry :: older => orderly older entry && orderlyTrace older

section
variable {keyset : DeferralKeyset} {p q r : StagingPool} {l : StagingLabel} {trace : List (StagingPool × StagingLabel)}
  {area : StagingArea} {artifacts : List Bytes} {op : StagingOp} {now : Time} {circuitIdx bound : Nat}

/-- The files of the circuits below this one hold the bytes of the bundle. -/
private def HasBelow (area : StagingArea) (artifacts : List Bytes) (bound : Nat) : Prop :=
  ∀ i < bound, area.input i = artifacts[i]?

private def Filled (keyset : DeferralKeyset) (area : StagingArea) : Prop :=
  ∃ artifacts, area.acked = some artifacts ∧ artifacts.length = keyset.circuits ∧
    HasBelow area artifacts keyset.circuits

/-- What an operation still to be done tells about the files. -/
private def Assures (keyset : DeferralKeyset) (area : StagingArea) : StagingOp → Prop
  | .createDir .input artifacts idx | .writeTemp .input artifacts idx =>
    artifacts.length = keyset.circuits ∧ HasBelow area artifacts idx
  | .rename .input artifacts idx =>
    artifacts.length = keyset.circuits ∧ HasBelow area artifacts idx ∧ area.inputTemp idx = artifacts[idx]?
  | .received .input artifacts => artifacts.length = keyset.circuits ∧ HasBelow area artifacts keyset.circuits
  | .merge => Filled keyset area
  | .readInput idx => idx < keyset.circuits ∧ Filled keyset area
  | _ => True

private theorem assures_of_not_delivers (h : op.delivers = false) : Assures keyset area op := by
  cases op with
  | createDir kind | writeTemp kind | rename kind | received kind =>
    cases kind with
    | state => trivial
    | input => simp [StagingOp.delivers] at h
  | merge | readInput => simp [StagingOp.delivers] at h
  | _ => trivial

private theorem not_delivers_of_not_busy (h : op.busy = false) : op.delivers = false :=
  (Bool.or_eq_false_iff.mp h).1

/-- The files of the inputs and the bundle acknowledged last are as they were. -/
private structure SameInputs (area' area : StagingArea) : Prop where
  input : ∀ idx, area'.input idx = area.input idx
  temp : ∀ idx, area'.inputTemp idx = area.inputTemp idx
  acked : area'.acked = area.acked

private theorem SameInputs.refl (area : StagingArea) : SameInputs area area := ⟨fun _ => rfl, fun _ => rfl, rfl⟩

private theorem SameInputs.below {area' : StagingArea} (h : SameInputs area' area)
    (hbelow : HasBelow area artifacts bound) :
    HasBelow area' artifacts bound := fun i hi => (h.input i).trans (hbelow i hi)

private theorem SameInputs.filled {area' : StagingArea} (h : SameInputs area' area) (hfilled : Filled keyset area) :
    Filled keyset area' := by
  obtain ⟨artifacts, hacked, hlength, hbelow⟩ := hfilled
  exact ⟨artifacts, h.acked.trans hacked, hlength, h.below hbelow⟩

private theorem SameInputs.assures {area' : StagingArea} (h : SameInputs area' area) (hop : Assures keyset area op) :
    Assures keyset area' op := by
  by_cases hdelivers : op.delivers = false
  · exact assures_of_not_delivers hdelivers
  cases op with
  | createDir kind | writeTemp kind | received kind =>
    cases kind with
    | state => trivial
    | input => exact ⟨hop.1, h.below hop.2⟩
  | rename kind artifacts idx =>
    cases kind with
    | state => trivial
    | input => exact ⟨hop.1, h.below hop.2.1, (h.temp idx).trans hop.2.2⟩
  | merge => exact h.filled hop
  | readInput => exact ⟨hop.1, h.filled hop.2⟩
  | _ => trivial

private theorem nothing_spawned : (op.exec keyset now area).spawned = [] := by
  cases op with
  | stat | writeTemp | rename | readInput =>
    simp only [StagingOp.exec]
    split <;> rfl
  | received kind => cases kind <;> rfl
  | _ => rfl

private theorem next_length (keyset : DeferralKeyset) (now : Time) (area : StagingArea) (op : StagingOp) :
    (op.exec keyset now area).next.length ≤ 1 := by
  have hwrite (kind : DeferralArtifactKind) (artifacts : List Bytes) (idx : Nat) :
      (writeFrom kind artifacts idx).length ≤ 1 := by
    unfold writeFrom
    split <;> simp
  have hread (idx : Nat) : (keyset.readFrom idx).length ≤ 1 := by
    unfold DeferralKeyset.readFrom
    split <;> simp
  cases op with
  | upload kind artifacts =>
    simp only [StagingOp.exec, StagingArea.goOn]
    split
    · simp
    · exact hwrite _ _ _
  | rename kind artifacts idx =>
    simp only [StagingOp.exec]
    split
    · simp [StagingArea.goOn]
    · exact hwrite _ _ _
  | merge => exact hread 0
  | readInput idx =>
    simp only [StagingOp.exec]
    split
    · simp [StagingArea.goOn]
    · simp only [StagingArea.goOn]
      split
      · exact hread _
      · simp
  | scan | recheck =>
    simp only [StagingOp.exec, StagingArea.goOn]
    split <;> simp
  | stat =>
    simp only [StagingOp.exec]
    split
    · simp [StagingArea.goOn]
    · simp only [StagingArea.goOn]
      split <;> simp
  | writeTemp kind artifacts idx =>
    simp only [StagingOp.exec]
    split <;> simp [StagingArea.goOn]
  | received kind artifacts => cases kind <;> simp [StagingOp.exec, StagingArea.goOn]
  | _ => simp [StagingOp.exec, StagingArea.goOn]

private theorem not_busy_writeFrom (idx : Nat) : ∀ op ∈ writeFrom .state artifacts idx, op.busy = false := by
  unfold writeFrom
  split <;> simp [StagingOp.busy, StagingOp.delivers, StagingOp.clears]

/-- The steps that are no part of a delivery and clear nothing: where the janitor finds the directory young, they
lead to others of their kind, and leave the inputs alone. -/
private theorem exec_free (hfree : op.busy = false)
    (hfresh : op = .stat → ∀ dir, area.dir = some dir → now - dir.modified < staleUploadedInputTtl) :
    (∀ op' ∈ (op.exec keyset now area).next, op'.busy = false) ∧
      SameInputs (op.exec keyset now area).state area := by
  cases op with
  | accept | deactivate | removeDir | recheck => simp [StagingOp.busy, StagingOp.clears] at hfree
  | merge | readInput => simp [StagingOp.busy, StagingOp.delivers] at hfree
  | scan =>
    refine ⟨?_, .refl _⟩
    simp only [StagingOp.exec, StagingArea.goOn]
    split <;> simp [StagingOp.busy, StagingOp.delivers, StagingOp.clears]
  | stat =>
    cases hdir : area.dir with
    | none => exact ⟨by simp [StagingOp.exec, hdir, StagingArea.goOn], by simpa [StagingOp.exec, hdir] using .refl _⟩
    | some dir =>
      have hyoung : max (now - dir.modified) 0 < staleUploadedInputTtl :=
        Int.max_lt.mpr ⟨hfresh rfl dir hdir, by decide⟩
      simp only [StagingOp.exec, hdir, if_pos hyoung]
      exact ⟨List.forall_mem_nil _, .refl _⟩
  | upload kind artifacts =>
    cases kind with
    | input => simp [StagingOp.busy, StagingOp.delivers] at hfree
    | state =>
      refine ⟨?_, .refl _⟩
      simp only [StagingOp.exec, StagingArea.goOn]
      split
      · exact List.forall_mem_nil _
      · exact not_busy_writeFrom 0
  | createDir kind artifacts idx =>
    cases kind with
    | input => simp [StagingOp.busy, StagingOp.delivers] at hfree
    | state =>
      refine ⟨by simp [StagingOp.exec, StagingArea.goOn, StagingOp.busy, StagingOp.delivers, StagingOp.clears],
        fun circuitIdx => ?_, fun circuitIdx => ?_, rfl⟩
      · cases hdir : area.dir <;> simp [StagingOp.exec, StagingArea.goOn, StagingArea.input, hdir, WorkDir.empty]
      · cases hdir : area.dir <;> simp [StagingOp.exec, StagingArea.goOn, StagingArea.inputTemp, hdir, WorkDir.empty]
  | writeTemp kind artifacts idx =>
    cases kind with
    | input => simp [StagingOp.busy, StagingOp.delivers] at hfree
    | state =>
      cases hdir : area.dir with
      | none => exact ⟨by simp [StagingOp.exec, hdir, StagingArea.goOn], by simpa [StagingOp.exec, hdir] using .refl _⟩
      | some dir =>
        simp only [StagingOp.exec, hdir, StagingArea.goOn]
        exact ⟨by simp [StagingOp.busy, StagingOp.delivers, StagingOp.clears],
          fun circuitIdx => by simp [StagingArea.input, hdir],
          fun circuitIdx => by simp [StagingArea.inputTemp, hdir], rfl⟩
  | rename kind artifacts idx =>
    cases kind with
    | input => simp [StagingOp.busy, StagingOp.delivers] at hfree
    | state =>
      simp only [StagingOp.exec]
      split
      · exact ⟨List.forall_mem_nil _, .refl _⟩
      · rename_i dir bytes hbind
        obtain ⟨found, hdir, hmap⟩ := Option.bind_eq_some_iff.mp hbind
        obtain ⟨written, hwritten, hsame⟩ := Option.map_eq_some_iff.mp hmap
        obtain ⟨rfl, rfl⟩ := Prod.mk.inj hsame
        refine ⟨not_busy_writeFrom _, fun circuitIdx => ?_, fun circuitIdx => ?_, rfl⟩
        · simp [StagingArea.goOn, StagingArea.input, hdir]
        · simp [StagingArea.goOn, StagingArea.inputTemp, hdir]
  | received kind artifacts =>
    cases kind with
    | input => simp [StagingOp.busy, StagingOp.delivers] at hfree
    | state => exact ⟨List.forall_mem_nil _, .refl _⟩

private theorem assures_writeFrom (hlength : artifacts.length = keyset.circuits)
    (hbelow : ∀ i < circuitIdx, area.input i = artifacts[i]?) :
    ∀ op ∈ writeFrom .input artifacts circuitIdx, Assures keyset area op := by
  intro op hop
  unfold writeFrom at hop
  split at hop
  · obtain rfl := List.mem_singleton.mp hop
    exact ⟨hlength, hbelow⟩
  · obtain rfl := List.mem_singleton.mp hop
    exact ⟨hlength, fun i hi => hbelow i (by omega)⟩

private theorem assures_readFrom (hfilled : Filled keyset area) (circuitIdx : Nat) :
    ∀ op ∈ keyset.readFrom circuitIdx, Assures keyset area op := by
  intro op hop
  unfold DeferralKeyset.readFrom at hop
  split at hop
  · rename_i hlt
    obtain rfl := List.mem_singleton.mp hop
    exact ⟨hlt, hfilled⟩
  · obtain rfl := List.mem_singleton.mp hop
    trivial

private theorem assures_next (h : Assures keyset area op) :
    ∀ op' ∈ (op.exec keyset now area).next, Assures keyset (op.exec keyset now area).state op' := by
  intro op' hop'
  by_cases hdelivers : op'.delivers = false
  · exact assures_of_not_delivers hdelivers
  cases op with
  | accept | deactivate | removeDir => simp [StagingOp.exec, StagingArea.goOn] at hop'
  | scan | recheck =>
    simp only [StagingOp.exec, StagingArea.goOn] at hop'
    split at hop'
    · simp at hop'
    · obtain rfl := List.mem_singleton.mp hop'
      trivial
  | stat =>
    simp only [StagingOp.exec] at hop'
    split at hop'
    · simp [StagingArea.goOn] at hop'
    · simp only [StagingArea.goOn] at hop'
      split at hop'
      · simp at hop'
      · obtain rfl := List.mem_singleton.mp hop'
        trivial
  | upload kind artifacts =>
    simp only [StagingOp.exec, StagingArea.goOn] at hop' ⊢
    split at hop'
    · simp at hop'
    · rename_i hlength
      cases kind with
      | input => exact assures_writeFrom (by simpa using hlength) (fun i hi => absurd hi (Nat.not_lt_zero i)) op' hop'
      | state => exact absurd (not_delivers_of_not_busy (not_busy_writeFrom 0 op' hop')) hdelivers
  | createDir kind artifacts idx =>
    simp only [StagingOp.exec, StagingArea.goOn, List.mem_singleton] at hop'
    subst hop'
    cases kind with
    | state => trivial
    | input =>
      refine ⟨h.1, fun i hi => (Eq.trans ?_ (h.2 i hi))⟩
      cases hdir : area.dir <;> simp [StagingOp.exec, StagingArea.goOn, StagingArea.input, hdir, WorkDir.empty]
  | writeTemp kind artifacts idx =>
    cases hdir : area.dir with
    | none => simp [StagingOp.exec, hdir, StagingArea.goOn] at hop'
    | some dir =>
      simp only [StagingOp.exec, hdir, StagingArea.goOn, List.mem_singleton] at hop' ⊢
      subst hop'
      cases kind with
      | state => trivial
      | input =>
        refine ⟨h.1, fun i hi => (Eq.trans ?_ (h.2 i hi)), ?_⟩
        · simp [StagingArea.input, hdir]
        · simp [StagingArea.inputTemp]
  | rename kind artifacts idx =>
    simp only [StagingOp.exec] at hop' ⊢
    split at hop'
    · simp [StagingArea.goOn] at hop'
    · rename_i dir bytes hbind
      cases kind with
      | state => exact absurd (not_delivers_of_not_busy (not_busy_writeFrom (idx + 1) op' hop')) hdelivers
      | input =>
        obtain ⟨hlength, hbelow, htemp⟩ := h
        obtain ⟨found, hdir, hmap⟩ := Option.bind_eq_some_iff.mp hbind
        obtain ⟨written, hwritten, hsame⟩ := Option.map_eq_some_iff.mp hmap
        obtain ⟨rfl, rfl⟩ := Prod.mk.inj hsame
        have hbytes : artifacts[idx]? = some written := by
          rw [← htemp, StagingArea.inputTemp, hdir]
          exact hwritten
        refine assures_writeFrom hlength (fun i hi => ?_) op' hop'
        obtain hlt | rfl := Nat.lt_succ_iff_lt_or_eq.mp hi
        · have hother : (⟨.input, i⟩ : ArtifactFile) ≠ ⟨.input, idx⟩ := by
            intro hsame
            have := (ArtifactFile.mk.inj hsame).2
            omega
          rw [← hbelow i hlt]
          simp [StagingArea.goOn, StagingArea.input, hdir, Function.update_of_ne hother]
        · simp [StagingArea.goOn, StagingArea.input, hbytes]
  | received kind artifacts => cases kind <;> simp [StagingOp.exec, StagingArea.goOn] at hop'
  | merge => exact assures_readFrom h 0 op' hop'
  | readInput idx =>
    simp only [StagingOp.exec] at hop' ⊢
    split at hop'
    · simp [StagingArea.goOn] at hop'
    · simp only [StagingArea.goOn] at hop' ⊢
      split at hop'
      · exact assures_readFrom h.2 (idx + 1) op' hop'
      · simp at hop'

private theorem next_not_delivers (h : op.delivers = false) :
    ∀ op' ∈ (op.exec keyset now area).next, op'.delivers = false := by
  intro op' hop'
  cases op with
  | scan | recheck =>
    simp only [StagingOp.exec, StagingArea.goOn] at hop'
    split at hop'
    · simp at hop'
    · obtain rfl := List.mem_singleton.mp hop'
      rfl
  | stat =>
    simp only [StagingOp.exec] at hop'
    split at hop'
    · simp [StagingArea.goOn] at hop'
    · simp only [StagingArea.goOn] at hop'
      split at hop'
      · simp at hop'
      · obtain rfl := List.mem_singleton.mp hop'
        rfl
  | upload kind | createDir kind | writeTemp kind | rename kind | received kind =>
    cases kind with
    | input => simp [StagingOp.delivers] at h
    | state => exact not_delivers_of_not_busy ((exec_free (by simp [StagingOp.busy, StagingOp.delivers,
        StagingOp.clears]) (by simp)).1 op' hop')
  | merge | readInput => simp [StagingOp.delivers] at h
  | _ => simp [StagingOp.exec, StagingArea.goOn] at hop'

/-- Before the first push of inputs nothing is delivered; from then on one task at most is busy with the directory,
and once a push was acknowledged none is until the tail merge comes. -/
private structure Staged (keyset : DeferralKeyset) (trace : List (StagingPool × StagingLabel)) (p : StagingPool) :
    Prop where
  unpushed : trace.any pushArrives = false → ∀ op ∈ p.ops, op.delivers = false
  single : trace.any pushArrives = true → p.ops.countP StagingOp.busy ≤ 1
  assured : ∀ op ∈ p.ops, Assures keyset p.state op
  ready : readyToMerge trace = true →
    trace.any pushArrives = true ∧ p.ops.countP StagingOp.busy = 0 ∧ Filled keyset p.state

private theorem countP_busy {ops : List StagingOp} (h : ∀ op ∈ ops, op.busy = false) : ops.countP StagingOp.busy = 0 :=
  List.countP_eq_zero.mpr fun op hop => Bool.eq_false_iff.mp (h op hop)

private theorem not_acknowledged (h : op.delivers = false) : acknowledged (q, .run op now) = false := by
  unfold acknowledged
  split
  · rename_i hlabel
    obtain ⟨rfl, -⟩ := TaskPool.Label.run.inj hlabel
    simp [StagingOp.delivers] at h
  · rfl

private theorem Staged.arrive_free (h : Staged keyset trace q) {task : List StagingOp}
    (htask : ∀ op ∈ task, op.busy = false) (hpush : pushArrives (q, .arrive task) = false)
    (hmerge : mergeArrives (q, .arrive task) = false) :
    Staged keyset ((q, .arrive task) :: trace) { q with tasks := task :: q.tasks } := by
  have hcount : (task ++ q.ops).countP StagingOp.busy = q.ops.countP StagingOp.busy := by
    rw [List.countP_append, countP_busy htask, Nat.zero_add]
  refine ⟨fun hnone op hop => ?_, fun hsome => ?_, fun op hop => ?_, fun hready => ?_⟩
  · rw [List.any_cons, hpush, Bool.false_or] at hnone
    rcases TaskPool.mem_ops_arrive.mp hop with hop | hop
    · exact not_delivers_of_not_busy (htask op hop)
    · exact h.unpushed hnone op hop
  · rw [List.any_cons, hpush, Bool.false_or] at hsome
    rw [TaskPool.ops_arrive, hcount]
    exact h.single hsome
  · rcases TaskPool.mem_ops_arrive.mp hop with hop | hop
    · exact assures_of_not_delivers (not_delivers_of_not_busy (htask op hop))
    · exact h.assured op hop
  · rw [readyToMerge, hpush, hmerge] at hready
    obtain ⟨hpushed, hidle, hfilled⟩ := h.ready (by simpa [acknowledged] using hready)
    rw [List.any_cons, hpush, Bool.false_or, TaskPool.ops_arrive, hcount]
    exact ⟨hpushed, hidle, hfilled⟩

private theorem Staged.arrive_appProve (h : Staged keyset trace q) (hnone : trace.any pushArrives = false) :
    Staged keyset ((q, .arrive [.accept, .deactivate, .removeDir]) :: trace)
      { q with tasks := [.accept, .deactivate, .removeDir] :: q.tasks } := by
  have htask : ∀ op ∈ [StagingOp.accept, .deactivate, .removeDir], op.delivers = false := by
    simp [StagingOp.delivers]
  refine ⟨fun _ op hop => ?_, fun hsome => ?_, fun op hop => ?_, fun hready => ?_⟩
  · rcases TaskPool.mem_ops_arrive.mp hop with hop | hop
    · exact htask op hop
    · exact h.unpushed hnone op hop
  · rw [List.any_cons, hnone] at hsome
    simp [pushArrives] at hsome
  · rcases TaskPool.mem_ops_arrive.mp hop with hop | hop
    · exact assures_of_not_delivers (htask op hop)
    · exact h.assured op hop
  · have hbefore : readyToMerge trace = true := by
      simpa [readyToMerge, acknowledged, pushArrives, mergeArrives] using hready
    rw [(h.ready hbefore).1] at hnone
    simp at hnone

private theorem Staged.arrive_delivery (h : Staged keyset trace q) {first : StagingOp}
    (hidle : q.ops.countP StagingOp.busy = 0) (hfirst : Assures keyset q.state first)
    (hpushed : ((q, TaskPool.Label.arrive [first]) :: trace).any pushArrives = true)
    (hready : readyToMerge ((q, .arrive [first]) :: trace) = false) :
    Staged keyset ((q, .arrive [first]) :: trace) { q with tasks := [first] :: q.tasks } := by
  refine ⟨fun hnone => ?_, fun _ => ?_, fun op hop => ?_, fun hsome => ?_⟩
  · rw [hpushed] at hnone
    simp at hnone
  · rw [TaskPool.ops_arrive, List.countP_append, hidle]
    exact List.countP_le_length
  · rcases TaskPool.mem_ops_arrive.mp hop with hop | hop
    · obtain rfl := List.mem_singleton.mp hop
      exact hfirst
    · exact h.assured op hop
  · rw [hready] at hsome
    simp at hsome

private theorem Staged.arrive (h : Staged keyset trace q) {task : List StagingOp} (htouches : Touches task)
    (horderly : orderly trace (q, .arrive task) = true) :
    Staged keyset ((q, .arrive task) :: trace) { q with tasks := task :: q.tasks } := by
  cases htouches with
  | appProve => exact h.arrive_appProve (by simpa [orderly] using horderly)
  | janitor => exact h.arrive_free (by simp [StagingOp.busy, StagingOp.delivers, StagingOp.clears]) rfl rfl
  | push kind artifacts =>
    cases kind with
    | state => exact h.arrive_free (by simp [StagingOp.busy, StagingOp.delivers, StagingOp.clears]) rfl rfl
    | input => exact h.arrive_delivery (countP_busy (by simpa [orderly] using horderly)) trivial rfl rfl
  | tailMerge =>
    obtain ⟨hpushed, hidle, hfilled⟩ := h.ready horderly
    exact h.arrive_delivery hidle hfilled hpushed rfl

private theorem Staged.run_unpushed (h : Staged keyset trace q) (hnone : trace.any pushArrives = false)
    (hstep : TaskPool.Step (StagingOp.exec keyset) q (.run op now) r) :
    Staged keyset ((q, .run op now) :: trace) r := by
  obtain ⟨-, others, hold, hnew⟩ := TaskPool.ops_run hstep
  rw [nothing_spawned, List.flatten_nil, List.append_nil] at hnew
  have hop := h.unpushed hnone op (TaskPool.op_mem hstep)
  have hafter : ∀ op' ∈ r.ops, op'.delivers = false := by
    intro op' hop'
    rcases List.mem_append.mp (hnew.mem_iff.mp hop') with hnext | hother
    · exact next_not_delivers hop op' hnext
    · exact h.unpushed hnone op' (hold.mem_iff.mpr (List.mem_cons_of_mem _ hother))
  refine ⟨fun _ => hafter, fun hsome => ?_, fun op' hop' => assures_of_not_delivers (hafter op' hop'), fun hready => ?_⟩
  · rw [List.any_cons, hnone] at hsome
    simp [pushArrives] at hsome
  · have hbefore : readyToMerge trace = true := by
      simpa [readyToMerge, not_acknowledged hop, pushArrives, mergeArrives] using hready
    rw [(h.ready hbefore).1] at hnone
    simp at hnone

private theorem Staged.run_free (h : Staged keyset trace q) (hpushed : trace.any pushArrives = true)
    (hfree : op.busy = false) (horderly : orderly trace (q, .run op now) = true)
    (hstep : TaskPool.Step (StagingOp.exec keyset) q (.run op now) r) :
    Staged keyset ((q, .run op now) :: trace) r := by
  obtain ⟨hstate, others, hold, hnew⟩ := TaskPool.ops_run hstep
  rw [nothing_spawned, List.flatten_nil, List.append_nil] at hnew
  have hfresh : op = .stat → ∀ dir, q.state.dir = some dir → now - dir.modified < staleUploadedInputTtl := by
    rintro rfl dir hdir
    simpa [orderly, hpushed, hdir] using horderly
  obtain ⟨hnext, hsame⟩ := @exec_free keyset _ _ _ hfree hfresh
  rw [← hstate] at hsame
  have hcount : r.ops.countP StagingOp.busy = q.ops.countP StagingOp.busy := by
    rw [hnew.countP_eq, hold.countP_eq, List.countP_append, countP_busy hnext, Nat.zero_add,
      List.countP_cons_of_neg (Bool.eq_false_iff.mp hfree)]
  have hpushed' : ((q, TaskPool.Label.run op now) :: trace).any pushArrives = true := by
    rw [List.any_cons, hpushed, Bool.or_true]
  refine ⟨fun hnone => ?_, fun _ => hcount ▸ h.single hpushed, fun op' hop' => ?_, fun hready => ?_⟩
  · rw [hpushed'] at hnone
    simp at hnone
  · rcases List.mem_append.mp (hnew.mem_iff.mp hop') with hop' | hother
    · exact assures_of_not_delivers (not_delivers_of_not_busy (hnext op' hop'))
    · exact hsame.assures (h.assured op' (hold.mem_iff.mpr (List.mem_cons_of_mem _ hother)))
  · have hbefore : readyToMerge trace = true := by
      simpa [readyToMerge, not_acknowledged (not_delivers_of_not_busy hfree), pushArrives, mergeArrives] using hready
    obtain ⟨-, hidle, hfilled⟩ := h.ready hbefore
    exact ⟨hpushed', hcount ▸ hidle, hsame.filled hfilled⟩

private theorem Staged.run_busy (h : Staged keyset trace q) (hpushed : trace.any pushArrives = true)
    (hbusy : op.busy = true) (hstep : TaskPool.Step (StagingOp.exec keyset) q (.run op now) r) :
    Staged keyset ((q, .run op now) :: trace) r := by
  obtain ⟨hstate, others, hold, hnew⟩ := TaskPool.ops_run hstep
  rw [nothing_spawned, List.flatten_nil, List.append_nil] at hnew
  have hsingle : others.countP StagingOp.busy + 1 ≤ 1 := by
    rw [← List.countP_cons_of_pos hbusy, ← hold.countP_eq]
    exact h.single hpushed
  have hidle : others.countP StagingOp.busy = 0 := by omega
  have hothers : ∀ op' ∈ others, op'.busy = false := fun op' hop' =>
    Bool.eq_false_iff.mpr (List.countP_eq_zero.mp hidle op' hop')
  have hpushed' : ((q, TaskPool.Label.run op now) :: trace).any pushArrives = true := by
    rw [List.any_cons, hpushed, Bool.or_true]
  refine ⟨fun hnone => ?_, fun _ => ?_, fun op' hop' => ?_, fun hready => ⟨hpushed', ?_⟩⟩
  · rw [hpushed'] at hnone
    simp at hnone
  · rw [hnew.countP_eq, List.countP_append, hidle, Nat.add_zero]
    exact Nat.le_trans List.countP_le_length (next_length keyset now q.state op)
  · rcases List.mem_append.mp (hnew.mem_iff.mp hop') with hop' | hother
    · exact hstate ▸ assures_next (h.assured op (TaskPool.op_mem hstep)) op' hop'
    · exact assures_of_not_delivers (not_delivers_of_not_busy (hothers op' hother))
  · by_cases hack : acknowledged (q, .run op now) = true
    · unfold acknowledged at hack
      split at hack
      · rename_i artifacts now' hlabel
        obtain ⟨rfl, -⟩ := TaskPool.Label.run.inj hlabel
        obtain ⟨hlength, hbelow⟩ := h.assured _ (TaskPool.op_mem hstep)
        refine ⟨?_, hstate ▸ ⟨artifacts, rfl, hlength, hbelow⟩⟩
        rw [hnew.countP_eq, List.countP_append, hidle]
        rfl
      · simp at hack
    · have hbefore : readyToMerge trace = true := by
        simpa [readyToMerge, Bool.eq_false_iff.mpr hack, pushArrives, mergeArrives] using hready
      have hnone := (h.ready hbefore).2.1
      rw [hold.countP_eq, List.countP_cons_of_pos hbusy] at hnone
      omega

private theorem staged_trace (htrace : StagingTrace keyset trace p) (horderly : orderlyTrace trace = true) :
    Staged keyset trace p := by
  refine htrace.invariant (I := fun trace p => orderlyTrace trace = true → Staged keyset trace p) (fun _ => ?_)
    (fun trace q l r h hallowed hstep horderly => ?_) horderly
  · exact ⟨by simp [TaskPool.Pool.ops], by simp, by simp [TaskPool.Pool.ops], by simp [readyToMerge]⟩
  · obtain ⟨hentry, horderly⟩ := (Bool.and_eq_true _ _).mp horderly
    have h := h horderly
    cases l with
    | arrive task =>
      cases hstep
      exact h.arrive (hallowed task rfl) hentry
    | run op now =>
      cases hpushed : trace.any pushArrives with
      | false => exact h.run_unpushed hpushed hstep
      | true =>
        cases hbusy : op.busy with
        | false => exact h.run_free hpushed hbusy hentry hstep
        | true => exact h.run_busy hpushed hbusy hstep

private theorem orderlyTrace_append {recent older : List (StagingPool × StagingLabel)}
    (h : orderlyTrace (recent ++ older) = true) : orderlyTrace older = true := by
  induction recent with
  | nil => exact h
  | cons entry recent ih => exact ih ((Bool.and_eq_true _ _).mp h).2

/-- In every run whose steps come in order, each tail merge after an acknowledged push reads the pushed bytes. -/
theorem delivered_of_orderly (htrace : StagingTrace keyset trace p) (horderly : orderlyTrace trace = true) :
    Delivered trace := by
  intro recent entry older artifacts circuitIdx hsplit hafter
  obtain ⟨pool, label⟩ := entry
  obtain ⟨⟨now, hlabel⟩, hacked⟩ := hafter
  obtain rfl : label = .run (.readInput circuitIdx) now := hlabel
  have hmem : (pool, TaskPool.Label.run (.readInput circuitIdx) now) ∈ trace := by simp [hsplit]
  obtain ⟨-, next, hstep⟩ := htrace.step_of_mem hmem
  rw [hsplit] at horderly
  have hstaged := staged_trace (htrace.before hsplit) ((Bool.and_eq_true _ _).mp (orderlyTrace_append horderly)).2
  obtain ⟨hlt, artifacts', hacked', -, hbelow⟩ := hstaged.assured _ (TaskPool.op_mem hstep)
  obtain rfl := Option.some.inj (hacked.symm.trans hacked')
  exact hbelow circuitIdx hlt

end

def sampleKeyset : DeferralKeyset := ⟨1, fun _ => true⟩

def sampleTouches (_ : StagingPool) : StagingLabel → Bool
  | .arrive task => decide (task ∈ [[.accept, .deactivate, .removeDir], [.scan], [.upload .input [[1]]], [.merge]])
  | .run _ _ => true

private theorem touches_of_sampleTouches (q : StagingPool) (l : StagingLabel) (h : sampleTouches q l = true) :
    TouchesDir q l := by
  rintro task rfl
  simp only [sampleTouches, decide_eq_true_eq, List.mem_cons, List.not_mem_nil, or_false] at h
  obtain rfl | rfl | rfl | rfl := h
  · exact .appProve
  · exact .janitor
  · exact .push _ _
  · exact .tailMerge

/-- The tail merge read this of the first circuit's file, after the bundle `[[1]]` was acknowledged. -/
def lastRead (found : Option Bytes) : List (StagingPool × StagingLabel) → Bool
  | (q, .run (.readInput 0) _) :: _ => q.state.acked == some [[1]] && q.state.input 0 == found
  | _ => false

private theorem readAfter_of_lastRead {found : Option Bytes} {trace : List (StagingPool × StagingLabel)}
    (h : lastRead found trace = true) :
    ∃ entry older, trace = entry :: older ∧ ReadAfter [[1]] 0 entry ∧ entry.1.state.input 0 = found := by
  unfold lastRead at h
  split at h
  · rename_i q now older
    simp only [Bool.and_eq_true, beq_iff_eq] at h
    exact ⟨_, older, rfl, ⟨⟨now, rfl⟩, h.1⟩, h.2⟩
  · simp at h

/-- The app prove cleans up, the manager pushes the input, a janitor pass looks at the directory, and the tail merge
reads the file. -/
def cleanedUp : List (TaskPool.Move Time StagingOp) :=
  [.arrive [.accept, .deactivate, .removeDir], .run 0 0, .run 0 1, .run 0 2, .arrive [.upload .input [[1]]], .run 0 3,
    .run 0 4, .run 0 5, .arrive [.scan], .run 0 6, .run 1 7, .run 1 8, .arrive [.merge], .run 1 9, .run 0 10, .run 0 11]

theorem delivered_sample : ∃ trace p, StagingTrace sampleKeyset trace p ∧ Delivered trace ∧
    ∃ entry ∈ trace, ReadAfter [[1]] 0 entry ∧ entry.1.state.input 0 = some [1] := by
  obtain ⟨trace, p, htrace, hp⟩ := TaskPool.exists_trace_of_record (StagingOp.exec sampleKeyset) sampleTouches
    (⟨.start, []⟩ : StagingPool) cleanedUp (fun played => orderlyTrace played.1 && lastRead (some [1]) played.1)
    (by decide)
  obtain ⟨horderly, hread⟩ := (Bool.and_eq_true _ _).mp hp
  obtain ⟨entry, older, rfl, hafter, hfound⟩ := readAfter_of_lastRead hread
  have htouches := htrace.mono touches_of_sampleTouches
  exact ⟨_, p, htouches, delivered_of_orderly htouches horderly, entry, List.mem_cons_self, hafter, hfound⟩

/-- The app prove of the worker reported its last segment and has not cleaned up yet; the manager pushes
the input and dispatches the final internal proof; the cleanup comes before the tail merge reads. -/
def lateCleanup : List (TaskPool.Move Time StagingOp) :=
  [.arrive [.accept, .deactivate, .removeDir], .run 0 0, .arrive [.upload .input [[1]]], .run 0 1, .run 0 2, .run 0 3,
    .run 0 4, .run 0 5, .arrive [.merge], .run 0 6, .run 2 7, .run 2 8, .run 0 9]

/-- The tail merge finds no file, though its push was acknowledged. -/
theorem push_lost : ∃ trace p, StagingTrace sampleKeyset trace p ∧ ¬ Delivered trace := by
  obtain ⟨trace, p, htrace, hread⟩ := TaskPool.exists_trace_of_record (StagingOp.exec sampleKeyset) sampleTouches
    (⟨.start, []⟩ : StagingPool) lateCleanup (fun played => lastRead none played.1) (by decide)
  obtain ⟨entry, older, rfl, hafter, hlost⟩ := readAfter_of_lastRead hread
  refine ⟨_, p, htrace.mono touches_of_sampleTouches, fun hdelivered => ?_⟩
  have hfound := hdelivered [] entry older [[1]] 0 rfl hafter
  rw [hlost] at hfound
  simp at hfound

end EdgeProver
