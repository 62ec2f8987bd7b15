import EdgeProver.Lib.KeyedList
import EdgeProver.Manager.Handlers
import EdgeProver.ProofState.Persistence

/-! `POST /upload_input/{proof_uuid}`: the parts of one multipart body become the staged inputs of a proof. Each part
names its artifact, and what is staged is the last part of each name. -/
namespace EdgeProver

/-- One part of the body, with what reading its bytes gave. -/
structure Part where
  name : Option String
  bytes : Except String Bytes

/-- The parts up to the end of the body, or up to where it is malformed. -/
structure Multipart where
  parts : List Part
  malformed : Option String

def stripPrefix (pre name : String) : Option String :=
  if pre.toList.isPrefixOf name.toList then some (String.ofList (name.toList.drop pre.toList.length)) else none

/-- `str::parse::<usize>`: decimal digits, of a word, behind an optional `+`. -/
def parseUsize (idx : String) : Option Nat :=
  let digits :=
    match idx.toList with
    | '+' :: digits => digits
    | digits => digits
  if digits.isEmpty || !digits.all Char.isDigit then none
  else
    let value := digits.foldl (fun value digit => value * 10 + (digit.toNat - '0'.toNat)) 0
    if value < 2 ^ 64 then some value else none

example : ["0", "+7", "007", "", "+", "-1", "18446744073709551616"].map parseUsize =
    [some 0, some 7, some 7, none, none, none, none] := by decide

namespace StagedInputs

def insertPart (staged : StagedInputs) (name : String) (bytes : Bytes) : Except String StagedInputs :=
  if name = "input" then .ok { staged with main := some bytes }
  else
    match stripPrefix "deferral_state_" name with
    | some idx =>
      match parseUsize idx with
      | some i => .ok { staged with deferralStates := KeyedList.insertOrdered i bytes staged.deferralStates }
      | none => .error s!"Invalid multipart part name `{name}` (expected deferral_state_<idx>)"
    | none =>
      match stripPrefix "deferral_input_" name with
      | some idx =>
        match parseUsize idx with
        | some i => .ok { staged with deferralInputs := KeyedList.insertOrdered i bytes staged.deferralInputs }
        | none => .error s!"Invalid multipart part name `{name}` (expected deferral_input_<idx>)"
      | none => .error s!"Unexpected multipart part `{name}`"

/-- The `next_field` loop. -/
def stageParts (malformed : Option String) (staged : StagedInputs) : List Part → Except String StagedInputs
  | [] =>
    match malformed with
    | some e => .error s!"Malformed multipart body: {e}"
    | none => .ok staged
  | part :: parts =>
    let name := part.name.getD ""
    match part.bytes with
    | .error e => .error s!"Failed to read multipart part `{name}`: {e}"
    | .ok bytes =>
      match staged.insertPart name bytes with
      | .error e => .error e
      | .ok staged => stageParts malformed staged parts

end StagedInputs

/-- What `upload_input` stages, or the text it rejects the request with. -/
def uploadInput (proofUuid : String) (body : Multipart) : Except String StagedInputs :=
  match validateManagerProofUuid proofUuid with
  | .error reason => .error s!"Invalid proof_uuid: {reason}"
  | .ok () => StagedInputs.empty.stageParts body.malformed body.parts

/-- What a part's name stands for. -/
inductive Artifact where
  | main
  | state (circuitIdx : Nat)
  | input (circuitIdx : Nat)
  deriving DecidableEq, Repr

def Part.artifact (part : Part) : Option Artifact :=
  let name := part.name.getD ""
  if name = "input" then some .main
  else
    match stripPrefix "deferral_state_" name with
    | some idx => (parseUsize idx).map .state
    | none => (stripPrefix "deferral_input_" name).bind fun idx => (parseUsize idx).map .input

/-- The bytes the part has for an artifact. -/
def Part.uploads (artifact : Artifact) (part : Part) : Option Bytes :=
  if part.artifact = some artifact then part.bytes.toOption else none

/-- The bytes of the last part for an artifact. -/
def lastUploaded (artifact : Artifact) (parts : List Part) : Option Bytes :=
  (parts.filterMap (Part.uploads artifact)).getLast?

def StagedInputs.artifact (staged : StagedInputs) : Artifact → Option Bytes
  | .main => staged.main
  | .state circuitIdx => staged.deferralStates.lookup circuitIdx
  | .input circuitIdx => staged.deferralInputs.lookup circuitIdx

structure StagedInputs.Ordered (staged : StagedInputs) : Prop where
  states : (staged.deferralStates.map Prod.fst).Pairwise (· < ·)
  inputs : (staged.deferralInputs.map Prod.fst).Pairwise (· < ·)

section
variable {staged staged' : StagedInputs} {part : Part} {parts : List Part} {malformed : Option String}
  {artifact : Artifact} {bytes : Bytes}

private theorem lastUploaded_cons (artifact : Artifact) (part : Part) (parts : List Part) :
    lastUploaded artifact (part :: parts) = (lastUploaded artifact parts).or (part.uploads artifact) := by
  cases hpart : part.uploads artifact with
  | none => rw [lastUploaded, List.filterMap_cons_none hpart, Option.or_none, lastUploaded]
  | some bytes =>
    rw [lastUploaded, List.filterMap_cons_some hpart, List.getLast?_cons, ← lastUploaded]
    cases lastUploaded artifact parts <;> rfl

/-- A part that is accepted names an artifact, and replaces what was staged for it. -/
theorem insertPart_ok (h : staged.insertPart (part.name.getD "") bytes = .ok staged') :
    ∃ named, part.artifact = some named ∧
      (∀ other, staged'.artifact other = if other = named then some bytes else staged.artifact other) ∧
      (staged.Ordered → staged'.Ordered) := by
  rw [StagedInputs.insertPart] at h
  rw [Part.artifact]
  split at h
  · next hmain =>
    rw [if_pos hmain]
    obtain rfl := Except.ok.inj h
    refine ⟨.main, rfl, fun other => ?_, fun hordered => ⟨hordered.states, hordered.inputs⟩⟩
    cases other <;> rfl
  · next hmain =>
    rw [if_neg hmain]
    split at h
    · next idx hstate =>
      split at h
      · next i hi =>
        obtain rfl := Except.ok.inj h
        rw [hi]
        refine ⟨.state i, rfl, fun other => ?_, fun hordered => ?_⟩
        · cases other with
          | state j => simp [StagedInputs.artifact]
          | main | input j => rfl
        · exact ⟨KeyedList.sorted_insertOrdered hordered.states, hordered.inputs⟩
      · cases h
    · next hstate =>
      split at h
      · next idx hinput =>
        split at h
        · next i hi =>
          obtain rfl := Except.ok.inj h
          rw [hinput, Option.bind_some, hi]
          refine ⟨.input i, rfl, fun other => ?_, fun hordered => ?_⟩
          · cases other with
            | input j => simp [StagedInputs.artifact]
            | main | state j => rfl
          · exact ⟨hordered.states, KeyedList.sorted_insertOrdered hordered.inputs⟩
        · cases h
      · cases h

/-- Staging the parts of a body leaves for each artifact its last part, or what was there before. -/
theorem stageParts_ok (h : staged.stageParts malformed parts = .ok staged') :
    (∀ artifact, staged'.artifact artifact = (lastUploaded artifact parts).or (staged.artifact artifact)) ∧
      (staged.Ordered → staged'.Ordered) := by
  induction parts generalizing staged with
  | nil =>
    cases malformed with
    | some e => cases h
    | none =>
      obtain rfl := Except.ok.inj h
      exact ⟨fun artifact => rfl, id⟩
  | cons part parts ih =>
    rw [StagedInputs.stageParts] at h
    split at h
    · cases h
    · next bytes hbytes =>
      split at h
      · cases h
      · next next' hinsert =>
        obtain ⟨named, hnamed, hlookup, hordered⟩ := insertPart_ok hinsert
        obtain ⟨hrest, hrestOrdered⟩ := ih h
        refine ⟨fun artifact => ?_, hrestOrdered ∘ hordered⟩
        rw [hrest, lastUploaded_cons, Option.or_assoc, hlookup, Part.uploads, hnamed, hbytes]
        by_cases hartifact : artifact = named
        · rw [if_pos hartifact, if_pos (congrArg some hartifact.symm)]
          rfl
        · rw [if_neg hartifact, if_neg fun he => hartifact (Option.some.inj he).symm]
          rfl

/-- What `upload_input` stages is the last part of each name, in the order of the circuits. -/
theorem uploadInput_ok {proofUuid : String} {body : Multipart} (h : uploadInput proofUuid body = .ok staged) :
    (∀ artifact, staged.artifact artifact = lastUploaded artifact body.parts) ∧ staged.Ordered := by
  rw [uploadInput] at h
  split at h
  · cases h
  · obtain ⟨hlookup, hordered⟩ := stageParts_ok h
    constructor
    · intro artifact
      rw [hlookup]
      cases artifact <;> exact Option.or_none
    · exact hordered ⟨List.Pairwise.nil, List.Pairwise.nil⟩

/-- The circuits of the entries are those below `count`. -/
def StagedInputs.Contiguous (staged : StagedInputs) (count : Nat) : Prop :=
  (∀ i, (staged.artifact (.state i)).isSome ↔ i < count) ∧ ∀ i, (staged.artifact (.input i)).isSome ↔ i < count

private theorem StagedInputs.Contiguous.states_keys {count : Nat} (h : staged.Contiguous count)
    (hordered : staged.Ordered) :
    staged.deferralStates.map Prod.fst = List.range count :=
  KeyedList.eq_range_of_sorted hordered.states fun i => by rw [← KeyedList.lookup_isSome]; exact h.1 i

theorem StagedInputs.Contiguous.inputs_keys {count : Nat} (h : staged.Contiguous count) (hordered : staged.Ordered) :
    staged.deferralInputs.map Prod.fst = List.range count :=
  KeyedList.eq_range_of_sorted hordered.inputs fun i => by rw [← KeyedList.lookup_isSome]; exact h.2 i

theorem StagedInputs.Contiguous.length {count : Nat} (h : staged.Contiguous count) (hordered : staged.Ordered) :
    staged.deferralStates.length = count := by
  rw [← List.length_map (f := Prod.fst), h.states_keys hordered, List.length_range]

/-- The test of `start_proof` by two counts finds every gap, surplus index and mismatch. -/
theorem deferralComplete_iff (hordered : staged.Ordered) :
    staged.deferralComplete = true ↔ ∃ count, staged.Contiguous count := by
  rw [StagedInputs.deferralComplete]
  rw [Bool.and_eq_true, List.all_eq_true, beq_iff_eq]
  constructor
  · rintro ⟨hall, hlength⟩
    have hboth : ∀ i < staged.deferralStates.length,
        i ∈ staged.deferralStates.map Prod.fst ∧ i ∈ staged.deferralInputs.map Prod.fst := by
      intro i hi
      have hfound := hall i (List.mem_range.mpr hi)
      rw [Bool.and_eq_true] at hfound
      exact ⟨KeyedList.lookup_isSome.mp hfound.1, KeyedList.lookup_isSome.mp hfound.2⟩
    refine ⟨staged.deferralStates.length, fun i => ?_, fun i => ?_⟩
    · rw [StagedInputs.artifact, KeyedList.lookup_isSome]
      exact KeyedList.mem_iff_lt_of_length (List.length_map _) (fun j hj => (hboth j hj).1) i
    · rw [StagedInputs.artifact, KeyedList.lookup_isSome]
      exact KeyedList.mem_iff_lt_of_length ((List.length_map _).trans hlength) (fun j hj => (hboth j hj).2) i
  · rintro ⟨count, hcontiguous⟩
    have hlength := hcontiguous.length hordered
    refine ⟨fun i hi => ?_, ?_⟩
    · rw [List.mem_range, hlength] at hi
      rw [Bool.and_eq_true]
      exact ⟨(hcontiguous.1 i).mpr hi, (hcontiguous.2 i).mpr hi⟩
    · rw [hlength, ← List.length_map (f := Prod.fst), hcontiguous.inputs_keys hordered, List.length_range]

end

end EdgeProver
