import Mathlib.Data.List.Basic
import Mathlib.Logic.Relation
import EdgeProver.Worker.Executor

/-! From which snapshots the executor's segments are proved, and how many it keeps. -/
namespace EdgeProver

inductive Ending where
  | exits (code : Nat)
  /-- The last suspend carries an error for an exit code. -/
  | traps (report : String)
  /-- The call after the last suspend fails. -/
  | fails (report : String)

def Ending.isExit : Ending → Bool
  | .exits _ => true
  | .traps _ | .fails _ => false

/-- A metered execution of a program, whose `k`-th suspend closes segment `k` and lies inside segment `k + 1`. -/
structure MeteredRun (σ : Type) where
  initial : σ
  segments : List Segment
  vmStates : Nat → σ
  instrets : Nat → Nat
  ending : Ending
  first : ∀ segment, segments[0]? = some segment → segment.instretStart = 0
  contiguous : ∀ (k : Nat) (segment next : Segment), segments[k]? = some segment → segments[k + 1]? = some next →
    next.instretStart = segment.instretStart + segment.numInsns
  inside : ∀ (k : Nat) (next : Segment), segments[k + 1]? = some next →
    next.instretStart ≤ instrets k ∧ instrets k ≤ next.instretStart + next.numInsns

structure CheckedJob where
  job : ShardedAppProverJob
  proverId_lt : job.proverId < job.numProvers

namespace MeteredRun
variable {σ : Type} (run : MeteredRun σ)

def execState (k : Nat) : ExecState σ where
  vmState := run.vmStates k
  exitCode :=
    if k + 1 = run.segments.length then
      match run.ending with
      | .exits code => .ok (some code)
      | .traps report => .error report
      | .fails _ => .ok none
    else .ok none
  segments := run.segments.take (k + 1)
  instret := run.instrets k

def isTerminal (segment : Nat) : Bool := segment + 1 == run.segments.length && run.ending.isExit

variable {run} in
theorem isTerminal_exits {code : Nat} (hexits : run.ending = .exits code) (segment : Nat) :
    run.isTerminal segment = (segment + 1 == run.segments.length) := by
  rw [isTerminal, hexits, Ending.isExit, Bool.and_true]

variable {run} in
theorem isTerminal_inner {segment : Nat} (h : segment + 1 < run.segments.length) : run.isTerminal segment = false := by
  rw [isTerminal, beq_eq_false_iff_ne.mpr (Nat.ne_of_lt h), Bool.false_and]

def metered : Metered σ := fun k =>
  if k < run.segments.length then .ok (run.execState k)
  else
    match run.ending with
    | .fails report => .error report
    | _ => .error "already terminated"

/-- The snapshot that counts as starting in a segment: the seed in segment 0, the one of the suspend that closes
segment `k` in segment `k + 1`. -/
def startingIn : Nat → VmSnapshot σ
  | 0 => ⟨run.initial, 0⟩
  | k + 1 => ⟨run.vmStates k, run.instrets k⟩

end MeteredRun

def ShardedAppProverJob.owns (job : ShardedAppProverJob) (segment : Nat) : Bool :=
  segment % job.numProvers == job.proverId

namespace Executor
section
variable {σ : Type} (job : ShardedAppProverJob)

/-- The segments that the snapshots in the deque start in, once segment `c` is taken care of: the one before the next
segment, if that is owned. -/
def kept (c : Nat) : List Nat := ([c + 1].filter job.owns).map (· - 1)

/-- The same when the round of segment `c` begins. -/
def pending (c : Nat) : List Nat :=
  if job.numProvers = 1 ∧ c = 0 then [0] else ([c, c + 1].filter job.owns).map (· - 1)

variable {job} (hid : job.proverId < job.numProvers)
include hid

private theorem saves_eq (c : Nat) : savesSnapshotAt c job.numProvers job.proverId = job.owns (c + 2) := by
  unfold savesSnapshotAt ShardedAppProverJob.owns
  rcases Nat.lt_or_ge 1 job.numProvers with hmany | hone
  · rw [beq_eq_false_iff_ne.mpr (Nat.ne_of_gt hmany), Bool.false_or]
  · have hp : job.numProvers = 1 := by omega
    have hid0 : job.proverId = 0 := by omega
    simp [hp, hid0, Nat.mod_one]

private theorem pending_start : pending job 0 = if seedsInitialSnapshot job.proverId then [0] else [] := by
  unfold pending seedsInitialSnapshot
  rcases Nat.lt_or_ge 1 job.numProvers with hmany | hone
  · have hmod : 1 % job.numProvers = 1 := Nat.mod_eq_of_lt hmany
    rw [if_neg (by omega)]
    rcases Nat.lt_or_ge job.proverId 2 with hlow | hhigh
    · obtain h0 | h1 : job.proverId = 0 ∨ job.proverId = 1 := by omega
      · simp [ShardedAppProverJob.owns, hmod, h0]
      · simp [ShardedAppProverJob.owns, hmod, h1]
    · have h0 : ¬ 0 = job.proverId := by omega
      have h1 : ¬ 1 = job.proverId := by omega
      simp [ShardedAppProverJob.owns, hmod, h0, h1]
      omega
  · have hp : job.numProvers = 1 := by omega
    have hid0 : job.proverId = 0 := by omega
    simp [hp, hid0]

omit hid in
private theorem length_pending (c : Nat) : (pending job c).length ≤ 2 := by
  unfold pending
  split
  · exact Nat.le_succ 1
  · rw [List.length_map]
    exact List.length_filter_le _ _

omit hid in
private theorem length_kept (c : Nat) : (kept job c).length ≤ 2 := by
  rw [kept, List.length_map]
  exact Nat.le_succ_of_le (List.length_filter_le _ _)

private theorem pending_owned {c : Nat} (howns : job.owns c = true) :
    ∃ rest, pending job c = (c - 1) :: rest ∧
      (if job.numProvers = 1 ∧ c = 0 then (c - 1) :: rest else rest) = kept job c := by
  unfold pending
  by_cases hpeek : job.numProvers = 1 ∧ c = 0
  · obtain ⟨hp, rfl⟩ := hpeek
    have hid0 : job.proverId = 0 := by omega
    refine ⟨[], if_pos ⟨hp, rfl⟩, ?_⟩
    rw [if_pos ⟨hp, rfl⟩]
    simp [kept, ShardedAppProverJob.owns, hp, hid0]
  · rw [if_neg hpeek]
    refine ⟨kept job c, ?_, if_neg hpeek⟩
    rw [List.filter_cons_of_pos howns, List.map_cons]
    rfl

private theorem pending_other {c : Nat} (hother : job.owns c = false) : pending job c = kept job c := by
  have hmany : 1 < job.numProvers := by
    by_contra hone
    have hp : job.numProvers = 1 := by omega
    have hid0 : job.proverId = 0 := by omega
    simp [ShardedAppProverJob.owns, hp, hid0, Nat.mod_one] at hother
  rw [pending, if_neg (by omega), List.filter_cons_of_neg (by simp [hother])]
  rfl

omit hid in
private theorem pending_next (c : Nat) :
    pending job (c + 1) = kept job c ++ if job.owns (c + 2) then [c + 1] else [] := by
  rw [pending, if_neg (by omega), kept]
  by_cases hnext : job.owns (c + 1) = true
  · by_cases hafter : job.owns (c + 2) = true
    · simp [hnext, hafter]
    · simp [hnext, hafter]
  · by_cases hafter : job.owns (c + 2) = true
    · simp [hnext, hafter]
    · simp [hnext, hafter]

variable {run : MeteredRun σ}

private theorem takeSnapshot_pending {c : Nat} (howns : job.owns c = true) :
    takeSnapshot job c ((pending job c).map run.startingIn) =
      .ok (run.startingIn (c - 1), (kept job c).map run.startingIn) := by
  obtain ⟨rest, hpending, hkept⟩ := pending_owned hid howns
  rw [hpending, ← hkept, List.map_cons, takeSnapshot]
  split <;> rfl

end

/-- The segment is sent with the snapshot that starts in the segment before it. -/
structure Scheduled {σ : Type} (run : MeteredRun σ) (c : Nat) (data : ProveData σ) : Prop where
  segmentIdx : data.segmentIdx = c
  snapshot : data.snapshot = run.startingIn (c - 1)
  segment : run.segments[c]? = some data.segment
  isFinal : data.isFinal = true → c + 1 = run.segments.length

def OnSchedule {σ : Type} (job : ShardedAppProverJob) (run : MeteredRun σ) : Executor σ → Prop
  | .suspended calls snapshots =>
    calls ≤ run.segments.length ∧ snapshots = (pending job calls).map run.startingIn
  | .sending calls snapshots execState data =>
    calls < run.segments.length ∧ job.owns calls = true ∧ snapshots = (kept job calls).map run.startingIn ∧
      execState = run.execState calls ∧ Scheduled run calls data
  | .reporting segments => segments = run.segments
  | .returned result => ∀ r, result = .ok r → r.segments = run.segments ∧ r.numSegments = run.segments.length
  | .panicked _ => False

section
variable {σ : Type} {job : ShardedAppProverJob} (hid : job.proverId < job.numProvers) {run : MeteredRun σ}
include hid

omit hid in
theorem length_segments {c : Nat} (hc : c < run.segments.length) :
    (run.execState c).segments.length = c + 1 := by
  rw [MeteredRun.execState, List.length_take]
  omega

theorem onSchedule_start : OnSchedule job run (start job run.initial) := by
  refine ⟨Nat.zero_le _, ?_⟩
  rw [pending_start hid]
  split <;> rfl

private theorem onSchedule_endRound {c : Nat} (hc : c < run.segments.length) {shouldBreak : Bool}
    (hlast : shouldBreak = true → c + 1 = run.segments.length) :
    OnSchedule job run (endRound job c ((kept job c).map run.startingIn) (run.execState c) shouldBreak) := by
  unfold endRound
  rw [length_segments hc, Nat.add_sub_cancel, saves_eq hid]
  cases shouldBreak with
  | true =>
    show (run.execState c).segments = run.segments
    rw [MeteredRun.execState, hlast rfl, List.take_length]
  | false =>
    have hnext := @pending_next job c
    by_cases hsaves : job.owns (c + 2) = true
    · rw [if_pos hsaves] at hnext
      rw [if_neg Bool.false_ne_true, if_pos hsaves]
      refine ⟨hc, ?_⟩
      rw [hnext, List.map_append]
      rfl
    · rw [if_neg hsaves, List.append_nil] at hnext
      rw [if_neg Bool.false_ne_true, if_neg hsaves]
      exact ⟨hc, by rw [hnext]⟩

omit hid in
private theorem last_of_exitCode {c : Nat} {exitCode : Option Nat} (hexit : (run.execState c).exitCode = .ok exitCode)
    (hsome : exitCode.isSome = true) : c + 1 = run.segments.length := by
  by_contra hmore
  simp only [MeteredRun.execState, if_neg hmore, Except.ok.injEq] at hexit
  rw [← hexit] at hsome
  cases hsome

/-- A round whose program goes on or exits sends the segment from the snapshot that the schedule has for it, or ends. -/
private theorem round_cases {c : Nat} (hc : c < run.segments.length) {shouldBreak : Bool} :
    let round : Executor σ :=
      if c % job.numProvers = job.proverId then
        match takeSnapshot job c ((pending job c).map run.startingIn) with
        | .error message => .panicked message
        | .ok (snapshot, rest) =>
          match (run.execState c).segments[c]? with
          | none => .panicked "index out of bounds"
          | some segment => .sending c rest (run.execState c) ⟨snapshot, segment, c, shouldBreak⟩
      else endRound job c ((pending job c).map run.startingIn) (run.execState c) shouldBreak
    job.owns c = true ∧ (∃ segment, run.segments[c]? = some segment ∧
        round = .sending c ((kept job c).map run.startingIn) (run.execState c)
          ⟨run.startingIn (c - 1), segment, c, shouldBreak⟩) ∨
      job.owns c = false ∧ round = endRound job c ((kept job c).map run.startingIn) (run.execState c) shouldBreak := by
  intro round
  by_cases howns : job.owns c = true
  · have hsegment : (run.execState c).segments[c]? = run.segments[c]? :=
      List.getElem?_take_of_lt (Nat.lt_succ_self c)
    obtain ⟨segment, hsome⟩ : ∃ segment, run.segments[c]? = some segment := ⟨_, List.getElem?_eq_getElem hc⟩
    refine .inl ⟨howns, segment, hsome, ?_⟩
    simp only [round]
    rw [if_pos (beq_iff_eq.mp howns), takeSnapshot_pending hid howns, hsegment, hsome]
  · have hother : job.owns c = false := Bool.eq_false_iff.mpr howns
    refine .inr ⟨hother, ?_⟩
    simp only [round]
    rw [if_neg (fun h => howns (beq_iff_eq.mpr h)), pending_other hid hother]

/-- What a round comes to up to its send: the program has failed, or the segment is sent with the snapshot that the
schedule has for it, or it is another prover's and the round ends. -/
theorem resume_cases (c : Nat) :
    (∃ e, resume job run.metered c ((pending job c).map run.startingIn) = .returned (.error e)) ∨
      ∃ shouldBreak : Bool, c < run.segments.length ∧ (shouldBreak = true → c + 1 = run.segments.length) ∧
        (job.owns c = true ∧ (∃ segment, run.segments[c]? = some segment ∧
          resume job run.metered c ((pending job c).map run.startingIn) =
            .sending c ((kept job c).map run.startingIn) (run.execState c)
              ⟨run.startingIn (c - 1), segment, c, shouldBreak⟩) ∨
        job.owns c = false ∧ resume job run.metered c ((pending job c).map run.startingIn) =
          endRound job c ((kept job c).map run.startingIn) (run.execState c) shouldBreak) := by
  unfold resume MeteredRun.metered
  by_cases hc : c < run.segments.length
  · rw [if_pos hc]
    dsimp only
    rw [length_segments hc, Nat.add_sub_cancel]
    have hround := @round_cases σ job hid run c hc
    cases hexit : (run.execState c).exitCode with
    | error e => exact .inl ⟨e, rfl⟩
    | ok exitCode =>
      have hlast := @last_of_exitCode σ run c exitCode hexit
      match exitCode with
      | some (code + 1) => exact .inl ⟨_, rfl⟩
      | some 0 => exact .inr ⟨true, hc, hlast, @hround true⟩
      | none => exact .inr ⟨false, hc, hlast, @hround false⟩
  · rw [if_neg hc]
    cases run.ending <;> exact .inl ⟨_, rfl⟩

theorem onSchedule_resume (c : Nat) :
    OnSchedule job run (resume job run.metered c ((pending job c).map run.startingIn)) := by
  obtain ⟨e, hfailed⟩ | ⟨shouldBreak, hc, hlast, ⟨howns, segment, hsome, hsending⟩ | ⟨-, hother⟩⟩ :=
    @resume_cases σ job hid run c
  · rw [hfailed]
    exact fun r hr => nomatch hr
  · rw [hsending]
    exact ⟨hc, howns, rfl, rfl, rfl, rfl, hsome, hlast⟩
  · rw [hother]
    exact onSchedule_endRound hid hc hlast

omit hid in
theorem onSchedule_report (encodeSegments : List Segment → Except String (List Bytes)) :
    OnSchedule job run (report job encodeSegments run.segments).1 := by
  unfold report
  split
  · split
    · exact fun r hr => nomatch hr
    · exact fun r hr => Except.ok.inj hr ▸ ⟨rfl, rfl⟩
  · exact fun r hr => Except.ok.inj hr ▸ ⟨rfl, rfl⟩

/-- No step leaves the schedule. -/
theorem OnSchedule.step {loop : ExecutorLoop} {encodeSegments : List Segment → Except String (List Bytes)}
    {executor executor' : Executor σ} (h : OnSchedule job run executor)
    (hstep : ExecutorStep loop job run.metered encodeSegments executor executor') : OnSchedule job run executor' := by
  cases hstep with
  | resume calls snapshots =>
    obtain ⟨-, rfl⟩ := h
    exact onSchedule_resume hid calls
  | sent calls snapshots execState data =>
    obtain ⟨hc, -, rfl, rfl, hdata⟩ := h
    exact onSchedule_endRound hid hc hdata.isFinal
  | disconnected => exact fun r hr => nomatch hr
  | report segments =>
    obtain rfl : segments = run.segments := h
    exact onSchedule_report encodeSegments

omit hid in
private theorem OnSchedule.length_snapshots {executor : Executor σ} (h : OnSchedule job run executor) :
    executor.snapshots.length ≤ 2 := by
  cases executor with
  | suspended calls snapshots =>
    rw [Executor.snapshots, h.2, List.length_map]
    exact length_pending calls
  | sending calls snapshots execState data =>
    rw [Executor.snapshots, h.2.2.1, List.length_map]
    exact length_kept calls
  | reporting | returned | panicked => exact Nat.zero_le 2

end

/-- The segment is proved from a snapshot in its own segment or the one before, and the fast-forward between them runs
forward and within the segment before. -/
structure ShortReplay {σ : Type} (run : MeteredRun σ) (data : ProveData σ) : Prop where
  segment : run.segments[data.segmentIdx]? = some data.segment
  start : ∃ k, (k = data.segmentIdx ∨ k + 1 = data.segmentIdx) ∧ data.snapshot = run.startingIn k
  forward : data.snapshot.instret ≤ data.segment.instretStart
  within : data.segment.instretStart = data.snapshot.instret ∨
    ∃ before, run.segments[data.segmentIdx - 1]? = some before ∧ before.instretStart ≤ data.snapshot.instret ∧
      data.segment.instretStart = before.instretStart + before.numInsns

section
variable {σ : Type} {run : MeteredRun σ}

private theorem startingIn_inside {k : Nat} {segment : Segment} (h : run.segments[k]? = some segment) :
    segment.instretStart ≤ (run.startingIn k).instret ∧
      (run.startingIn k).instret ≤ segment.instretStart + segment.numInsns := by
  cases k with
  | zero => exact ⟨Nat.le_of_eq (run.first _ h), Nat.zero_le _⟩
  | succ k => exact run.inside k segment h

theorem Scheduled.shortReplay {c : Nat} {data : ProveData σ} (h : Scheduled run c data) : ShortReplay run data := by
  obtain ⟨rfl, hsnapshot, hsegment, -⟩ := h
  cases hidx : data.segmentIdx with
  | zero =>
    rw [hidx] at hsnapshot hsegment
    have hzero := run.first _ hsegment
    have hseed : data.snapshot.instret = 0 := by rw [hsnapshot]; rfl
    refine ⟨hidx ▸ hsegment, ⟨0, .inl hidx.symm, hsnapshot⟩, ?_, .inl ?_⟩ <;> omega
  | succ k =>
    rw [hidx] at hsnapshot hsegment
    have hlt : k < run.segments.length := Nat.lt_of_succ_lt (List.getElem?_eq_some_iff.mp hsegment).1
    obtain ⟨before, hbefore⟩ : ∃ before, run.segments[k]? = some before := ⟨_, List.getElem?_eq_getElem hlt⟩
    obtain ⟨hstart, hend⟩ := startingIn_inside hbefore
    have hnext := run.contiguous k before _ hbefore hsegment
    rw [← show data.snapshot = run.startingIn k from hsnapshot] at hstart hend
    refine ⟨hidx ▸ hsegment, ⟨k, .inr hidx.symm, hsnapshot⟩, hnext ▸ hend, .inr ⟨before, ?_, hstart, hnext⟩⟩
    rw [hidx]
    exact hbefore

end

/-- What the schedule promises at one point of the loop. -/
structure KeepsSchedule {σ : Type} (job : ShardedAppProverJob) (run : MeteredRun σ) (executor : Executor σ) : Prop where
  /-- No snapshot is missing where one is taken. -/
  no_panic : ∀ message, executor ≠ .panicked message
  available : ∀ c snapshots, executor = .suspended c snapshots → c < run.segments.length → job.owns c = true →
    snapshots ≠ []
  retained : executor.snapshots.length ≤ 2
  replay : ∀ c snapshots execState data, executor = .sending c snapshots execState data →
    data.segmentIdx = c ∧ job.owns c = true ∧ ShortReplay run data

private theorem OnSchedule.keepsSchedule {σ : Type} {job : ShardedAppProverJob} (hid : job.proverId < job.numProvers)
    {run : MeteredRun σ} {executor : Executor σ} (h : OnSchedule job run executor) :
    KeepsSchedule job run executor where
  no_panic := by
    rintro message rfl
    exact h
  available := by
    rintro c snapshots rfl - howns hempty
    obtain ⟨rest, hpending, -⟩ := pending_owned hid howns
    rw [h.2, hpending] at hempty
    cases hempty
  retained := h.length_snapshots
  replay := by
    rintro c snapshots execState data rfl
    obtain ⟨-, howns, -, -, hdata⟩ := h
    exact ⟨hdata.segmentIdx, howns, hdata.shortReplay⟩

/-- What one copy of the loop comes to, but for the report of a failed send, the other does too. -/
theorem reaches_other {σ : Type} {job : ShardedAppProverJob} {metered : Metered σ}
    {encodeSegments : List Segment → Except String (List Bytes)} {loop : ExecutorLoop} {start executor : Executor σ}
    (loop' : ExecutorLoop) (h : Relation.ReflTransGen (ExecutorStep loop job metered encodeSegments) start executor)
    (hsent : executor ≠ .returned (.error loop.disconnected)) :
    Relation.ReflTransGen (ExecutorStep loop' job metered encodeSegments) start executor := by
  induction h with
  | refl => exact .refl
  | tail _ hstep ih =>
    cases hstep with
    | resume calls snapshots => exact (ih nofun).tail (.resume calls snapshots)
    | sent calls snapshots execState data => exact (ih nofun).tail (.sent calls snapshots execState data)
    | disconnected => exact absurd rfl hsent
    | report segments => exact (ih nofun).tail (.report segments)

end Executor

open Executor in
/-- Both copies of the executor loop keep the schedule, for every number of provers and of segments. -/
theorem snapshot_schedule {σ : Type} (checked : CheckedJob) (run : MeteredRun σ)
    (encodeSegments : List Segment → Except String (List Bytes)) (loop : ExecutorLoop) {executor : Executor σ}
    (h : Relation.ReflTransGen (ExecutorStep loop checked.job run.metered encodeSegments)
      (start checked.job run.initial) executor) :
    KeepsSchedule checked.job run executor ∧
      ∀ loop' : ExecutorLoop, executor ≠ .returned (.error loop.disconnected) →
        Relation.ReflTransGen (ExecutorStep loop' checked.job run.metered encodeSegments)
          (start checked.job run.initial) executor := by
  constructor
  · have hschedule : OnSchedule checked.job run executor := by
      induction h with
      | refl => exact onSchedule_start checked.proverId_lt
      | tail _ hstep ih => exact ih.step checked.proverId_lt hstep
    exact hschedule.keepsSchedule checked.proverId_lt
  · intro loop' hsent
    exact reaches_other loop' h hsent

def secondProver : CheckedJob where
  job := ⟨⟨"proof", ⟨"program", 1⟩, [], .stark⟩, 2, 1, 2, .receiverOpen, []⟩
  proverId_lt := by decide

/-- Three segments of ten instructions, and suspends one instruction into the next one. -/
def sampleMetered : MeteredRun Nat where
  initial := 0
  segments := [⟨0, 10, []⟩, ⟨10, 10, []⟩, ⟨20, 10, []⟩]
  vmStates k := k + 1
  instrets k := 10 * (k + 1) + 1
  ending := .exits 0
  first := by simp
  contiguous k segment next h hnext := by
    match k with
    | 0 | 1 =>
      simp at h hnext
      simp [← h, ← hnext]
    | k + 2 => simp at hnext
  inside k next h := by
    match k with
    | 0 | 1 =>
      simp at h
      simp [← h]
    | k + 2 => simp at h

open Executor in
/-- The second prover sends segment 1 with the seed. -/
theorem snapshot_schedule_sample :
    KeepsSchedule secondProver.job sampleMetered (resume secondProver.job sampleMetered.metered 1 [⟨0, 0⟩]) := by
  have hrun : Relation.ReflTransGen (ExecutorStep .serial secondProver.job sampleMetered.metered fun _ => .ok [])
      (start secondProver.job sampleMetered.initial) (.suspended 1 [⟨0, 0⟩]) := .single (.resume 0 [⟨0, 0⟩])
  exact (snapshot_schedule secondProver sampleMetered _ .serial (hrun.tail (.resume 1 [⟨0, 0⟩]))).1

end EdgeProver
