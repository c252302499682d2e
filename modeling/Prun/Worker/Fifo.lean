import Prun.Worker.ScriptExec

/-!
# The FIFO pair of a worker thread

`OnThreadCreate` makes one write FIFO and one read FIFO for each worker thread, and nothing
drains them between tasks, so the tasks a thread runs one after another share two streams.  For
each task the thread forks an interpreter, writes the script with `DoFifoIO` and reads one code
back.  Here the thread and its interpreters step in any order: an interpreter may exit before it
reads its script, read it, write its code at any time after that, or be killed at any point.

In every run each stream keeps its bytes in order and loses or repeats none.  An interpreter
reads the next bytes of the stream and the thread reads the oldest code, so what one task leaves
behind is read by the next.  In runs where every write moves the whole script and every
interpreter reads it and answers before its poll times out, the tasks stay apart.
-/

namespace Prun
namespace Worker

/-- A task of the thread: the request and the bytes of its shared-memory slot. -/
structure Task where
  /-- The parsed request. -/
  job : Job
  /-- The `len` bytes from offset `id * SHMEM_BLOCK_SIZE` that `DoFifoIO` writes. -/
  script : List UInt8
  /-- The range has `len` bytes. -/
  length_script : script.length = job.scriptLength.toNat

/-- What an interpreter has done. -/
inductive ChildState
  /-- Forked; it has read nothing. -/
  | started
  /-- It has read as many bytes as its command line's script length. -/
  | hasRead
  /-- It has written its code. -/
  | answered
  /-- It has exited or been killed. -/
  | exited
  deriving DecidableEq, Repr

/-- Where the thread is in `ScriptExec::DoFork`. -/
inductive Phase
  /-- Between tasks. -/
  | idle
  /-- `DoFifoIO( readFifoFD, true, pid )` of this task is next. -/
  | awaitCode (task : Nat) (job : Job)
  /-- A poll of this task timed out and `KillExec` is next. -/
  | killing (task : Nat)
  deriving DecidableEq, Repr

/-- The FIFO pair of one thread, with the interpreters it forked. -/
structure FifoPair where
  /-- The bytes in the write FIFO, oldest first. -/
  writeFifo : List UInt8
  /-- The codes in the read FIFO, oldest first, each with the task of the interpreter that wrote
  it.  A code is one `write` of `sizeof( int )` bytes, which a pipe keeps whole. -/
  readFifo : List (Nat × BitVec 32)
  /-- The thread. -/
  phase : Phase
  /-- How many tasks the thread has started. -/
  started : Nat
  /-- The tasks started, by number; interpreter `i` runs task `i`. -/
  tasks : Nat → Option Task
  /-- The interpreters, by task. -/
  children : Nat → Option ChildState
  /-- What the thread wrote to the write FIFO, by task, in order. -/
  written : List (Nat × List UInt8)
  /-- What the interpreters read from the write FIFO, by task, in order. -/
  reads : List (Nat × List UInt8)
  /-- The codes the interpreters wrote, each with its writer's task, in order. -/
  sent : List (Nat × BitVec 32)
  /-- The codes the thread read: the task it read for, and the code with its writer's task. -/
  received : List (Nat × Nat × BitVec 32)

namespace FifoPair

/-- The pair as `OnThreadCreate` leaves it. -/
def initial : FifoPair := ⟨[], [], .idle, 0, fun _ => none, fun _ => none, [], [], [], []⟩

/-- The steps of the thread and of its interpreters. -/
inductive Op
  /-- The thread forks the interpreter of a new task and makes `DoFifoIO` on the write FIFO,
  whose calls answer `calls`. -/
  | start (task : Task) (calls : FifoCalls)
  /-- The thread makes `DoFifoIO` on the read FIFO, whose calls answer `calls`. -/
  | finishRead (calls : FifoCalls)
  /-- `KillExec` after a timed-out poll. -/
  | kill
  /-- Interpreter `i` exits, or is killed. -/
  | terminate (i : Nat)
  /-- Interpreter `i` reads its script. -/
  | read (i : Nat)
  /-- Interpreter `i` writes its code. -/
  | answer (i : Nat) (code : BitVec 32)

section Steps

variable (codes : ErrorCodes) (params : ThreadParams)

/-- `DoFork` in the thread: fork the interpreter of `task`, then `DoFifoIO` on the write FIFO,
whose successful `write` moves the first `calls.transfer` bytes of the script. -/
def start (s : FifoPair) (task : Task) (calls : FifoCalls) : Option FifoPair :=
  if s.phase = .idle then
    let write := doFifoIo codes params.writeFifoFD false calls task.job
    let bytes := task.script.take calls.transfer.toNat
    some { s with
      started := s.started + 1
      tasks := Function.update s.tasks s.started (some task)
      children := Function.update s.children s.started (some .started)
      writeFifo := if write.completed then s.writeFifo ++ bytes else s.writeFifo
      written := if write.completed then s.written ++ [(s.started, bytes)] else s.written
      phase := if write.completed then .awaitCode s.started write.job
        else if write.killed then .killing s.started else .idle }
  else none

/-- `DoFifoIO` on the read FIFO.  Its `poll` is ready only when a code is waiting and times out
only when none is; a successful `read` takes the oldest code. -/
def finishRead (s : FifoPair) (calls : FifoCalls) : Option FifoPair :=
  match s.phase with
  | .awaitCode i job =>
    if (0 < calls.poll → s.readFifo ≠ []) ∧ (calls.poll = 0 → s.readFifo = []) then
      let read := doFifoIo codes params.readFifoFD true calls job
      match read.completed, s.readFifo with
      | true, code :: rest =>
        some { s with readFifo := rest, received := s.received ++ [(i, code)], phase := .idle }
      | true, [] => none
      | false, _ => some { s with phase := if read.killed then .killing i else .idle }
    else none
  | _ => none

/-- `KillExec`: `SIGTERM` to the interpreter of the timed-out task. -/
def kill (s : FifoPair) : Option FifoPair :=
  match s.phase with
  | .killing i =>
    some { s with children := Function.update s.children i (some .exited), phase := .idle }
  | _ => none

/-- Interpreter `i` exits (`execl` failed, or it is done) or is killed. -/
def terminate (s : FifoPair) (i : Nat) : Option FifoPair :=
  match s.children i with
  | some .started | some .hasRead | some .answered =>
    some { s with children := Function.update s.children i (some .exited) }
  | _ => none

/-- Interpreter `i` reads as many bytes as the script length on its command line, once that many
are in the FIFO. -/
def read (s : FifoPair) (i : Nat) : Option FifoPair :=
  match s.children i, s.tasks i with
  | some .started, some task =>
    if task.job.scriptLength.toNat ≤ s.writeFifo.length then
      some { s with
        children := Function.update s.children i (some .hasRead)
        writeFifo := s.writeFifo.drop task.job.scriptLength.toNat
        reads := s.reads ++ [(i, s.writeFifo.take task.job.scriptLength.toNat)] }
    else none
  | _, _ => none

/-- Interpreter `i` writes its code to the read FIFO. -/
def answer (s : FifoPair) (i : Nat) (code : BitVec 32) : Option FifoPair :=
  match s.children i with
  | some .hasRead =>
    some { s with
      children := Function.update s.children i (some .answered)
      readFifo := s.readFifo ++ [(i, code)]
      sent := s.sent ++ [(i, code)] }
  | _ => none

/-- One step. -/
def step (s : FifoPair) : Op → Option FifoPair
  | .start task calls => s.start codes params task calls
  | .finishRead calls => s.finishRead codes params calls
  | .kill => s.kill
  | .terminate i => s.terminate i
  | .read i => s.read i
  | .answer i code => s.answer i code

/-- Steps in order; `none` when one is not enabled. -/
def run (s : FifoPair) : List Op → Option FifoPair
  | [] => some s
  | op :: ops => (s.step codes params op).bind (run · ops)

/-- Pairs reachable from `initial` through steps `allowed` admits. -/
inductive Reachable (allowed : FifoPair → Op → Prop) : FifoPair → Prop
  | initial : Reachable allowed initial
  | step {s s' : FifoPair} {op : Op} : Reachable allowed s → allowed s op →
      s.step codes params op = some s' → Reachable allowed s'

/-- What was taken from each FIFO, followed by what is in it, is what was put into it. -/
structure Streams (s : FifoPair) : Prop where
  /-- The write FIFO. -/
  byteStream : (s.reads.map Prod.snd).flatten ++ s.writeFifo = (s.written.map Prod.snd).flatten
  /-- The read FIFO. -/
  codeStream : s.received.map Prod.snd ++ s.readFifo = s.sent

variable {codes params} {s s' : FifoPair}

theorem Streams.start {task : Task} {calls : FifoCalls} (hinv : Streams s)
    (h : s.start codes params task calls = some s') : Streams s' := by
  unfold FifoPair.start at h
  split_ifs at h
  cases h
  by_cases hwrite : (doFifoIo codes params.writeFifoFD false calls task.job).completed
  · exact ⟨by simp [hwrite, ← hinv.byteStream], hinv.codeStream⟩
  · exact ⟨by simp [hwrite, hinv.byteStream], hinv.codeStream⟩

theorem Streams.finishRead {calls : FifoCalls} (hinv : Streams s)
    (h : s.finishRead codes params calls = some s') : Streams s' := by
  unfold FifoPair.finishRead at h
  split at h
  · split_ifs at h
    dsimp only at h
    split at h
    · cases h
      exact ⟨hinv.byteStream, by simp [← hinv.codeStream, *]⟩
    · cases h
    · cases h
      exact ⟨hinv.byteStream, hinv.codeStream⟩
  · cases h

theorem Streams.kill (hinv : Streams s) (h : s.kill = some s') : Streams s' := by
  unfold FifoPair.kill at h
  split at h
  · cases h
    exact ⟨hinv.byteStream, hinv.codeStream⟩
  · cases h

theorem Streams.terminate {i : Nat} (hinv : Streams s) (h : s.terminate i = some s') :
    Streams s' := by
  unfold FifoPair.terminate at h
  split at h <;> cases h <;> exact ⟨hinv.byteStream, hinv.codeStream⟩

theorem Streams.read {i : Nat} (hinv : Streams s) (h : s.read i = some s') : Streams s' := by
  unfold FifoPair.read at h
  split at h
  · split_ifs at h
    cases h
    exact ⟨by simp [← hinv.byteStream], hinv.codeStream⟩
  · cases h

theorem Streams.answer {i : Nat} {code : BitVec 32} (hinv : Streams s)
    (h : s.answer i code = some s') : Streams s' := by
  unfold FifoPair.answer at h
  split at h
  · cases h
    exact ⟨hinv.byteStream, by simp [← hinv.codeStream]⟩
  · cases h

theorem Streams.step {op : Op} (hinv : Streams s) (h : s.step codes params op = some s') :
    Streams s' := by
  cases op with
  | start task calls => exact hinv.start h
  | finishRead calls => exact hinv.finishRead h
  | kill => exact hinv.kill h
  | terminate i => exact hinv.terminate h
  | read i => exact hinv.read h
  | answer i code => exact hinv.answer h

variable (params) in
/-- Runs that keep to their turn: every write moves the whole script in one call, every read of
a code succeeds (its interpreter answered before the poll timed out), and no interpreter exits
before it has answered.  A successful `DoFifoIO` moves at least one byte, so a task with an
empty script never starts in such a run. -/
def Orderly (s : FifoPair) : Op → Prop
  | .start task calls =>
    FifoSucceeds params.writeFifoFD calls ∧ calls.transfer = task.script.length
  | .finishRead calls => FifoSucceeds params.readFifoFD calls
  | .terminate i => s.children i = some .answered
  | _ => True

/-- The interpreter can still read its script or write its code. -/
def Busy (state : Option ChildState) : Prop := state = some .started ∨ state = some .hasRead

/-- Where the FIFOs stand, by the thread's phase, in a run that keeps to its turn: between tasks
both are empty and no interpreter is busy; during task `i` only interpreter `i` is, and the
FIFOs hold its script, nothing, or its code. -/
def InTurn (s : FifoPair) : Prop :=
  match s.phase with
  | .idle => s.writeFifo = [] ∧ s.readFifo = [] ∧ ∀ j, ¬Busy (s.children j)
  | .awaitCode i _ => (∀ j, j ≠ i → ¬Busy (s.children j)) ∧
    (s.children i = some .started ∧ (s.tasks i).map Task.script = some s.writeFifo ∧
        s.readFifo = [] ∨
      s.children i = some .hasRead ∧ s.writeFifo = [] ∧ s.readFifo = [] ∨
      (s.children i = some .answered ∨ s.children i = some .exited) ∧ s.writeFifo = [] ∧
        ∃ code, s.readFifo = [(i, code)])
  | .killing _ => False

/-- Every interpreter read its own task's script, and every code the thread read came from the
interpreter of the task it read it for. -/
structure Lockstep (s : FifoPair) : Prop where
  /-- What each interpreter read is its task's script. -/
  ownScript : ∀ entry ∈ s.reads, (s.tasks entry.1).map Task.script = some entry.2
  /-- Each code read came from the task's own interpreter. -/
  ownCode : ∀ entry ∈ s.received, entry.2.1 = entry.1
  /-- No task past the started ones. -/
  unstarted : ∀ j, s.started ≤ j → s.tasks j = none
  /-- The FIFOs by phase. -/
  inTurn : InTurn s

/-- Only the current task's interpreter can be busy. -/
theorem InTurn.phase_of_busy {i : Nat} (hturn : InTurn s) (hbusy : Busy (s.children i)) :
    ∃ job, s.phase = .awaitCode i job := by
  unfold InTurn at hturn
  split at hturn
  · exact absurd hbusy (hturn.2.2 i)
  · rename_i k job hphase
    exact ⟨job, by rw [hphase, show i = k from by_contra fun hne => hturn.1 i hne hbusy]⟩
  · exact hturn.elim

/-- A change to interpreter `i` leaves the others as they were. -/
theorem not_busy_update {children : Nat → Option ChildState} {i : Nat}
    (hothers : ∀ j, j ≠ i → ¬Busy (children j)) (state : Option ChildState) :
    ∀ j, j ≠ i → ¬Busy (Function.update children i state j) := fun j hj => by
  simpa [Function.update_apply, hj] using hothers j hj

/-- An interpreter marked exited is not busy, and the others are as they were. -/
theorem busy_of_busy_update_exited {children : Nat → Option ChildState} {i j : Nat}
    (hbusy : Busy (Function.update children i (some .exited) j)) : Busy (children j) := by
  by_cases hj : j = i
  · subst hj
    simp [Busy] at hbusy
  · simpa [Function.update_apply, hj] using hbusy

theorem Lockstep.start {task : Task} {calls : FifoCalls} (hinv : Lockstep s)
    (hord : FifoSucceeds params.writeFifoFD calls ∧ calls.transfer = task.script.length)
    (h : s.start codes params task calls = some s') : Lockstep s' := by
  unfold FifoPair.start at h
  split_ifs at h with hidle
  cases h
  have hwrite : (doFifoIo codes params.writeFifoFD false calls task.job).completed = true :=
    (completed_doFifoIo_iff codes _ _ _ _).mpr hord.1
  have hturn := hinv.inTurn
  simp only [InTurn, hidle] at hturn
  obtain ⟨hwq, hrq, hfree⟩ := hturn
  refine ⟨fun entry hentry => ?_, hinv.ownCode, fun j hj => ?_, ?_⟩
  · have hold := hinv.ownScript entry hentry
    have hne : entry.1 ≠ s.started := fun hsame => by
      rw [hsame, hinv.unstarted _ le_rfl] at hold
      cases hold
    simpa [Function.update_apply, hne] using hold
  · have hj : s.started + 1 ≤ j := hj
    simpa [Function.update_apply, show j ≠ s.started by omega] using hinv.unstarted j (by omega)
  · simp only [InTurn, hwrite, if_true]
    refine ⟨not_busy_update (fun j _ => hfree j) _, .inl ⟨by simp, ?_, hrq⟩⟩
    simp [hwq, hord.2]

theorem Lockstep.finishRead {calls : FifoCalls} (hinv : Lockstep s)
    (hord : FifoSucceeds params.readFifoFD calls) (h : s.finishRead codes params calls = some s') :
    Lockstep s' := by
  unfold FifoPair.finishRead at h
  split at h
  · rename_i i job hphase
    split_ifs at h with hguard
    have hturn := hinv.inTurn
    simp only [InTurn, hphase] at hturn
    obtain ⟨hothers, hcases⟩ := hturn
    have hwaiting : s.readFifo ≠ [] := hguard.1 hord.2.1
    rcases hcases with ⟨-, -, hrq⟩ | ⟨-, -, hrq⟩ | ⟨hdone, hwq, code, hrq⟩
    · exact absurd hrq hwaiting
    · exact absurd hrq hwaiting
    · have hread : (doFifoIo codes params.readFifoFD true calls job).completed = true :=
        (completed_doFifoIo_iff codes _ _ _ _).mpr hord
      simp only [hread, hrq, Option.some.injEq] at h
      subst h
      refine ⟨hinv.ownScript, fun entry hentry => ?_, hinv.unstarted, hwq, rfl, fun j => ?_⟩
      · rcases List.mem_append.mp hentry with hold | hnew
        · exact hinv.ownCode entry hold
        · simp [List.mem_singleton.mp hnew]
      · by_cases hj : j = i
        · subst hj
          rcases hdone with hstate | hstate <;> simp [Busy, hstate]
        · exact hothers j hj
  · cases h

theorem Lockstep.kill (hinv : Lockstep s) (h : s.kill = some s') : Lockstep s' := by
  unfold FifoPair.kill at h
  split at h
  · have hturn := hinv.inTurn
    simp only [InTurn, ‹s.phase = _›] at hturn
  · cases h

/-- Where the FIFOs stand does not change when an interpreter that has answered exits. -/
theorem inTurn_exit_answered {i : Nat} (hturn : InTurn s) (hanswered : s.children i = some .answered) :
    InTurn { s with children := Function.update s.children i (some .exited) } := by
  unfold InTurn at hturn ⊢
  split at hturn
  · rename_i hphase
    obtain ⟨hwq, hrq, hfree⟩ := hturn
    simp only [hphase]
    exact ⟨hwq, hrq, fun j hbusy => hfree j (busy_of_busy_update_exited hbusy)⟩
  · rename_i k job hphase
    obtain ⟨hothers, hcases⟩ := hturn
    simp only [hphase]
    refine ⟨fun j hj hbusy => hothers j hj (busy_of_busy_update_exited hbusy), ?_⟩
    by_cases hki : k = i
    · subst hki
      rcases hcases with ⟨hstate, -⟩ | ⟨hstate, -⟩ | ⟨-, hwq, hcode⟩
      · simp [hstate] at hanswered
      · simp [hstate] at hanswered
      · exact .inr (.inr ⟨by simp, hwq, hcode⟩)
    · simpa [Function.update_apply, hki] using hcases
  · exact hturn.elim

theorem Lockstep.terminate {i : Nat} (hinv : Lockstep s) (hord : s.children i = some .answered)
    (h : s.terminate i = some s') : Lockstep s' := by
  unfold FifoPair.terminate at h
  rw [hord] at h
  cases h
  exact ⟨hinv.ownScript, hinv.ownCode, hinv.unstarted, inTurn_exit_answered hinv.inTurn hord⟩

theorem Lockstep.read {i : Nat} (hinv : Lockstep s) (h : s.read i = some s') : Lockstep s' := by
  unfold FifoPair.read at h
  split at h
  · rename_i task hchild htask
    split_ifs at h with hlength
    cases h
    obtain ⟨job, hphase⟩ := hinv.inTurn.phase_of_busy (.inl hchild)
    have hturn := hinv.inTurn
    simp only [InTurn, hphase] at hturn
    obtain ⟨hothers, ⟨-, hscript, hrq⟩ | ⟨hstate, -⟩ | ⟨hstate, -⟩⟩ := hturn
    · have hwq : task.script = s.writeFifo := by simpa [htask] using hscript
      have hlen : task.job.scriptLength.toNat = s.writeFifo.length := by
        rw [← task.length_script, hwq]
      refine ⟨fun entry hentry => ?_, hinv.ownCode, hinv.unstarted, ?_⟩
      · rcases List.mem_append.mp hentry with hold | hnew
        · exact hinv.ownScript entry hold
        · simp [List.mem_singleton.mp hnew, htask, hlen, hwq]
      · simp only [InTurn, hphase]
        exact ⟨not_busy_update hothers _, .inr (.inl ⟨by simp, by simp [hlen], hrq⟩)⟩
    · simp [hstate] at hchild
    · rcases hstate with hstate | hstate <;> simp [hstate] at hchild
  · cases h

theorem Lockstep.answer {i : Nat} {code : BitVec 32} (hinv : Lockstep s)
    (h : s.answer i code = some s') : Lockstep s' := by
  unfold FifoPair.answer at h
  split at h
  · rename_i hchild
    cases h
    obtain ⟨job, hphase⟩ := hinv.inTurn.phase_of_busy (.inr hchild)
    have hturn := hinv.inTurn
    simp only [InTurn, hphase] at hturn
    obtain ⟨hothers, ⟨hstate, -⟩ | ⟨-, hwq, hrq⟩ | ⟨hstate, -⟩⟩ := hturn
    · simp [hstate] at hchild
    · refine ⟨hinv.ownScript, hinv.ownCode, hinv.unstarted, ?_⟩
      simp only [InTurn, hphase]
      exact ⟨not_busy_update hothers _, .inr (.inr ⟨by simp, hwq, code, by simp [hrq]⟩)⟩
    · rcases hstate with hstate | hstate <;> simp [hstate] at hchild
  · cases h

theorem Lockstep.step {op : Op} (hinv : Lockstep s) (hord : Orderly params s op)
    (h : s.step codes params op = some s') : Lockstep s' := by
  cases op with
  | start task calls => exact hinv.start hord h
  | finishRead calls => exact hinv.finishRead hord h
  | kill => exact hinv.kill h
  | terminate i => exact hinv.terminate hord h
  | read i => exact hinv.read h
  | answer i code => exact hinv.answer h

end Steps

end FifoPair
end Worker
end Prun
