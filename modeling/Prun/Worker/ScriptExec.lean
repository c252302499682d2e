import Prun.Worker.Job

/-!
# Script execution in the worker

`Session::HandleRequest` parses a task request, picks the executor for its language and runs
`ScriptExec::Execute`: the interpreter is forked, the parent writes the script from shared
memory into the thread's write FIFO and reads the interpreter's code from the read FIFO, both
through `DoFifoIO`.  The answers of the configuration, of `fork` and of the FIFO system calls are
inputs of the model, so every theorem here holds for every combination of them.
-/

namespace Prun
namespace Worker

/-- The codes of `common/error_code.h`, which is not among the sources. -/
structure ErrorCodes where
  /-- `NODE_FATAL`. -/
  nodeFatal : BitVec 32
  /-- `NODE_JOB_TIMEOUT`. -/
  nodeJobTimeout : BitVec 32
  /-- `NODE_LANG_NOT_SUPPORTED`. -/
  nodeLangNotSupported : BitVec 32

/-- Codes for the concrete runs below. -/
def sampleCodes : ErrorCodes := ⟨1, 2, 3⟩

/-- `ThreadParams`: the FIFO pair `OnThreadCreate` made for one worker thread. -/
structure ThreadParams where
  /-- `writeFifoFD`, `-1` when the FIFO could not be made. -/
  writeFifoFD : Int
  /-- `readFifoFD`, `-1` when the FIFO could not be made. -/
  readFifoFD : Int
  /-- `writeFifo`: the path, cleared when the FIFO could not be made. -/
  writeFifo : String
  /-- `readFifo`: the path, cleared when the FIFO could not be made. -/
  readFifo : String
  deriving DecidableEq, Repr

/-- A thread whose two FIFOs are open. -/
def openThread : ThreadParams := ⟨3, 4, "/tmp/.prexecw0", "/tmp/.prexecr0"⟩

/-- What `fork()` returns in the process that calls it. -/
inductive ForkResult
  /-- The parent receives the child's positive pid. -/
  | parent (pid : Nat) (positive : 0 < pid)
  /-- The child receives `0`. -/
  | child
  /-- `-1`: no child was made. -/
  | failed
  deriving DecidableEq, Repr

/-- What the system calls of one `DoFifoIO` return. -/
structure FifoCalls where
  /-- `poll`: positive when the descriptor is ready, `0` on timeout, negative on failure. -/
  poll : Int
  /-- `read` or `write`: the number of bytes transferred, `-1` on failure. -/
  transfer : Int
  deriving DecidableEq, Repr

/-- What the environment answers while one request is executed. -/
structure Syscalls where
  /-- `Config::Instance().Get< string >( key )`, `none` when it throws. -/
  config : String → Option String
  /-- `fork()`. -/
  fork : ForkResult
  /-- The calls `DoFifoIO` makes on the write FIFO. -/
  writeCalls : FifoCalls
  /-- The calls `DoFifoIO` makes on the read FIFO. -/
  readCalls : FifoCalls

/-- Python configured, `fork` gives pid `100`, both polls ready, `len` bytes written and four
bytes read. -/
def successfulCalls (len : Nat) : Syscalls where
  config key := if key = "python" then some "/usr/bin/python" else none
  fork := .parent 100 (by decide)
  writeCalls := ⟨1, len⟩
  readCalls := ⟨1, 4⟩

/-! ## FIFO input and output -/

/-- What one `DoFifoIO` did. -/
structure FifoResult where
  /-- The return value. -/
  completed : Bool
  /-- The job after `OnError`. -/
  job : Job
  /-- `KillExec( pid )` sent `SIGTERM` to the child. -/
  killed : Bool
  /-- The shared-memory range, offset and length, handed to `write`. -/
  copied : Option (Nat × Nat)
  deriving DecidableEq, Repr

section FifoResult

variable (codes : ErrorCodes)

/-- `ScriptExec::DoFifoIO`.  After a ready `poll` one `read` or `write` is made, and any positive
count counts as success; on success the code read is dropped and nothing is recorded. -/
def doFifoIo (fifo : Int) (doRead : Bool) (calls : FifoCalls) (job : Job) : FifoResult :=
  if fifo ≠ -1 then
    if 0 < calls.poll then
      let copied := if doRead then none else some (job.shmemOffset, job.scriptLength.toNat)
      if 0 < calls.transfer then ⟨true, job, false, copied⟩
      else ⟨false, job.onError codes.nodeFatal, false, copied⟩
    else if calls.poll = 0 then ⟨false, job.onError codes.nodeJobTimeout, true, none⟩
    else ⟨false, job.onError codes.nodeFatal, false, none⟩
  else
    ⟨false, job.onError codes.nodeFatal, false, none⟩

/-- What the parent branch of `DoFork` did: the write, and the read when the write succeeded. -/
structure ParentResult where
  /-- `DoFifoIO` on the write FIFO. -/
  write : FifoResult
  /-- `DoFifoIO` on the read FIFO, made only after a successful write. -/
  read : Option FifoResult
  deriving DecidableEq, Repr

/-- The job after the parent branch of `DoFork`. -/
def ParentResult.job (io : ParentResult) : Job :=
  match io.read with
  | some read => read.job
  | none => io.write.job

/-- The parent branch of `ScriptExec::DoFork`. -/
def doForkParent (params : ThreadParams) (calls : Syscalls) (job : Job) : ParentResult :=
  let write := doFifoIo codes params.writeFifoFD false calls.writeCalls job
  ⟨write, if write.completed then
    some (doFifoIo codes params.readFifoFD true calls.readCalls write.job) else none⟩

/-- The calls of one `DoFifoIO` succeed. -/
def FifoSucceeds (fifo : Int) (calls : FifoCalls) : Prop :=
  fifo ≠ -1 ∧ 0 < calls.poll ∧ 0 < calls.transfer

instance (fifo : Int) (calls : FifoCalls) : Decidable (FifoSucceeds fifo calls) :=
  inferInstanceAs (Decidable (_ ∧ _ ∧ _))

theorem completed_doFifoIo_iff (fifo : Int) (doRead : Bool) (calls : FifoCalls) (job : Job) :
    (doFifoIo codes fifo doRead calls job).completed = true ↔ FifoSucceeds fifo calls := by
  unfold doFifoIo FifoSucceeds
  split_ifs <;> simp_all

/-- `DoFifoIO` succeeds exactly when the descriptor is open, `poll` is ready and the one transfer
moves at least one byte, whatever the script's length. -/
theorem doFifoIo_completed_iff (fifo : Int) (doRead : Bool) (calls : FifoCalls) (job : Job) :
    (doFifoIo codes fifo doRead calls job).completed = true ↔
      fifo ≠ -1 ∧ 0 < calls.poll ∧ 0 < calls.transfer :=
  completed_doFifoIo_iff codes fifo doRead calls job

/-- A successful `DoFifoIO` leaves the job, and so its error code, as it was. -/
theorem doFifoIo_job_of_completed {fifo : Int} {doRead : Bool} {calls : FifoCalls} {job : Job}
    (hcompleted : (doFifoIo codes fifo doRead calls job).completed = true) :
    (doFifoIo codes fifo doRead calls job).job = job := by
  unfold doFifoIo at hcompleted ⊢
  split_ifs at hcompleted ⊢ <;> simp_all

/-- The write branch copies from the computed offset, whatever the id and length are. -/
theorem doFifoIo_write_copied {fifo : Int} {calls : FifoCalls} (job : Job) (hfifo : fifo ≠ -1)
    (hpoll : 0 < calls.poll) :
    (doFifoIo codes fifo false calls job).copied = some (job.shmemOffset, job.scriptLength.toNat) := by
  simp only [doFifoIo, ne_eq, hfifo, not_false_eq_true, if_true, hpoll]
  split <;> rfl

/-- The write is made from the computed offset for every id and length; the offset is the id's
slot exactly for the ids `0, …, 8191`, and nothing checks the id or the length.  For such an id
and a script of at most `MAX_SCRIPT_SIZE` bytes the range lies inside the id's slot. -/
theorem doFifoIo_write_offset {fifo : Int} {calls : FifoCalls} (job : Job) (hfifo : fifo ≠ -1)
    (hpoll : 0 < calls.poll) :
    (doFifoIo codes fifo false calls job).copied =
        some (job.shmemOffset, job.scriptLength.toNat) ∧
      ((job.shmemOffset : Int) = job.jobId.toInt * shmemBlockSize ↔
        0 ≤ job.jobId.toInt ∧ job.jobId.toInt < addressableSlots) ∧
      (job.jobId.toNat < addressableSlots → job.scriptLength.toNat ≤ maxScriptSize →
        job.jobId.toNat * shmemBlockSize ≤ job.shmemOffset ∧
          job.shmemOffset + job.scriptLength.toNat < (job.jobId.toNat + 1) * shmemBlockSize) :=
  ⟨doFifoIo_write_copied codes job hfifo hpoll, job.shmemOffset_eq_slot_iff,
    job.shmemOffset_range_mem_slot⟩

theorem doFifoIo_write_offset_job8192 :
    (3 : Int) ≠ -1 ∧ (0 : Int) < 1 ∧
      (doFifoIo sampleCodes 3 false ⟨1, 9⟩ ⟨8192, 9, 0, "python", 0, 1, 10⟩).copied =
        some ((⟨8192, 9, 0, "python", 0, 1, 10⟩ : Job).shmemOffset, 9) ∧
      (((⟨8192, 9, 0, "python", 0, 1, 10⟩ : Job).shmemOffset : Int) =
          (⟨8192, 9, 0, "python", 0, 1, 10⟩ : Job).jobId.toInt * shmemBlockSize ↔
        0 ≤ (⟨8192, 9, 0, "python", 0, 1, 10⟩ : Job).jobId.toInt ∧
          (⟨8192, 9, 0, "python", 0, 1, 10⟩ : Job).jobId.toInt < addressableSlots) ∧
      ((⟨8192, 9, 0, "python", 0, 1, 10⟩ : Job).jobId.toNat < addressableSlots →
        (⟨8192, 9, 0, "python", 0, 1, 10⟩ : Job).scriptLength.toNat ≤ maxScriptSize →
        (⟨8192, 9, 0, "python", 0, 1, 10⟩ : Job).jobId.toNat * shmemBlockSize ≤
            (⟨8192, 9, 0, "python", 0, 1, 10⟩ : Job).shmemOffset ∧
          (⟨8192, 9, 0, "python", 0, 1, 10⟩ : Job).shmemOffset +
              (⟨8192, 9, 0, "python", 0, 1, 10⟩ : Job).scriptLength.toNat <
            ((⟨8192, 9, 0, "python", 0, 1, 10⟩ : Job).jobId.toNat + 1) * shmemBlockSize) :=
  ⟨by decide, by decide, doFifoIo_write_offset sampleCodes _ (by decide) (by decide)⟩

/-- Job `8192` with a script of `2^19` bytes: the write succeeds, copying `2^19` bytes from
offset `0`, the start of slot `0`. -/
theorem doFifoIo_job8192_reads_slot_zero :
    doFifoIo sampleCodes 3 false ⟨1, 524288⟩ ⟨8192, 524288, 0, "python", 0, 1, 10⟩ =
      ⟨true, ⟨8192, 524288, 0, "python", 0, 1, 10⟩, false, some (0, 524288)⟩ := by decide

theorem doForkParent_job_of_read {params : ThreadParams} {calls : Syscalls} {job : Job}
    (hwrite : params.writeFifoFD ≠ -1 ∧ 0 < calls.writeCalls.poll ∧ 0 < calls.writeCalls.transfer)
    (hread : params.readFifoFD ≠ -1 ∧ 0 < calls.readCalls.poll ∧ 0 < calls.readCalls.transfer) :
    (doForkParent codes params calls job).job = job := by
  have hwritten := (completed_doFifoIo_iff codes _ false calls.writeCalls job).mpr hwrite
  have hreadDone := (completed_doFifoIo_iff codes _ true calls.readCalls
    (doFifoIo codes params.writeFifoFD false calls.writeCalls job).job).mpr hread
  simp only [doForkParent, ParentResult.job, hwritten, if_true]
  rw [doFifoIo_job_of_completed codes hreadDone, doFifoIo_job_of_completed codes hwritten]

/-- The code a failed `DoFifoIO` records: `NODE_JOB_TIMEOUT` on a `poll` timeout, `NODE_FATAL`
on a closed descriptor or any other failure. -/
def failedFifoCode (fifo : Int) (calls : FifoCalls) : BitVec 32 :=
  if fifo ≠ -1 ∧ calls.poll = 0 then codes.nodeJobTimeout else codes.nodeFatal

theorem doFifoIo_job_of_failed {fifo : Int} {doRead : Bool} {calls : FifoCalls} (job : Job)
    (hfailed : ¬FifoSucceeds fifo calls) :
    (doFifoIo codes fifo doRead calls job).job = job.onError (failedFifoCode codes fifo calls) := by
  unfold FifoSucceeds at hfailed
  unfold doFifoIo failedFifoCode
  split_ifs <;> simp_all

theorem doForkParent_job_of_write_failed {params : ThreadParams} {calls : Syscalls} (job : Job)
    (hwrite : ¬FifoSucceeds params.writeFifoFD calls.writeCalls) :
    (doForkParent codes params calls job).job =
      job.onError (failedFifoCode codes params.writeFifoFD calls.writeCalls) := by
  have hfailed : (doFifoIo codes params.writeFifoFD false calls.writeCalls job).completed = false :=
    Bool.eq_false_iff.mpr fun hdone => hwrite ((completed_doFifoIo_iff codes _ _ _ _).mp hdone)
  simp only [doForkParent, ParentResult.job, hfailed]
  exact doFifoIo_job_of_failed codes job hwrite

theorem doForkParent_job_of_read_failed {params : ThreadParams} {calls : Syscalls} (job : Job)
    (hwrite : FifoSucceeds params.writeFifoFD calls.writeCalls)
    (hread : ¬FifoSucceeds params.readFifoFD calls.readCalls) :
    (doForkParent codes params calls job).job =
      job.onError (failedFifoCode codes params.readFifoFD calls.readCalls) := by
  have hwritten := (completed_doFifoIo_iff codes _ false calls.writeCalls job).mpr hwrite
  simp only [doForkParent, ParentResult.job, hwritten, if_true]
  rw [doFifoIo_job_of_failed codes _ hread, doFifoIo_job_of_completed codes hwritten]

end FifoResult

/-! ## Executors -/

/-- `NODE_SCRIPT_NAME_PY` of `common.cpp`. -/
def nodeScriptNamePy : String := "node/node.py"

/-- `NODE_SCRIPT_NAME_SHELL` of `common.cpp`. -/
def nodeScriptNameShell : String := "node/node.sh"

/-- `NODE_SCRIPT_NAME_RUBY` of `common.cpp`. -/
def nodeScriptNameRuby : String := "node/node.rb"

/-- `NODE_SCRIPT_NAME_JS` of `common.cpp`. -/
def nodeScriptNameJs : String := "node/node.js"

/-- The executors `ExecCreator::Create` chooses from. -/
inductive ScriptExec
  | python
  | java
  | shell
  | ruby
  | javaScript
  deriving DecidableEq, Repr

/-- `ExecCreator::Create`: `none` is the `NULL` returned for any other language. -/
def create (language : String) : Option ScriptExec :=
  if language = "python" then some .python
  else if language = "java" then some .java
  else if language = "shell" then some .shell
  else if language = "ruby" then some .ruby
  else if language = "js" then some .javaScript
  else none

/-- The shape all five `InitLanguageEnv` share: the interpreter path from the configuration
under `key` and the node path `exeDir ++ nodeSuffix`, or `none` when `Config::Get` throws. -/
def initLanguageEnvWith (key nodeSuffix : String) (config : String → Option String)
    (exeDir : String) : Option (String × String) :=
  (config key).map fun exePath => (exePath, exeDir ++ nodeSuffix)

/-- `PythonExec::InitLanguageEnv`. -/
def pythonInitLanguageEnv := initLanguageEnvWith "python" ("/" ++ nodeScriptNamePy)

/-- `JavaExec::InitLanguageEnv`: the node path is the directory `node` itself. -/
def javaInitLanguageEnv := initLanguageEnvWith "java" "/node"

/-- `ShellExec::InitLanguageEnv`. -/
def shellInitLanguageEnv := initLanguageEnvWith "shell" ("/" ++ nodeScriptNameShell)

/-- `RubyExec::InitLanguageEnv`. -/
def rubyInitLanguageEnv := initLanguageEnvWith "ruby" ("/" ++ nodeScriptNameRuby)

/-- `JavaScriptExec::InitLanguageEnv`. -/
def javaScriptInitLanguageEnv := initLanguageEnvWith "js" ("/" ++ nodeScriptNameJs)

namespace ScriptExec

/-- The virtual `InitLanguageEnv`: the interpreter path and the node path. -/
def initLanguageEnv : ScriptExec → (String → Option String) → String → Option (String × String)
  | .python => pythonInitLanguageEnv
  | .java => javaInitLanguageEnv
  | .shell => shellInitLanguageEnv
  | .ruby => rubyInitLanguageEnv
  | .javaScript => javaScriptInitLanguageEnv

/-- The argument vector `Execute` hands to `execl`, after the interpreter's path.  `JavaExec`
runs the class `node` from the class path `nodePath`; the others run the node script.  The
shared-memory offset `Execute` computes is not passed. -/
def argv (exec : ScriptExec) (nodePath : String) (params : ThreadParams) (job : Job) :
    List String :=
  let fifos := [params.readFifo, params.writeFifo, toString job.scriptLength.toNat,
    toString job.taskId.toInt, toString job.numTasks.toInt]
  match exec with
  | .java => job.language :: "-cp" :: nodePath :: "node" :: fifos
  | _ => job.language :: nodePath :: fifos

end ScriptExec

/-- Where `Execute` leaves the process that runs it. -/
inductive ExecResult
  /-- `Execute` returned to `HandleRequest` with the job in this state. -/
  | returned (job : Job)
  /-- The process called `execl` with this path and argument vector, and `exit( 1 )` after a
  failed `execl`. -/
  | execs (path : String) (argv : List String)
  deriving DecidableEq, Repr

/-- Where `Session::HandleRequest` leaves the process that runs it. -/
inductive Outcome
  /-- `HandleRequest` reset the request, started the next read and wrote the response of this
  job. -/
  | responded (job : Job)
  /-- `ParseRequest` threw; the exception leaves `io_service::run` and is caught in
  `ThreadFun`, which ends the thread. -/
  | raised
  /-- The process called `execl` (then `exit( 1 )` if it failed). -/
  | execs (path : String) (argv : List String)
  deriving DecidableEq, Repr

section Execute

variable (codes : ErrorCodes) (exeDir : String) (params : ThreadParams) (calls : Syscalls)

/-- `ScriptExec::Execute` (and `JavaExec::Execute`, which differs only in `argv`).  Only a
positive pid returns; a failed `fork` falls through to `execl` like the child does. -/
def execute (exec : ScriptExec) (job : Job) : ExecResult :=
  match exec.initLanguageEnv calls.config exeDir with
  | none => .returned (job.onError codes.nodeFatal)
  | some (exePath, nodePath) =>
    match calls.fork with
    | .parent _ _ => .returned (doForkParent codes params calls job).job
    | _ => .execs exePath (exec.argv nodePath params job)

/-- `Session::HandleRequest` of the worker. -/
def handleRequest (tree : Option RequestTree) (job : Job) : Outcome :=
  match job.parseRequest tree with
  | none => .raised
  | some job =>
    match create job.language with
    | none => .responded (job.onError codes.nodeLangNotSupported)
    | some exec =>
      match execute codes exeDir params calls exec job with
      | .returned job => .responded job
      | .execs path argv => .execs path argv

theorem execute_of_parent {exec : ScriptExec} {job : Job} {paths : String × String} {pid : Nat}
    {positive : 0 < pid} (hconfig : exec.initLanguageEnv calls.config exeDir = some paths)
    (hfork : calls.fork = .parent pid positive) :
    execute codes exeDir params calls exec job = .returned (doForkParent codes params calls job).job := by
  simp [execute, hconfig, hfork]

/-- An exception leaves `HandleRequest` exactly when `ParseRequest` throws. -/
theorem handleRequest_raised_iff (tree : Option RequestTree) (job : Job) :
    handleRequest codes exeDir params calls tree job = .raised ↔ job.parseRequest tree = none := by
  cases hparse : job.parseRequest tree with
  | none => simp [handleRequest, hparse]
  | some parsed =>
    simp only [handleRequest, hparse, reduceCtorEq, iff_false]
    split
    · simp
    · split <;> simp

theorem execute_of_not_parent {exec : ScriptExec} {job : Job} {paths : String × String}
    (hconfig : exec.initLanguageEnv calls.config exeDir = some paths)
    (hfork : calls.fork = .child ∨ calls.fork = .failed) :
    execute codes exeDir params calls exec job = .execs paths.1 (exec.argv paths.2 params job) := by
  rcases hfork with hfork | hfork <;> simp [execute, hconfig, hfork]

/-- What `HandleRequest` does for every request and every answer of the calls.  Three paths
break the promise that every request is answered with its own code: a payload `ParseRequest`
cannot read throws out of `HandleRequest`, and no response is written; after a failed `fork` the
worker process itself reaches `execl`, as the child does; and when every call succeeds the
response keeps the error code the session's job held before, since `ParseRequest` leaves it
alone and `DoFifoIO` drops the code it reads. -/
theorem handleRequest_outcome (tree : Option RequestTree) (job : Job) :
    (handleRequest codes exeDir params calls tree job = .raised ↔ job.parseRequest tree = none) ∧
    ∀ parsed, job.parseRequest tree = some parsed → parsed.errCode = job.errCode ∧
      (create parsed.language = none → handleRequest codes exeDir params calls tree job =
        .responded (parsed.onError codes.nodeLangNotSupported)) ∧
      ∀ exec, create parsed.language = some exec →
        (exec.initLanguageEnv calls.config exeDir = none →
          handleRequest codes exeDir params calls tree job =
            .responded (parsed.onError codes.nodeFatal)) ∧
        ∀ paths, exec.initLanguageEnv calls.config exeDir = some paths →
          (calls.fork = .child ∨ calls.fork = .failed →
            handleRequest codes exeDir params calls tree job =
              .execs paths.1 (exec.argv paths.2 params parsed)) ∧
          ∀ pid positive, calls.fork = .parent pid positive →
            (¬FifoSucceeds params.writeFifoFD calls.writeCalls →
              handleRequest codes exeDir params calls tree job = .responded
                (parsed.onError (failedFifoCode codes params.writeFifoFD calls.writeCalls))) ∧
            (FifoSucceeds params.writeFifoFD calls.writeCalls →
              ¬FifoSucceeds params.readFifoFD calls.readCalls →
              handleRequest codes exeDir params calls tree job = .responded
                (parsed.onError (failedFifoCode codes params.readFifoFD calls.readCalls))) ∧
            (FifoSucceeds params.writeFifoFD calls.writeCalls →
              FifoSucceeds params.readFifoFD calls.readCalls →
              handleRequest codes exeDir params calls tree job = .responded parsed) := by
  refine ⟨handleRequest_raised_iff codes exeDir params calls tree job, fun parsed hparse => ?_⟩
  refine ⟨Job.parseRequest_errCode hparse, fun hcreate => by simp [handleRequest, hparse, hcreate],
    fun exec hcreate => ?_⟩
  refine ⟨fun hconfig => by simp [handleRequest, hparse, hcreate, execute, hconfig],
    fun paths hconfig => ⟨fun hfork => by
      simp [handleRequest, hparse, hcreate, execute_of_not_parent codes exeDir params calls hconfig hfork],
      fun pid positive hfork => ?_⟩⟩
  have hparent : execute codes exeDir params calls exec parsed =
      .returned (doForkParent codes params calls parsed).job :=
    execute_of_parent codes exeDir params calls hconfig hfork
  refine ⟨fun hwrite => ?_, fun hwrite hread => ?_, fun hwrite hread => ?_⟩
  · simp [handleRequest, hparse, hcreate, hparent, doForkParent_job_of_write_failed codes _ hwrite]
  · simp [handleRequest, hparse, hcreate, hparent, doForkParent_job_of_read_failed codes _ hwrite hread]
  · simp [handleRequest, hparse, hcreate, hparent, doForkParent_job_of_read codes hwrite hread]

end Execute

/-- A tree with the six fields of a Python task. -/
def pythonTree : RequestTree where
  getInt key := if key = "id" then some 0 else if key = "task_id" then some 0
    else if key = "num_tasks" then some 1 else if key = "timeout" then some 10 else none
  getUnsigned key := if key = "len" then some 9 else none
  getString key := if key = "lang" then some "python" else none

/-- The three slips on a session whose job holds the code `7` from an earlier request: a payload
that is not JSON throws out of `HandleRequest`; after `fork` returns `-1` the worker process
runs `execl`; and with every call succeeding the response reports `7`, not the interpreter's
code. -/
theorem handleRequest_three_slips :
    handleRequest sampleCodes "/opt/prun" openThread (successfulCalls 9) none
        ⟨0, 0, 7, "", 0, 0, 0⟩ = .raised ∧
      handleRequest sampleCodes "/opt/prun" openThread { successfulCalls 9 with fork := .failed }
          (some pythonTree) ⟨0, 0, 7, "", 0, 0, 0⟩ =
        .execs "/usr/bin/python" (ScriptExec.python.argv "/opt/prun/node/node.py" openThread
          ⟨0, 9, 7, "python", 0, 1, 10⟩) ∧
      handleRequest sampleCodes "/opt/prun" openThread (successfulCalls 9) (some pythonTree)
          ⟨0, 0, 7, "", 0, 0, 0⟩ = .responded ⟨0, 9, 7, "python", 0, 1, 10⟩ :=
  have hparsed : (⟨0, 0, 7, "", 0, 0, 0⟩ : Job).parseRequest (some pythonTree) =
      some ⟨0, 9, 7, "python", 0, 1, 10⟩ := rfl
  ⟨(handleRequest_outcome sampleCodes "/opt/prun" openThread (successfulCalls 9) none _).1.mpr rfl,
    ((((handleRequest_outcome sampleCodes "/opt/prun" openThread
      { successfulCalls 9 with fork := .failed } _ _).2 _ hparsed).2.2 .python rfl).2 _ rfl).1
      (.inr rfl),
    ((((handleRequest_outcome sampleCodes "/opt/prun" openThread (successfulCalls 9) _ _).2 _
      hparsed).2.2 .python rfl).2 _ rfl).2 100 (by decide) rfl |>.2.2 (by decide) (by decide)⟩

end Worker
end Prun
