import Prun.Worker.Request

/-!
# The worker's job record

`Job` of the worker's `pyexec.cpp` holds the six fields `ParseRequest` reads from a task request,
and the error code the response reports.  Its `int` and `unsigned int` fields are 32-bit words.
The offset of a job's script in shared memory is computed in 32-bit unsigned arithmetic, so it
is the offset of the job's slot only for the ids `0, …, 8191`.
-/

namespace Prun
namespace Worker

/-- `SHMEM_BLOCK_SIZE` of `common.cpp`: the size of one shared-memory slot. -/
def shmemBlockSize : Nat := 512 * 1024

/-- `MAX_SCRIPT_SIZE` of `common.cpp`. -/
def maxScriptSize : Nat := shmemBlockSize - 1

/-- The number of slots whose offsets fit in an `unsigned int`. -/
def addressableSlots : Nat := 2 ^ 32 / shmemBlockSize

/-- What `boost::property_tree` gives `ParseRequest` for a payload that `read_json` accepted:
each typed `ptree.get< T >( key )` returns a value or throws. -/
structure RequestTree where
  /-- `get< int >`. -/
  getInt : String → Option (BitVec 32)
  /-- `get< unsigned int >`. -/
  getUnsigned : String → Option (BitVec 32)
  /-- `get< std::string >`. -/
  getString : String → Option String

/-- `Job` of the worker. -/
structure Job where
  /-- `jobId_`, an `int`: the job's shared-memory slot. -/
  jobId : BitVec 32
  /-- `scriptLength_`, an `unsigned int`. -/
  scriptLength : BitVec 32
  /-- `errCode_`, an `int`: what the next response reports. -/
  errCode : BitVec 32
  /-- `language_`. -/
  language : String
  /-- `taskId_`, an `int`. -/
  taskId : BitVec 32
  /-- `numTasks_`, an `int`. -/
  numTasks : BitVec 32
  /-- `timeout_`, an `int`, in seconds. -/
  timeout : BitVec 32
  deriving DecidableEq, Repr

namespace Job

/-- `ParseRequest`: `none` when `read_json` (a `none` tree) or one of the six lookups throws.
It leaves `errCode_` alone. -/
def parseRequest (tree : Option RequestTree) (job : Job) : Option Job := do
  let tree ← tree
  let jobId ← tree.getInt "id"
  let scriptLength ← tree.getUnsigned "len"
  let language ← tree.getString "lang"
  let taskId ← tree.getInt "task_id"
  let numTasks ← tree.getInt "num_tasks"
  let timeout ← tree.getInt "timeout"
  pure { job with
    jobId := jobId, scriptLength := scriptLength, language := language, taskId := taskId,
    numTasks := numTasks, timeout := timeout }

/-- `OnError`. -/
def onError (job : Job) (err : BitVec 32) : Job := { job with errCode := err }

/-- `GetResponse`: the frame around `write_json` of the tree `{ "err": errCode_ }`, where
`writeJson` stands for `boost::property_tree::write_json` of that one-entry tree. -/
def getResponse (writeJson : BitVec 32 → List Char) (job : Job) : List Char :=
  frame (writeJson job.errCode)

/-- The offset `Execute` and `DoFifoIO` compute as `job->GetJobId() * SHMEM_BLOCK_SIZE`: the
`int` id is converted to `unsigned int`, the product wraps modulo `2^32`, and the result is
widened to `size_t`. -/
def shmemOffset (job : Job) : Nat := (job.jobId * BitVec.ofNat 32 shmemBlockSize).toNat

@[simp] theorem onError_errCode (job : Job) (err : BitVec 32) : (job.onError err).errCode = err :=
  rfl

theorem parseRequest_errCode {tree : Option RequestTree} {job parsed : Job}
    (hparse : job.parseRequest tree = some parsed) : parsed.errCode = job.errCode := by
  simp only [parseRequest, Option.bind_eq_bind, Option.bind_eq_some, Option.pure_def,
    Option.some.injEq] at hparse
  obtain ⟨_, -, _, -, _, -, _, -, _, -, _, -, _, -, rfl⟩ := hparse
  rfl

theorem shmemOffset_eq (job : Job) :
    job.shmemOffset = job.jobId.toNat * shmemBlockSize % 2 ^ 32 := by
  simp [shmemOffset, BitVec.toNat_mul, shmemBlockSize]

/-- The computed offset is the signed id times the slot size exactly for the ids whose slots
start below `2^32`. -/
theorem shmemOffset_eq_slot_iff (job : Job) :
    (job.shmemOffset : Int) = job.jobId.toInt * shmemBlockSize ↔
      0 ≤ job.jobId.toInt ∧ job.jobId.toInt < addressableSlots := by
  have hlt := job.jobId.isLt
  rw [shmemOffset_eq, BitVec.toInt_eq_toNat_cond]
  simp only [shmemBlockSize, addressableSlots]
  split <;> omega

/-- For an addressable id, a script of at most `MAX_SCRIPT_SIZE` bytes lies inside the id's
slot. -/
theorem shmemOffset_range_mem_slot (job : Job) (hid : job.jobId.toNat < addressableSlots)
    (hlength : job.scriptLength.toNat ≤ maxScriptSize) :
    job.jobId.toNat * shmemBlockSize ≤ job.shmemOffset ∧
      job.shmemOffset + job.scriptLength.toNat < (job.jobId.toNat + 1) * shmemBlockSize := by
  rw [shmemOffset_eq]
  simp only [addressableSlots, maxScriptSize, shmemBlockSize] at hid hlength ⊢
  omega

end Job

end Worker
end Prun
