import Mathlib.Data.List.Nodup
import Prun.Worker.ScriptExec

/-!
# Setting up the worker threads

`main` starts `numThread` threads and calls `OnThreadCreate` after each.  It names a write FIFO
`/tmp/.prexecw<n>` and a read FIFO `/tmp/.prexecr<n>` after its `static int threadCnt`, makes each
with `CreateFifo` (unlink the path, `mkfifo` it, open it) and clears the path of a FIFO whose
descriptor is `-1`.  At exit, `AtExit` closes every descriptor and unlinks every path that
`threadInfo` still holds.  Neither `CreateFifo` nor `AtExit` looks at what `unlink` returns,
and an `unlink` can fail (another user's FIFO in the sticky `/tmp`, a directory), so what each
`unlink`, `mkfifo` and `open` answers is an input, and the FIFO files on disk are a predicate on
paths.

The FIFO paths of the pool are pairwise distinct, whatever the size of the pool.  After the pool
is set up and the worker exits, a FIFO that `mkfifo` made is still on disk when `open` could not
open it or `AtExit`'s `unlink` failed; where `mkfifo` failed, what was at the path before stays
unless `CreateFifo`'s `unlink` removed it; and every path outside the pool is as it was.
-/

namespace Prun
namespace Worker

/-- `FIFO_NAME` of `common.cpp`. -/
def fifoName : String := "/tmp/.prexec"

/-- What the system answers to one `CreateFifo`. -/
structure FifoAnswer where
  /-- Whether `unlink` removed what was at the path. -/
  unlinked : Bool
  /-- Whether `mkfifo` made the FIFO. -/
  made : Bool
  /-- What `open` returned: a descriptor, or `-1`. -/
  fifofd : Int
  deriving DecidableEq, Repr

/-- An `unlink( path )` that succeeds. -/
def unlinkFile (files : String → Bool) (path : String) : String → Bool :=
  fun other => if other = path then false else files other

/-- A `mkfifo( path )` that succeeds. -/
def mkfifoFile (files : String → Bool) (path : String) : String → Bool :=
  fun other => if other = path then true else files other

/-- `CreateFifo`: the path is unlinked, whatever `unlink` answers, and made again; the result
is the descriptor `open` returned when `mkfifo` succeeded, and `-1` when it failed.  The `chown`
for a non-root `uid` only logs. -/
def createFifo (fifoName : String) (answer : FifoAnswer) (files : String → Bool) :
    Int × (String → Bool) :=
  let files := if answer.unlinked then unlinkFile files fifoName else files
  if answer.made then (answer.fifofd, mkfifoFile files fifoName) else (-1, files)

/-- The path `OnThreadCreate` streams for a FIFO: `FIFO_NAME`, the kind (`'w'` or `'r'`) and
the counter, an `int` printed in decimal. -/
def threadFifo (kind : Char) (threadCnt : BitVec 32) : String :=
  fifoName ++ kind.toString ++ toString threadCnt.toInt

/-- `OnThreadCreate` with its counter at `threadCnt`: the write FIFO, then the read FIFO, each
path cleared when its descriptor is `-1`. -/
def onThreadCreate (threadCnt : BitVec 32) (write read : FifoAnswer) (files : String → Bool) :
    ThreadParams × (String → Bool) :=
  let writeFifo := threadFifo 'w' threadCnt
  let (writeFifoFD, files) := createFifo writeFifo write files
  let readFifo := threadFifo 'r' threadCnt
  let (readFifoFD, files) := createFifo readFifo read files
  (⟨writeFifoFD, readFifoFD, if writeFifoFD = -1 then "" else writeFifo,
    if readFifoFD = -1 then "" else readFifo⟩, files)

/-- The loop of `main` with the counter at `threadCnt`: a thread and its `OnThreadCreate` for each
pair of answers, the counter incremented after each.  `threadInfo`, a map from thread id to
`ThreadParams`, holds one entry per thread; here it is listed in creation order. -/
def onThreadCreates (threadCnt : BitVec 32) :
    List (FifoAnswer × FifoAnswer) → (String → Bool) → List ThreadParams × (String → Bool)
  | [], files => ([], files)
  | (write, read) :: answers, files =>
    let (threadParams, files) := onThreadCreate threadCnt write read files
    let (threadInfo, files) := onThreadCreates (threadCnt + 1) answers files
    (threadParams :: threadInfo, files)

/-- The thread pool of `main`: `numThread` threads, the `static` counter starting at `0`;
`answers i` are the answers to the two `CreateFifo` of thread `i`. -/
def createThreadPool (numThread : BitVec 32) (answers : Nat → FifoAnswer × FifoAnswer)
    (files : String → Bool) : List ThreadParams × (String → Bool) :=
  onThreadCreates 0 ((List.range numThread.toNat).map answers) files

/-- A system call of `AtExit`. -/
inductive Cleanup
  /-- `close( fd )`. -/
  | close (fd : Int)
  /-- `unlink( path )`. -/
  | unlink (path : String)
  deriving DecidableEq, Repr

/-- The calls `AtExit` makes for one thread: the read FIFO, then the write FIFO. -/
def cleanupThread (threadParams : ThreadParams) : List Cleanup :=
  (if threadParams.readFifoFD ≠ -1 then [.close threadParams.readFifoFD] else []) ++
  (if threadParams.readFifo ≠ "" then [.unlink threadParams.readFifo] else []) ++
  (if threadParams.writeFifoFD ≠ -1 then [.close threadParams.writeFifoFD] else []) ++
  (if threadParams.writeFifo ≠ "" then [.unlink threadParams.writeFifo] else [])

/-- `AtExit`: nothing in a forked child, otherwise the calls for every thread of `threadInfo`. -/
def atExit (isFork : Bool) (threadInfo : List ThreadParams) : List Cleanup :=
  if isFork then [] else threadInfo.flatMap cleanupThread

/-- The FIFO files after a list of calls; `removes path` is whether the `unlink` of `path`
removed it, which `AtExit` does not check. -/
def filesAfter (removes : String → Bool) : List Cleanup → (String → Bool) → String → Bool
  | [], files => files
  | .close _ :: calls, files => filesAfter removes calls files
  | .unlink path :: calls, files =>
    filesAfter removes calls (if removes path then unlinkFile files path else files)

/-- A thread whose opens return `3` and `4` is the thread the script runs of `ScriptExec` use. -/
example : (onThreadCreate 0 ⟨true, true, 3⟩ ⟨true, true, 4⟩ fun _ => false).1 = openThread := by
  decide

/-- Whether the path of a FIFO of the pool holds a file once the worker has exited, given the
answers to its `CreateFifo`, whether `AtExit`'s `unlink` of the path would remove it, and whether
the path held a file before: a FIFO that `mkfifo` made stays unless `open` opened it and that
`unlink` removed it; otherwise what was there stays unless `CreateFifo`'s `unlink` removed it. -/
def FifoAnswer.leftOnDisk (answer : FifoAnswer) (removed before : Bool) : Bool :=
  if answer.made then answer.fifofd == -1 || !removed else !answer.unlinked && before

/-! ## The FIFO paths -/

/-- The FIFOs `OnThreadCreate` makes from the counter `threadCnt` on, in order, each with the
answers to its `CreateFifo`. -/
def fifoTable (threadCnt : BitVec 32) : List (FifoAnswer × FifoAnswer) → List (String × FifoAnswer)
  | [] => []
  | (write, read) :: answers =>
    (threadFifo 'w' threadCnt, write) :: (threadFifo 'r' threadCnt, read) ::
      fifoTable (threadCnt + 1) answers

theorem toString_int_data (value : Int) :
    (toString value).data = match value with
      | .ofNat n => decimal n
      | .negSucc n => '-' :: decimal (n + 1) := by
  cases value <;> rfl

/-- `std::ostream` prints distinct `int`s as distinct strings. -/
theorem toString_int_injective : Function.Injective fun value : Int => toString value := by
  intro a b hsame
  have hdata := congrArg String.data hsame
  have hdigit : ∀ n, '-' ∉ decimal n := fun n hmem => by simpa using isDigit_of_mem_decimal hmem
  simp only [toString_int_data] at hdata
  cases a <;> cases b <;> simp only [List.cons.injEq, true_and] at hdata
  · simpa using congrArg digitsValue hdata
  · exact absurd (hdata ▸ List.mem_cons_self _ _) (hdigit _)
  · exact absurd (hdata.symm ▸ List.mem_cons_self _ _) (hdigit _)
  · simpa using congrArg digitsValue hdata

theorem threadFifo_inj {kind kind' : Char} {threadCnt threadCnt' : BitVec 32}
    (hsame : threadFifo kind threadCnt = threadFifo kind' threadCnt') :
    kind = kind' ∧ threadCnt = threadCnt' := by
  have hdata := congrArg String.data hsame
  simp only [threadFifo, String.data_append, List.append_assoc, List.append_cancel_left_eq] at hdata
  have hkind : kind = kind' := by simpa [Char.toString] using congrArg List.head? hdata
  subst hkind
  rw [List.append_cancel_left_eq] at hdata
  exact ⟨rfl, BitVec.toInt_inj.mp (toString_int_injective (String.ext hdata))⟩

theorem threadFifo_ne_empty (kind : Char) (threadCnt : BitVec 32) : threadFifo kind threadCnt ≠ "" :=
  fun hempty => by simpa [threadFifo, fifoName] using congrArg String.length hempty

/-- The table of a pool whose counter runs from `s` to `s + n - 1`. -/
theorem mem_fifoTable_range' {answers : Nat → FifoAnswer × FifoAnswer} {s n : Nat}
    {path : String} {answer : FifoAnswer} :
    (path, answer) ∈ fifoTable (BitVec.ofNat 32 s) ((List.range' s n).map answers) ↔
      ∃ i, s ≤ i ∧ i < s + n ∧
        (path = threadFifo 'w' (BitVec.ofNat 32 i) ∧ answer = (answers i).1 ∨
          path = threadFifo 'r' (BitVec.ofNat 32 i) ∧ answer = (answers i).2) := by
  induction n generalizing s with
  | zero =>
    simp only [List.range'_zero, List.map_nil, fifoTable, List.not_mem_nil, false_iff, not_exists]
    omega
  | succ n ih =>
    have hnext : BitVec.ofNat 32 s + 1 = BitVec.ofNat 32 (s + 1) := by simp [BitVec.ofNat_add]
    simp only [List.range'_succ, List.map_cons, fifoTable, List.mem_cons, Prod.mk.injEq, hnext, ih]
    constructor
    · rintro (hw | hr | ⟨i, hle, hlt, hi⟩)
      · exact ⟨s, le_rfl, by omega, .inl hw⟩
      · exact ⟨s, le_rfl, by omega, .inr hr⟩
      · exact ⟨i, by omega, by omega, hi⟩
    · rintro ⟨i, hle, hlt, hi⟩
      rcases Nat.eq_or_lt_of_le hle with rfl | hgt
      · exact hi.elim (fun hw => .inl hw) fun hr => .inr (.inl hr)
      · exact .inr (.inr ⟨i, hgt, by omega, hi⟩)

/-- While the counter stays below `2^32`, no two FIFOs of the pool share a path. -/
theorem fifoTable_range'_nodup (answers : Nat → FifoAnswer × FifoAnswer) {s n : Nat}
    (hbound : s + n ≤ 2 ^ 32) :
    ((fifoTable (BitVec.ofNat 32 s) ((List.range' s n).map answers)).map Prod.fst).Nodup := by
  induction n generalizing s with
  | zero => simp [fifoTable]
  | succ n ih =>
    have hnext : BitVec.ofNat 32 s + 1 = BitVec.ofNat 32 (s + 1) := by simp [BitVec.ofNat_add]
    have hlater : ∀ kind, threadFifo kind (BitVec.ofNat 32 s) ∉
        (fifoTable (BitVec.ofNat 32 (s + 1)) ((List.range' (s + 1) n).map answers)).map Prod.fst := by
      simp only [List.mem_map, Prod.exists, exists_and_right, exists_eq_right, mem_fifoTable_range',
        not_exists, not_and]
      intro kind answer i hle hlt hi
      have hcount : ∀ kind', threadFifo kind (BitVec.ofNat 32 s) = threadFifo kind' (BitVec.ofNat 32 i) →
          s = i := fun kind' hsame => by
        have := congrArg BitVec.toNat (threadFifo_inj hsame).2
        simp only [BitVec.toNat_ofNat] at this
        omega
      rcases hi with ⟨hw, -⟩ | ⟨hr, -⟩
      · exact absurd (hcount _ hw) (by omega)
      · exact absurd (hcount _ hr) (by omega)
    simp only [List.range'_succ, List.map_cons, fifoTable, hnext, List.nodup_cons, List.mem_cons]
    refine ⟨not_or.mpr ⟨fun hsame => by simpa using (threadFifo_inj hsame).1, hlater 'w'⟩,
      hlater 'r', ih (by omega)⟩

/-! ## One thread -/

theorem createFifo_fst (fifoName : String) (answer : FifoAnswer) (files : String → Bool) :
    (createFifo fifoName answer files).1 = if answer.made then answer.fifofd else -1 := by
  unfold createFifo
  split_ifs <;> rfl

/-- `CreateFifo` returns a descriptor exactly when `mkfifo` made the FIFO and `open` opened it. -/
theorem createFifo_fst_ne {fifoName : String} {answer : FifoAnswer} {files : String → Bool} :
    (createFifo fifoName answer files).1 ≠ -1 ↔ answer.made = true ∧ answer.fifofd ≠ -1 := by
  rw [createFifo_fst]
  cases answer.made <;> simp

theorem createFifo_snd (fifoName : String) (answer : FifoAnswer) (files : String → Bool)
    (path : String) :
    (createFifo fifoName answer files).2 path =
      if path = fifoName then answer.made || !answer.unlinked && files path else files path := by
  unfold createFifo unlinkFile mkfifoFile
  by_cases hpath : path = fifoName <;> cases answer.made <;> cases answer.unlinked <;> simp [hpath]

theorem onThreadCreate_fst (threadCnt : BitVec 32) (write read : FifoAnswer)
    (files : String → Bool) :
    (onThreadCreate threadCnt write read files).1 =
      let writeFifoFD := (createFifo (threadFifo 'w' threadCnt) write files).1
      let readFifoFD := (createFifo (threadFifo 'r' threadCnt) read files).1
      ⟨writeFifoFD, readFifoFD, if writeFifoFD = -1 then "" else threadFifo 'w' threadCnt,
        if readFifoFD = -1 then "" else threadFifo 'r' threadCnt⟩ := by
  simp only [onThreadCreate, createFifo_fst]

theorem onThreadCreate_snd (threadCnt : BitVec 32) (write read : FifoAnswer) (files : String → Bool)
    (path : String) :
    (onThreadCreate threadCnt write read files).2 path =
      if path = threadFifo 'r' threadCnt then read.made || !read.unlinked && files path
      else if path = threadFifo 'w' threadCnt then write.made || !write.unlinked && files path
      else files path := by
  have hrw : threadFifo 'r' threadCnt ≠ threadFifo 'w' threadCnt := fun hsame => by
    simpa using (threadFifo_inj hsame).1
  simp only [onThreadCreate, createFifo_snd]
  by_cases hread : path = threadFifo 'r' threadCnt <;> simp [hread, hrw]

theorem unlink_mem_cleanupThread {threadParams : ThreadParams} {path : String} :
    Cleanup.unlink path ∈ cleanupThread threadParams ↔
      threadParams.readFifo ≠ "" ∧ path = threadParams.readFifo ∨
        threadParams.writeFifo ≠ "" ∧ path = threadParams.writeFifo := by
  simp [cleanupThread, List.mem_ite_nil_right]

theorem eq_cleared_iff {path fifo : String} {fd : Int} (hfifo : fifo ≠ "") :
    (if fd = -1 then "" else fifo) ≠ "" ∧ path = (if fd = -1 then "" else fifo) ↔
      path = fifo ∧ fd ≠ -1 := by
  split <;> simp [*, and_comm]

/-- What `AtExit` unlinks of one thread: each FIFO that `mkfifo` made and `open` opened. -/
theorem unlink_mem_cleanupThread_onThreadCreate {threadCnt : BitVec 32} {write read : FifoAnswer}
    {files : String → Bool} {path : String} :
    Cleanup.unlink path ∈ cleanupThread (onThreadCreate threadCnt write read files).1 ↔
      path = threadFifo 'r' threadCnt ∧ read.made = true ∧ read.fifofd ≠ -1 ∨
        path = threadFifo 'w' threadCnt ∧ write.made = true ∧ write.fifofd ≠ -1 := by
  simp only [unlink_mem_cleanupThread, onThreadCreate_fst, eq_cleared_iff (threadFifo_ne_empty _ _),
    createFifo_fst_ne]

/-! ## The pool -/

@[simp]
theorem onThreadCreates_cons_fst (threadCnt : BitVec 32) (write read : FifoAnswer)
    (answers : List (FifoAnswer × FifoAnswer)) (files : String → Bool) :
    (onThreadCreates threadCnt ((write, read) :: answers) files).1 =
      (onThreadCreate threadCnt write read files).1 ::
        (onThreadCreates (threadCnt + 1) answers (onThreadCreate threadCnt write read files).2).1 :=
  rfl

@[simp]
theorem onThreadCreates_cons_snd (threadCnt : BitVec 32) (write read : FifoAnswer)
    (answers : List (FifoAnswer × FifoAnswer)) (files : String → Bool) :
    (onThreadCreates threadCnt ((write, read) :: answers) files).2 =
      (onThreadCreates (threadCnt + 1) answers (onThreadCreate threadCnt write read files).2).2 :=
  rfl

/-- A path that names no FIFO of the pool is as it was after the pool is set up. -/
theorem onThreadCreates_files_of_not_mem {threadCnt : BitVec 32}
    {answers : List (FifoAnswer × FifoAnswer)} (files : String → Bool) {path : String}
    (hnone : ∀ answer, (path, answer) ∉ fifoTable threadCnt answers) :
    (onThreadCreates threadCnt answers files).2 path = files path := by
  induction answers generalizing threadCnt files with
  | nil => rfl
  | cons entry answers ih =>
    obtain ⟨write, read⟩ := entry
    simp only [fifoTable, List.mem_cons, Prod.mk.injEq, not_or] at hnone
    have hwrite : path ≠ threadFifo 'w' threadCnt := fun hsame => (hnone write).1 ⟨hsame, rfl⟩
    have hread : path ≠ threadFifo 'r' threadCnt := fun hsame => (hnone read).2.1 ⟨hsame, rfl⟩
    rw [onThreadCreates_cons_snd, ih _ fun answer => (hnone answer).2.2, onThreadCreate_snd,
      if_neg hread, if_neg hwrite]

/-- With distinct paths, a FIFO of the pool after the pool is set up: made by `mkfifo`, or what
was there if `CreateFifo`'s `unlink` did not remove it. -/
theorem onThreadCreates_files_of_mem {threadCnt : BitVec 32}
    {answers : List (FifoAnswer × FifoAnswer)}
    (hnodup : ((fifoTable threadCnt answers).map Prod.fst).Nodup) (files : String → Bool)
    {path : String} {answer : FifoAnswer} (hmem : (path, answer) ∈ fifoTable threadCnt answers) :
    (onThreadCreates threadCnt answers files).2 path =
      (answer.made || !answer.unlinked && files path) := by
  induction answers generalizing threadCnt files with
  | nil => simp [fifoTable] at hmem
  | cons entry answers ih =>
    obtain ⟨write, read⟩ := entry
    simp only [fifoTable, List.map_cons, List.nodup_cons, List.mem_cons, List.mem_map,
      Prod.exists, exists_and_right, exists_eq_right, not_or, not_exists] at hnodup
    obtain ⟨⟨hwr, hw⟩, hr, hrest⟩ := hnodup
    simp only [fifoTable, List.mem_cons, Prod.mk.injEq] at hmem
    rw [onThreadCreates_cons_snd]
    rcases hmem with ⟨rfl, rfl⟩ | ⟨rfl, rfl⟩ | hmem
    · rw [onThreadCreates_files_of_not_mem _ hw, onThreadCreate_snd, if_neg hwr, if_pos rfl]
    · rw [onThreadCreates_files_of_not_mem _ hr, onThreadCreate_snd, if_pos rfl]
    · have hwrite : path ≠ threadFifo 'w' threadCnt := fun hsame => hw answer (hsame ▸ hmem)
      have hread : path ≠ threadFifo 'r' threadCnt := fun hsame => hr answer (hsame ▸ hmem)
      rw [ih hrest _ hmem, onThreadCreate_snd, if_neg hread, if_neg hwrite]

/-- What `AtExit` unlinks of the pool: each FIFO that `mkfifo` made and `open` opened. -/
theorem unlink_mem_atExit_onThreadCreates {threadCnt : BitVec 32}
    {answers : List (FifoAnswer × FifoAnswer)} {files : String → Bool} {path : String} :
    Cleanup.unlink path ∈ atExit false (onThreadCreates threadCnt answers files).1 ↔
      ∃ answer, (path, answer) ∈ fifoTable threadCnt answers ∧ answer.made = true ∧
        answer.fifofd ≠ -1 := by
  induction answers generalizing threadCnt files with
  | nil => simp [atExit, onThreadCreates, fifoTable]
  | cons entry answers ih =>
    obtain ⟨write, read⟩ := entry
    have hcons : ∀ threadParams threadInfo, atExit false (threadParams :: threadInfo) =
        cleanupThread threadParams ++ atExit false threadInfo := fun _ _ => rfl
    simp only [onThreadCreates_cons_fst, hcons, List.mem_append,
      unlink_mem_cleanupThread_onThreadCreate, ih, fifoTable, List.mem_cons, Prod.mk.injEq,
      or_and_right, exists_or, and_assoc, exists_and_left, exists_eq_left, or_assoc]
    exact or_left_comm

theorem filesAfter_eq_true {removes : String → Bool} {calls : List Cleanup}
    {files : String → Bool} {path : String} :
    filesAfter removes calls files path = true ↔
      files path = true ∧ ¬(Cleanup.unlink path ∈ calls ∧ removes path = true) := by
  induction calls generalizing files with
  | nil => simp [filesAfter]
  | cons call calls ih =>
    cases call with
    | close fd => simp [filesAfter, ih]
    | unlink other =>
      simp only [filesAfter, ih, List.mem_cons, Cleanup.unlink.injEq]
      by_cases hpath : path = other
      · subst hpath
        cases removes path <;> simp [unlinkFile]
      · split <;> simp [unlinkFile, hpath]

/-- With distinct paths, what a FIFO of the pool leaves on disk after `AtExit`. -/
theorem filesAfter_atExit_of_mem {threadCnt : BitVec 32} {answers : List (FifoAnswer × FifoAnswer)}
    (hnodup : ((fifoTable threadCnt answers).map Prod.fst).Nodup) (removes files : String → Bool)
    {path : String} {answer : FifoAnswer} (hmem : (path, answer) ∈ fifoTable threadCnt answers) :
    filesAfter removes (atExit false (onThreadCreates threadCnt answers files).1)
        (onThreadCreates threadCnt answers files).2 path =
      answer.leftOnDisk (removes path) (files path) := by
  have htable : ∀ answer', (path, answer') ∈ fifoTable threadCnt answers ↔ answer' = answer :=
    fun _ => ⟨fun hmem' => (Prod.mk.inj (List.inj_on_of_nodup_map hnodup hmem' hmem rfl)).2,
      fun hsame => hsame ▸ hmem⟩
  rw [Bool.eq_iff_iff, filesAfter_eq_true, onThreadCreates_files_of_mem hnodup files hmem,
    unlink_mem_atExit_onThreadCreates]
  cases hmade : answer.made <;> simp [htable, hmade, FifoAnswer.leftOnDisk, or_iff_not_imp_left]

/-- A path that names no FIFO of the pool is as it was after `AtExit`. -/
theorem filesAfter_atExit_of_not_mem {threadCnt : BitVec 32}
    {answers : List (FifoAnswer × FifoAnswer)} (removes files : String → Bool) {path : String}
    (hnone : ∀ answer, (path, answer) ∉ fifoTable threadCnt answers) :
    filesAfter removes (atExit false (onThreadCreates threadCnt answers files).1)
        (onThreadCreates threadCnt answers files).2 path = files path := by
  rw [Bool.eq_iff_iff, filesAfter_eq_true, onThreadCreates_files_of_not_mem files hnone,
    unlink_mem_atExit_onThreadCreates]
  simp [hnone]

/-- The paths of a thread are its table entries, the empty path of a FIFO that failed apart. -/
theorem fifos_sublist_fifoTable (threadCnt : BitVec 32) (answers : List (FifoAnswer × FifoAnswer))
    (files : String → Bool) :
    List.Sublist (((onThreadCreates threadCnt answers files).1.flatMap fun threadParams =>
        [threadParams.writeFifo, threadParams.readFifo]).filter fun path => path ≠ "")
      ((fifoTable threadCnt answers).map Prod.fst) := by
  induction answers generalizing threadCnt files with
  | nil => simp [onThreadCreates]
  | cons entry answers ih =>
    obtain ⟨write, read⟩ := entry
    simp only [onThreadCreates_cons_fst, List.flatMap_cons, List.filter_append, fifoTable,
      List.map_cons]
    have hthread : List.Sublist
        ([(onThreadCreate threadCnt write read files).1.writeFifo,
          (onThreadCreate threadCnt write read files).1.readFifo].filter fun path => path ≠ "")
        [threadFifo 'w' threadCnt, threadFifo 'r' threadCnt] := by
      simp only [onThreadCreate_fst]
      split_ifs <;> simp [threadFifo_ne_empty]
    exact hthread.append (ih _ _)

theorem createThreadPool_eq (numThread : BitVec 32) (answers : Nat → FifoAnswer × FifoAnswer)
    (files : String → Bool) :
    createThreadPool numThread answers files =
      onThreadCreates (BitVec.ofNat 32 0) ((List.range' 0 numThread.toNat).map answers) files := by
  rw [createThreadPool, List.range_eq_range']
  rfl

/-- The table of `main`'s pool names every path once: `numThread` is below `2 ^ 32`. -/
theorem createThreadPool_table_nodup (numThread : BitVec 32)
    (answers : Nat → FifoAnswer × FifoAnswer) :
    ((fifoTable (BitVec.ofNat 32 0) ((List.range' 0 numThread.toNat).map answers)).map
      Prod.fst).Nodup :=
  fifoTable_range'_nodup answers (by have := numThread.isLt; omega)

/-- No two FIFOs of `main`'s thread pool share a path: the paths `threadInfo` holds, the empty
ones apart, are pairwise distinct, whatever the number of threads. -/
theorem createThreadPool_fifos_nodup (numThread : BitVec 32)
    (answers : Nat → FifoAnswer × FifoAnswer) (files : String → Bool) :
    (((createThreadPool numThread answers files).1.flatMap fun threadParams =>
      [threadParams.writeFifo, threadParams.readFifo]).filter fun path => path ≠ "").Nodup := by
  rw [createThreadPool_eq]
  exact (createThreadPool_table_nodup numThread answers).sublist (fifos_sublist_fifoTable _ _ _)

/-- After `main` has set up the pool and `AtExit` has run, for every answer of `unlink`,
`mkfifo` and `open`: the write and the read FIFO of thread `i` are still on disk when `mkfifo`
made them and `open` could not open them (the path is cleared, so `AtExit` does not unlink it)
or `AtExit`'s `unlink` failed; where `mkfifo` failed, what was at the path stays unless
`CreateFifo`'s `unlink` removed it; and every path that names no FIFO of the pool is as it was. -/
theorem createThreadPool_atExit_files (numThread : BitVec 32)
    (answers : Nat → FifoAnswer × FifoAnswer) (removes files : String → Bool) :
    (∀ i < numThread.toNat,
      filesAfter removes (atExit false (createThreadPool numThread answers files).1)
          (createThreadPool numThread answers files).2 (threadFifo 'w' (BitVec.ofNat 32 i)) =
        (answers i).1.leftOnDisk (removes (threadFifo 'w' (BitVec.ofNat 32 i)))
          (files (threadFifo 'w' (BitVec.ofNat 32 i))) ∧
      filesAfter removes (atExit false (createThreadPool numThread answers files).1)
          (createThreadPool numThread answers files).2 (threadFifo 'r' (BitVec.ofNat 32 i)) =
        (answers i).2.leftOnDisk (removes (threadFifo 'r' (BitVec.ofNat 32 i)))
          (files (threadFifo 'r' (BitVec.ofNat 32 i)))) ∧
    ∀ path, (∀ i < numThread.toNat,
        path ≠ threadFifo 'w' (BitVec.ofNat 32 i) ∧ path ≠ threadFifo 'r' (BitVec.ofNat 32 i)) →
      filesAfter removes (atExit false (createThreadPool numThread answers files).1)
        (createThreadPool numThread answers files).2 path = files path := by
  have hnodup := createThreadPool_table_nodup numThread answers
  rw [createThreadPool_eq]
  refine ⟨fun i hi => ⟨?_, ?_⟩, fun path hpath => ?_⟩
  · exact filesAfter_atExit_of_mem hnodup removes files
      (mem_fifoTable_range'.mpr ⟨i, by omega, by omega, .inl ⟨rfl, rfl⟩⟩)
  · exact filesAfter_atExit_of_mem hnodup removes files
      (mem_fifoTable_range'.mpr ⟨i, by omega, by omega, .inr ⟨rfl, rfl⟩⟩)
  · refine filesAfter_atExit_of_not_mem removes files fun answer hmem => ?_
    obtain ⟨i, -, hi, hw | hr⟩ := mem_fifoTable_range'.mp hmem
    · exact (hpath i (by omega)).1 hw.1
    · exact (hpath i (by omega)).2 hr.1

/-- Another user's FIFO at `/tmp/.prexecw0`, which `unlink` cannot remove: `mkfifo` fails, and
that FIFO is still there after `AtExit`. -/
example : filesAfter (fun _ => true)
    (atExit false (createThreadPool 1 (fun _ => (⟨false, false, 3⟩, ⟨true, true, 4⟩))
      fun path => decide (path = "/tmp/.prexecw0")).1)
    (createThreadPool 1 (fun _ => (⟨false, false, 3⟩, ⟨true, true, 4⟩))
      fun path => decide (path = "/tmp/.prexecw0")).2 "/tmp/.prexecw0" = true := by
  decide

end Worker
end Prun
