import Mathlib.Data.List.Nodup
import Mathlib.Logic.Function.Basic

/-!
# The cron manager

`CronManager` of the master keeps its timeout handlers in `jobs_`, a multimap ordered by
deadline, and binds each job name to its handler in `names_`.  A stopped handler is only
tombstoned (`removed_`) and stays in `jobs_` until a sweep or `StopAllJobs` erases it.  The sweep,
`CheckTimeouts`, collects the due handlers under `jobsMut_` and invokes them after releasing it,
so it is two kinds of step here: `collect` and one `invoke` per collected handler.  Every call the
manager makes to the job manager and to the event receiver is appended to a log.

Times are `std::chrono::system_clock` readings, in seconds.  A handler is a shared object; its
`id` stands for its identity, and the ids of the handlers tombstoned so far stand for their
`removed_` flags.
-/

namespace Prun
namespace Master

/-- A job as the cron manager reads it. -/
structure CronJob where
  /-- `GetName()`. -/
  name : String
  /-- `GetDescription()`. -/
  description : String
  /-- What `GetCron().Next( now )` returned. -/
  next : Nat
  deriving DecidableEq, Repr

/-- A `JobTimeoutHandler` or `MetaJobTimeoutHandler`. -/
structure TimeoutHandler where
  /-- The identity of the shared handler object: the number of handlers made before it. -/
  id : Nat
  /-- `jobName_`. -/
  jobName : String
  /-- `deadline_`. -/
  deadline : Nat
  /-- `jobDescription_`, which `HandleTimeout` resubmits. -/
  jobDescription : String
  /-- `jobNames` of a meta handler, kept as `std::set` keeps it; empty for a job handler. -/
  jobNames : List String
  deriving DecidableEq, Repr

/-- A call the cron manager makes to another service. -/
inductive Event
  /-- `IJobManager::RegisterJobName`. -/
  | registerJobName (name : String)
  /-- `IJobManager::ReleaseJobName`. -/
  | releaseJobName (name : String)
  /-- `IJobEventReceiver::OnJobAdd`. -/
  | onJobAdd (name description : String)
  /-- `IJobEventReceiver::OnJobDelete`. -/
  | onJobDelete (name : String)
  /-- `HandleTimeout` of this handler: `BuildAndPushJob( -1, jobDescription_, true )`. -/
  | handleTimeout (handler : TimeoutHandler)
  deriving DecidableEq, Repr

/-- The state of `CronManager`. -/
structure CronManager where
  /-- How many handlers have been made. -/
  nextId : Nat
  /-- `jobs_`: deadline and handler, by deadline, equal deadlines in insertion order. -/
  jobs : List (Nat × TimeoutHandler)
  /-- `names_`. -/
  names : String → Option TimeoutHandler
  /-- The ids of the handlers whose `removed_` is set. -/
  removed : List Nat
  /-- The `ready` handlers of the running sweep not yet invoked. -/
  ready : List TimeoutHandler
  /-- The calls made so far, oldest first. -/
  log : List Event

namespace CronManager

/-- The manager after its constructor. -/
def initial : CronManager := ⟨0, [], fun _ => none, [], [], []⟩

/-- `std::set< std::string >::insert`: the names in order, each once.  The order is `std::less`,
the lexicographic order of `String.decLt`. -/
def setInsert (name : String) : List String → List String
  | [] => [name]
  | head :: tail =>
    if @decide _ (String.decLt name head) then name :: head :: tail
    else if name = head then head :: tail
    else head :: setInsert name tail

/-- `jobs_.emplace( deadline, handler )`: after every entry whose deadline is not later. -/
def insertJob (entry : Nat × TimeoutHandler) : List (Nat × TimeoutHandler) → List (Nat × TimeoutHandler)
  | [] => [entry]
  | head :: tail => if entry.1 < head.1 then entry :: head :: tail else head :: insertJob entry tail

/-- What every push ends with under `jobsMut_`, after the calls it made:
`jobs_.emplace( deadline, handler )` and `names_[ name ] = handler`. -/
def addHandler (s : CronManager) (handler : TimeoutHandler) (events : List Event) : CronManager :=
  { s with
    nextId := s.nextId + 1
    jobs := insertJob (handler.deadline, handler) s.jobs
    names := Function.update s.names handler.jobName (some handler)
    log := s.log ++ events }

/-- `PushJob( job, afterExecution )`: a repeated push moves a deadline that is not in the future
by one minute; a first push registers the name. -/
def pushJob (s : CronManager) (job : CronJob) (now : Nat) (afterExecution : Bool) : CronManager :=
  let deadline := if afterExecution ∧ job.next ≤ now then job.next + 60 else job.next
  s.addHandler ⟨s.nextId, job.name, deadline, job.description, []⟩
    ((if afterExecution then [] else [.registerJobName job.name]) ++
      [.onJobAdd job.name job.description])

/-- `PushMetaJob( metaJob )`: the deadline moves by one minute if it is not in the future, no
name is registered, and the handler's `jobNames` stay empty. -/
def pushMetaJob (s : CronManager) (group : CronJob) (now : Nat) : CronManager :=
  let deadline := if group.next ≤ now then group.next + 60 else group.next
  s.addHandler ⟨s.nextId, group.name, deadline, group.description, []⟩
    [.onJobAdd group.name group.description]

/-- The non-empty child names of a meta-job, as `PushMetaJob( jobs )` inserts them. -/
def childNames (children : List String) : List String :=
  (children.filter fun name => name ≠ "").foldl (fun names name => setInsert name names) []

/-- `PushMetaJob( jobs )`, for the group of the first job and the names of all jobs: the
deadline is taken as it is, and the group's name and each non-empty child name are
registered. -/
def pushMetaJobList (s : CronManager) (group : CronJob) (children : List String) : CronManager :=
  s.addHandler ⟨s.nextId, group.name, group.next, group.description, childNames children⟩
    ([.registerJobName group.name, .onJobAdd group.name group.description] ++
      (children.filter fun name => name ≠ "").map .registerJobName)

/-- The handlers whose `HandleTimeout` a list of calls records, in order. -/
def invoked (events : List Event) : List TimeoutHandler :=
  events.filterMap fun
    | .handleTimeout handler => some handler
    | _ => none

/-- The calls `ReleaseJob` makes for a handler. -/
def releaseEvents (handler : TimeoutHandler) : List Event :=
  handler.jobNames.map .releaseJobName ++
    [.releaseJobName handler.jobName, .onJobDelete handler.jobName]

/-- `ReleaseJob`: tombstone the handler and release its names. -/
def releaseJob (s : CronManager) (handler : TimeoutHandler) : CronManager :=
  { s with removed := handler.id :: s.removed, log := s.log ++ releaseEvents handler }

/-- `StopJob( jobName )`: release the handler the name is bound to, and unbind the name. -/
def stopJob (s : CronManager) (jobName : String) : CronManager :=
  match s.names jobName with
  | some handler => { s.releaseJob handler with names := Function.update s.names jobName none }
  | none => s

/-- `StopAllJobs`: release every handler in `jobs_`, tombstoned or not, then clear both maps. -/
def stopAllJobs (s : CronManager) : CronManager :=
  { s.jobs.foldl (fun s entry => s.releaseJob entry.2) s with jobs := [], names := fun _ => none }

/-- The loop of `CheckTimeouts` under `jobsMut_`: from the earliest deadline on, stop at the first
deadline after `now`, collect each handler that is not tombstoned and erase its name, and erase
every entry passed.  Returns the collected handlers, `names_` and `jobs_`.  The source comments the
test `now < jobPlannedTime` as skipping earlier planned jobs, but the loop breaks there: it is the
later planned jobs that stay, and no entry after them is looked at. -/
def collectReady (removed : List Nat) (now : Nat) :
    List (Nat × TimeoutHandler) → (String → Option TimeoutHandler) →
      List TimeoutHandler × (String → Option TimeoutHandler) × List (Nat × TimeoutHandler)
  | [], names => ([], names, [])
  | (deadline, handler) :: rest, names =>
    if now < deadline then ([], names, (deadline, handler) :: rest)
    else if handler.id ∈ removed then collectReady removed now rest names
    else
      let collected := collectReady removed now rest (Function.update names handler.jobName none)
      (handler :: collected.1, collected.2)

/-- The first half of `CheckTimeouts`: collect the due handlers into `ready`. -/
def collect (s : CronManager) (now : Nat) : CronManager :=
  let collected := collectReady s.removed now s.jobs s.names
  { s with ready := collected.1, names := collected.2.1, jobs := collected.2.2 }

/-- The rest of a running `CheckTimeouts`: invoke every collected handler still in `ready`, in
order. -/
def invokeReady (s : CronManager) : CronManager :=
  { s with ready := [], log := s.log ++ s.ready.map .handleTimeout }

/-- `CheckTimeouts` with nothing else in between. -/
def checkTimeouts (s : CronManager) (now : Nat) : CronManager := (s.collect now).invokeReady

/-- The operations of the manager's callers and of its sweep thread. -/
inductive Op
  | pushJob (job : CronJob) (now : Nat) (afterExecution : Bool)
  | pushMetaJob (group : CronJob) (now : Nat)
  | pushMetaJobList (group : CronJob) (children : List String)
  /-- `CheckTimeouts` collects at clock reading `now`. -/
  | collect (now : Nat)
  /-- `CheckTimeouts` invokes the next collected handler. -/
  | invoke
  | stopJob (jobName : String)
  | stopAllJobs
  deriving DecidableEq, Repr

/-- One operation.  The sweep thread runs `CheckTimeouts` to its end before it sweeps again, so
`collect` needs an empty `ready` and `invoke` a non-empty one. -/
def step (s : CronManager) : Op → Option CronManager
  | .pushJob job now afterExecution => some (s.pushJob job now afterExecution)
  | .pushMetaJob group now => some (s.pushMetaJob group now)
  | .pushMetaJobList group children => some (s.pushMetaJobList group children)
  | .collect now => if s.ready = [] then some (s.collect now) else none
  | .invoke =>
    match s.ready with
    | [] => none
    | handler :: rest => some { s with ready := rest, log := s.log ++ [.handleTimeout handler] }
  | .stopJob jobName => some (s.stopJob jobName)
  | .stopAllJobs => some s.stopAllJobs

/-- Run operations in order from a state; `none` when one is not enabled. -/
def run : CronManager → List Op → Option CronManager
  | s, [] => some s
  | s, op :: ops => (s.step op).bind (run · ops)

/-- The name a push binds. -/
def Op.pushedName : Op → Option String
  | .pushJob job _ _ => some job.name
  | .pushMetaJob group _ => some group.name
  | .pushMetaJobList group _ => some group.name
  | _ => none

/-- States reachable from the constructor through operations that `allowed` admits. -/
inductive Reachable (allowed : CronManager → Op → Prop) : CronManager → Prop
  | initial : Reachable allowed initial
  | step {s s' : CronManager} {op : Op} : Reachable allowed s → allowed s op →
      s.step op = some s' → Reachable allowed s'

/-! ## What each operation changes -/

section Fields

variable (s : CronManager) (handler : TimeoutHandler) (events : List Event)

@[simp] theorem addHandler_nextId : (s.addHandler handler events).nextId = s.nextId + 1 := rfl
@[simp] theorem addHandler_jobs :
    (s.addHandler handler events).jobs = insertJob (handler.deadline, handler) s.jobs := rfl
@[simp] theorem addHandler_names :
    (s.addHandler handler events).names = Function.update s.names handler.jobName (some handler) :=
  rfl
@[simp] theorem addHandler_removed : (s.addHandler handler events).removed = s.removed := rfl
@[simp] theorem addHandler_ready : (s.addHandler handler events).ready = s.ready := rfl
@[simp] theorem addHandler_log : (s.addHandler handler events).log = s.log ++ events := rfl

@[simp] theorem releaseJob_nextId : (s.releaseJob handler).nextId = s.nextId := rfl
@[simp] theorem releaseJob_jobs : (s.releaseJob handler).jobs = s.jobs := rfl
@[simp] theorem releaseJob_names : (s.releaseJob handler).names = s.names := rfl
@[simp] theorem releaseJob_removed : (s.releaseJob handler).removed = handler.id :: s.removed :=
  rfl
@[simp] theorem releaseJob_ready : (s.releaseJob handler).ready = s.ready := rfl
@[simp] theorem releaseJob_log :
    (s.releaseJob handler).log = s.log ++ releaseEvents handler := rfl

end Fields

theorem insertJob_perm (entry : Nat × TimeoutHandler) (jobs : List (Nat × TimeoutHandler)) :
    (insertJob entry jobs).Perm (entry :: jobs) := by
  induction jobs with
  | nil => rfl
  | cons head tail ih =>
    unfold insertJob
    split
    · rfl
    · exact (ih.cons head).trans (List.Perm.swap entry head tail)

@[simp] theorem mem_insertJob {entry other : Nat × TimeoutHandler} {jobs : List (Nat × TimeoutHandler)} :
    other ∈ insertJob entry jobs ↔ other = entry ∨ other ∈ jobs := by
  simp [(insertJob_perm entry jobs).mem_iff]

/-- `StopAllJobs` tombstones and releases the handlers of `jobs_` in order. -/
theorem foldl_releaseJob (jobs : List (Nat × TimeoutHandler)) (s : CronManager) :
    jobs.foldl (fun s entry => s.releaseJob entry.2) s =
      { s with
        removed := (jobs.map fun entry => entry.2.id).reverse ++ s.removed
        log := s.log ++ (jobs.map fun entry => releaseEvents entry.2).flatten } := by
  induction jobs generalizing s with
  | nil => simp
  | cons entry jobs ih =>
    rw [List.foldl_cons, ih]
    simp [releaseJob, List.append_assoc]

theorem stopJob_of_bound {s : CronManager} {jobName : String} {handler : TimeoutHandler}
    (hbound : s.names jobName = some handler) :
    s.stopJob jobName = { s.releaseJob handler with names := Function.update s.names jobName none } := by
  simp [stopJob, hbound]

theorem stopJob_of_unbound {s : CronManager} {jobName : String} (hunbound : s.names jobName = none) :
    s.stopJob jobName = s := by
  simp [stopJob, hunbound]

section Stops

variable (s : CronManager) (jobName : String)

@[simp] theorem stopJob_jobs : (s.stopJob jobName).jobs = s.jobs := by unfold stopJob; split <;> rfl
@[simp] theorem stopJob_ready : (s.stopJob jobName).ready = s.ready := by unfold stopJob; split <;> rfl
@[simp] theorem stopJob_nextId : (s.stopJob jobName).nextId = s.nextId := by
  unfold stopJob; split <;> rfl

theorem subset_stopJob_removed : s.removed ⊆ (s.stopJob jobName).removed := by
  unfold stopJob; split <;> simp

@[simp] theorem stopAllJobs_jobs : s.stopAllJobs.jobs = [] := rfl
@[simp] theorem stopAllJobs_ready : s.stopAllJobs.ready = s.ready := by
  simp [stopAllJobs, foldl_releaseJob]
@[simp] theorem stopAllJobs_nextId : s.stopAllJobs.nextId = s.nextId := by
  simp [stopAllJobs, foldl_releaseJob]
@[simp] theorem stopAllJobs_removed :
    s.stopAllJobs.removed = (s.jobs.map fun entry => entry.2.id).reverse ++ s.removed := by
  simp [stopAllJobs, foldl_releaseJob]
@[simp] theorem stopAllJobs_log :
    s.stopAllJobs.log = s.log ++ (s.jobs.map fun entry => releaseEvents entry.2).flatten := by
  simp [stopAllJobs, foldl_releaseJob]

end Stops

section CollectReady

variable (removed : List Nat) (now : Nat)

/-- The entries the sweep walks over: those before the first deadline after `now`. -/
def due (jobs : List (Nat × TimeoutHandler)) : List (Nat × TimeoutHandler) :=
  jobs.takeWhile fun entry => entry.1 ≤ now

theorem mem_of_mem_due {jobs : List (Nat × TimeoutHandler)} {entry : Nat × TimeoutHandler}
    (hdue : entry ∈ due now jobs) : entry ∈ jobs :=
  List.takeWhile_subset _ hdue

theorem collectReady_jobs (jobs : List (Nat × TimeoutHandler))
    (names : String → Option TimeoutHandler) :
    (collectReady removed now jobs names).2.2 = jobs.dropWhile fun entry => entry.1 ≤ now := by
  induction jobs generalizing names with
  | nil => rfl
  | cons entry jobs ih =>
    obtain ⟨deadline, handler⟩ := entry
    unfold collectReady
    by_cases hlate : now < deadline
    · simp [hlate, List.dropWhile_cons]
    · simp only [hlate, if_false, List.dropWhile_cons, show deadline ≤ now by omega, decide_True]
      split <;> simp [ih]

theorem collectReady_ready (jobs : List (Nat × TimeoutHandler))
    (names : String → Option TimeoutHandler) :
    (collectReady removed now jobs names).1 =
      ((due now jobs).filter fun entry => entry.2.id ∉ removed).map Prod.snd := by
  induction jobs generalizing names with
  | nil => rfl
  | cons entry jobs ih =>
    obtain ⟨deadline, handler⟩ := entry
    unfold collectReady due
    by_cases hlate : now < deadline
    · simp [hlate, List.takeWhile_cons]
    · simp only [hlate, if_false, List.takeWhile_cons, show deadline ≤ now by omega, decide_True]
      split <;> simp_all [due]

theorem collectReady_names (jobs : List (Nat × TimeoutHandler))
    (names : String → Option TimeoutHandler) (name : String) :
    (collectReady removed now jobs names).2.1 name =
      if name ∈ (collectReady removed now jobs names).1.map TimeoutHandler.jobName then none
      else names name := by
  induction jobs generalizing names with
  | nil => simp [collectReady]
  | cons entry jobs ih =>
    obtain ⟨deadline, handler⟩ := entry
    unfold collectReady
    by_cases hlate : now < deadline
    · simp [hlate]
    · simp only [hlate, if_false]
      split
      · exact ih names
      · simp only [ih, List.map_cons, List.mem_cons, Function.update_apply]
        by_cases hname : name = handler.jobName <;> simp [hname]

end CollectReady

@[simp] theorem collect_ready (s : CronManager) (now : Nat) :
    (s.collect now).ready = ((due now s.jobs).filter fun entry => entry.2.id ∉ s.removed).map Prod.snd :=
  collectReady_ready _ _ _ _

@[simp] theorem collect_jobs (s : CronManager) (now : Nat) :
    (s.collect now).jobs = s.jobs.dropWhile fun entry => entry.1 ≤ now :=
  collectReady_jobs _ _ _ _

@[simp] theorem collect_removed (s : CronManager) (now : Nat) : (s.collect now).removed = s.removed :=
  rfl

@[simp] theorem collect_nextId (s : CronManager) (now : Nat) : (s.collect now).nextId = s.nextId :=
  rfl

@[simp] theorem collect_log (s : CronManager) (now : Nat) : (s.collect now).log = s.log := rfl

theorem collect_names (s : CronManager) (now : Nat) (name : String) :
    (s.collect now).names name =
      if name ∈ (s.collect now).ready.map TimeoutHandler.jobName then none else s.names name :=
  collectReady_names _ _ _ _ _

@[simp] theorem invoked_append (first second : List Event) :
    invoked (first ++ second) = invoked first ++ invoked second := List.filterMap_append _ _ _

@[simp] theorem invoked_releaseEvents (handler : TimeoutHandler) :
    invoked (releaseEvents handler) = [] := by
  simp [invoked, releaseEvents, List.filterMap_map, Function.comp_def]

@[simp] theorem invoked_handleTimeout (handler : TimeoutHandler) :
    invoked [.handleTimeout handler] = [handler] := rfl

@[simp] theorem invoked_handleTimeouts (handlers : List TimeoutHandler) :
    invoked (handlers.map .handleTimeout) = handlers := by
  simp [invoked, List.filterMap_map, Function.comp_def]

@[simp] theorem invoked_flatten_releaseEvents (entries : List (Nat × TimeoutHandler)) :
    invoked (entries.map fun entry => releaseEvents entry.2).flatten = [] := by
  induction entries with
  | nil => rfl
  | cons entry entries ih => simp [ih]

@[simp] theorem invoked_stopJob_log (s : CronManager) (jobName : String) :
    invoked (s.stopJob jobName).log = invoked s.log := by
  unfold stopJob; split <;> simp

/-- The invocations `CheckTimeouts` has still to make are the ones `invokeReady` makes. -/
theorem run_invokes_ready (s : CronManager) :
    s.run (List.replicate s.ready.length .invoke) = some s.invokeReady := by
  obtain ⟨nextId, jobs, names, removed, ready, log⟩ := s
  induction ready generalizing log with
  | nil => simp [run, invokeReady]
  | cons handler ready ih =>
    simp only [List.length_cons, List.replicate_succ, run, step, Option.some_bind]
    exact (ih _).trans (by simp [invokeReady])

/-- What one step can do: a push adds a handler with the next id, a sweep collects or invokes,
a stop releases. -/
theorem step_cases {s s' : CronManager} {op : Op} (hstep : s.step op = some s') :
    (∃ handler events, s' = s.addHandler handler events ∧ handler.id = s.nextId ∧
        op.pushedName = some handler.jobName ∧ invoked events = []) ∨
      (∃ now, op = .collect now ∧ s.ready = [] ∧ s' = s.collect now) ∨
      (∃ handler rest, op = .invoke ∧ s.ready = handler :: rest ∧
        s' = { s with ready := rest, log := s.log ++ [.handleTimeout handler] }) ∨
      (∃ jobName, op = .stopJob jobName ∧ s' = s.stopJob jobName) ∨
      (op = .stopAllJobs ∧ s' = s.stopAllJobs) := by
  cases op with
  | pushJob job now afterExecution =>
    exact .inl ⟨_, _, (Option.some.inj hstep).symm, rfl, rfl, by split <;> rfl⟩
  | pushMetaJob group now => exact .inl ⟨_, _, (Option.some.inj hstep).symm, rfl, rfl, rfl⟩
  | pushMetaJobList group children =>
    exact .inl ⟨_, _, (Option.some.inj hstep).symm, rfl, rfl, by simp [invoked]⟩
  | collect now =>
    simp only [step] at hstep
    split at hstep
    · exact .inr (.inl ⟨now, rfl, ‹_›, (Option.some.inj hstep).symm⟩)
    · cases hstep
  | invoke =>
    simp only [step] at hstep
    split at hstep
    · cases hstep
    · exact .inr (.inr (.inl ⟨_, _, rfl, ‹_›, (Option.some.inj hstep).symm⟩))
  | stopJob jobName => exact .inr (.inr (.inr (.inl ⟨jobName, rfl, (Option.some.inj hstep).symm⟩)))
  | stopAllJobs => exact .inr (.inr (.inr (.inr ⟨rfl, (Option.some.inj hstep).symm⟩)))

end CronManager

end Master
end Prun
