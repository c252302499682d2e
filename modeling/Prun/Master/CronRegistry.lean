import Mathlib.Data.List.Count
import Prun.Master.CronSweep

/-!
# Registered names

The job manager counts the names the cron manager registers: `RegisterJobName` adds an
occurrence and `ReleaseJobName` removes one.  Each operation moves the count by the calls it logs:
a first `PushJob` and `PushMetaJob( jobs )` register, `StopJob` and `StopAllJobs` release the
names of the handlers they reach, and the sweep does neither.  A chain started by
`PushJob( job, false )` and stopped while it is bound gives its name back.  Two paths break the
count.  `StopAllJobs` releases every handler of `jobs_`, also one that `StopJob` already
tombstoned and released.  And a meta-job re-armed by `PushMetaJob( metaJob )` gets a handler
with no child names, so stopping it releases none of the children its start registered.
-/

namespace Prun
namespace Master
namespace CronManager

/-- How many occurrences of `name` the calls leave registered with the job manager. -/
def registrations (events : List Event) (name : String) : Int :=
  events.count (.registerJobName name) - events.count (.releaseJobName name)

@[simp] theorem registrations_append (first second : List Event) (name : String) :
    registrations (first ++ second) name = registrations first name + registrations second name := by
  simp only [registrations, List.count_append]
  omega

theorem registrations_map_registerJobName (names : List String) (name : String) :
    registrations (names.map .registerJobName) name = names.count name := by
  have hnone : (names.map Event.registerJobName).count (.releaseJobName name) = 0 :=
    List.count_eq_zero_of_not_mem (by simp)
  simp [registrations, hnone,
    List.count_map_of_injective _ _ fun _ _ hsame => Event.registerJobName.inj hsame]

theorem registrations_releaseEvents (handler : TimeoutHandler) (name : String) :
    registrations (releaseEvents handler) name =
      -(handler.jobNames.count name : Int) - if handler.jobName = name then 1 else 0 := by
  have hnone : (handler.jobNames.map Event.releaseJobName).count (.registerJobName name) = 0 :=
    List.count_eq_zero_of_not_mem (by simp)
  simp [registrations, releaseEvents, List.count_cons, hnone,
    List.count_map_of_injective _ _ fun _ _ hsame => Event.releaseJobName.inj hsame]
  split <;> omega

/-- What a first push logs before it binds its handler. -/
theorem registrations_register_onJobAdd (jobName description name : String) :
    registrations [.registerJobName jobName, .onJobAdd jobName description] name =
      if jobName = name then 1 else 0 := by
  by_cases hsame : jobName = name <;> simp [registrations, List.count_cons, hsame]

/-- A chain started by `PushJob( job, false )` and stopped before it fires gives back exactly
the name it registered. -/
theorem registrations_pushJob_stopJob (s : CronManager) (job : CronJob) (now : Nat)
    (name : String) :
    registrations ((s.pushJob job now false).stopJob job.name).log name = registrations s.log name := by
  have hbound : (s.pushJob job now false).names job.name =
      some ⟨s.nextId, job.name, job.next, job.description, []⟩ := by
    simp [pushJob]
  rw [stopJob_of_bound hbound]
  simp only [releaseJob_log, pushJob, addHandler_log, Bool.false_eq_true, ite_false,
    List.singleton_append, registrations_append, registrations_register_onJobAdd,
    registrations_releaseEvents, List.count_nil]
  omega

/-- A handler made by `PushMetaJob( metaJob )` has no child names: stopping it gives back only
the group's name. -/
theorem registrations_pushMetaJob_stopJob (s : CronManager) (group : CronJob) (now : Nat)
    (name : String) :
    registrations ((s.pushMetaJob group now).stopJob group.name).log name =
      registrations s.log name - if group.name = name then 1 else 0 := by
  have hbound : (s.pushMetaJob group now).names group.name = some ⟨s.nextId, group.name,
      if group.next ≤ now then group.next + 60 else group.next, group.description, []⟩ := by
    simp [pushMetaJob]
  rw [stopJob_of_bound hbound]
  simp only [releaseJob_log, pushMetaJob, addHandler_log, registrations_append,
    registrations_releaseEvents]
  simp [registrations]
  omega

/-- `PushMetaJob( jobs )` registers the group's name and each non-empty child name, as often as
the children have it. -/
theorem registrations_pushMetaJobList (s : CronManager) (group : CronJob) (children : List String)
    (name : String) :
    registrations (s.pushMetaJobList group children).log name = registrations s.log name +
      (if group.name = name then 1 else 0) + (children.filter fun child => child ≠ "").count name := by
  simp only [pushMetaJobList, addHandler_log, registrations_append, registrations_register_onJobAdd,
    registrations_map_registerJobName]
  omega

/-- The sweep neither registers nor releases: a collection logs nothing and an invocation logs a
`HandleTimeout`. -/
theorem registrations_run_sweeps {s t : CronManager} {ops : List Op}
    (hops : ∀ op ∈ ops, op = .invoke ∨ ∃ clock, op = .collect clock) (hrun : s.run ops = some t)
    (name : String) : registrations t.log name = registrations s.log name := by
  induction ops generalizing s with
  | nil => cases Option.some.inj hrun; rfl
  | cons op ops ih =>
    obtain ⟨next, hstep, hrest⟩ := Option.bind_eq_some.mp hrun
    rw [ih (fun op hop => hops op (.tail _ hop)) hrest]
    rcases hops op (.head _) with rfl | ⟨clock, rfl⟩
    · cases hready : s.ready with
      | nil => simp [step, hready] at hstep
      | cons handler rest =>
        simp only [step, hready, Option.some.injEq] at hstep
        subst hstep
        simp [registrations]
    · obtain ⟨-, rfl⟩ : s.ready = [] ∧ s.collect clock = next := by simpa [step] using hstep
      rfl

/-- `StopAllJobs` releases every name that `ReleaseJob` gives back for a handler of `jobs_`,
whether or not a `StopJob` has released it before. -/
theorem registrations_stopAllJobs (s : CronManager) (name : String) :
    registrations s.stopAllJobs.log name = registrations s.log name -
      (s.jobs.map fun entry => releaseEvents entry.2).flatten.count (.releaseJobName name) := by
  have hnone : (s.jobs.map fun entry => releaseEvents entry.2).flatten.count
      (.registerJobName name) = 0 :=
    List.count_eq_zero_of_not_mem fun hmem => by
      obtain ⟨events, hevents, hmem⟩ := List.mem_flatten.mp hmem
      obtain ⟨entry, -, rfl⟩ := List.mem_map.mp hevents
      simp [releaseEvents] at hmem
  simp only [registrations, stopAllJobs_log, List.count_append, hnone]
  omega

/-- `StopJob` leaves the handler it released in `jobs_`, where `StopAllJobs` finds it again. -/
theorem count_releases_pushJob_stopJob (s : CronManager) (job : CronJob) (now : Nat)
    (name : String) :
    (((s.pushJob job now false).stopJob job.name).jobs.map fun entry => releaseEvents entry.2).flatten.count
        (.releaseJobName name) =
      (if job.name = name then 1 else 0) +
        (s.jobs.map fun entry => releaseEvents entry.2).flatten.count (.releaseJobName name) := by
  simp only [stopJob_jobs, pushJob, addHandler_jobs]
  rw [(((insertJob_perm _ s.jobs).map _).flatten).count_eq, List.map_cons, List.flatten_cons,
    List.count_append]
  congr 1
  by_cases hname : job.name = name <;> simp [releaseEvents, List.count_cons, hname]

/-- In every state, a chain started by `PushJob( job, false )` and stopped gives its name back,
and a later `StopAllJobs` releases it once more, on top of what it releases for the handlers
that were there before.  A meta-job started by `PushMetaJob( jobs )`, swept any number of times,
re-armed by `PushMetaJob( metaJob )` and stopped leaves every non-empty child name registered as
often as the start registered it. -/
theorem registrations_unbalanced_after_stops :
    (∀ (s : CronManager) (job : CronJob) (now : Nat) (name : String),
      registrations ((s.pushJob job now false).stopJob job.name).log name = registrations s.log name ∧
      registrations ((s.pushJob job now false).stopJob job.name).stopAllJobs.log name =
        registrations s.log name - (if job.name = name then 1 else 0) -
          (s.jobs.map fun entry => releaseEvents entry.2).flatten.count (.releaseJobName name)) ∧
    (∀ (s : CronManager) (group : CronJob) (children : List String) (ops : List Op)
      (t : CronManager) (now : Nat), (∀ op ∈ ops, op = .invoke ∨ ∃ clock, op = .collect clock) →
      (s.pushMetaJobList group children).run ops = some t →
      ∀ name, registrations ((t.pushMetaJob group now).stopJob group.name).log name =
        registrations s.log name + (children.filter fun child => child ≠ "").count name) := by
  refine ⟨fun s job now name => ⟨registrations_pushJob_stopJob s job now name, ?_⟩,
    fun s group children ops t now hops hrun name => ?_⟩
  · rw [registrations_stopAllJobs, count_releases_pushJob_stopJob, registrations_pushJob_stopJob]
    split_ifs <;> omega
  · rw [registrations_pushMetaJob_stopJob, registrations_run_sweeps hops hrun,
      registrations_pushMetaJobList]
    omega

/-- A job pushed, stopped and then stopped again by `StopAllJobs` is released twice; a meta-job
started with child `a`, fired, re-armed by `PushMetaJob( metaJob )` and stopped leaves `a`
registered. -/
theorem registrations_after_stop_runs :
    (∃ s, run initial [.pushJob ⟨"A", "", 10⟩ 0 false, .stopJob "A", .stopAllJobs] = some s ∧
      registrations s.log "A" = -1) ∧
    (∃ s, run initial [.pushMetaJobList ⟨"G", "", 0⟩ ["a"], .collect 0, .invoke,
        .pushMetaJob ⟨"G", "", 0⟩ 0, .stopJob "G"] = some s ∧
      registrations s.log "G" = 0 ∧ registrations s.log "a" = 1) :=
  have hchain := registrations_unbalanced_after_stops.2 initial ⟨"G", "", 0⟩ ["a"] [.collect 0, .invoke]
    ((initial.pushMetaJobList ⟨"G", "", 0⟩ ["a"]).checkTimeouts 0) 0 (by simp) rfl
  ⟨⟨_, rfl, (registrations_unbalanced_after_stops.1 initial ⟨"A", "", 10⟩ 0 "A").2.trans (by decide)⟩,
    ⟨_, rfl, (hchain "G").trans (by decide), (hchain "a").trans (by decide)⟩⟩

end CronManager
end Master
end Prun
