import Prun.Master.CronManager

/-!
# Names and live handlers

No push of the cron manager checks whether its name is already bound, and a sweep erases the
binding of a collected handler's name whatever handler it points to.  So `names_` matches the
live handlers of `jobs_` only in runs where a push never names a job that still has a live
handler.  In every such run `names_` binds exactly the live handlers, each under its own name;
one second push of a live name breaks this.
-/

namespace Prun
namespace Master
namespace CronManager

/-- No handler in `jobs_` with this name is live. -/
def NameFree (s : CronManager) (name : String) : Prop :=
  ∀ entry ∈ s.jobs, entry.2.jobName = name → entry.2.id ∈ s.removed

/-- The restriction on runs: a push never names a job that has a live handler in `jobs_`. -/
def FreshPush (s : CronManager) (op : Op) : Prop :=
  ∀ name, op.pushedName = some name → s.NameFree name

/-- `names_` binds the live entries of `jobs_`, each under its name, and handler ids are those
of distinct, already made handlers. -/
structure NamesInvariant (s : CronManager) : Prop where
  /-- A binding points to a live handler of that name, stored under its deadline. -/
  bound : ∀ name handler, s.names name = some handler →
    handler.jobName = name ∧ handler.id ∉ s.removed ∧ (handler.deadline, handler) ∈ s.jobs
  /-- Every live handler is the one its name is bound to. -/
  live : ∀ entry ∈ s.jobs, entry.2.id ∉ s.removed → s.names entry.2.jobName = some entry.2
  /-- No handler is stored twice. -/
  distinct : (s.jobs.map fun entry => entry.2.id).Nodup
  /-- Stored handlers were made before. -/
  fresh : ∀ entry ∈ s.jobs, entry.2.id < s.nextId
  /-- Tombstoned handlers were made before. -/
  freshRemoved : ∀ id ∈ s.removed, id < s.nextId

theorem namesInvariant_initial : NamesInvariant initial :=
  ⟨by simp [initial], by simp [initial], by simp [initial], by simp [initial], by simp [initial]⟩

/-- Two stored entries with one id are one entry. -/
theorem NamesInvariant.entry_eq {s : CronManager} (hinv : NamesInvariant s)
    {first second : Nat × TimeoutHandler} (hfirst : first ∈ s.jobs) (hsecond : second ∈ s.jobs)
    (hid : first.2.id = second.2.id) : first = second :=
  List.inj_on_of_nodup_map hinv.distinct hfirst hsecond hid

theorem NamesInvariant.addHandler {s : CronManager} (hinv : NamesInvariant s)
    {handler : TimeoutHandler} (events : List Event) (hid : handler.id = s.nextId)
    (hfree : s.NameFree handler.jobName) : NamesInvariant (s.addHandler handler events) := by
  have hnew : handler.id ∉ s.jobs.map fun entry => entry.2.id := by
    simp only [List.mem_map, not_exists, not_and]
    exact fun entry hentry hsame => by have := hinv.fresh entry hentry; omega
  refine ⟨fun name bound hname => ?_, fun entry hentry hlive => ?_, ?_, ?_, ?_⟩
  · simp only [addHandler_names, Function.update_apply] at hname
    split at hname
    · cases hname
      exact ⟨by simp_all, fun hmem => by have := hinv.freshRemoved _ hmem; omega, by simp⟩
    · obtain ⟨hbound, hlive, hmem⟩ := hinv.bound name bound hname
      exact ⟨hbound, hlive, by simp [hmem]⟩
  · simp only [addHandler_jobs, mem_insertJob] at hentry
    simp only [addHandler_names, Function.update_apply]
    rcases hentry with rfl | hentry
    · simp
    · have hother : entry.2.jobName ≠ handler.jobName := fun hsame => hlive (hfree entry hentry hsame)
      simpa [hother] using hinv.live entry hentry hlive
  · simpa [((insertJob_perm _ s.jobs).map _).nodup_iff, hnew] using hinv.distinct
  · simp only [addHandler_jobs, mem_insertJob, addHandler_nextId]
    rintro entry (rfl | hentry)
    · simp [hid]
    · exact Nat.lt_succ_of_lt (hinv.fresh entry hentry)
  · exact fun id hmem => Nat.lt_succ_of_lt (hinv.freshRemoved id hmem)

theorem NamesInvariant.collect {s : CronManager} (hinv : NamesInvariant s) (now : Nat) :
    NamesInvariant (s.collect now) := by
  have hsplit := List.takeWhile_append_dropWhile (fun entry : Nat × TimeoutHandler => entry.1 ≤ now) s.jobs
  have hsuffix : (s.jobs.dropWhile fun entry => entry.1 ≤ now) <:+ s.jobs := ⟨_, hsplit⟩
  have hcollected : ∀ entry ∈ due now s.jobs, entry.2.id ∉ s.removed →
      entry.2.jobName ∈ (s.collect now).ready.map TimeoutHandler.jobName := by
    intro entry hentry hlive
    have hready : entry.2 ∈ (s.collect now).ready := by
      simp only [collect_ready]
      exact List.mem_map_of_mem _ (List.mem_filter.mpr ⟨hentry, by simpa using hlive⟩)
    exact List.mem_map_of_mem _ hready
  refine ⟨fun name handler hname => ?_, fun entry hentry hlive => ?_, ?_, ?_, hinv.freshRemoved⟩
  · rw [collect_names] at hname
    split at hname
    · cases hname
    · next hnotCollected =>
      obtain ⟨hbound, hlive, hmem⟩ := hinv.bound name handler hname
      refine ⟨hbound, hlive, ?_⟩
      rw [← hsplit] at hmem
      rcases List.mem_append.mp hmem with hdue | hlate
      · exact absurd (hbound ▸ hcollected _ hdue hlive) hnotCollected
      · simpa using hlate
  · simp only [collect_jobs] at hentry
    rw [collect_names, if_neg]
    · exact hinv.live entry (hsuffix.subset hentry) hlive
    · simp only [collect_ready, List.mem_map, List.mem_filter, Function.comp] at hlive ⊢
      rintro ⟨_, ⟨other, ⟨hdue, hotherLive⟩, rfl⟩, hname⟩
      have hsame := (hinv.live other (mem_of_mem_due now hdue) (by simpa using hotherLive)).symm.trans
        (hname ▸ hinv.live entry (hsuffix.subset hentry) hlive)
      have hentries := hinv.entry_eq (mem_of_mem_due now hdue) (hsuffix.subset hentry)
        (congrArg TimeoutHandler.id (Option.some.inj hsame))
      have hnodup := hinv.distinct
      rw [← hsplit, List.map_append] at hnodup
      exact List.disjoint_of_nodup_append hnodup (List.mem_map_of_mem _ hdue)
        (hentries ▸ List.mem_map_of_mem _ hentry)
  · simpa using hsuffix.sublist.map (fun entry : Nat × TimeoutHandler => entry.2.id) |>.nodup hinv.distinct
  · simpa using fun entry hentry => hinv.fresh entry (hsuffix.subset hentry)

theorem NamesInvariant.stopJob {s : CronManager} (hinv : NamesInvariant s) (jobName : String) :
    NamesInvariant (s.stopJob jobName) := by
  cases hname : s.names jobName with
  | none => rwa [stopJob_of_unbound hname]
  | some handler =>
    rw [stopJob_of_bound hname]
    obtain ⟨hbound, hlive, hmem⟩ := hinv.bound jobName handler hname
    refine ⟨fun name other hother => ?_, fun entry hentry hentryLive => ?_, hinv.distinct, hinv.fresh,
      ?_⟩
    · simp only [Function.update_apply] at hother
      split at hother
      · cases hother
      · next hne =>
        obtain ⟨hotherName, hotherLive, hotherMem⟩ := hinv.bound name other hother
        refine ⟨hotherName, ?_, hotherMem⟩
        simp only [releaseJob_removed, List.mem_cons, not_or]
        refine ⟨fun hid => hne ?_, hotherLive⟩
        have hsameName := congrArg (fun entry => entry.2.jobName) (hinv.entry_eq hotherMem hmem hid)
        exact hotherName.symm.trans (hsameName.trans hbound)
    · simp only [releaseJob_removed, List.mem_cons, not_or] at hentryLive
      simp only [releaseJob_jobs] at hentry
      have hbinding := hinv.live entry hentry hentryLive.2
      simp only [Function.update_apply]
      split
      · next hsame =>
        rw [hsame, hname] at hbinding
        exact absurd (congrArg TimeoutHandler.id (Option.some.inj hbinding)).symm hentryLive.1
      · exact hbinding
    · simp only [releaseJob_removed, releaseJob_nextId, List.mem_cons]
      rintro id (rfl | hid)
      · exact hinv.fresh _ hmem
      · exact hinv.freshRemoved id hid

theorem NamesInvariant.stopAllJobs {s : CronManager} (hinv : NamesInvariant s) :
    NamesInvariant s.stopAllJobs := by
  refine ⟨by simp [CronManager.stopAllJobs], by simp [CronManager.stopAllJobs],
    by simp [CronManager.stopAllJobs], by simp [CronManager.stopAllJobs], ?_⟩
  simp only [CronManager.stopAllJobs, foldl_releaseJob, List.mem_append, List.mem_reverse,
    List.mem_map]
  rintro id (⟨entry, hentry, rfl⟩ | hid)
  · exact hinv.fresh entry hentry
  · exact hinv.freshRemoved id hid

theorem NamesInvariant.step {s s' : CronManager} {op : Op} (hinv : NamesInvariant s)
    (hfresh : FreshPush s op) (hstep : s.step op = some s') : NamesInvariant s' := by
  rcases step_cases hstep with ⟨handler, events, rfl, hid, hname, -⟩ | ⟨now, -, -, rfl⟩ |
    ⟨handler, rest, -, -, rfl⟩ | ⟨jobName, -, rfl⟩ | ⟨-, rfl⟩
  · exact hinv.addHandler events hid (hfresh _ hname)
  · exact hinv.collect now
  · exact ⟨hinv.1, hinv.2, hinv.3, hinv.4, hinv.5⟩
  · exact hinv.stopJob jobName
  · exact hinv.stopAllJobs

theorem namesInvariant_of_reachable {s : CronManager} (hs : Reachable FreshPush s) :
    NamesInvariant s := by
  induction hs with
  | initial => exact namesInvariant_initial
  | step _ hfresh hstep ih => exact ih.step hfresh hstep

end CronManager
end Master
end Prun
