import Prun.Master.CronNames

/-!
# The sweep

`CheckTimeouts` walks `jobs_` from the earliest deadline and breaks at the first deadline after
its clock reading.  The break loses nothing because `jobs_` stays ordered by deadline, equal
deadlines in push order, and every handler is stored under its own deadline.  A collected
handler leaves `jobs_` at once, so no handler is invoked twice, in any run.

The collection also erases the name binding, and nothing checks `removed_` at invocation.  So a
stop cancels a handler only if it comes before the sweep that collects it: a stop in between
finds no binding, and the handler is still invoked.
-/

namespace Prun
namespace Master
namespace CronManager

/-- `first` comes before `second` in `jobs_`: an earlier deadline, or the same deadline and an
earlier push. -/
def Before (first second : Nat × TimeoutHandler) : Prop :=
  first.1 < second.1 ∨ first.1 = second.1 ∧ first.2.id < second.2.id

/-- The ids of the handlers invoked so far, then of those collected and not yet invoked, then of
those in `jobs_`. -/
def handlerIds (s : CronManager) : List Nat :=
  (invoked s.log ++ s.ready).map TimeoutHandler.id ++ s.jobs.map fun entry => entry.2.id

/-- What keeps the sweep exact and every invocation single. -/
structure SweepInvariant (s : CronManager) : Prop where
  /-- Every handler is stored under its deadline. -/
  keyed : ∀ entry ∈ s.jobs, entry.1 = entry.2.deadline
  /-- `jobs_` is ordered by deadline, equal deadlines in push order. -/
  sorted : s.jobs.Pairwise Before
  /-- No handler is invoked twice, or invoked or collected and still in `jobs_`. -/
  distinct : s.handlerIds.Nodup
  /-- Every handler seen was made before. -/
  fresh : ∀ id ∈ s.handlerIds, id < s.nextId

/-! ## `jobs_` stays sorted -/

theorem pairwise_insertJob {entry : Nat × TimeoutHandler} {jobs : List (Nat × TimeoutHandler)}
    (hsorted : jobs.Pairwise Before) (hfresh : ∀ other ∈ jobs, other.2.id < entry.2.id) :
    (insertJob entry jobs).Pairwise Before := by
  induction jobs with
  | nil => simp [insertJob]
  | cons head tail ih =>
    rw [List.pairwise_cons] at hsorted
    unfold insertJob
    split
    · refine .cons (fun other hother => ?_) (.cons hsorted.1 hsorted.2)
      rcases List.mem_cons.mp hother with rfl | htail
      · exact .inl ‹_›
      · rcases hsorted.1 other htail with hlt | ⟨heq, -⟩ <;> exact .inl (by omega)
    · refine .cons (fun other hother => ?_) (ih hsorted.2 fun other h => hfresh other (.tail _ h))
      rcases mem_insertJob.mp hother with rfl | htail
      · by_cases hlt : head.1 < other.1
        · exact .inl hlt
        · exact .inr ⟨by omega, hfresh head (.head _)⟩
      · exact hsorted.1 other htail

/-- On a sorted `jobs_` the loop's break is exact: it walks over every entry due at `now`. -/
theorem mem_due {jobs : List (Nat × TimeoutHandler)} (hsorted : jobs.Pairwise Before) (now : Nat)
    {entry : Nat × TimeoutHandler} : entry ∈ due now jobs ↔ entry ∈ jobs ∧ entry.1 ≤ now := by
  induction jobs with
  | nil => simp [due]
  | cons head tail ih =>
    rw [List.pairwise_cons] at hsorted
    simp only [due] at ih ⊢
    by_cases hhead : head.1 ≤ now
    · by_cases hentry : entry = head
      · simp [List.takeWhile_cons, hhead, hentry]
      · simp [List.takeWhile_cons, hhead, hentry, ih hsorted.2]
    · simp only [List.takeWhile_cons, hhead, decide_False, Bool.false_eq_true, if_false,
        List.not_mem_nil, List.mem_cons, false_iff, not_and]
      rintro (rfl | htail)
      · exact hhead
      · rcases hsorted.1 entry htail with hlt | ⟨heq, -⟩ <;> omega

/-! ## The invariant over every run -/

theorem sweepInvariant_initial : SweepInvariant initial :=
  ⟨by simp [initial], by simp [initial], by simp [initial, handlerIds, invoked],
    by simp [initial, handlerIds, invoked]⟩

/-- A push adds one new id. -/
theorem handlerIds_addHandler_perm (s : CronManager) (handler : TimeoutHandler) {events : List Event}
    (hevents : invoked events = []) :
    (s.addHandler handler events).handlerIds.Perm (handler.id :: s.handlerIds) := by
  have hjobs := ((insertJob_perm (handler.deadline, handler) s.jobs).map fun entry => entry.2.id)
  simpa [handlerIds, hevents] using
    (hjobs.append_left ((invoked s.log ++ s.ready).map TimeoutHandler.id)).trans List.perm_middle

/-- A collection moves the live due handlers from `jobs_` to `ready` and drops the others. -/
theorem handlerIds_collect_sublist {s : CronManager} (hready : s.ready = []) (now : Nat) :
    List.Sublist (s.collect now).handlerIds s.handlerIds := by
  have hdue : List.Sublist (((due now s.jobs).filter fun entry => entry.2.id ∉ s.removed).map
      fun entry => entry.2.id) ((due now s.jobs).map fun entry => entry.2.id) :=
    (List.filter_sublist _).map _
  have hjobs := congrArg (List.map fun entry : Nat × TimeoutHandler => entry.2.id)
    (List.takeWhile_append_dropWhile (fun entry : Nat × TimeoutHandler => entry.1 ≤ now) s.jobs)
  rw [List.map_append] at hjobs
  simp only [handlerIds, collect_ready, collect_log, collect_jobs, hready, List.append_nil,
    List.map_append, List.map_map, List.append_assoc]
  rw [← hjobs]
  exact (hdue.append (List.Sublist.refl _)).append_left _

theorem SweepInvariant.addHandler {s : CronManager} (hinv : SweepInvariant s)
    {handler : TimeoutHandler} {events : List Event} (hid : handler.id = s.nextId)
    (hevents : invoked events = []) : SweepInvariant (s.addHandler handler events) := by
  have hperm := handlerIds_addHandler_perm s handler hevents
  have hold : ∀ entry ∈ s.jobs, entry.2.id < s.nextId := fun entry hentry =>
    hinv.fresh _ (List.mem_append_right _ (List.mem_map_of_mem _ hentry))
  refine ⟨?_, ?_, hperm.nodup_iff.mpr ?_, fun id hmem => ?_⟩
  · simpa using hinv.keyed
  · exact pairwise_insertJob hinv.sorted (hid ▸ hold)
  · exact List.nodup_cons.mpr ⟨fun hmem => (hinv.fresh _ hmem).ne hid, hinv.distinct⟩
  · rcases List.mem_cons.mp (hperm.subset hmem) with rfl | hold
    · simp [hid]
    · exact Nat.lt_succ_of_lt (hinv.fresh id hold)

theorem SweepInvariant.collect {s : CronManager} (hinv : SweepInvariant s) (hready : s.ready = [])
    (now : Nat) : SweepInvariant (s.collect now) := by
  have hsuffix : List.Sublist (s.jobs.dropWhile fun entry => entry.1 ≤ now) s.jobs :=
    List.dropWhile_sublist _
  have hids := handlerIds_collect_sublist hready now
  refine ⟨?_, ?_, hids.nodup hinv.distinct, fun id hmem => hinv.fresh id (hids.subset hmem)⟩
  · simpa using fun entry hentry => hinv.keyed entry (hsuffix.subset hentry)
  · simpa using hinv.sorted.sublist hsuffix

theorem SweepInvariant.stopJob {s : CronManager} (hinv : SweepInvariant s) (jobName : String) :
    SweepInvariant (s.stopJob jobName) := by
  have hids : (s.stopJob jobName).handlerIds = s.handlerIds := by simp [handlerIds]
  exact ⟨by simpa using hinv.keyed, by simpa using hinv.sorted, hids ▸ hinv.distinct,
    by simpa [hids] using hinv.fresh⟩

theorem SweepInvariant.stopAllJobs {s : CronManager} (hinv : SweepInvariant s) :
    SweepInvariant s.stopAllJobs := by
  have hids : List.Sublist s.stopAllJobs.handlerIds s.handlerIds := by
    simp [handlerIds]
  exact ⟨by simp, by simp, hids.nodup hinv.distinct,
    by simpa using fun id hmem => hinv.fresh id (hids.subset hmem)⟩

theorem SweepInvariant.step {s s' : CronManager} {op : Op} (hinv : SweepInvariant s)
    (hstep : s.step op = some s') : SweepInvariant s' := by
  rcases step_cases hstep with ⟨handler, events, rfl, hid, -, hevents⟩ | ⟨now, -, hready, rfl⟩ |
    ⟨handler, rest, -, hready, rfl⟩ | ⟨jobName, -, rfl⟩ | ⟨-, rfl⟩
  · exact hinv.addHandler hid hevents
  · exact hinv.collect hready now
  · have hids : handlerIds { s with ready := rest, log := s.log ++ [.handleTimeout handler] } =
        s.handlerIds := by
      simp [handlerIds, hready, invoked]
    exact ⟨hinv.keyed, hinv.sorted, hids ▸ hinv.distinct, hids ▸ hinv.fresh⟩
  · exact hinv.stopJob jobName
  · exact hinv.stopAllJobs

theorem sweepInvariant_of_reachable {allowed : CronManager → Op → Prop} {s : CronManager}
    (hs : Reachable allowed s) : SweepInvariant s := by
  induction hs with
  | initial => exact sweepInvariant_initial
  | step _ _ hstep ih => exact ih.step hstep

/-- A handler in `jobs_` has been neither collected nor invoked. -/
theorem SweepInvariant.ne_of_mem_jobs {s : CronManager} (hinv : SweepInvariant s)
    {entry : Nat × TimeoutHandler} (hentry : entry ∈ s.jobs) :
    ∀ handler ∈ invoked s.log ++ s.ready, handler.id ≠ entry.2.id := fun _ hhandler hsame =>
  List.disjoint_of_nodup_append hinv.distinct (List.mem_map_of_mem _ hhandler)
    (hsame ▸ List.mem_map_of_mem _ hentry)

/-! ## One sweep -/

theorem SweepInvariant.mem_collect_ready {s : CronManager} (hinv : SweepInvariant s) (now : Nat)
    (handler : TimeoutHandler) : handler ∈ (s.collect now).ready ↔
      (handler.deadline, handler) ∈ s.jobs ∧ handler.deadline ≤ now ∧ handler.id ∉ s.removed := by
  simp only [collect_ready, List.mem_map, List.mem_filter, mem_due hinv.sorted, decide_not,
    Bool.not_eq_true', decide_eq_false_iff_not]
  constructor
  · rintro ⟨entry, ⟨⟨hentry, hdue⟩, hlive⟩, rfl⟩
    rw [hinv.keyed entry hentry] at hdue
    exact ⟨hinv.keyed entry hentry ▸ hentry, hdue, hlive⟩
  · rintro ⟨hentry, hdue, hlive⟩
    exact ⟨_, ⟨⟨hentry, hdue⟩, hlive⟩, rfl⟩

theorem SweepInvariant.collect_ready_sorted {s : CronManager} (hinv : SweepInvariant s)
    (now : Nat) : (s.collect now).ready.Pairwise fun first second =>
      first.deadline < second.deadline ∨ first.deadline = second.deadline ∧ first.id < second.id := by
  have hsub : List.Sublist ((due now s.jobs).filter fun entry => entry.2.id ∉ s.removed) s.jobs :=
    (List.filter_sublist _).trans (List.takeWhile_sublist _)
  rw [collect_ready, List.pairwise_map]
  refine (hinv.sorted.sublist hsub).imp_of_mem fun hfirst hsecond hbefore => ?_
  rwa [Before, hinv.keyed _ (hsub.subset hfirst), hinv.keyed _ (hsub.subset hsecond)] at hbefore

/-- In every run no handler is invoked twice.  From any reachable state with no sweep running, a
sweep at any clock reading invokes, in the order of `jobs_` (by deadline, then by push), exactly
the handlers stored under a deadline not after the reading and not tombstoned. -/
theorem sweep_invokes_live_due_handlers_once {allowed : CronManager → Op → Prop}
    {s : CronManager} (hs : Reachable allowed s) :
    ((invoked s.log).map TimeoutHandler.id).Nodup ∧
    ∀ now, s.ready = [] →
      s.run (.collect now :: List.replicate (s.collect now).ready.length .invoke) =
        some (s.checkTimeouts now) ∧
      invoked (s.checkTimeouts now).log = invoked s.log ++ (s.collect now).ready ∧
      (∀ handler, handler ∈ (s.collect now).ready ↔
        (handler.deadline, handler) ∈ s.jobs ∧ handler.deadline ≤ now ∧ handler.id ∉ s.removed) ∧
      (s.collect now).ready.Pairwise fun first second =>
        first.deadline < second.deadline ∨ first.deadline = second.deadline ∧ first.id < second.id := by
  have hinv := sweepInvariant_of_reachable hs
  refine ⟨?_, fun now hready => ⟨?_, by
      simp only [checkTimeouts, invokeReady, invoked_append, invoked_handleTimeouts, collect_log],
    hinv.mem_collect_ready now, hinv.collect_ready_sorted now⟩⟩
  · have hnodup := hinv.distinct
    simp only [handlerIds, List.map_append, List.append_assoc] at hnodup
    exact hnodup.of_append_left
  · simp only [run, step, hready, if_true, Option.some_bind]
    exact run_invokes_ready _

/-- The sweep after one push. -/
theorem sweep_after_one_push :
    ∃ s, run initial [.pushJob ⟨"A", "", 0⟩ 0 false] = some s ∧ Reachable (fun _ _ => True) s ∧
      ((invoked s.log).map TimeoutHandler.id).Nodup ∧
      ∀ now, s.ready = [] →
        s.run (.collect now :: List.replicate (s.collect now).ready.length .invoke) =
          some (s.checkTimeouts now) ∧
        invoked (s.checkTimeouts now).log = invoked s.log ++ (s.collect now).ready ∧
        (∀ handler, handler ∈ (s.collect now).ready ↔
          (handler.deadline, handler) ∈ s.jobs ∧ handler.deadline ≤ now ∧ handler.id ∉ s.removed) ∧
        (s.collect now).ready.Pairwise fun first second =>
          first.deadline < second.deadline ∨ first.deadline = second.deadline ∧ first.id < second.id :=
  have hs : Reachable (fun _ _ => True) (initial.pushJob ⟨"A", "", 0⟩ 0 false) :=
    .step .initial trivial (rfl : initial.step (.pushJob ⟨"A", "", 0⟩ 0 false) = _)
  ⟨_, rfl, hs, sweep_invokes_live_due_handlers_once hs⟩

/-! ## Stops and the sweep -/

/-- The handler with this id is tombstoned, and neither pending in `ready` nor invoked. -/
def Cancelled (id : Nat) (s : CronManager) : Prop :=
  id ∈ s.removed ∧ (∀ handler ∈ s.ready, handler.id ≠ id) ∧ ∀ handler ∈ invoked s.log, handler.id ≠ id

theorem Cancelled.step {id : Nat} {s s' : CronManager} {op : Op} (hcancelled : Cancelled id s)
    (hstep : s.step op = some s') : Cancelled id s' := by
  obtain ⟨hremoved, hready, hinvoked⟩ := hcancelled
  rcases step_cases hstep with ⟨handler, events, rfl, -, -, hevents⟩ | ⟨now, -, -, rfl⟩ |
    ⟨handler, rest, -, hpending, rfl⟩ | ⟨jobName, -, rfl⟩ | ⟨-, rfl⟩
  · exact ⟨hremoved, hready, by simpa [hevents] using hinvoked⟩
  · refine ⟨hremoved, fun handler hhandler hsame => ?_, hinvoked⟩
    simp only [collect_ready, List.mem_map, List.mem_filter] at hhandler
    obtain ⟨entry, ⟨-, hlive⟩, rfl⟩ := hhandler
    simp_all
  · rw [hpending] at hready
    refine ⟨hremoved, fun other hother => hready other (.tail _ hother), fun other hother => ?_⟩
    simp only [invoked_append, invoked_handleTimeout, List.mem_append, List.mem_singleton] at hother
    rcases hother with hold | rfl
    · exact hinvoked other hold
    · exact hready other (.head _)
  · exact ⟨subset_stopJob_removed s jobName hremoved, by simpa using hready, by simpa using hinvoked⟩
  · exact ⟨by simp [hremoved], by simpa using hready, by simpa using hinvoked⟩

theorem Cancelled.after_run {id : Nat} {s s' : CronManager} {ops : List Op} (hcancelled : Cancelled id s)
    (hrun : s.run ops = some s') : Cancelled id s' := by
  induction ops generalizing s with
  | nil => exact Option.some.inj hrun ▸ hcancelled
  | cons op ops ih =>
    cases hstep : s.step op with
    | none => simp [run, hstep] at hrun
    | some next =>
      simp only [run, hstep, Option.some_bind] at hrun
      exact ih (hcancelled.step hstep) hrun

/-- A stop that tombstones a handler still in `jobs_`, and changes neither `ready` nor the
invocations, cancels it. -/
theorem SweepInvariant.cancelled {s t : CronManager} (hinv : SweepInvariant s)
    {entry : Nat × TimeoutHandler} (hentry : entry ∈ s.jobs) (hremoved : entry.2.id ∈ t.removed)
    (hready : t.ready = s.ready) (hlog : invoked t.log = invoked s.log) : Cancelled entry.2.id t :=
  ⟨hremoved,
    fun other hother => hinv.ne_of_mem_jobs hentry other (List.mem_append_right _ (hready ▸ hother)),
    fun other hother => hinv.ne_of_mem_jobs hentry other (List.mem_append_left _ (hlog ▸ hother))⟩

/-- Stops leave `ready` as it is and bind no name. -/
theorem run_stops {s t : CronManager} {stops : List Op}
    (hstops : ∀ op ∈ stops, op = .stopAllJobs ∨ ∃ jobName, op = .stopJob jobName)
    (hrun : s.run stops = some t) {name : String} (hunbound : s.names name = none) :
    t.ready = s.ready ∧ t.names name = none := by
  induction stops generalizing s with
  | nil => cases Option.some.inj hrun; exact ⟨rfl, hunbound⟩
  | cons op stops ih =>
    have hnext : ∃ next, s.step op = some next ∧ next.ready = s.ready ∧ next.names name = none := by
      rcases hstops op (.head _) with rfl | ⟨jobName, rfl⟩
      · exact ⟨_, rfl, by simp, rfl⟩
      · refine ⟨_, rfl, by simp, ?_⟩
        unfold stopJob
        split
        · simp [Function.update_apply, hunbound]
        · exact hunbound
    obtain ⟨next, hstep, hready, hnames⟩ := hnext
    simp only [run, hstep, Option.some_bind] at hrun
    obtain ⟨hreadyRun, hnamesRun⟩ := ih (fun op hop => hstops op (.tail _ hop)) hrun hnames
    exact ⟨hreadyRun.trans hready, hnamesRun⟩

/-- A stop that comes before the sweep collects a handler tombstones it for good and releases its
names: `StopJob` appends the handler's release calls, and `StopAllJobs` those of every handler of
`jobs_`, in order.  A stop between the collection and the invocation does not reach it: `StopJob`
of its name changes nothing, and the sweep still invokes it. -/
theorem stop_cancels_only_before_collection {s : CronManager} (hs : Reachable FreshPush s) :
    (∀ name handler, s.names name = some handler →
      handler.jobName = name ∧ (s.stopJob name).log = s.log ++ releaseEvents handler ∧
      handler.id ∈ (s.stopJob name).removed ∧
      ∀ ops s', (s.stopJob name).run ops = some s' → ∀ other ∈ invoked s'.log, other.id ≠ handler.id) ∧
    (s.stopAllJobs.log = s.log ++ (s.jobs.map fun entry => releaseEvents entry.2).flatten ∧
      ∀ entry ∈ s.jobs, entry.2.id ∈ s.stopAllJobs.removed ∧
        ∀ ops s', s.stopAllJobs.run ops = some s' → ∀ other ∈ invoked s'.log, other.id ≠ entry.2.id) ∧
    (∀ now handler stops t, s.ready = [] → handler ∈ (s.collect now).ready →
      (∀ op ∈ stops, op = .stopAllJobs ∨ ∃ jobName, op = .stopJob jobName) →
      (s.collect now).run stops = some t →
      t.stopJob handler.jobName = t ∧ handler ∈ invoked t.invokeReady.log) := by
  have hsweep := sweepInvariant_of_reachable hs
  refine ⟨fun name handler hname => ?_, ⟨stopAllJobs_log s, fun entry hentry => ?_⟩,
    fun now handler stops t _ hhandler hstops hrun => ?_⟩
  · obtain ⟨hjobName, -, hentry⟩ := (namesInvariant_of_reachable hs).bound name handler hname
    have hcancelled : Cancelled handler.id (s.stopJob name) :=
      hsweep.cancelled hentry (by simp [stopJob_of_bound hname]) (by simp) (by simp)
    exact ⟨hjobName, by simp [stopJob_of_bound hname], hcancelled.1,
      fun ops s' hrun => (hcancelled.after_run hrun).2.2⟩
  · have hcancelled : Cancelled entry.2.id s.stopAllJobs := hsweep.cancelled hentry
      (by rw [stopAllJobs_removed]
          exact List.mem_append_left _ (List.mem_reverse.mpr (List.mem_map_of_mem _ hentry)))
      (by simp) (by simp)
    exact ⟨hcancelled.1, fun ops s' hrun => (hcancelled.after_run hrun).2.2⟩
  · have hunbound : (s.collect now).names handler.jobName = none := by
      rw [collect_names, if_pos (List.mem_map_of_mem _ hhandler)]
    obtain ⟨hready, hnames⟩ := run_stops hstops hrun hunbound
    refine ⟨stopJob_of_unbound hnames, ?_⟩
    show handler ∈ invoked (t.log ++ t.ready.map .handleTimeout)
    rw [invoked_append, invoked_handleTimeouts, hready]
    exact List.mem_append_right _ hhandler

/-- Stops after one push of `A`, due at once; and a sweep that collects `A`, then `StopJob A`,
which changes nothing, and the sweep still invokes `A`. -/
theorem stops_after_one_push :
    ∃ s, run initial [.pushJob ⟨"A", "", 0⟩ 0 false] = some s ∧ Reachable FreshPush s ∧
    ((∀ name handler, s.names name = some handler →
       handler.jobName = name ∧ (s.stopJob name).log = s.log ++ releaseEvents handler ∧
       handler.id ∈ (s.stopJob name).removed ∧
       ∀ ops s', (s.stopJob name).run ops = some s' → ∀ other ∈ invoked s'.log, other.id ≠ handler.id) ∧
     (s.stopAllJobs.log = s.log ++ (s.jobs.map fun entry => releaseEvents entry.2).flatten ∧
       ∀ entry ∈ s.jobs, entry.2.id ∈ s.stopAllJobs.removed ∧
         ∀ ops s', s.stopAllJobs.run ops = some s' → ∀ other ∈ invoked s'.log, other.id ≠ entry.2.id) ∧
     (∀ now handler stops t, s.ready = [] → handler ∈ (s.collect now).ready →
       (∀ op ∈ stops, op = .stopAllJobs ∨ ∃ jobName, op = .stopJob jobName) →
       (s.collect now).run stops = some t →
       t.stopJob handler.jobName = t ∧ handler ∈ invoked t.invokeReady.log)) ∧
    ∃ t, (s.collect 0).run [.stopJob "A"] = some t ∧ t.stopJob "A" = t ∧
      ⟨0, "A", 0, "", []⟩ ∈ invoked t.invokeReady.log :=
  have hs : Reachable FreshPush (initial.pushJob ⟨"A", "", 0⟩ 0 false) :=
    .step .initial (fun _ _ _ hentry => absurd hentry (List.not_mem_nil _))
      (rfl : initial.step (.pushJob ⟨"A", "", 0⟩ 0 false) = _)
  have hstops := stop_cancels_only_before_collection hs
  ⟨initial.pushJob ⟨"A", "", 0⟩ 0 false, rfl, hs, hstops, _, rfl,
    hstops.2.2 0 ⟨0, "A", 0, "", []⟩ [.stopJob "A"] _ rfl (by decide)
      (fun op hop => .inr ⟨"A", List.mem_singleton.mp hop⟩) rfl⟩

/-- A stop of `A` between the sweep's collection and its invocation: the handler is invoked and
no name is released. -/
theorem stopJob_between_collect_and_invoke_is_lost :
    ∃ s, run initial [.pushJob ⟨"A", "", 0⟩ 0 false, .collect 0, .stopJob "A", .invoke] = some s ∧
      ⟨0, "A", 0, "", []⟩ ∈ invoked s.log ∧ .releaseJobName "A" ∉ s.log :=
  ⟨_, rfl, by decide, by decide⟩

end CronManager
end Master
end Prun
