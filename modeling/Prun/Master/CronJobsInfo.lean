import Prun.Master.CronChildren

/-!
# Listing the cron jobs

`GetJobsInfo` walks `names_` in key order and reports the name and deadline of every handler it
binds that is not tombstoned.  In every run, whatever the pushes, `names_` binds only live
handlers, each under its own name, so that check never skips an entry.  In runs where no push
names a job that is still live, the report lists every live handler of `jobs_` exactly once; a
second push of a live name leaves the first handler out of it.
-/

namespace Prun
namespace Master
namespace CronManager

/-- `CronJobInfo`: what `GetJobsInfo` reports for one job. -/
structure CronJobInfo where
  /-- `jobName_`. -/
  jobName : String
  /-- `deadline_`, through `to_time_t`, in seconds. -/
  deadline : Nat
  deriving DecidableEq, Repr

/-- The keys of `names_` in the order a `std::map< std::string, CallbackPtr >` walks them. -/
structure MapKeys (names : String → Option TimeoutHandler) (keys : List String) : Prop where
  /-- Ascending in `std::less`. -/
  sorted : keys.Pairwise nameLess
  /-- Exactly the bound names. -/
  mem_iff : ∀ name, name ∈ keys ↔ (names name).isSome

/-- `GetJobsInfo( names )`, walking `names_` by its keys: append the name and deadline of every
bound handler that is not tombstoned. -/
def getJobsInfo (s : CronManager) (keys : List String) (names : List CronJobInfo) :
    List CronJobInfo :=
  names ++ keys.filterMap fun name => (s.names name).bind fun handler =>
    if handler.id ∈ s.removed then none else some ⟨handler.jobName, handler.deadline⟩

/-! ## `names_` in every run -/

/-- What holds of `names_` in every run: a binding points to a live handler of that name, made
before, and no handler is bound under two names. -/
structure BindingInvariant (s : CronManager) : Prop where
  /-- A handler is bound under its own name. -/
  named : ∀ name handler, s.names name = some handler → handler.jobName = name
  /-- A bound handler is not tombstoned. -/
  live : ∀ name handler, s.names name = some handler → handler.id ∉ s.removed
  /-- A bound handler was made before. -/
  fresh : ∀ name handler, s.names name = some handler → handler.id < s.nextId
  /-- Two names are bound to two handlers. -/
  distinct : ∀ name other handler handler', s.names name = some handler →
    s.names other = some handler' → handler.id = handler'.id → name = other
  /-- Tombstoned handlers were made before. -/
  freshRemoved : ∀ id ∈ s.removed, id < s.nextId
  /-- Stored handlers were made before. -/
  freshJobs : ∀ entry ∈ s.jobs, entry.2.id < s.nextId

theorem bindingInvariant_initial : BindingInvariant initial := by
  constructor <;> simp [initial]

theorem addHandler_names_eq_some {s : CronManager} {handler bound : TimeoutHandler}
    {events : List Event} {name : String} :
    (s.addHandler handler events).names name = some bound ↔
      name = handler.jobName ∧ bound = handler ∨ name ≠ handler.jobName ∧ s.names name = some bound := by
  simp only [addHandler_names, Function.update_apply]
  split <;> simp_all [eq_comm]

theorem BindingInvariant.addHandler {s : CronManager} (hinv : BindingInvariant s)
    {handler : TimeoutHandler} (events : List Event) (hid : handler.id = s.nextId) :
    BindingInvariant (s.addHandler handler events) := by
  have hold : ∀ name other, s.names name = some other → other.id < handler.id :=
    fun name other hother => hid ▸ hinv.fresh name other hother
  refine ⟨fun name bound hbound => ?_, fun name bound hbound => ?_, fun name bound hbound => ?_,
    fun name other bound bound' hbound hbound' hsame => ?_, fun id hmem => ?_, fun entry hentry => ?_⟩
  · rcases addHandler_names_eq_some.mp hbound with ⟨rfl, rfl⟩ | ⟨-, hbound⟩
    · rfl
    · exact hinv.named name bound hbound
  · rcases addHandler_names_eq_some.mp hbound with ⟨-, rfl⟩ | ⟨-, hbound⟩
    · exact fun hmem => by have := hinv.freshRemoved _ hmem; omega
    · exact hinv.live name bound hbound
  · rcases addHandler_names_eq_some.mp hbound with ⟨-, rfl⟩ | ⟨-, hbound⟩
    · simp [hid]
    · exact Nat.lt_succ_of_lt (hinv.fresh name bound hbound)
  · rcases addHandler_names_eq_some.mp hbound with ⟨hname, rfl⟩ | ⟨-, hold₁⟩ <;>
      rcases addHandler_names_eq_some.mp hbound' with ⟨hother, rfl⟩ | ⟨-, hold₂⟩
    · exact hname.trans hother.symm
    · have := hold _ _ hold₂; omega
    · have := hold _ _ hold₁; omega
    · exact hinv.distinct name other bound bound' hold₁ hold₂ hsame
  · exact Nat.lt_succ_of_lt (hinv.freshRemoved id hmem)
  · rcases mem_insertJob.mp hentry with rfl | hentry
    · simp [hid]
    · exact Nat.lt_succ_of_lt (hinv.freshJobs entry hentry)

theorem BindingInvariant.of_subset {s s' : CronManager} (hinv : BindingInvariant s)
    (hnames : ∀ name handler, s'.names name = some handler → s.names name = some handler)
    (hjobs : ∀ entry ∈ s'.jobs, entry ∈ s.jobs) (hremoved : s'.removed = s.removed)
    (hnextId : s'.nextId = s.nextId) : BindingInvariant s' := by
  refine ⟨fun name bound hbound => hinv.named name bound (hnames _ _ hbound),
    fun name bound hbound => hremoved ▸ hinv.live name bound (hnames _ _ hbound),
    fun name bound hbound => hnextId ▸ hinv.fresh name bound (hnames _ _ hbound),
    fun name other bound bound' hbound hbound' =>
      hinv.distinct name other bound bound' (hnames _ _ hbound) (hnames _ _ hbound'),
    fun id hmem => hnextId ▸ hinv.freshRemoved id (hremoved ▸ hmem),
    fun entry hentry => hnextId ▸ hinv.freshJobs entry (hjobs entry hentry)⟩

theorem collect_names_eq_some {s : CronManager} {now : Nat} {name : String}
    {handler : TimeoutHandler} (hbound : (s.collect now).names name = some handler) :
    s.names name = some handler := by
  rw [collect_names] at hbound
  split at hbound
  · cases hbound
  · exact hbound

theorem stopJob_names_eq_some {s : CronManager} {jobName name : String}
    {handler : TimeoutHandler} (hbound : (s.stopJob jobName).names name = some handler) :
    name ≠ jobName ∧ s.names name = some handler := by
  unfold stopJob at hbound
  split at hbound
  · simp only [Function.update_apply] at hbound
    split at hbound
    · cases hbound
    · exact ⟨‹_›, hbound⟩
  · next hunbound =>
    exact ⟨fun hsame => by simp_all, hbound⟩

theorem BindingInvariant.stopJob {s : CronManager} (hinv : BindingInvariant s) (jobName : String) :
    BindingInvariant (s.stopJob jobName) := by
  cases hname : s.names jobName with
  | none => rwa [stopJob_of_unbound hname]
  | some handler =>
    have hremoved : (s.stopJob jobName).removed = handler.id :: s.removed := by
      simp [stopJob_of_bound hname]
    refine ⟨fun name bound hbound => hinv.named name bound (stopJob_names_eq_some hbound).2,
      fun name bound hbound => ?_,
      fun name bound hbound => by simpa using hinv.fresh name bound (stopJob_names_eq_some hbound).2,
      fun name other bound bound' hbound hbound' => hinv.distinct name other bound bound'
        (stopJob_names_eq_some hbound).2 (stopJob_names_eq_some hbound').2, ?_,
      by simpa using hinv.freshJobs⟩
    · obtain ⟨hne, hold⟩ := stopJob_names_eq_some hbound
      rw [hremoved, List.mem_cons, not_or]
      exact ⟨fun hsame => hne (hinv.distinct name jobName bound handler hold hname hsame),
        hinv.live name bound hold⟩
    · rw [hremoved, stopJob_nextId]
      rintro id (_ | ⟨_, hid⟩)
      · exact hinv.fresh _ _ hname
      · exact hinv.freshRemoved id hid

theorem BindingInvariant.stopAllJobs {s : CronManager} (hinv : BindingInvariant s) :
    BindingInvariant s.stopAllJobs := by
  refine ⟨by simp [CronManager.stopAllJobs], by simp [CronManager.stopAllJobs],
    by simp [CronManager.stopAllJobs], by simp [CronManager.stopAllJobs], ?_, by simp⟩
  simp only [stopAllJobs_removed, stopAllJobs_nextId, List.mem_append, List.mem_reverse,
    List.mem_map]
  rintro id (⟨entry, hentry, rfl⟩ | hid)
  · exact hinv.freshJobs entry hentry
  · exact hinv.freshRemoved id hid

theorem BindingInvariant.step {s s' : CronManager} {op : Op} (hinv : BindingInvariant s)
    (hstep : s.step op = some s') : BindingInvariant s' := by
  rcases step_cases hstep with ⟨handler, events, rfl, hid, -, -⟩ | ⟨now, -, -, rfl⟩ |
    ⟨handler, rest, -, -, rfl⟩ | ⟨jobName, -, rfl⟩ | ⟨-, rfl⟩
  · exact hinv.addHandler events hid
  · exact hinv.of_subset (fun _ _ => collect_names_eq_some)
      (fun _ hentry => List.dropWhile_subset _ (by simpa using hentry)) rfl rfl
  · exact hinv.of_subset (fun _ _ hbound => hbound) (fun _ hentry => hentry) rfl rfl
  · exact hinv.stopJob jobName
  · exact hinv.stopAllJobs

theorem bindingInvariant_of_reachable {allowed : CronManager → Op → Prop} {s : CronManager}
    (hs : Reachable allowed s) : BindingInvariant s := by
  induction hs with
  | initial => exact bindingInvariant_initial
  | step _ _ hstep ih => exact ih.step hstep


/-! ## The keys of `names_` -/

theorem MapKeys.setInsert {names : String → Option TimeoutHandler} {keys : List String}
    (hkeys : MapKeys names keys) (handler : TimeoutHandler) :
    MapKeys (Function.update names handler.jobName (some handler)) (setInsert handler.jobName keys) :=
  ⟨setInsert_sorted hkeys.sorted, fun name => by
    by_cases hname : name = handler.jobName
    · subst hname; simp [mem_setInsert]
    · simp [mem_setInsert, hkeys.mem_iff, hname]⟩

theorem MapKeys.filter {names names' : String → Option TimeoutHandler} {keys : List String}
    (hkeys : MapKeys names keys) (hsub : ∀ name handler, names' name = some handler → names name = some handler) :
    MapKeys names' (keys.filter fun name => (names' name).isSome) :=
  ⟨hkeys.sorted.filter _, fun name => by
    simp only [List.mem_filter, hkeys.mem_iff, and_iff_right_iff_imp]
    intro hsome
    obtain ⟨handler, hbound⟩ := Option.isSome_iff_exists.mp hsome
    simp [hsub name handler hbound]⟩

/-- Every reachable `names_` has finitely many keys, so a key list to walk. -/
theorem exists_mapKeys_of_reachable {allowed : CronManager → Op → Prop} {s : CronManager}
    (hs : Reachable allowed s) : ∃ keys, MapKeys s.names keys := by
  induction hs with
  | initial => exact ⟨[], List.Pairwise.nil, by simp [initial]⟩
  | step _ _ hstep ih =>
    obtain ⟨keys, hkeys⟩ := ih
    rcases step_cases hstep with ⟨handler, events, rfl, -, -, -⟩ | ⟨now, -, -, rfl⟩ |
      ⟨handler, rest, -, -, rfl⟩ | ⟨jobName, -, rfl⟩ | ⟨-, rfl⟩
    · exact ⟨_, hkeys.setInsert handler⟩
    · exact ⟨_, hkeys.filter fun _ _ => collect_names_eq_some⟩
    · exact ⟨keys, hkeys⟩
    · exact ⟨_, hkeys.filter fun _ _ hbound => (stopJob_names_eq_some hbound).2⟩
    · exact ⟨[], List.Pairwise.nil, by simp [CronManager.stopAllJobs]⟩

/-! ## What `GetJobsInfo` reports -/

theorem BindingInvariant.getJobsInfo_eq {s : CronManager} (hinv : BindingInvariant s)
    (keys : List String) (names : List CronJobInfo) :
    getJobsInfo s keys names =
      names ++ keys.filterMap fun name => (s.names name).map fun handler => ⟨name, handler.deadline⟩ := by
  unfold getJobsInfo
  congr 1
  refine List.filterMap_congr fun name _ => ?_
  cases hbound : s.names name with
  | none => rfl
  | some handler => simp [hinv.live name handler hbound, hinv.named name handler hbound]

/-- In every run, whatever the pushes, `names_` has a key list, and `GetJobsInfo` skips none of
its entries: it reports every bound handler under the name it is bound to, with its deadline. -/
theorem getJobsInfo_reports_every_binding {allowed : CronManager → Op → Prop} {s : CronManager}
    (hs : Reachable allowed s) :
    (∃ keys, MapKeys s.names keys) ∧
    ∀ keys names, getJobsInfo s keys names =
      names ++ keys.filterMap fun name => (s.names name).map fun handler => ⟨name, handler.deadline⟩ :=
  ⟨exists_mapKeys_of_reachable hs, (bindingInvariant_of_reachable hs).getJobsInfo_eq⟩

/-- In runs where no push names a job that is still live, `GetJobsInfo` over the keys of
`names_` reports every live handler of `jobs_` exactly once, with its name and deadline. -/
theorem getJobsInfo_lists_live_jobs {s : CronManager} (hs : Reachable FreshPush s)
    {keys : List String} (hkeys : MapKeys s.names keys) :
    (getJobsInfo s keys []).Perm ((s.jobs.filter fun entry => entry.2.id ∉ s.removed).map
      fun entry => ⟨entry.2.jobName, entry.2.deadline⟩) := by
  have hnames := namesInvariant_of_reachable hs
  rw [(bindingInvariant_of_reachable hs).getJobsInfo_eq, List.nil_append]
  have hreported : (keys.filterMap fun name => (s.names name).map fun handler =>
      (⟨name, handler.deadline⟩ : CronJobInfo)).Nodup :=
    (nodup_of_pairwise_nameLess hkeys.sorted).filterMap fun name other info hinfo hinfo' => by
      simp only [Option.mem_def, Option.map_eq_some'] at hinfo hinfo'
      obtain ⟨_, -, rfl⟩ := hinfo
      obtain ⟨_, -, hsame⟩ := hinfo'
      exact (congrArg CronJobInfo.jobName hsame).symm
  have hlive : ((s.jobs.filter fun entry => entry.2.id ∉ s.removed).map
      fun entry => (⟨entry.2.jobName, entry.2.deadline⟩ : CronJobInfo)).Nodup := by
    refine List.Nodup.map_on (fun entry hentry other hother hsame => ?_)
      ((hnames.distinct.of_map _).filter _)
    simp only [List.mem_filter, decide_eq_true_eq] at hentry hother
    have hname : entry.2.jobName = other.2.jobName := congrArg CronJobInfo.jobName hsame
    have hentryBound := hnames.live entry hentry.1 hentry.2
    rw [hname, hnames.live other hother.1 hother.2] at hentryBound
    exact hnames.entry_eq hentry.1 hother.1
      (congrArg TimeoutHandler.id (Option.some.inj hentryBound)).symm
  refine (List.perm_ext_iff_of_nodup hreported hlive).mpr fun info => ?_
  simp only [List.mem_filterMap, Option.map_eq_some', List.mem_map, List.mem_filter,
    decide_eq_true_eq]
  constructor
  · rintro ⟨name, -, handler, hbound, rfl⟩
    obtain ⟨hjobName, hhandlerLive, hentry⟩ := hnames.bound name handler hbound
    exact ⟨(handler.deadline, handler), ⟨hentry, hhandlerLive⟩, by rw [hjobName]⟩
  · rintro ⟨entry, ⟨hentry, hentryLive⟩, rfl⟩
    have hbound := hnames.live entry hentry hentryLive
    exact ⟨entry.2.jobName, (hkeys.mem_iff _).mpr (by simp [hbound]), entry.2, hbound, rfl⟩


/-- `GetJobsInfo` after one push. -/
theorem jobsInfo_after_one_push :
    ∃ s, run initial [.pushJob ⟨"A", "", 10⟩ 0 false] = some s ∧ Reachable (fun _ _ => True) s ∧
      getJobsInfo s ["A"] [] = [⟨"A", 10⟩] :=
  have hs : Reachable (fun _ _ => True) (initial.pushJob ⟨"A", "", 10⟩ 0 false) :=
    .step .initial trivial (rfl : initial.step (.pushJob ⟨"A", "", 10⟩ 0 false) = _)
  ⟨_, rfl, hs, by rw [(getJobsInfo_reports_every_binding hs).2]; rfl⟩

/-- `GetJobsInfo` after two pushes of two names. -/
theorem jobsInfo_after_two_pushes :
    ∃ s, run initial [.pushJob ⟨"B", "", 10⟩ 0 false, .pushJob ⟨"A", "", 20⟩ 0 false] = some s ∧
      Reachable FreshPush s ∧ MapKeys s.names ["A", "B"] ∧
      (getJobsInfo s ["A", "B"] []).Perm [⟨"B", 10⟩, ⟨"A", 20⟩] := by
  have hfirst : Reachable FreshPush (initial.pushJob ⟨"B", "", 10⟩ 0 false) :=
    .step .initial (fun _ _ _ hentry => absurd hentry (List.not_mem_nil _))
      (rfl : initial.step (.pushJob ⟨"B", "", 10⟩ 0 false) = _)
  have hs : Reachable FreshPush ((initial.pushJob ⟨"B", "", 10⟩ 0 false).pushJob ⟨"A", "", 20⟩ 0 false) :=
    @Reachable.step _ _ _ (.pushJob ⟨"A", "", 20⟩ 0 false) hfirst (fun name hname entry hentry hsame => by
      simp only [Op.pushedName, Option.some.injEq] at hname
      subst hname
      simp [pushJob, addHandler, insertJob, initial] at hentry
      subst hentry
      simp at hsame) rfl
  have hkeys : MapKeys ((initial.pushJob ⟨"B", "", 10⟩ 0 false).pushJob ⟨"A", "", 20⟩ 0 false).names ["A", "B"] :=
    ⟨by decide, fun name => by
      by_cases hA : name = "A" <;> by_cases hB : name = "B" <;> simp_all [pushJob, addHandler, initial, Function.update_apply]⟩
  exact ⟨_, rfl, hs, hkeys, by simpa using getJobsInfo_lists_live_jobs hs hkeys⟩

end CronManager
end Master
end Prun
