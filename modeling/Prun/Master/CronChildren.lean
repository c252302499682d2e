import Mathlib.Data.String.Basic
import Prun.Master.CronRegistry

/-!
# The child names of a meta-job

`PushMetaJob( jobs )` inserts the name of every child job that has one into the handler's
`jobNames`, a `std::set< std::string >`, and calls `RegisterJobName` for that child.  The set
holds each name once, in `std::less` order, whereas the registrations are one per child, and
`ReleaseJob` gives back one per name of the set.  So a meta-job stopped before it fires leaves
every name it registered as it was exactly when no two of its children share a name.
-/

namespace Prun
namespace Master
namespace CronManager

/-- `std::less< std::string >`, the comparison `setInsert` makes. -/
def nameLess (a b : String) : Prop := @decide _ (String.decLt a b) = true

instance : DecidableRel nameLess := fun _ _ => inferInstanceAs (Decidable (_ = true))

theorem nameLess_iff_lex {a b : String} : nameLess a b ↔ List.Lex (· < ·) a.data b.data := by
  rw [nameLess, decide_eq_true_iff]
  exact List.lt_iff_lex_lt a.data b.data

theorem nameLess_irrefl (a : String) : ¬nameLess a a := by
  rw [nameLess_iff_lex]
  exact irrefl _

theorem nameLess_trans {a b c : String} (hab : nameLess a b) (hbc : nameLess b c) :
    nameLess a c := by
  rw [nameLess_iff_lex] at *
  exact IsTrans.trans _ _ _ hab hbc

theorem nameLess_trichotomous (a b : String) : nameLess a b ∨ a = b ∨ nameLess b a := by
  simp only [nameLess_iff_lex]
  have horder : IsStrictTotalOrder (List Char) (List.Lex (· < ·)) := inferInstance
  rcases horder.trichotomous a.data b.data with h | h | h
  · exact .inl h
  · exact .inr (.inl (String.ext h))
  · exact .inr (.inr h)

/-- Names kept in `std::less` order are distinct. -/
theorem nodup_of_pairwise_nameLess {names : List String} (hsorted : names.Pairwise nameLess) :
    names.Nodup :=
  hsorted.imp fun {a b} (hless : nameLess a b) (hsame : a = b) => nameLess_irrefl b (hsame ▸ hless)

/-! ## `std::set::insert` -/

theorem mem_setInsert {name other : String} {names : List String} :
    other ∈ setInsert name names ↔ other = name ∨ other ∈ names := by
  induction names with
  | nil => simp [setInsert]
  | cons head tail ih =>
    unfold setInsert
    split
    · simp
    · split
      · next hsame => subst hsame; simp
      · simp [ih, or_left_comm]

theorem setInsert_sorted {name : String} {names : List String}
    (hsorted : names.Pairwise nameLess) : (setInsert name names).Pairwise nameLess := by
  induction names with
  | nil => simp [setInsert]
  | cons head tail ih =>
    obtain ⟨hhead, htail⟩ := List.pairwise_cons.mp hsorted
    unfold setInsert
    split
    · next hless =>
      exact List.pairwise_cons.mpr ⟨fun other hother => (List.mem_cons.mp hother).elim
        (fun h => h ▸ hless) (fun h => nameLess_trans hless (hhead other h)), hsorted⟩
    · next hnotLess =>
      split
      · exact hsorted
      · next hne =>
        have hgt : nameLess head name :=
          ((nameLess_trichotomous name head).resolve_left hnotLess).resolve_left hne
        refine List.pairwise_cons.mpr ⟨fun other hother => ?_, ih htail⟩
        rcases mem_setInsert.mp hother with rfl | hmem
        · exact hgt
        · exact hhead other hmem

theorem foldl_setInsert (names acc : List String) (hacc : acc.Pairwise nameLess) :
    (names.foldl (fun names name => setInsert name names) acc).Pairwise nameLess ∧
      ∀ other, other ∈ names.foldl (fun names name => setInsert name names) acc ↔
        other ∈ acc ∨ other ∈ names := by
  induction names generalizing acc with
  | nil => simpa using hacc
  | cons name names ih =>
    obtain ⟨hsorted, hmem⟩ := ih (setInsert name acc) (setInsert_sorted hacc)
    refine ⟨hsorted, fun other => ?_⟩
    simp only [List.foldl_cons, hmem, mem_setInsert, List.mem_cons, or_assoc, or_left_comm]

theorem childNames_sorted (children : List String) : (childNames children).Pairwise nameLess :=
  (foldl_setInsert _ [] List.Pairwise.nil).1

theorem mem_childNames {children : List String} {name : String} :
    name ∈ childNames children ↔ name ∈ children ∧ name ≠ "" := by
  simp [childNames, (foldl_setInsert _ [] List.Pairwise.nil).2]

/-- The set holds a non-empty child name once, however many children have it. -/
theorem count_childNames (children : List String) (name : String) :
    (childNames children).count name = if name ∈ children ∧ name ≠ "" then 1 else 0 := by
  have hnodup := nodup_of_pairwise_nameLess (childNames_sorted children)
  split
  · exact List.count_eq_one_of_mem hnodup (mem_childNames.mpr ‹_›)
  · exact List.count_eq_zero_of_not_mem (mt mem_childNames.mp ‹_›)

/-! ## What a stopped meta-job gives back -/

/-- A meta-job pushed by `PushMetaJob( jobs )` and stopped before it fires: every name stays
registered as often as before, plus one for each child beyond the first that shares its name.
So the stop gives back everything the push registered exactly when the non-empty child names
are distinct. -/
theorem registrations_pushMetaJobList_stopJob (s : CronManager) (group : CronJob)
    (children : List String) :
    (∀ name, registrations ((s.pushMetaJobList group children).stopJob group.name).log name =
      registrations s.log name + (children.filter fun name => name ≠ "").count name -
        if name ∈ children ∧ name ≠ "" then 1 else 0) ∧
    ((∀ name, registrations ((s.pushMetaJobList group children).stopJob group.name).log name =
      registrations s.log name) ↔ (children.filter fun name => name ≠ "").Nodup) := by
  have hbound : (s.pushMetaJobList group children).names group.name =
      some ⟨s.nextId, group.name, group.next, group.description, childNames children⟩ := by
    simp [pushMetaJobList]
  have hbalance : ∀ name,
      registrations ((s.pushMetaJobList group children).stopJob group.name).log name =
        registrations s.log name + (children.filter fun name => name ≠ "").count name -
          if name ∈ children ∧ name ≠ "" then 1 else 0 := by
    intro name
    rw [stopJob_of_bound hbound]
    simp only [releaseJob_log, registrations_append, registrations_pushMetaJobList,
      registrations_releaseEvents, count_childNames]
    split_ifs <;> omega
  refine ⟨hbalance, ?_⟩
  simp only [hbalance, List.nodup_iff_count_le_one]
  refine forall_congr' fun name => ?_
  have hpos : 0 < (children.filter fun name => name ≠ "").count name ↔
      name ∈ children ∧ name ≠ "" := by
    simp [List.count_pos_iff]
  split_ifs with hchild
  · have := hpos.mpr hchild
    omega
  · have := mt hpos.mp hchild
    omega

/-- Two children named `a`: stopping the meta-job before it fires leaves `a` registered. -/
example : registrations ((initial.pushMetaJobList ⟨"G", "", 0⟩ ["a", "a"]).stopJob "G").log "a" = 1 := by
  decide

end CronManager
end Master
end Prun
