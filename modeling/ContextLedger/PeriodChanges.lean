import ContextLedger.Histories

/-!
What a change between two instants says about the instants in between. The
reference compares the versions valid at the two ends and lists the versions
that start in the period. Windows of one history do not overlap and are not
empty, so these two looks see every version that is valid at some instant of
the period, and none is reported when the same version, or none, is valid
throughout.
-/
namespace ContextLedger.PeriodChanges

open Values Schema Facts Bitemporal VersionChain VersionTable Reference Concurrent Isolation

/-- A history as known: in order, with at most one version at an instant, and without
empty windows. -/
structure Timeline (known : List VersionSnapshot) : Prop where
  numbered : known.Pairwise fun a b => a.version < b.version
  ids : (known.map VersionSnapshot.id).Nodup
  nonempty : ∀ v ∈ known, isValidAt v.validFrom v = true
  single : ∀ t, ∀ v ∈ known, ∀ u ∈ known, isValidAt t v = true → isValidAt t u = true → v = u

/-- The version valid at an instant. -/
def valueAt (known : List VersionSnapshot) (t : Instant) : Option VersionSnapshot :=
  (known.filter (isValidAt t)).head?

/-- The versions that start after `start` and not after `finish`. -/
def startingIn (known : List VersionSnapshot) (start finish : Instant) : List VersionSnapshot :=
  known.filter fun v => decide (start < v.validFrom) && decide (v.validFrom ≤ finish)

theorem isValidAt_iff {t : Instant} {v : VersionSnapshot} :
    isValidAt t v = true ↔ v.validFrom ≤ t ∧ ∀ u, v.validUntil = some u → t < u := by
  simp [isValidAt, Option.all_eq_true]

/-- A version valid at two instants is valid between them. -/
theorem isValidAt_between {t t₁ t₂ : Instant} {v : VersionSnapshot} (h₁ : isValidAt t₁ v = true)
    (h₂ : isValidAt t₂ v = true) (hle : t₁ ≤ t) (hle' : t ≤ t₂) : isValidAt t v = true := by
  obtain ⟨hfrom, -⟩ := isValidAt_iff.mp h₁
  obtain ⟨-, huntil⟩ := isValidAt_iff.mp h₂
  exact isValidAt_iff.mpr ⟨le_trans hfrom hle, fun u hu => lt_of_le_of_lt hle' (huntil u hu)⟩

section Timelines

variable {known : List VersionSnapshot} (h : Timeline known)

include h

theorem valueAt_eq_some {t : Instant} {v : VersionSnapshot} :
    valueAt known t = some v ↔ v ∈ known ∧ isValidAt t v = true := by
  constructor
  · intro hv
    exact List.mem_filter.mp (List.mem_of_mem_head? hv)
  · rintro ⟨hmem, hvalid⟩
    have hne : v ∈ known.filter (isValidAt t) := List.mem_filter.mpr ⟨hmem, hvalid⟩
    cases hfilter : known.filter (isValidAt t) with
    | nil =>
      rw [hfilter] at hne
      exact absurd hne List.not_mem_nil
    | cons u rest =>
      have hu : u ∈ known.filter (isValidAt t) := by
        rw [hfilter]
        exact List.mem_cons_self
      obtain ⟨humem, huvalid⟩ := List.mem_filter.mp hu
      rw [valueAt, hfilter, List.head?_cons, h.single t u humem v hmem huvalid hvalid]

/-- Versions are told apart by their ids. -/
theorem valueAt_id_inj {t t' : Instant}
    (hid : (valueAt known t).map VersionSnapshot.id = (valueAt known t').map VersionSnapshot.id) :
    valueAt known t = valueAt known t' := by
  cases ht : valueAt known t with
  | none =>
    rw [ht, Option.map_none, eq_comm, Option.map_eq_none_iff] at hid
    exact hid.symm
  | some v =>
    rw [ht, Option.map_some, eq_comm, Option.map_eq_some_iff] at hid
    obtain ⟨u, hu, hsame⟩ := hid
    have hv := (valueAt_eq_some h).mp ht
    have hu' := (valueAt_eq_some h).mp hu
    rw [hu, List.inj_on_of_nodup_map h.ids hu'.1 hv.1 hsame]

/-- The versions that start in a period are those valid at some instant of it that were not
valid at its start. -/
theorem mem_startingIn_iff {start finish : Instant} {v : VersionSnapshot} :
    v ∈ startingIn known start finish ↔
      (∃ t, start < t ∧ t ≤ finish ∧ valueAt known t = some v) ∧
        (valueAt known start).map VersionSnapshot.id ≠ some v.id := by
  rw [startingIn, List.mem_filter, Bool.and_eq_true, decide_eq_true_iff, decide_eq_true_iff]
  constructor
  · rintro ⟨hmem, hstart, hfinish⟩
    refine ⟨⟨v.validFrom, hstart, hfinish, (valueAt_eq_some h).mpr ⟨hmem, h.nonempty v hmem⟩⟩, ?_⟩
    intro hid
    obtain ⟨u, hu, hsame⟩ := Option.map_eq_some_iff.mp hid
    obtain ⟨humem, huvalid⟩ := (valueAt_eq_some h).mp hu
    obtain rfl := List.inj_on_of_nodup_map h.ids humem hmem hsame
    exact absurd (isValidAt_iff.mp huvalid).1 (not_le.mpr hstart)
  · rintro ⟨⟨t, hstart, hfinish, ht⟩, hne⟩
    obtain ⟨hmem, hvalid⟩ := (valueAt_eq_some h).mp ht
    obtain ⟨hfrom, huntil⟩ := isValidAt_iff.mp hvalid
    refine ⟨hmem, ?_, le_trans hfrom hfinish⟩
    by_contra hle
    have hbefore : isValidAt start v = true := isValidAt_iff.mpr
      ⟨not_lt.mp hle, fun u hu => lt_trans hstart (huntil u hu)⟩
    exact hne (by rw [(valueAt_eq_some h).mpr ⟨hmem, hbefore⟩, Option.map_some])

/-- The two ends agree and nothing starts in between exactly when one version, or none, is
valid throughout. -/
theorem constant_iff {start finish : Instant} (hlt : start < finish) :
    ((valueAt known start).map VersionSnapshot.id = (valueAt known finish).map VersionSnapshot.id ∧
        startingIn known start finish = []) ↔
      ∀ t, start ≤ t → t ≤ finish →
        (valueAt known t).map VersionSnapshot.id = (valueAt known start).map VersionSnapshot.id := by
  constructor
  · rintro ⟨hends, hnone⟩ t hstart hfinish
    have heq := valueAt_id_inj h hends
    cases ht : valueAt known t with
    | some v =>
      by_contra hne
      have hstrict : start < t := by
        refine lt_of_le_of_ne hstart ?_
        rintro rfl
        exact hne (by rw [ht])
      have hmem : v ∈ startingIn known start finish :=
        (mem_startingIn_iff h).mpr ⟨⟨t, hstrict, hfinish, ht⟩, fun hid => hne hid.symm⟩
      rw [hnone] at hmem
      exact absurd hmem List.not_mem_nil
    | none =>
      cases hbefore : valueAt known start with
      | none => rfl
      | some u =>
        obtain ⟨humem, huvalid⟩ := (valueAt_eq_some h).mp hbefore
        have huvalid' := ((valueAt_eq_some h).mp (heq ▸ hbefore)).2
        have hbetween := isValidAt_between huvalid huvalid' hstart hfinish
        rw [(valueAt_eq_some h).mpr ⟨humem, hbetween⟩] at ht
        exact absurd ht (by simp)
  · intro hconstant
    refine ⟨(hconstant finish (le_of_lt hlt) (le_refl finish)).symm, ?_⟩
    rw [List.eq_nil_iff_forall_not_mem]
    intro v hv
    obtain ⟨⟨t, hstart, hfinish, ht⟩, hne⟩ := (mem_startingIn_iff h).mp hv
    have hsame := hconstant t (le_of_lt hstart) hfinish
    rw [ht, Option.map_some] at hsame
    exact hne hsame.symm

end Timelines

section Ordered

variable {vs : List VersionSnapshot} (hordered : Ordered vs)
  (hids : (vs.map VersionSnapshot.id).Nodup)
  (hwell : ∀ v ∈ vs, (snapshotSpan v).WellFormed) (k : Option Instant)

include hordered hids hwell

/-- Hiding the ends not yet learned leaves a timeline. -/
theorem timeline_historyAsKnown : Timeline (historyAsKnown vs k) := by
  rw [historyAsKnown_ordered hordered]
  refine ⟨?_, ?_, fun v hv => ?_, fun t v hv u hu hvalid huvalid => ?_⟩
  · rw [List.pairwise_map]
    simpa using hordered.numbered.sublist List.filter_sublist
  · rw [List.map_map]
    have hsame : VersionSnapshot.id ∘ asKnown k = VersionSnapshot.id := by
      funext v
      exact asKnown_id k v
    rw [hsame]
    exact hids.sublist (List.filter_sublist.map _)
  · obtain ⟨w, hw, rfl⟩ := List.mem_map.mp hv
    have hknown := List.mem_filter.mp hw
    rw [asKnown_validFrom]
    refine ((believed_iff k w.validFrom w).mpr ?_).2
    exact ⟨(isKnown_iff k w).mp hknown.2, le_refl _, fun _ u hu => (hwell w hknown.1).ordered u hu⟩
  · obtain ⟨v', hv', rfl⟩ := List.mem_map.mp hv
    obtain ⟨u', hu', rfl⟩ := List.mem_map.mp hu
    have hvknown := List.mem_filter.mp hv'
    have huknown := List.mem_filter.mp hu'
    have hvbelieved := (believed_iff k t v').mp ⟨hvknown.2, hvalid⟩
    have hubelieved := (believed_iff k t u').mp ⟨huknown.2, huvalid⟩
    congr 1
    by_contra hne
    have hsymm : Std.Symm fun a b : VersionSnapshot => (snapshotSpan a).Precedes (snapshotSpan b) ∨
        (snapshotSpan b).Precedes (snapshotSpan a) := ⟨fun _ _ => Or.symm⟩
    have hpair := List.Pairwise.forall (hordered.precedes.imp
      fun {a b} (hab : (snapshotSpan a).Precedes (snapshotSpan b)) =>
        (Or.inl hab : _ ∨ (snapshotSpan b).Precedes (snapshotSpan a)))
    rcases hpair hvknown.1 huknown.1 hne with hbefore | hafter
    · exact hbefore.not_both_believed t k hvbelieved hubelieved
    · exact hafter.not_both_believed t k hubelieved hvbelieved

omit hids hwell in
theorem resolve_eq_valueAt (t : Instant) :
    resolve vs t k = .ok (valueAt (historyAsKnown vs k) t) := resolve_ordered hordered t k

omit hids hwell in
theorem changeBetween_eq {start finish : Instant} (hlt : start < finish) :
    changeBetween vs start finish k = .ok
      (if (valueAt (historyAsKnown vs k) start).map VersionSnapshot.id =
          (valueAt (historyAsKnown vs k) finish).map VersionSnapshot.id ∧
          startingIn (historyAsKnown vs k) start finish = [] then none
        else some ⟨valueAt (historyAsKnown vs k) start, valueAt (historyAsKnown vs k) finish,
          startingIn (historyAsKnown vs k) start finish⟩) := by
  have hresolve (t : Instant) :
      resolve (historyAsKnown vs k) t none = .ok (valueAt (historyAsKnown vs k) t) := by
    have hone := length_matchesAt_le_one hordered t k
    simp only [resolve, matchesAt_historyAsKnown hordered]
    rw [if_neg (by omega)]
    rfl
  simp only [changeBetween, if_neg (not_le.mpr hlt), hresolve, Except.bind, Bind.bind]
  rw [← startingIn]
  split
  · rfl
  · rfl

end Ordered

/-- The versions of a fact in a sound database, oldest first. -/
theorem snapshots_wellFormed {db : Database} (h : Sound db) (org factId : Uuid) :
    ((((versionsOf db org factId).map toSnapshot).map VersionSnapshot.id).Nodup) ∧
      ∀ v ∈ (versionsOf db org factId).map toSnapshot, (snapshotSpan v).WellFormed := by
  constructor
  · rw [List.map_map]
    have hsub : (versionsOf db org factId).Sublist db.versions := List.filter_sublist
    exact h.versionIds.sublist (hsub.map _)
  · intro v hv
    obtain ⟨w, hw, rfl⟩ := List.mem_map.mp hv
    exact (h.histories org factId).toChain.wellFormed w hw

/-- For every reachable history: a change is reported unless one version, or none, is valid at
every instant of the period; it has the versions at the two ends, and its transitions are, in
order, the versions valid at some later instant of the period but not at its start. -/
theorem change_characterises_constancy (rt : Runtime) (w : World) (h : (system rt).Reachable w)
    (org factId : Uuid) (start finish : Instant) (hlt : start < finish) (k : Option Instant) :
    ∃ resolved : Instant → Option VersionSnapshot,
      (∀ t, resolve ((versionsOf w.db org factId).map toSnapshot) t k = .ok (resolved t)) ∧
      ∃ change, changeBetween ((versionsOf w.db org factId).map toSnapshot) start finish k =
          .ok change ∧
        (change = none ↔ ∀ t, start ≤ t → t ≤ finish →
          (resolved t).map VersionSnapshot.id = (resolved start).map VersionSnapshot.id) ∧
        ∀ c, change = some c → c.before = resolved start ∧ c.after = resolved finish ∧
          (c.transitions.Pairwise fun a b => a.version < b.version) ∧
          ∀ v, v ∈ c.transitions ↔ (∃ t, start < t ∧ t ≤ finish ∧ resolved t = some v) ∧
            (resolved start).map VersionSnapshot.id ≠ some v.id := by
  have hsound := (reachable_consistent h).sound
  have hordered := ordered_of_chain (hsound.histories org factId).toChain
  obtain ⟨hids, hwell⟩ := snapshots_wellFormed hsound org factId
  have htimeline := timeline_historyAsKnown hordered hids hwell k
  refine ⟨valueAt (historyAsKnown ((versionsOf w.db org factId).map toSnapshot) k),
    resolve_eq_valueAt hordered k, _, changeBetween_eq hordered k hlt, ?_, ?_⟩
  · rw [← constant_iff htimeline hlt]
    split
    · rename_i hconstant
      exact ⟨fun _ => hconstant, fun _ => rfl⟩
    · rename_i hchanged
      exact ⟨fun heq => absurd heq (by simp), fun hconstant => absurd hconstant hchanged⟩
  · intro c hc
    split at hc
    · exact absurd hc (by simp)
    · obtain rfl := Option.some.inj hc
      refine ⟨rfl, rfl, htimeline.numbered.sublist List.filter_sublist, fun v => ?_⟩
      exact mem_startingIn_iff htimeline

theorem change_characterises_constancy_example :
    (versionsOf exampleFinal.db 1 11).length = 2 ∧
      ∃ change, changeBetween ((versionsOf exampleFinal.db 1 11).map toSnapshot) 2 7 none =
        .ok change := by
  obtain ⟨-, -, change, hchange, -⟩ := change_characterises_constancy exampleRuntime exampleFinal
    exampleFinal_reachable 1 11 2 7 (by decide) none
  exact ⟨by decide +kernel, change, hchange⟩

end ContextLedger.PeriodChanges
