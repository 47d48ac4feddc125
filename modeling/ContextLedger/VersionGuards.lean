import ContextLedger.GuardedTable
import ContextLedger.Isolation

/-!
The guards of the version table in the database itself. Whatever statements are
run on the table, whoever wrote them, its trigger lets nothing but the end of an
open version change and no row go, and its constraints keep the periods of one fact
apart. The transactions of the services are runs of such statements.
-/
namespace ContextLedger.VersionGuards

open Values Jsonb Schema Facts VersionTable Recording GuardedTable Transition

/-- A row operation of a statement; one statement may make several. -/
inductive Statement where
  | insert (row : FactVersion)
  | update (id : Uuid) (row : FactVersion)
  | delete (id : Uuid)

/-- The error a row operation ends with. No row with the identifier is no error. -/
def refused (db : Database) : Statement → Option String
  | .insert row =>
    firstBroken (versionRowChecks row ++ versionTableChecks db.versions row ++
      versionReferenceChecks db row)
  | .update id row =>
    match db.versions.find? fun v => v.id == id with
    | none => none
    | some old => (enforceAppendOnly old row).or (firstBroken (versionRowChecks row ++
        versionTableChecks (db.versions.filter fun v => v.id != id) row))
  | .delete id =>
    if db.versions.any fun v => v.id == id then
      some "fact_versions is append-only: rows cannot be deleted"
    else none

def execute (versions : List FactVersion) : Statement → List FactVersion
  | .insert row => versions ++ [row]
  | .update id row => versions.map fun v => if v.id = id then row else v
  | .delete id => versions.filter fun v => v.id != id

/-- `elsewhere` is any change of other tables. -/
inductive Action where
  | statement (s : Statement)
  | elsewhere (db : Database)

/-- A statement that fails changes nothing. -/
def step (db : Database) : Action → Option Database
  | .statement s =>
    if (refused db s).isSome then some db
    else some { db with versions := execute db.versions s }
  | .elsewhere other => some { other with versions := db.versions }

def guarded : System Database Action where
  initial db := db.versions = []
  step := step

/-- A later state of a row: the same claim, with the same end if it had one. -/
structure Keeps (old new : FactVersion) : Prop where
  claim : sameClaim new old = true
  ended : old.validUntil.isSome → new.validUntil = old.validUntil ∧
    new.validUntilRecordedAt = old.validUntilRecordedAt

theorem Keeps.refl (v : FactVersion) : Keeps v v :=
  ⟨sameClaim_iff.mpr ⟨rfl, rfl, rfl, rfl, sameValue_refl _, rfl, rfl, rfl, rfl, rfl, rfl, rfl, rfl⟩,
    fun _ => ⟨rfl, rfl⟩⟩

theorem Keeps.trans {u v w : FactVersion} (huv : Keeps u v) (hvw : Keeps v w) : Keeps u w := by
  refine ⟨sameClaim_iff.mpr ?_, fun hended => ?_⟩
  · obtain ⟨h₁, h₂, h₃, h₄, h₅, h₆, h₇, h₈, h₉, h₁₀, h₁₁, h₁₂, h₁₃⟩ := sameClaim_iff.mp huv.claim
    obtain ⟨k₁, k₂, k₃, k₄, k₅, k₆, k₇, k₈, k₉, k₁₀, k₁₁, k₁₂, k₁₃⟩ := sameClaim_iff.mp hvw.claim
    exact ⟨k₁.trans h₁, k₂.trans h₂, k₃.trans h₃, k₄.trans h₄, sameValue_trans _ _ _ k₅ h₅,
      k₆.trans h₆, k₇.trans h₇, k₈.trans h₈, k₉.trans h₉, k₁₀.trans h₁₀, k₁₁.trans h₁₁,
      k₁₂.trans h₁₂, k₁₃.trans h₁₃⟩
  · obtain ⟨hend, hlearned⟩ := huv.ended hended
    obtain ⟨hend', hlearned'⟩ := hvw.ended (by rw [hend]; exact hended)
    exact ⟨hend'.trans hend, hlearned'.trans hlearned⟩

/-- What the unique keys and the exclusion constraint say of two rows. -/
structure Compatible (a b : FactVersion) : Prop where
  id : a.id ≠ b.id
  number : a.factId = b.factId → a.version ≠ b.version
  lineage : ∀ previous, a.supersedesId = some previous → b.supersedesId ≠ some previous
  apart : a.factId = b.factId → rangesOverlap a b = false

theorem Compatible.symm {a b : FactVersion} (h : Compatible a b) : Compatible b a := by
  refine ⟨h.id.symm, fun hfact => (h.number hfact.symm).symm,
    fun previous hb ha => h.lineage previous ha hb, fun hfact => ?_⟩
  have hapart := h.apart hfact.symm
  rw [rangesOverlap] at hapart ⊢
  rw [Bool.and_comm]
  exact hapart

def versionGuard : Guard FactVersion where
  keeps := Keeps
  compatible := Compatible
  keeps_refl := Keeps.refl
  keeps_trans := Keeps.trans
  compatible_symm := Compatible.symm

theorem compatible_of_checks {others : List FactVersion} {row : FactVersion}
    (h : ∀ c ∈ versionTableChecks others row, c.2 = false) : ∀ v ∈ others, Compatible v row := by
  simp only [versionTableChecks, List.forall_mem_cons, List.any_eq_false] at h
  obtain ⟨hid, hnumber, -, hlineage, hapart, -⟩ := h
  intro v hv
  refine ⟨by simpa using hid v hv, fun hfact hsame => ?_, fun previous hprevious hrow => ?_,
    fun hfact => ?_⟩
  · exact hnumber v hv (by simp [hfact, hsame])
  · exact hlineage v hv (by simp [hprevious, hrow])
  · simpa [hfact] using hapart v hv

theorem keeps_of_enforced {old new : FactVersion} (h : enforceAppendOnly old new = none) :
    Keeps old new := by
  unfold enforceAppendOnly at h
  split_ifs at h with hclaim hended
  refine ⟨by simpa using hclaim, fun hsome => ?_⟩
  simpa [hsome] using hended

structure Guarded (db : Database) : Prop where
  compatible : db.versions.Pairwise Compatible
  checked : ∀ v ∈ db.versions, ∀ c ∈ versionRowChecks v, c.2 = false

/-- The row an identifier selects, with the others around it. -/
theorem Guarded.split {db : Database} (h : Guarded db) {id : Uuid} {old : FactVersion}
    (hfind : db.versions.find? (fun v => v.id == id) = some old) :
    ∃ before after, db.versions = before ++ old :: after ∧ old.id = id ∧
      ∀ v ∈ before ++ after, v.id ≠ id := by
  obtain ⟨hid, before, after, hrows, hbefore⟩ := List.find?_eq_some_iff_append.mp hfind
  rw [beq_iff_eq] at hid
  refine ⟨before, after, hrows, hid, fun v hv => ?_⟩
  rcases List.mem_append.mp hv with hv | hv
  · simpa using hbefore v hv
  · have hcompatible := h.compatible
    rw [hrows] at hcompatible
    have hafter := (List.pairwise_cons.mp (List.pairwise_append.mp hcompatible).2.1).1 v hv
    rw [← hid]
    exact hafter.id.symm

/-- What an accepted update does. -/
theorem execute_update {before after : List FactVersion} {old row : FactVersion} {id : Uuid}
    (hid : old.id = id) (hothers : ∀ v ∈ before ++ after, v.id ≠ id) :
    execute (before ++ old :: after) (.update id row) = before ++ row :: after := by
  have hsame (rows : List FactVersion) (hrows : ∀ v ∈ rows, v.id ≠ id) :
      rows.map (fun v => if v.id = id then row else v) = rows := by
    rw [List.map_congr_left fun v hv => if_neg (hrows v hv), List.map_id']
  rw [execute, List.map_append, List.map_cons, if_pos hid,
    hsame before fun v hv => hothers v (List.mem_append_left _ hv),
    hsame after fun v hv => hothers v (List.mem_append_right _ hv)]

theorem filter_others {before after : List FactVersion} {old : FactVersion} {id : Uuid}
    (hid : old.id = id) (hothers : ∀ v ∈ before ++ after, v.id ≠ id) :
    (before ++ old :: after).filter (fun v => v.id != id) = before ++ after := by
  have hsame (rows : List FactVersion) (hrows : ∀ v ∈ rows, v.id ≠ id) :
      rows.filter (fun v => v.id != id) = rows :=
    List.filter_eq_self.mpr fun v hv => by simpa using hrows v hv
  rw [List.filter_append, List.filter_cons_of_neg (by simp [hid]),
    hsame before fun v hv => hothers v (List.mem_append_left _ hv),
    hsame after fun v hv => hothers v (List.mem_append_right _ hv)]

/-- An accepted row operation is a guarded change of the table, or no change. -/
theorem change_of_accepted {db : Database} (h : Guarded db) {s : Statement}
    (haccepted : refused db s = none) :
    (execute db.versions s = db.versions ∨
      versionGuard.Change db.versions (execute db.versions s)) ∧
    ∀ v ∈ execute db.versions s, ∀ c ∈ versionRowChecks v, c.2 = false := by
  cases s with
  | insert row =>
    rw [refused, firstBroken_eq_none] at haccepted
    simp only [List.forall_mem_append] at haccepted
    obtain ⟨⟨hrow, htable⟩, -⟩ := haccepted
    refine ⟨Or.inr (.add (compatible_of_checks htable)), fun v hv => ?_⟩
    rcases List.mem_append.mp hv with hv | hv
    · exact h.checked v hv
    · rw [List.mem_singleton.mp hv]
      exact hrow
  | update id row =>
    rw [refused] at haccepted
    split at haccepted
    · rename_i hfind
      have hsame : execute db.versions (.update id row) = db.versions := by
        have hnone := List.find?_eq_none.mp hfind
        rw [execute, List.map_congr_left fun v hv => if_neg (by simpa using hnone v hv),
          List.map_id']
      rw [hsame]
      exact ⟨Or.inl rfl, h.checked⟩
    · rename_i old hfind
      obtain ⟨henforced, hchecks⟩ := Option.or_eq_none_iff.mp haccepted
      obtain ⟨before, after, hrows, hid, hothers⟩ := h.split hfind
      rw [hrows, filter_others hid hothers, firstBroken_eq_none] at hchecks
      simp only [List.forall_mem_append] at hchecks
      rw [hrows, execute_update hid hothers]
      refine ⟨Or.inr (.replace (keeps_of_enforced henforced) (compatible_of_checks hchecks.2)),
        fun v hv => ?_⟩
      rw [List.mem_append, List.mem_cons] at hv
      rcases hv with hv | rfl | hv
      · exact h.checked v (hrows ▸ List.mem_append_left _ hv)
      · exact hchecks.1
      · exact h.checked v (hrows ▸ List.mem_append_right _ (List.mem_cons_of_mem _ hv))
  | delete id =>
    have hsame : execute db.versions (.delete id) = db.versions := by
      rw [refused] at haccepted
      split_ifs at haccepted with hany
      rw [Bool.not_eq_true, List.any_eq_false] at hany
      exact List.filter_eq_self.mpr fun v hv => by simpa using hany v hv
    rw [hsame]
    exact ⟨Or.inl rfl, h.checked⟩

theorem guarded_step {db db' : Database} {a : Action} (h : Guarded db)
    (hstep : step db a = some db') :
    (db'.versions = db.versions ∨ versionGuard.Change db.versions db'.versions) ∧ Guarded db' := by
  cases a with
  | statement s =>
    simp only [step] at hstep
    split_ifs at hstep with hrefused
    · obtain rfl := Option.some.inj hstep
      exact ⟨Or.inl rfl, h⟩
    · obtain rfl := Option.some.inj hstep
      obtain ⟨hchange, hchecked⟩ := change_of_accepted h (Option.not_isSome_iff_eq_none.mp hrefused)
      refine ⟨hchange, ?_, hchecked⟩
      rcases hchange with hsame | hchange
      · show (execute db.versions s).Pairwise Compatible
        rw [hsame]
        exact h.compatible
      · exact hchange.pairwise h.compatible
  | elsewhere other =>
    obtain rfl := Option.some.inj hstep
    exact ⟨Or.inl rfl, h.compatible, h.checked⟩

theorem changes_of_run {db db' : Database} {trace : List Action} (h : Guarded db)
    (hrun : guarded.run db trace = some db') :
    Relation.ReflTransGen versionGuard.Change db.versions db'.versions ∧ Guarded db' := by
  refine guarded.run_preserves (fun d =>
    Relation.ReflTransGen versionGuard.Change db.versions d.versions ∧ Guarded d)
    (fun d a d' hd hstep => ?_) hrun ⟨.refl, h⟩
  obtain ⟨hchange, hguarded⟩ := guarded_step hd.2 hstep
  refine ⟨?_, hguarded⟩
  rcases hchange with hsame | hchange
  · rw [hsame]
    exact hd.1
  · exact hd.1.tail hchange

theorem reachable_guarded {db : Database} (h : guarded.Reachable db) : Guarded db := by
  refine guarded.reachable_invariant Guarded (fun d hd => ?_)
    (fun d a d' hd hstep => (guarded_step hd hstep).2) h
  have hempty : d.versions = [] := hd
  exact ⟨by simp [hempty], by simp [hempty]⟩

/-- The version is valid at the instant by its own period. -/
def ValidAt (v : FactVersion) (t : Instant) : Prop :=
  v.validFrom ≤ t ∧ ∀ u, v.validUntil = some u → t < u

/-- Versions of one fact that are valid at one instant are one row. -/
theorem Guarded.unique {db : Database} (h : Guarded db) {v w : FactVersion} (hv : v ∈ db.versions)
    (hw : w ∈ db.versions) (hfact : v.factId = w.factId) {t : Instant} (hvt : ValidAt v t)
    (hwt : ValidAt w t) : v = w := by
  rcases Guard.compatible_or_eq (show db.versions.Pairwise versionGuard.compatible from
      h.compatible) hv hw with happart | hsame
  · have hoverlap : rangesOverlap v w = true := by
      rw [rangesOverlap, Bool.and_eq_true, Option.all_eq_true, Option.all_eq_true]
      exact ⟨fun u hu => decide_eq_true (lt_of_le_of_lt hvt.1 (hwt.2 u hu)),
        fun u hu => decide_eq_true (lt_of_le_of_lt hwt.1 (hvt.2 u hu))⟩
    rw [happart.apart hfact] at hoverlap
    exact absurd hoverlap (by simp)
  · exact hsame

/-- Whatever is run on the version table: every row stays, with the claim it was
recorded with and the end it has once it has one; at most one version of a fact is
valid at an instant; and the instants of a period that has ended keep their version. -/
theorem history_not_rewritten {db db' : Database} {trace : List Action}
    (hdb : guarded.Reachable db) (hrun : guarded.run db trace = some db') :
    (∀ v ∈ db.versions, ∃ v' ∈ db'.versions, Keeps v v') ∧
    (∀ v ∈ db'.versions, ∀ w ∈ db'.versions, v.factId = w.factId →
      ∀ t, ValidAt v t → ValidAt w t → v = w) ∧
    (∀ v ∈ db.versions, v.validUntil.isSome → ∀ t, ValidAt v t →
      ∀ w ∈ db'.versions, w.factId = v.factId → ValidAt w t → Keeps v w) := by
  obtain ⟨hchanges, hguarded⟩ := changes_of_run (reachable_guarded hdb) hrun
  have hkept := Guard.kept_of_changes hchanges
  refine ⟨hkept, fun v hv w hw hfact t hvt hwt => hguarded.unique hv hw hfact hvt hwt, ?_⟩
  intro v hv hended t hvt w hw hfact hwt
  obtain ⟨v', hv', hkeeps⟩ := hkept v hv
  obtain ⟨-, -, hfact', -, -, -, hfrom, -⟩ := sameClaim_iff.mp hkeeps.claim
  have hvt' : ValidAt v' t := by
    refine ⟨hfrom.trans_le hvt.1, fun u hu => hvt.2 u ?_⟩
    rw [← (hkeeps.ended hended).1]
    exact hu
  rw [hguarded.unique hw hv' (hfact.trans hfact'.symm) hwt hvt']
  exact hkeeps

def exampleRow : FactVersion :=
  ⟨1, 1, 1, 1, .num ⟨false, 1200, 0⟩, 1, 0, none, 0, 5, none, none, 50, 900, .internal⟩

def exampleTable (versions : List FactVersion) : Database where
  users := []
  memberships := []
  sources := [⟨1, 1, "ledger", .api, none, 50, 0⟩]
  entities := []
  facts := [⟨1, 1, 1, "balance"⟩]
  versions
  revocations := []
  impacts := []
  evidence := []
  links := []
  contradictions := []
  snapshots := []
  snapshotFacts := []
  decisions := []
  decisionFacts := []

/-- A value is overwritten, a row deleted, an end set and set again: one of the four
statements changes the table. -/
def exampleStatements : List Action :=
  [.statement (.update 1 { exampleRow with value := .num ⟨false, 7, 0⟩ }),
   .statement (.delete 1),
   .statement (.update 1 (exampleRow.close 10 12)),
   .statement (.update 1 (exampleRow.close 20 22))]

theorem history_not_rewritten_example :
    guarded.run (exampleTable [exampleRow]) exampleStatements =
      some (exampleTable [exampleRow.close 10 12]) ∧
    ∀ v ∈ (exampleTable [exampleRow]).versions,
      ∃ v' ∈ (exampleTable [exampleRow.close 10 12]).versions, Keeps v v' := by
  have hstart : guarded.Reachable (exampleTable [exampleRow]) :=
    ⟨exampleTable [], [.statement (.insert exampleRow)], rfl, rfl⟩
  have hrun : guarded.run (exampleTable [exampleRow]) exampleStatements =
      some (exampleTable [exampleRow.close 10 12]) := rfl
  exact ⟨hrun, (history_not_rewritten hstart hrun).1⟩

section Recording

variable {db : Database} {write : VersionWrite}

end Recording

end ContextLedger.VersionGuards
