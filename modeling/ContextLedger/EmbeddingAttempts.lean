import ContextLedger.EmbeddingLeases

/-!
How often an embedding job is leased. The count of attempts of a row rises with
every lease, and it is compared with the limit only when a worker gives the job
back after the provider failed. A lease that expires is never given back, so the
limit is kept by exactly those runs in which no expired lease of a job at the limit
is taken over.
-/
namespace ContextLedger.EmbeddingAttempts

open Values Schema Facts Transition Processes EmbeddingQueue EmbeddingLeases

section Counts

variable {V : Type} (rt : Runtime) (vectors : Vectors V)

/-- The jobs that a step leases. -/
def leasedBy (w : World V) : Action → List EmbeddingJob
  | .move i move => w.workers[i]?.elim [] fun worker => leasing w worker move
  | _ => []

def isLeased (w : World V) (a : Action) (id : Uuid) : Bool :=
  (leasedBy w a).any fun j => j.id == id

/-- How often the job with this identifier is leased along a run. -/
def timesClaimed (id : Uuid) : World V → List Action → ℕ
  | _, [] => 0
  | w, a :: rest => (isLeased w a id).toNat +
      (step rt vectors w a).elim 0 fun w' => timesClaimed id w' rest

def attemptsOf (w : World V) (id : Uuid) : ℕ :=
  ((w.jobs.find? fun j => j.id == id).map EmbeddingJob.attempts).getD 0

/-- No step takes over an expired lease of a job that has used `limit` attempts. -/
def WithinLimit (limit : ℕ) (w : World V) (a : Action) : Prop :=
  (leasedBy w a).all (fun j => j.status != .running || decide (j.attempts < limit)) = true

instance (limit : ℕ) (w : World V) (a : Action) : Decidable (WithinLimit limit w a) :=
  inferInstanceAs (Decidable (_ = true))

theorem Becomes.attempts {w : World V} {worker : Worker V} {moved : Moved V} {move : Move}
    {j j' : EmbeddingJob} (h : Becomes w worker moved move j j') :
    (j ∈ leasing w worker move ∧ j'.attempts = j.attempts + 1) ∨
      (j ∉ leasing w worker move ∧ j'.attempts = j.attempts) := by
  cases h with
  | same hnot => exact Or.inr ⟨hnot, rfl⟩
  | leased hpicked => exact Or.inl ⟨hpicked, rfl⟩
  | completed => exact Or.inr ⟨List.not_mem_nil, rfl⟩
  | returned => exact Or.inr ⟨List.not_mem_nil, rfl⟩

theorem leasing_subset (w : World V) (worker : Worker V) (move : Move) :
    ∀ j ∈ leasing w worker move, j ∈ w.jobs := by
  intro j hj
  cases move with
  | claim now skipped tokens => exact (mem_picked hj).1
  | _ => exact absurd hj List.not_mem_nil

theorem leasedBy_subset (w : World V) (a : Action) : ∀ j ∈ leasedBy w a, j ∈ w.jobs := by
  intro j hj
  cases a with
  | move i move =>
    simp only [leasedBy] at hj
    cases hi : w.workers[i]? with
    | none =>
      rw [hi] at hj
      exact absurd hj List.not_mem_nil
    | some worker =>
      rw [hi] at hj
      exact leasing_subset w worker move j hj
  | _ => exact absurd hj List.not_mem_nil

theorem isLeased_iff {w : World V} (hw : Orderly w) (a : Action) {j : EmbeddingJob}
    (hj : j ∈ w.jobs) : isLeased w a j.id = true ↔ j ∈ leasedBy w a := by
  simp only [isLeased, List.any_eq_true, beq_iff_eq]
  constructor
  · rintro ⟨other, hother, hid⟩
    obtain rfl := hw.eq_of_id (leasedBy_subset w a other hother) hj hid
    exact hother
  · intro h
    exact ⟨j, h, rfl⟩

/-- What a step leases waits, or runs under a lease that expired. -/
theorem leasedBy_waits {w : World V} {a : Action} {j : EmbeddingJob} (hj : j ∈ leasedBy w a)
    (hstatus : j.status ≠ .running) : j.status = .pending := by
  cases a with
  | move i move =>
    cases hi : w.workers[i]? with
    | none => simp [leasedBy, hi] at hj
    | some worker =>
      simp only [leasedBy, hi, Option.elim_some] at hj
      cases move with
      | claim now skipped tokens =>
        exact (due_status (mem_picked hj).2).resolve_right fun h => hstatus h.1
      | _ => exact absurd hj List.not_mem_nil
  | _ => exact absurd hj List.not_mem_nil

/-- The table of jobs after a step, with the attempts of each row. -/
theorem step_attempts {w w' : World V} {a : Action} (hw : Orderly w)
    (h : step rt vectors w a = some w') :
    ∃ (f : EmbeddingJob → EmbeddingJob) (new : List EmbeddingJob), w'.jobs = w.jobs.map f ++ new ∧
      (∀ j ∈ w.jobs, (f j).id = j.id ∧
        (f j).attempts = j.attempts + (isLeased w a j.id).toNat) ∧
      ∀ j ∈ new, j.attempts = 0 := by
  have hkept : leasedBy w a = [] → w'.jobs = w.jobs →
      ∃ (f : EmbeddingJob → EmbeddingJob) (new : List EmbeddingJob),
        w'.jobs = w.jobs.map f ++ new ∧ (∀ j ∈ w.jobs, (f j).id = j.id ∧
          (f j).attempts = j.attempts + (isLeased w a j.id).toNat) ∧ ∀ j ∈ new, j.attempts = 0 := by
    intro hnone hjobs
    exact ⟨id, [], by simp [hjobs], fun j _ => by simp [isLeased, hnone], by simp⟩
  rcases step_cases rt vectors h with ⟨c, rfl, rfl⟩ |
    ⟨i, worker, move, moved, rfl, hi, -, hmoved, rfl⟩ | ⟨write, rfl, -, rfl⟩ | ⟨now, rfl, rfl⟩
  · exact hkept rfl rfl
  · obtain ⟨f, new, hjobs, hbecomes, hadded⟩ := effect_jobs rt vectors hw (List.mem_of_getElem? hi)
      (hmoved.effect rt vectors)
    have hleased : leasedBy w (.move i move) = leasing w worker move := by simp [leasedBy, hi]
    refine ⟨f, new, hjobs, fun j hj => ⟨(hbecomes j hj).sameWork.id, ?_⟩,
      fun j hj => (hadded.pending j hj).2.2⟩
    rcases Becomes.attempts (hbecomes j hj) with ⟨hmem, hcount⟩ | ⟨hnot, hcount⟩
    · rw [hcount, (isLeased_iff hw _ hj).mpr (hleased ▸ hmem)]
      rfl
    · have hfalse : isLeased w (.move i move) j.id = false := by
        rw [Bool.eq_false_iff, ne_eq, isLeased_iff hw _ hj, hleased]
        exact hnot
      rw [hcount, hfalse]
      rfl
  · exact hkept rfl rfl
  · exact hkept rfl rfl

theorem attemptsOf_eq {w : World V} (hw : Orderly w) {j : EmbeddingJob} (hj : j ∈ w.jobs) :
    attemptsOf w j.id = j.attempts := by
  unfold attemptsOf
  cases hfind : w.jobs.find? fun other => other.id == j.id with
  | none => exact absurd (List.find?_eq_none.mp hfind j hj) (by simp)
  | some other =>
    have hid : other.id = j.id := by simpa using List.find?_some hfind
    obtain rfl := hw.eq_of_id (List.mem_of_find?_eq_some hfind) hj hid
    rfl

theorem attemptsOf_of_not_mem {w : World V} {id : Uuid} (h : ∀ j ∈ w.jobs, j.id ≠ id) :
    attemptsOf w id = 0 := by
  unfold attemptsOf
  rw [List.find?_eq_none.mpr (by simpa using h)]
  rfl

/-- A step adds one attempt to each job that it leases. -/
theorem attemptsOf_step {w w' : World V} {a : Action} (hw : Orderly w)
    (h : step rt vectors w a = some w') (id : Uuid) :
    attemptsOf w' id = attemptsOf w id + (isLeased w a id).toNat := by
  have hw' := orderly_step rt vectors hw h
  obtain ⟨f, new, hjobs, hrows, hnew⟩ := step_attempts rt vectors hw h
  by_cases hknown : ∃ j ∈ w.jobs, j.id = id
  · obtain ⟨j, hj, rfl⟩ := hknown
    obtain ⟨hid, hcount⟩ := hrows j hj
    have hmem : f j ∈ w'.jobs := hjobs ▸ List.mem_append_left _ (List.mem_map_of_mem hj)
    rw [attemptsOf_eq hw hj, ← hcount, ← attemptsOf_eq hw' hmem, hid]
  · have hunknown : ∀ j ∈ w.jobs, j.id ≠ id := fun j hj hid => hknown ⟨j, hj, hid⟩
    have hnone : isLeased w a id = false := by
      rw [Bool.eq_false_iff]
      intro hleased
      obtain ⟨j, hj, hid⟩ := List.any_eq_true.mp hleased
      exact hunknown j (leasedBy_subset w a j hj) (by simpa using hid)
    rw [attemptsOf_of_not_mem hunknown, hnone]
    by_cases hadded : ∃ j ∈ w'.jobs, j.id = id
    · obtain ⟨j, hj, rfl⟩ := hadded
      rw [attemptsOf_eq hw' hj]
      rw [hjobs] at hj
      rcases List.mem_append.mp hj with hold | hlast
      · obtain ⟨other, hother, rfl⟩ := List.mem_map.mp hold
        exact absurd (hrows other hother).1.symm (hunknown other hother)
      · exact hnew j hlast
    · exact attemptsOf_of_not_mem fun j hj hid => hadded ⟨j, hj, hid⟩

/-- The attempts of a row count the leases of the job along the run. -/
theorem attemptsOf_run {w w' : World V} {trace : List Action} (hw : Orderly w)
    (h : (system rt vectors).run w trace = some w') (id : Uuid) :
    attemptsOf w' id = attemptsOf w id + timesClaimed rt vectors id w trace := by
  induction trace generalizing w with
  | nil =>
    obtain rfl : w = w' := Option.some.inj h
    rfl
  | cons a rest ih =>
    obtain ⟨next, hstep, hrest⟩ := (system rt vectors).run_cons_eq_some.mp h
    have hnext : step rt vectors w a = some next := hstep
    rw [ih (orderly_step rt vectors hw hnext) hrest, attemptsOf_step rt vectors hw hnext id,
      timesClaimed, hnext, Option.elim_some]
    omega

/-- With one limit for all workers a job that waits has attempts left, and a lease in hand
knows the attempts of its row. -/
structure Counted (limit : ℕ) (w : World V) : Prop where
  limits : ∀ worker ∈ w.workers, worker.config.maxAttempts = limit
  pending : ∀ j ∈ w.jobs, j.status = .pending → j.attempts < limit
  inHand : ∀ worker ∈ w.workers, ∀ job ∈ worker.phase.jobs, ∀ j ∈ w.jobs, Matches job j →
    j.attempts = job.attempts

theorem Becomes.pending {w : World V} {worker : Worker V} {moved : Moved V} {move : Move}
    {j j' : EmbeddingJob} {limit : ℕ} (h : Becomes w worker moved move j j')
    (hlimit : worker.config.maxAttempts = limit)
    (hhand : ∀ job ∈ worker.phase.jobs, Matches job j → j.attempts = job.attempts)
    (hj : j.status = .pending → j.attempts < limit) (hj' : j'.status = .pending) :
    j'.attempts < limit := by
  cases h with
  | same => exact hj hj'
  | leased => exact absurd hj' (by simp [EmbeddingJob.lease])
  | completed => exact absurd hj' (by simp [EmbeddingJob.succeed])
  | @returned now j error retryAt hholds hretry =>
    cases retryAt with
    | none => exact absurd hj' (by simp [EmbeddingJob.giveBack])
    | some at' =>
      obtain ⟨job, hjob, hmatch, hleft⟩ := hretry rfl
      show j.attempts < limit
      rw [hhand job hjob hmatch, ← hlimit]
      exact hleft

/-- A lease drawn before the move matches only rows that the move leaves alone. -/
theorem Becomes.attempts_of_matches {w : World V} {worker : Worker V} {moved : Moved V}
    {move : Move} {j j' : EmbeddingJob} (h : Becomes w worker moved move j j') {job : ClaimedJob}
    (hissued : job.leaseToken ∈ w.issued) (hmatch : Matches job j') : j' = j := by
  cases h with
  | same => rfl
  | leased hpicked hfresh =>
    exact absurd (Option.some.inj hmatch.2 ▸ hissued) hfresh
  | completed => exact absurd hmatch.2 (by simp [EmbeddingJob.succeed])
  | returned => exact absurd hmatch.2 (by simp [EmbeddingJob.giveBack])

theorem counted_withMove {limit : ℕ} (hpos : 1 ≤ limit) {w : World V} (horderly : Orderly w)
    (hw : Counted limit w) {i : ℕ} {worker : Worker V} (hi : w.workers[i]? = some worker)
    {move : Move} {moved : Moved V} (h : Effect rt vectors w worker move moved) :
    Counted limit (w.withMove i worker moved) := by
  have hworker := List.mem_of_getElem? hi
  obtain ⟨f, new, hjobs, hbecomes, hadded⟩ := effect_jobs rt vectors horderly hworker h
  have hmem : ∀ j' ∈ moved.jobs, (∃ j ∈ w.jobs, Becomes w worker moved move j j') ∨ j' ∈ new :=
    fun j' hj' => becomes_or_new hjobs hbecomes hj'
  have hold : ∀ p ∈ w.workers, ∀ job ∈ p.phase.jobs, ∀ j' ∈ moved.jobs, Matches job j' →
      j'.attempts = job.attempts := by
    intro p hp job hjob j' hj' hmatch
    rcases hmem j' hj' with ⟨j, hj, hb⟩ | hnew
    · obtain rfl := Becomes.attempts_of_matches hb (horderly.tokens p hp job hjob) hmatch
      exact hw.inHand p hp job hjob j' hj hmatch
    · exact absurd hmatch.2 (by simp [(hadded.pending j' hnew).2.1])
  refine ⟨fun p hp => ?_, fun j' hj' hstatus => ?_, fun p hp job hjob j' hj' hmatch => ?_⟩
  · rcases mem_set_cases hp with rfl | ⟨k, -, hk⟩
    · exact hw.limits worker hworker
    · exact hw.limits p (List.mem_of_getElem? hk)
  · rcases hmem j' hj' with ⟨j, hj, hb⟩ | hnew
    · exact Becomes.pending hb (hw.limits worker hworker)
        (fun job hjob => hw.inHand worker hworker job hjob j hj) (hw.pending j hj) hstatus
    · rw [(hadded.pending j' hnew).2.2]
      exact hpos
  · rcases mem_set_cases hp with rfl | ⟨k, -, hk⟩
    · rcases effect_phase rt vectors h job hjob with hbefore | ⟨hfresh, -, picked, hpicked, hhand, heq⟩
      · exact hold worker hworker job hbefore j' hj' hmatch
      · rcases hmem j' hj' with ⟨j, hj, hb⟩ | hnew
        · obtain rfl : j = picked := horderly.eq_of_id hj hpicked
            ((hb.sameWork.id.symm.trans hmatch.1).trans hhand.id.symm)
          cases hb with
          | same => exact absurd (horderly.issued j' hj _ hmatch.2) hfresh
          | leased => exact heq.symm
          | completed => exact absurd hmatch.2 (by simp [EmbeddingJob.succeed])
          | returned => exact absurd hmatch.2 (by simp [EmbeddingJob.giveBack])
        · exact absurd hmatch.2 (by simp [(hadded.pending j' hnew).2.1])
    · exact hold p (List.mem_of_getElem? hk) job hjob j' hj' hmatch

/-- Of the hires of a run only those with the same limit. -/
def sameLimit (limit : ℕ) : Action → Bool
  | .hire c => c.maxAttempts == limit
  | _ => true

theorem counted_step {limit : ℕ} (hpos : 1 ≤ limit) {w w' : World V} {a : Action}
    (horderly : Orderly w) (hw : Counted limit w) (ha : sameLimit limit a = true)
    (h : step rt vectors w a = some w') : Counted limit w' := by
  rcases step_cases rt vectors h with ⟨c, rfl, rfl⟩ |
    ⟨i, worker, move, moved, -, hi, -, hmoved, rfl⟩ | ⟨write, -, -, rfl⟩ | ⟨now, -, rfl⟩
  · refine ⟨fun p hp => ?_, hw.pending, fun p hp job hjob => ?_⟩
    · rcases List.mem_append.mp hp with hp | hp
      · exact hw.limits p hp
      · obtain rfl := List.mem_singleton.mp hp
        simpa [sameLimit] using ha
    · rcases List.mem_append.mp hp with hp | hp
      · exact hw.inHand p hp job hjob
      · obtain rfl := List.mem_singleton.mp hp
        exact absurd hjob List.not_mem_nil
  · exact counted_withMove rt vectors hpos horderly hw hi (hmoved.effect rt vectors)
  · exact { hw with }
  · exact { hw with }

theorem counted_start {limit : ℕ} {w : World V} (h : Start w) : Counted limit w where
  limits := by simp [h.workers]
  pending := by simp [h.jobs]
  inHand := by simp [h.workers]

/-- One step keeps within the limit exactly when it takes over no job that is at it. -/
theorem step_bounded_iff {limit : ℕ} {w w' : World V} {a : Action} (horderly : Orderly w)
    (hw : Counted limit w) (h : step rt vectors w a = some w') :
    (∀ id, attemptsOf w' id ≤ limit) ↔
      (∀ id, attemptsOf w id ≤ limit) ∧ WithinLimit limit w a := by
  have hstep := attemptsOf_step rt vectors horderly h
  constructor
  · intro hbound
    refine ⟨fun id => ?_, List.all_eq_true.mpr fun j hj => ?_⟩
    · have := hbound id
      rw [hstep id] at this
      omega
    · have hmem := leasedBy_subset w a j hj
      have hcount := hbound j.id
      rw [hstep j.id, attemptsOf_eq horderly hmem, (isLeased_iff horderly a hmem).mpr hj] at hcount
      simp only [Bool.or_eq_true, decide_eq_true_eq]
      exact Or.inr hcount
  · rintro ⟨hbound, hwithin⟩ id
    rw [hstep id]
    cases hleased : isLeased w a id with
    | false => simpa using hbound id
    | true =>
      obtain ⟨j, hj, hid⟩ := List.any_eq_true.mp hleased
      obtain rfl : j.id = id := by simpa using hid
      have hmem := leasedBy_subset w a j hj
      rw [attemptsOf_eq horderly hmem]
      have hleft := List.all_eq_true.mp hwithin j hj
      simp only [Bool.or_eq_true, bne_iff_ne, decide_eq_true_eq] at hleft
      rcases hleft with hwaits | hleft
      · exact hw.pending j hmem (leasedBy_waits hj hwaits)
      · exact hleft

/-- What one step does to the bound, along a run. -/
theorem run_bounded_iff {limit : ℕ} (hpos : 1 ≤ limit) {w w' : World V} {trace : List Action}
    (horderly : Orderly w) (hw : Counted limit w) (hhires : ∀ a ∈ trace, sameLimit limit a = true)
    (h : (system rt vectors).run w trace = some w') :
    Counted limit w' ∧ ((∀ id, attemptsOf w' id ≤ limit) ↔
      (∀ id, attemptsOf w id ≤ limit) ∧ (system rt vectors).RunMeets (WithinLimit limit) w trace) := by
  induction trace generalizing w with
  | nil =>
    obtain rfl : w = w' := Option.some.inj h
    exact ⟨hw, ⟨fun hbound => ⟨hbound, trivial⟩, fun hbound => hbound.1⟩⟩
  | cons a rest ih =>
    obtain ⟨next, hstep, hrest⟩ := (system rt vectors).run_cons_eq_some.mp h
    have hnext : step rt vectors w a = some next := hstep
    obtain ⟨hcounted, hiff⟩ := ih (orderly_step rt vectors horderly hnext)
      (counted_step rt vectors hpos horderly hw (hhires a List.mem_cons_self) hnext)
      (fun b hb => hhires b (List.mem_cons_of_mem a hb)) hrest
    refine ⟨hcounted, ?_⟩
    rw [hiff, step_bounded_iff rt vectors horderly hw hnext, and_assoc]
    refine and_congr_right fun _ => and_congr_right fun _ => ?_
    constructor
    · intro hmeets s' hs'
      obtain rfl : next = s' := Option.some.inj (hstep.symm.trans hs')
      exact hmeets
    · intro hmeets
      exact hmeets next hstep

/-- From an empty queue, with one limit for all workers: every job is leased at most that
often, and one that has used its attempts does not wait for another, exactly if no step
takes over an expired lease of a job that has used its attempts. -/
theorem attempts_bounded_iff {limit : ℕ} (hpos : 1 ≤ limit) {w w' : World V}
    {trace : List Action} (hstart : Start w) (hhires : ∀ a ∈ trace, sameLimit limit a = true)
    (hrun : (system rt vectors).run w trace = some w') :
    ((∀ id, timesClaimed rt vectors id w trace ≤ limit) ∧
        ∀ j ∈ w'.jobs, limit ≤ j.attempts → j.status ≠ .pending) ↔
      (system rt vectors).RunMeets (WithinLimit limit) w trace := by
  have horderly := orderly_start hstart
  have hnone : ∀ id, attemptsOf w id = 0 := fun id => by simp [attemptsOf, hstart.jobs]
  obtain ⟨hcounted, hiff⟩ :=
    run_bounded_iff rt vectors hpos horderly (counted_start hstart) hhires hrun
  have htimes : ∀ id, attemptsOf w' id = timesClaimed rt vectors id w trace := by
    intro id
    rw [attemptsOf_run rt vectors horderly hrun id, hnone id, Nat.zero_add]
  constructor
  · rintro ⟨hbound, -⟩
    exact (hiff.mp fun id => by rw [htimes id]; exact hbound id).2
  · intro hmeets
    have hbound := hiff.mpr ⟨fun id => by rw [hnone id]; exact Nat.zero_le limit, hmeets⟩
    refine ⟨fun id => by rw [← htimes id]; exact hbound id, fun j hj hused hstatus => ?_⟩
    exact absurd (hcounted.pending j hj hstatus) (not_lt.mpr hused)

end Counts

/-- A worker leases the job, dies, and after the lease the next one does the same. -/
def exampleCrashes (maxAttempts : ℕ) : List Action :=
  [.record exampleWrite, .hire { exampleWorker with maxAttempts },
   .move 0 .select, .move 0 (.insert 5 [100]), .move 0 (.claim 5 [] [200]), .move 0 .crash,
   .tick 400000000,
   .move 0 .select, .move 0 (.insert 400000000 []), .move 0 (.claim 400000000 [] [201])]

theorem exampleCrashes_runs : ∀ limit ∈ [1, 2],
    ((system hashingRuntime exampleVectors).run exampleStart (exampleCrashes limit)).isSome = true ∧
      timesClaimed hashingRuntime exampleVectors 100 exampleStart (exampleCrashes limit) = 2 := by
  decide +kernel

theorem exampleCrashes_meets : (system hashingRuntime exampleVectors).RunMeets (WithinLimit 2)
    exampleStart (exampleCrashes 2) := by
  decide +kernel

theorem attempts_bounded_iff_example :
    timesClaimed hashingRuntime exampleVectors 100 exampleStart (exampleCrashes 2) = 2 ∧
      ∀ id, timesClaimed hashingRuntime exampleVectors id exampleStart (exampleCrashes 2) ≤ 2 := by
  obtain ⟨hruns, htwice⟩ := exampleCrashes_runs 2 (by decide)
  obtain ⟨w, hrun⟩ := Option.isSome_iff_exists.mp hruns
  exact ⟨htwice, ((attempts_bounded_iff hashingRuntime exampleVectors (by decide)
    exampleStart_start (by decide) hrun).mpr exampleCrashes_meets).1⟩

/-- With a limit of one attempt the job of the example is leased twice. -/
theorem attempts_exceed_limit :
    ¬ ∀ (rt : Runtime) (vectors : Vectors (List (ℕ × ℤ))) (limit : ℕ)
      (w w' : World (List (ℕ × ℤ))) (trace : List Action), 1 ≤ limit → Start w →
      (∀ a ∈ trace, sameLimit limit a = true) → (system rt vectors).run w trace = some w' →
      ∀ id, timesClaimed rt vectors id w trace ≤ limit := by
  intro h
  obtain ⟨hruns, htwice⟩ := exampleCrashes_runs 1 (by decide)
  obtain ⟨w, hrun⟩ := Option.isSome_iff_exists.mp hruns
  have honce := h hashingRuntime exampleVectors 1 exampleStart w (exampleCrashes 1) (by decide)
    exampleStart_start (by decide) hrun 100
  rw [htwice] at honce
  exact absurd honce (by decide)

end ContextLedger.EmbeddingAttempts
