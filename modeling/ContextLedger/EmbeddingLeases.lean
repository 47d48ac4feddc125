import ContextLedger.EmbeddingQueue

/-!
The queue of embedding jobs under any schedule of its workers. Every move either
leaves the tables alone, inserts jobs, leases a batch, or ends a batch by storing
vectors or by giving the jobs back; each of these is described once, row by row. A
token is drawn for one lease and cleared with it, so a worker whose lease was taken
over finds no row to change, whatever it still holds in memory.
-/
namespace ContextLedger.EmbeddingLeases

open Values Schema Facts Transition Processes EmbeddingQueue

/-- The lease in hand is the one that the row carries. -/
def Matches (job : ClaimedJob) (j : EmbeddingJob) : Prop :=
  j.id = job.jobId ∧ j.leaseToken = some job.leaseToken

instance (job : ClaimedJob) (j : EmbeddingJob) : Decidable (Matches job j) :=
  inferInstanceAs (Decidable (_ ∧ _))

/-- The row of a job as far as no step changes it. -/
structure SameWork (j j' : EmbeddingJob) : Prop where
  id : j'.id = j.id
  organizationId : j'.organizationId = j.organizationId
  factVersionId : j'.factVersionId = j.factVersionId
  model : j'.model = j.model

def jobKey (j : EmbeddingJob) : Uuid × String := (j.factVersionId, j.model)

section Tables

variable {V : Type}

def embeddingKey (e : FactEmbedding V) : Uuid × String := (e.factVersionId, e.model)

theorem hasJob_iff {jobs : List EmbeddingJob} {versionId : Uuid} {model : String} :
    hasJob jobs versionId model = true ↔ (versionId, model) ∈ jobs.map jobKey := by
  simp [hasJob, jobKey]

theorem hasEmbedding_iff {embeddings : List (FactEmbedding V)} {versionId : Uuid} {model : String} :
    hasEmbedding embeddings versionId model = true ↔
      (versionId, model) ∈ embeddings.map embeddingKey := by
  simp [hasEmbedding, embeddingKey]

theorem updateLeased_eq (jobs : List EmbeddingJob) (job : ClaimedJob)
    (f : EmbeddingJob → EmbeddingJob) :
    updateLeased jobs job f = jobs.map fun j => if Matches job j then f j else j := rfl

/-- Updates that clear the token touch a row at most once: the first lease in hand that
matches the row decides. -/
theorem foldl_updateLeased {f : ClaimedJob → EmbeddingJob → EmbeddingJob}
    (hf : ∀ job j, (f job j).leaseToken = none) (held : List ClaimedJob)
    (jobs : List EmbeddingJob) :
    held.foldl (fun jobs job => updateLeased jobs job (f job)) jobs =
      jobs.map fun j => (held.find? fun job => decide (Matches job j)).elim j fun job => f job j := by
  induction held generalizing jobs with
  | nil => simp
  | cons job held ih =>
    rw [List.foldl_cons, ih, updateLeased_eq, List.map_map]
    refine List.map_congr_left fun j _ => ?_
    rw [Function.comp_apply]
    by_cases hmatch : Matches job j
    · have hnone : held.find? (fun other => decide (Matches other (f job j))) = none := by
        simp [Matches, hf]
      rw [if_pos hmatch, hnone, List.find?_cons_of_pos (by simpa using hmatch)]
      rfl
    · rw [if_neg hmatch, List.find?_cons_of_neg (by simpa using hmatch)]

/-- The inserted jobs are new rows for rows of the sweep, one for each key. -/
theorem foldl_insertJob (model : String) (now : Instant) (rows : List ((Uuid × Uuid) × Uuid))
    (jobs : List EmbeddingJob) :
    ∃ new, rows.foldl (insertJob model now) jobs = jobs ++ new ∧
      (new.map EmbeddingJob.id).Sublist (rows.map Prod.snd) ∧
      (∀ j ∈ new, (j.status = .pending ∧ j.leaseToken = none ∧ j.attempts = 0) ∧
        ∃ row ∈ rows, row.1 = (j.organizationId, j.factVersionId)) ∧
      ((jobs.map jobKey).Nodup → ((jobs ++ new).map jobKey).Nodup) := by
  induction rows generalizing jobs with
  | nil => exact ⟨[], by simp, by simp, by simp, by simp⟩
  | cons row rows ih =>
    rw [List.foldl_cons]
    by_cases hhas : hasJob jobs row.1.2 model = true
    · rw [insertJob, if_pos hhas]
      obtain ⟨new, heq, hids, hnew, hkeys⟩ := ih jobs
      refine ⟨new, heq, hids.trans (List.sublist_cons_self _ _), fun j hj => ?_, hkeys⟩
      obtain ⟨hpending, row', hrow', hpair⟩ := hnew j hj
      exact ⟨hpending, row', List.mem_cons_of_mem _ hrow', hpair⟩
    · rw [insertJob, if_neg hhas]
      set first : EmbeddingJob :=
        { id := row.2, organizationId := row.1.1, factVersionId := row.1.2, model,
          status := .pending, attempts := 0, availableAt := now, lockedAt := none,
          leaseToken := none, lastError := none, createdAt := now } with hfirst
      obtain ⟨new, heq, hids, hnew, hkeys⟩ := ih (jobs ++ [first])
      refine ⟨first :: new, by rw [heq, List.append_assoc, List.singleton_append],
        hids.cons_cons _, fun j hj => ?_, fun hnodup => ?_⟩
      · rcases List.mem_cons.mp hj with rfl | hj
        · exact ⟨⟨rfl, rfl, rfl⟩, row, List.mem_cons_self, rfl⟩
        · obtain ⟨hpending, row', hrow', hpair⟩ := hnew j hj
          exact ⟨hpending, row', List.mem_cons_of_mem _ hrow', hpair⟩
      · have hadded : ((jobs ++ [first]).map jobKey).Nodup := by
          rw [List.map_append, List.map_singleton, ← List.concat_eq_append]
          exact hnodup.concat fun hmem => hhas (hasJob_iff.mpr hmem)
        rw [← List.singleton_append, ← List.append_assoc]
        exact hkeys hadded

/-- The rows of a run of saves: those from before and one for each new key. -/
theorem foldl_saveEmbedding (vectors : Vectors V) (model : String)
    (entries : List (ClaimedJob × V × String)) (embeddings : List (FactEmbedding V)) :
    ∃ new, entries.foldl (fun es e => saveEmbedding vectors model es e.1 e.2.1 e.2.2) embeddings =
        embeddings ++ new ∧
      (∀ e ∈ new, ∃ entry ∈ entries, e = ⟨entry.1.organizationId, entry.1.factVersionId, model,
        vectors.stored entry.2.1, factTextTemplate, entry.2.2⟩) ∧
      (∀ entry ∈ entries, (entry.1.factVersionId, model) ∈
        (embeddings ++ new).map embeddingKey) ∧
      ((embeddings.map embeddingKey).Nodup → ((embeddings ++ new).map embeddingKey).Nodup) := by
  induction entries generalizing embeddings with
  | nil => exact ⟨[], by simp, by simp, by simp, by simp⟩
  | cons entry entries ih =>
    rw [List.foldl_cons]
    by_cases hhas : hasEmbedding embeddings entry.1.factVersionId model = true
    · rw [saveEmbedding, if_pos hhas]
      obtain ⟨new, heq, hnew, hall, hkeys⟩ := ih embeddings
      refine ⟨new, heq, fun e he => ?_, fun e he => ?_, hkeys⟩
      · obtain ⟨entry', hentry', hrow⟩ := hnew e he
        exact ⟨entry', List.mem_cons_of_mem _ hentry', hrow⟩
      · rcases List.mem_cons.mp he with rfl | he
        · rw [List.map_append]
          exact List.mem_append_left _ (hasEmbedding_iff.mp hhas)
        · exact hall e he
    · rw [saveEmbedding, if_neg hhas]
      set first : FactEmbedding V := ⟨entry.1.organizationId, entry.1.factVersionId, model,
        vectors.stored entry.2.1, factTextTemplate, entry.2.2⟩ with hfirst
      obtain ⟨new, heq, hnew, hall, hkeys⟩ := ih (embeddings ++ [first])
      have hassoc : embeddings ++ [first] ++ new = embeddings ++ first :: new := by simp
      rw [hassoc] at heq hall hkeys
      refine ⟨first :: new, heq, fun e he => ?_, fun e he => ?_, fun hnodup => hkeys ?_⟩
      · rcases List.mem_cons.mp he with rfl | he
        · exact ⟨entry, List.mem_cons_self, rfl⟩
        · obtain ⟨entry', hentry', hrow⟩ := hnew e he
          exact ⟨entry', List.mem_cons_of_mem _ hentry', hrow⟩
      · rcases List.mem_cons.mp he with rfl | he
        · exact List.mem_map.mpr ⟨first, by simp, rfl⟩
        · exact hall e he
      · rw [List.map_append, List.map_singleton, ← List.concat_eq_append]
        exact hnodup.concat fun hmem => hhas (hasEmbedding_iff.mpr hmem)

end Tables

section Moves

variable {V : Type} (rt : Runtime) (vectors : Vectors V)

/-- The jobs that a move leases. -/
def leasing (w : World V) (worker : Worker V) : Move → List EmbeddingJob
  | .claim now skipped _ => picked w worker.config now skipped
  | _ => []

/-- What a move does to the tables, with the jobs that the worker has in hand. -/
inductive Effect (w : World V) (worker : Worker V) : Move → Moved V → Prop where
  | quiet {move : Move} (phase : Phase V)
      (hnone : leasing w worker move = [])
      (hjobs : ∀ job ∈ phase.jobs, job ∈ worker.phase.jobs) :
      Effect w worker move (Moved.only w phase)
  | inserted {now : Instant} {ids : List Uuid} (rows : List (Uuid × Uuid))
      (hrows : worker.phase = .found rows)
      (hlength : ids.length = rows.length) (hnodup : ids.Nodup)
      (hfresh : ∀ id ∈ ids, ∀ j ∈ w.jobs, j.id ≠ id) :
      Effect w worker (.insert now ids) { Moved.only w .enqueued with
        jobs := (rows.zip ids).foldl (insertJob worker.config.model now) w.jobs }
  | leased {now : Instant} {skipped tokens : List Uuid}
      (hlength : tokens.length = (picked w worker.config now skipped).length)
      (hnodup : tokens.Nodup) (hfresh : ∀ t ∈ tokens, t ∉ w.issued) :
      Effect w worker (.claim now skipped tokens)
        { Moved.only w (.claimed (((picked w worker.config now skipped).zip tokens).map
            (claimedOf now))) with
          jobs := claimJobs w.jobs now
            (((picked w worker.config now skipped).map EmbeddingJob.id).zip tokens)
          issued := w.issued ++ tokens }
  | completed (entries : List (Item × V))
      (hentries : entries.map (fun entry => entry.1.1) = worker.phase.jobs) :
      Effect w worker .finish
        ⟨.idle, (entries.foldl (writeJob rt vectors worker.config) (w.jobs, w.embeddings)).1,
          (entries.foldl (writeJob rt vectors worker.config) (w.jobs, w.embeddings)).2, w.issued⟩
  | returned {now : Instant} (error : String) :
      Effect w worker (.recordFailure now) { Moved.only w .idle with
        jobs := worker.phase.jobs.foldl (fail worker.config error now) w.jobs }

/-- Rows computed for the items of a list, each kept beside its item. -/
theorem mapM_tagged {α β : Type} {f : α → Option (α × β)} (hf : ∀ item e, f item = some e → e.1 = item)
    {items : List α} {entries : List (α × β)} (h : items.mapM f = some entries) :
    entries.map Prod.fst = items ∧ ∀ e ∈ entries, f e.1 = some e := by
  induction items generalizing entries with
  | nil =>
    obtain rfl : [] = entries := by simpa using h
    exact ⟨rfl, by simp⟩
  | cons item items ih =>
    simp only [List.mapM_cons, Option.bind_eq_bind, Option.bind_eq_some_iff] at h
    obtain ⟨e, he, rest, hrest, heq⟩ := h
    obtain ⟨hfst, hall⟩ := ih hrest
    have hitem := hf item e he
    rw [← Option.some.inj heq]
    refine ⟨by rw [List.map_cons, hfst, hitem], fun e' he' => ?_⟩
    rcases List.mem_cons.mp he' with rfl | he'
    · rw [hitem, he]
    · exact hall e' he'

theorem loadPhase_jobs (w : World V) (jobs : List ClaimedJob) :
    ∀ job ∈ (loadPhase w jobs).jobs, job ∈ jobs := by
  intro job hjob
  simp only [loadPhase] at hjob
  cases hitems : jobs.mapM fun job =>
      (sourceOf (documents w.db jobs) job).map fun s => (job, s.text) with
  | none =>
    rw [hitems] at hjob
    exact absurd hjob List.not_mem_nil
  | some items =>
    rw [hitems] at hjob
    have hfst := (mapM_tagged (by
      intro item e he
      obtain ⟨s, -, rfl⟩ := Option.map_eq_some_iff.mp he
      rfl) hitems).1
    exact hfst ▸ hjob

theorem lookupPhase_jobs (w : World V) (c : EmbeddingWorker) (items : List Item)
    (orgs : List Uuid) (cache : Cache V) (org : Uuid) :
    (lookupPhase rt w c items orgs cache org).jobs = items.map Prod.fst := by
  simp only [lookupPhase]
  cases orgs.erase org <;> rfl

theorem vectorFor_tagged (cache : Cache V) (fresh : List (String × V)) (item : Item)
    (e : Item × V) (he : ((vectorFor rt cache fresh item).map fun v => (item, v)) = some e) :
    e.1 = item := by
  obtain ⟨v, -, rfl⟩ := Option.map_eq_some_iff.mp he
  rfl

/-- The moves, each with the phase of the worker and the guards under which it is taken. -/
inductive Moves (w : World V) (worker : Worker V) : Move → Moved V → Prop where
  | select (hphase : worker.phase = .idle) :
      Moves w worker .select (Moved.only w (.found (candidates w worker.config)))
  | insert {now : Instant} {ids : List Uuid} (rows : List (Uuid × Uuid))
      (hphase : worker.phase = .found rows) (hlength : ids.length = rows.length)
      (hnodup : ids.Nodup) (hfresh : ∀ id ∈ ids, ∀ j ∈ w.jobs, j.id ≠ id) :
      Moves w worker (.insert now ids) { Moved.only w .enqueued with
        jobs := (rows.zip ids).foldl (insertJob worker.config.model now) w.jobs }
  | rest {now : Instant} {skipped tokens : List Uuid} (hphase : worker.phase = .enqueued)
      (hnone : picked w worker.config now skipped = []) :
      Moves w worker (.claim now skipped tokens) (Moved.only w .idle)
  | claim {now : Instant} {skipped tokens : List Uuid} (hphase : worker.phase = .enqueued)
      (hlength : tokens.length = (picked w worker.config now skipped).length)
      (hnodup : tokens.Nodup) (hfresh : ∀ t ∈ tokens, t ∉ w.issued) :
      Moves w worker (.claim now skipped tokens)
        { Moved.only w (.claimed (((picked w worker.config now skipped).zip tokens).map
            (claimedOf now))) with
          jobs := claimJobs w.jobs now
            (((picked w worker.config now skipped).map EmbeddingJob.id).zip tokens)
          issued := w.issued ++ tokens }
  | load (jobs : List ClaimedJob) (hphase : worker.phase = .claimed jobs) :
      Moves w worker .load (Moved.only w (loadPhase w jobs))
  | lookup {org : Uuid} (items : List Item) (orgs : List Uuid) (cache : Cache V)
      (hphase : worker.phase = .looking items orgs cache) :
      Moves w worker (.lookup org)
        (Moved.only w (lookupPhase rt w worker.config items orgs cache org))
  | send (items : List Item) (cache : Cache V) (rest : List (String × String))
      (fresh : List (String × V)) (hphase : worker.phase = .embedding items cache rest fresh) :
      Moves w worker .send
        (Moved.only w (sendPhase vectors worker.config items cache rest fresh))
  | refuse {error : String} (items : List Item) (cache : Cache V) (rest : List (String × String))
      (fresh : List (String × V)) (hphase : worker.phase = .embedding items cache rest fresh) :
      Moves w worker (.refuse error) (Moved.only w (.failing (items.map Prod.fst) error))
  | finish (items : List Item) (cache : Cache V) (fresh : List (String × V))
      (hphase : worker.phase = .embedding items cache [] fresh) :
      Moves w worker .finish (finishMove rt vectors w worker.config items cache fresh)
  | recordFailure {now : Instant} (jobs : List ClaimedJob) (error : String)
      (hphase : worker.phase = .failing jobs error) :
      Moves w worker (.recordFailure now) { Moved.only w .idle with
        jobs := jobs.foldl (fail worker.config error now) w.jobs }
  | crash : Moves w worker .crash (Moved.only w .idle)

theorem insertMove_moves {w : World V} {worker : Worker V} {rows : List (Uuid × Uuid)}
    (hphase : worker.phase = .found rows) {now : Instant} {ids : List Uuid} {moved : Moved V}
    (h : insertMove w worker.config rows now ids = some moved) :
    Moves rt vectors w worker (.insert now ids) moved := by
  unfold insertMove at h
  by_cases hguard : ids.length = rows.length ∧ ids.Nodup ∧
      ids.all (fun id => w.jobs.all fun j => j.id != id)
  · rw [if_pos hguard] at h
    rw [← Option.some.inj h]
    exact Moves.insert rows hphase hguard.1 hguard.2.1 (by simpa using hguard.2.2)
  · rw [if_neg hguard] at h
    exact absurd h (by simp)

theorem claimMove_moves {w : World V} {worker : Worker V} (hphase : worker.phase = .enqueued)
    {now : Instant} {skipped tokens : List Uuid} {moved : Moved V}
    (h : claimMove w worker.config now skipped tokens = some moved) :
    Moves rt vectors w worker (.claim now skipped tokens) moved := by
  simp only [claimMove] at h
  by_cases hguard : tokens.length = (picked w worker.config now skipped).length ∧ tokens.Nodup ∧
      tokens.all (fun t => !w.issued.contains t)
  · rw [if_pos hguard] at h
    by_cases hempty : picked w worker.config now skipped = []
    · rw [if_pos hempty] at h
      rw [← Option.some.inj h]
      exact Moves.rest hphase hempty
    · rw [if_neg hempty] at h
      rw [← Option.some.inj h]
      exact Moves.claim hphase hguard.1 hguard.2.1 (by simpa using hguard.2.2)
  · rw [if_neg hguard] at h
    exact absurd h (by simp)

theorem moveWorker_moves {w : World V} {worker : Worker V} {move : Move} {moved : Moved V}
    (h : moveWorker rt vectors w worker move = some moved) :
    Moves rt vectors w worker move moved := by
  cases move with
  | select =>
    cases hphase : worker.phase with
    | idle =>
      simp only [moveWorker, hphase, Option.some.injEq] at h
      exact h ▸ Moves.select hphase
    | _ => simp [moveWorker, hphase] at h
  | insert now ids =>
    cases hphase : worker.phase with
    | found rows =>
      simp only [moveWorker, hphase] at h
      exact insertMove_moves rt vectors hphase h
    | _ => simp [moveWorker, hphase] at h
  | claim now skipped tokens =>
    cases hphase : worker.phase with
    | enqueued =>
      simp only [moveWorker, hphase] at h
      exact claimMove_moves rt vectors hphase h
    | _ => simp [moveWorker, hphase] at h
  | load =>
    cases hphase : worker.phase with
    | claimed jobs =>
      simp only [moveWorker, hphase, Option.some.injEq] at h
      exact h ▸ Moves.load jobs hphase
    | _ => simp [moveWorker, hphase] at h
  | lookup org =>
    cases hphase : worker.phase with
    | looking items orgs cache =>
      simp only [moveWorker, hphase] at h
      by_cases horg : org ∈ orgs
      · rw [if_pos horg, Option.some.injEq] at h
        exact h ▸ Moves.lookup items orgs cache hphase
      · rw [if_neg horg] at h
        exact absurd h (by simp)
    | _ => simp [moveWorker, hphase] at h
  | send =>
    cases hphase : worker.phase with
    | embedding items cache rest fresh =>
      cases rest with
      | nil => simp [moveWorker, hphase] at h
      | cons text rest =>
        simp only [moveWorker, hphase, Option.some.injEq] at h
        exact h ▸ Moves.send items cache _ fresh hphase
    | _ => simp [moveWorker, hphase] at h
  | refuse error =>
    cases hphase : worker.phase with
    | embedding items cache rest fresh =>
      cases rest with
      | nil => simp [moveWorker, hphase] at h
      | cons text rest =>
        simp only [moveWorker, hphase, Option.some.injEq] at h
        exact h ▸ Moves.refuse items cache _ fresh hphase
    | _ => simp [moveWorker, hphase] at h
  | finish =>
    cases hphase : worker.phase with
    | embedding items cache rest fresh =>
      cases rest with
      | nil =>
        simp only [moveWorker, hphase, Option.some.injEq] at h
        exact h ▸ Moves.finish items cache fresh hphase
      | cons text rest => simp [moveWorker, hphase] at h
    | _ => simp [moveWorker, hphase] at h
  | recordFailure now =>
    cases hphase : worker.phase with
    | failing jobs error =>
      simp only [moveWorker, hphase, Option.some.injEq] at h
      exact h ▸ Moves.recordFailure jobs error hphase
    | _ => simp [moveWorker, hphase] at h
  | crash =>
    simp only [moveWorker, Option.some.injEq] at h
    exact h ▸ Moves.crash

theorem finishMove_effect {w : World V} {worker : Worker V} {items : List Item} {cache : Cache V}
    {fresh : List (String × V)} (hphase : worker.phase = .embedding items cache [] fresh) :
    Effect rt vectors w worker .finish
      (finishMove rt vectors w worker.config items cache fresh) := by
  unfold finishMove
  cases hentries : items.mapM fun item =>
      (vectorFor rt cache fresh item).map fun v => (item, v) with
  | none => exact Effect.quiet _ rfl (by simp [Phase.jobs])
  | some entries =>
    have hfst := (mapM_tagged (vectorFor_tagged rt cache fresh) hentries).1
    refine Effect.completed entries ?_
    rw [hphase, Phase.jobs, ← hfst, List.map_map]
    rfl

/-- Every move has one of the effects, whatever the phase of the worker. -/
theorem Moves.effect {w : World V} {worker : Worker V} {move : Move} {moved : Moved V}
    (h : Moves rt vectors w worker move moved) : Effect rt vectors w worker move moved := by
  cases h with
  | select => exact Effect.quiet _ rfl (by simp [Phase.jobs])
  | insert rows hphase hlength hnodup hfresh =>
    exact Effect.inserted rows hphase hlength hnodup hfresh
  | rest hphase hnone => exact Effect.quiet _ hnone (by simp [Phase.jobs])
  | claim hphase hlength hnodup hfresh => exact Effect.leased hlength hnodup hfresh
  | load jobs hphase =>
    refine Effect.quiet _ rfl fun job hjob => ?_
    rw [hphase]
    exact loadPhase_jobs w jobs job hjob
  | lookup items orgs cache hphase =>
    refine Effect.quiet _ rfl fun job hjob => ?_
    rw [lookupPhase_jobs] at hjob
    rw [hphase]
    exact hjob
  | send items cache rest fresh hphase =>
    refine Effect.quiet _ rfl fun job hjob => ?_
    rw [hphase]
    exact hjob
  | refuse items cache rest fresh hphase =>
    refine Effect.quiet _ rfl fun job hjob => ?_
    rw [hphase]
    exact hjob
  | finish items cache fresh hphase => exact finishMove_effect rt vectors hphase
  | recordFailure jobs error hphase =>
    obtain rfl : jobs = worker.phase.jobs := by rw [hphase, Phase.jobs]
    exact Effect.returned error
  | crash => exact Effect.quiet _ rfl (by simp [Phase.jobs])

/-- The worker holds the current lease of the job. -/
def Holds (worker : Worker V) (j : EmbeddingJob) : Prop :=
  ∃ job ∈ worker.phase.jobs, Matches job j

/-- The row of a job after a move of the worker. -/
inductive Becomes (w : World V) (worker : Worker V) (moved : Moved V) :
    Move → EmbeddingJob → EmbeddingJob → Prop where
  | same {move : Move} {j : EmbeddingJob} (hnot : j ∉ leasing w worker move) :
      Becomes w worker moved move j j
  | leased {now : Instant} {skipped tokens : List Uuid} {j : EmbeddingJob} {token : Uuid}
      (hpicked : j ∈ picked w worker.config now skipped) (hfresh : token ∉ w.issued)
      (htoken : token ∈ moved.issued) :
      Becomes w worker moved (.claim now skipped tokens) j (j.lease now token)
  | completed {j : EmbeddingJob} (hholds : Holds worker j)
      (hstored : jobKey j ∈ moved.embeddings.map embeddingKey) :
      Becomes w worker moved .finish j j.succeed
  | returned {now : Instant} {j : EmbeddingJob} {error : String} {retryAt : Option Instant}
      (hholds : Holds worker j)
      (hretry : retryAt.isSome = true → ∃ job ∈ worker.phase.jobs, Matches job j ∧
        job.attempts < worker.config.maxAttempts) :
      Becomes w worker moved (.recordFailure now) j (j.giveBack error retryAt)

/-- The work that a lease in hand stands for. -/
structure InHand (c : EmbeddingWorker) (job : ClaimedJob) (j : EmbeddingJob) : Prop where
  id : j.id = job.jobId
  organizationId : j.organizationId = job.organizationId
  factVersionId : j.factVersionId = job.factVersionId
  model : j.model = c.model

/-- No lease is in the hands of both workers. -/
def LeasesApart (p q : Worker V) : Prop :=
  ∀ job ∈ p.phase.jobs, ∀ other ∈ q.phase.jobs, job.leaseToken ≠ other.leaseToken

/-- What every step keeps of the queue and its workers. -/
structure Orderly (w : World V) : Prop where
  ids : (w.jobs.map EmbeddingJob.id).Nodup
  keys : (w.jobs.map jobKey).Nodup
  embeddingKeys : (w.embeddings.map embeddingKey).Nodup
  lease_iff : ∀ j ∈ w.jobs, j.leaseToken.isSome = true ↔ j.status = .running
  issued : ∀ j ∈ w.jobs, ∀ token, j.leaseToken = some token → token ∈ w.issued
  stored : ∀ j ∈ w.jobs, j.status = .succeeded → jobKey j ∈ w.embeddings.map embeddingKey
  tokens : ∀ worker ∈ w.workers, ∀ job ∈ worker.phase.jobs, job.leaseToken ∈ w.issued
  inHand : ∀ worker ∈ w.workers, ∀ job ∈ worker.phase.jobs,
    ∃ j ∈ w.jobs, InHand worker.config job j
  apart : Apart LeasesApart w.workers

theorem Orderly.eq_of_id {w : World V} (hw : Orderly w) {j j' : EmbeddingJob} (hj : j ∈ w.jobs)
    (hj' : j' ∈ w.jobs) (h : j.id = j'.id) : j = j' :=
  List.inj_on_of_nodup_map hw.ids hj hj' h

theorem Becomes.sameWork {w : World V} {worker : Worker V} {moved : Moved V} {move : Move}
    {j j' : EmbeddingJob} (h : Becomes w worker moved move j j') : SameWork j j' := by
  cases h with
  | same => exact ⟨rfl, rfl, rfl, rfl⟩
  | leased => exact ⟨rfl, rfl, rfl, rfl⟩
  | completed => exact ⟨rfl, rfl, rfl, rfl⟩
  | returned => exact ⟨rfl, rfl, rfl, rfl⟩

theorem mem_picked {w : World V} {c : EmbeddingWorker} {now : Instant} {skipped : List Uuid}
    {j : EmbeddingJob} (h : j ∈ picked w c now skipped) : j ∈ w.jobs ∧ due c now j = true := by
  unfold picked at h
  have hmem := List.mem_filter.mp ((List.mem_insertionSort JobLe).mp (List.mem_of_mem_take h))
  exact ⟨hmem.1, ((Bool.and_eq_true _ _).mp hmem.2).1⟩

theorem due_model {c : EmbeddingWorker} {now : Instant} {j : EmbeddingJob}
    (h : due c now j = true) : j.model = c.model := by
  simp only [due, Bool.and_eq_true, beq_iff_eq] at h
  exact h.1.1.1

/-- A job that is due waits, or is leased and the lease has expired. -/
theorem due_status {c : EmbeddingWorker} {now : Instant} {j : EmbeddingJob}
    (h : due c now j = true) : j.status = .pending ∨
      (j.status = .running ∧ ∃ since, j.lockedAt = some since ∧ since < now - c.lease) := by
  simp only [due, Bool.and_eq_true, Bool.or_eq_true, beq_iff_eq, Option.any_eq_true,
    decide_eq_true_eq] at h
  exact h.1.2

/-- The table of jobs after a batch is leased. -/
theorem becomes_claim {w : World V} (hw : Orderly w) {worker : Worker V} {now : Instant}
    {skipped tokens : List Uuid}
    (hlength : tokens.length = (picked w worker.config now skipped).length)
    (hfresh : ∀ t ∈ tokens, t ∉ w.issued) {moved : Moved V}
    (htokens : ∀ t ∈ tokens, t ∈ moved.issued) {j : EmbeddingJob} (hj : j ∈ w.jobs) :
    Becomes w worker moved (.claim now skipped tokens) j
      (((((picked w worker.config now skipped).map EmbeddingJob.id).zip tokens).lookup j.id).elim j
        (j.lease now)) := by
  cases hlookup : (((picked w worker.config now skipped).map EmbeddingJob.id).zip
      tokens).lookup j.id with
  | none =>
    refine Becomes.same fun hpicked => ?_
    have hkeys := List.lookup_eq_none_iff.mp hlookup
    obtain ⟨token, htoken⟩ : ∃ token, (j.id, token) ∈
        ((picked w worker.config now skipped).map EmbeddingJob.id).zip tokens := by
      have hfst : (((picked w worker.config now skipped).map EmbeddingJob.id).zip tokens).map
          Prod.fst = (picked w worker.config now skipped).map EmbeddingJob.id :=
        List.map_fst_zip (by rw [List.length_map, hlength])
      have hid : j.id ∈ ((picked w worker.config now skipped).map EmbeddingJob.id) :=
        List.mem_map_of_mem hpicked
      rw [← hfst] at hid
      obtain ⟨entry, hentry, heq⟩ := List.mem_map.mp hid
      exact ⟨entry.2, heq ▸ hentry⟩
    exact absurd (hkeys _ htoken) (by simp)
  | some token =>
    obtain ⟨before, after, heq, -⟩ := List.lookup_eq_some_iff.mp hlookup
    have hmem : (j.id, token) ∈ ((picked w worker.config now skipped).map EmbeddingJob.id).zip
        tokens := by
      rw [heq]
      exact List.mem_append_right _ List.mem_cons_self
    obtain ⟨hid, htoken⟩ := List.of_mem_zip hmem
    obtain ⟨j', hj', hid'⟩ := List.mem_map.mp hid
    obtain rfl : j' = j := hw.eq_of_id (mem_picked hj').1 hj hid'
    exact Becomes.leased hj' (hfresh token htoken) (htokens token htoken)

/-- The two tables are written side by side. -/
theorem foldl_writeJob (c : EmbeddingWorker) (entries : List (Item × V))
    (jobs : List EmbeddingJob) (embeddings : List (FactEmbedding V)) :
    entries.foldl (writeJob rt vectors c) (jobs, embeddings) =
      ((entries.map fun entry => entry.1.1).foldl complete jobs,
        (entries.map fun entry => (entry.1.1, entry.2, documentHash rt entry.1.2)).foldl
          (fun es e => saveEmbedding vectors c.model es e.1 e.2.1 e.2.2) embeddings) := by
  induction entries generalizing jobs embeddings with
  | nil => rfl
  | cons entry entries ih =>
    rw [List.foldl_cons, writeJob, ih]
    rfl

/-- A row whose lease the worker holds is written by the fold, any other one is kept. -/
theorem find?_matches (worker : Worker V) (j : EmbeddingJob) :
    (worker.phase.jobs.find? fun job => decide (Matches job j)) = none ∨
      ∃ job ∈ worker.phase.jobs, Matches job j ∧
        (worker.phase.jobs.find? fun job => decide (Matches job j)) = some job := by
  cases hfind : worker.phase.jobs.find? fun job => decide (Matches job j) with
  | none => exact Or.inl rfl
  | some job =>
    exact Or.inr ⟨job, List.mem_of_find?_eq_some hfind,
      by simpa using List.find?_some hfind, rfl⟩

/-- Leases that are ended write the rows whose current lease is in hand. -/
theorem becomes_ended {w : World V} {worker : Worker V} {moved : Moved V} {move : Move}
    {f : ClaimedJob → EmbeddingJob → EmbeddingJob} {j : EmbeddingJob}
    (hnone : leasing w worker move = [])
    (hf : ∀ job ∈ worker.phase.jobs, Matches job j → Becomes w worker moved move j (f job j)) :
    Becomes w worker moved move j
      ((worker.phase.jobs.find? fun job => decide (Matches job j)).elim j fun job => f job j) := by
  rcases find?_matches worker j with hkept | ⟨job, hjob, hmatch, hsome⟩
  · rw [hkept]
    exact Becomes.same (by simp [hnone])
  · rw [hsome]
    exact hf job hjob hmatch

/-- What a move adds to the table of jobs. -/
structure Added (w : World V) (worker : Worker V) (new : List EmbeddingJob) : Prop where
  pending : ∀ j ∈ new, j.status = .pending ∧ j.leaseToken = none ∧ j.attempts = 0
  found : ∀ j ∈ new, ∃ rows, worker.phase = .found rows ∧
    (j.organizationId, j.factVersionId) ∈ rows
  ids : ((w.jobs ++ new).map EmbeddingJob.id).Nodup
  keys : ((w.jobs ++ new).map jobKey).Nodup

theorem Orderly.added_nil {w : World V} (hw : Orderly w) (worker : Worker V) :
    Added w worker [] :=
  ⟨by simp, by simp, by simpa using hw.ids, by simpa using hw.keys⟩

theorem added_of_insert {w : World V} (hw : Orderly w) {worker : Worker V}
    {rows : List (Uuid × Uuid)} (hrows : worker.phase = .found rows) (now : Instant)
    {ids : List Uuid} (hlength : ids.length = rows.length) (hnodup : ids.Nodup)
    (hfresh : ∀ id ∈ ids, ∀ j ∈ w.jobs, j.id ≠ id) :
    ∃ new, (rows.zip ids).foldl (insertJob worker.config.model now) w.jobs = w.jobs ++ new ∧
      Added w worker new := by
  obtain ⟨new, heq, hids, hnew, hkeys⟩ :=
    foldl_insertJob worker.config.model now (rows.zip ids) w.jobs
  rw [List.map_snd_zip (le_of_eq hlength)] at hids
  refine ⟨new, heq, fun j hj => (hnew j hj).1, fun j hj => ?_, ?_, hkeys hw.keys⟩
  · obtain ⟨-, row, hrow, hpair⟩ := hnew j hj
    exact ⟨rows, hrows, hpair ▸ (List.of_mem_zip hrow).1⟩
  · rw [List.map_append, List.nodup_append]
    refine ⟨hw.ids, hids.nodup hnodup, ?_⟩
    rintro a ha b hb rfl
    obtain ⟨j, hj, hid⟩ := List.mem_map.mp ha
    exact hfresh a (hids.subset hb) j hj hid

/-- The table of jobs after a move: every old row with what became of it, then new rows. -/
theorem effect_jobs {w : World V} (hw : Orderly w) {worker : Worker V} (hworker : worker ∈ w.workers)
    {move : Move} {moved : Moved V} (h : Effect rt vectors w worker move moved) :
    ∃ (f : EmbeddingJob → EmbeddingJob) (new : List EmbeddingJob),
      moved.jobs = w.jobs.map f ++ new ∧
        (∀ j ∈ w.jobs, Becomes w worker moved move j (f j)) ∧ Added w worker new := by
  cases h with
  | quiet phase hnone =>
    exact ⟨id, [], by simp [Moved.only], fun j _ => Becomes.same (by simp [hnone]),
      hw.added_nil worker⟩
  | inserted rows hrows hlength hnodup hfresh =>
    obtain ⟨new, heq, hadded⟩ := added_of_insert hw hrows _ hlength hnodup hfresh
    exact ⟨id, new, by rw [heq, List.map_id], fun j _ => Becomes.same (by simp [leasing]), hadded⟩
  | leased hlength hnodup hfresh =>
    refine ⟨_, [], (List.append_nil _).symm, fun j hj => ?_, hw.added_nil worker⟩
    exact becomes_claim hw hlength hfresh (fun t ht => List.mem_append_right _ ht) hj
  | completed entries hentries =>
    rw [foldl_writeJob]
    dsimp only
    rw [hentries]
    refine ⟨_, [], ((foldl_updateLeased (fun _ _ => rfl) worker.phase.jobs w.jobs).trans
      (List.append_nil _).symm), fun j hj => becomes_ended rfl fun job hjob hmatch => ?_,
      hw.added_nil worker⟩
    obtain ⟨j', hj', hhand⟩ := hw.inHand worker hworker job hjob
    obtain rfl : j' = j := hw.eq_of_id hj' hj (hhand.id.trans hmatch.1.symm)
    refine Becomes.completed ⟨job, hjob, hmatch⟩ ?_
    obtain ⟨new, heq, -, hall, -⟩ := foldl_saveEmbedding vectors worker.config.model
      (entries.map fun entry => (entry.1.1, entry.2, documentHash rt entry.1.2)) w.embeddings
    rw [heq, jobKey, hhand.factVersionId, hhand.model]
    rw [← hentries] at hjob
    obtain ⟨entry, hentry, rfl⟩ := List.mem_map.mp hjob
    exact hall _ (List.mem_map_of_mem hentry)
  | returned error =>
    refine ⟨_, [], ((foldl_updateLeased (fun _ _ => rfl) worker.phase.jobs w.jobs).trans
      (List.append_nil _).symm), fun j _ => becomes_ended rfl fun job hjob hmatch => ?_,
      hw.added_nil worker⟩
    refine Becomes.returned ⟨job, hjob, hmatch⟩ fun hretry => ⟨job, hjob, hmatch, ?_⟩
    by_contra hused
    rw [if_pos (not_lt.mp hused)] at hretry
    exact absurd hretry (by simp)

/-- The stored vectors after a move. -/
theorem effect_embeddings {w : World V} (hw : Orderly w) {worker : Worker V} {move : Move}
    {moved : Moved V} (h : Effect rt vectors w worker move moved) :
    ∃ new, moved.embeddings = w.embeddings ++ new ∧
      ((w.embeddings ++ new).map embeddingKey).Nodup := by
  cases h with
  | completed entries hentries =>
    obtain ⟨new, heq, -, -, hkeys⟩ := foldl_saveEmbedding vectors worker.config.model
      (entries.map fun entry => (entry.1.1, entry.2, documentHash rt entry.1.2)) w.embeddings
    refine ⟨new, ?_, hkeys hw.embeddingKeys⟩
    rw [foldl_writeJob]
    exact heq
  | _ => exact ⟨[], (List.append_nil _).symm, by simpa using hw.embeddingKeys⟩

theorem effect_issued {w : World V} {worker : Worker V} {move : Move} {moved : Moved V}
    (h : Effect rt vectors w worker move moved) : ∀ t ∈ w.issued, t ∈ moved.issued := by
  intro t ht
  cases h with
  | leased => exact List.mem_append_left _ ht
  | _ => exact ht

/-- A lease in hand after a move was in hand before, or was drawn by the move. -/
theorem effect_phase {w : World V} {worker : Worker V} {move : Move} {moved : Moved V}
    (h : Effect rt vectors w worker move moved) : ∀ job ∈ moved.phase.jobs,
      job ∈ worker.phase.jobs ∨ (job.leaseToken ∉ w.issued ∧ job.leaseToken ∈ moved.issued ∧
        ∃ j ∈ w.jobs, InHand worker.config job j ∧ job.attempts = j.attempts + 1) := by
  intro job hjob
  cases h with
  | quiet phase hnone hjobs => exact Or.inl (hjobs job hjob)
  | inserted => exact absurd hjob List.not_mem_nil
  | leased hlength hnodup hfresh =>
    obtain ⟨entry, hentry, rfl⟩ := List.mem_map.mp hjob
    obtain ⟨hpicked, htoken⟩ := List.of_mem_zip hentry
    obtain ⟨hj, hdue⟩ := mem_picked hpicked
    exact Or.inr ⟨hfresh _ htoken, List.mem_append_right _ htoken, entry.1, hj,
      ⟨rfl, rfl, rfl, due_model hdue⟩, rfl⟩
  | completed => exact absurd hjob List.not_mem_nil
  | returned => exact absurd hjob List.not_mem_nil

theorem Becomes.lease_iff {w : World V} {worker : Worker V} {moved : Moved V} {move : Move}
    {j j' : EmbeddingJob} (h : Becomes w worker moved move j j')
    (hj : j.leaseToken.isSome = true ↔ j.status = .running) :
    j'.leaseToken.isSome = true ↔ j'.status = .running := by
  cases h with
  | same => exact hj
  | leased => simp [EmbeddingJob.lease]
  | completed => simp [EmbeddingJob.succeed]
  | returned =>
    simp only [EmbeddingJob.giveBack]
    split <;> simp

theorem Becomes.issued {w : World V} {worker : Worker V} {moved : Moved V} {move : Move}
    {j j' : EmbeddingJob} (h : Becomes w worker moved move j j')
    (hj : ∀ token, j.leaseToken = some token → token ∈ moved.issued) :
    ∀ token, j'.leaseToken = some token → token ∈ moved.issued := by
  intro token heq
  cases h with
  | same => exact hj token heq
  | leased hpicked hfresh htoken => exact Option.some.inj heq ▸ htoken
  | completed => exact absurd heq (by simp [EmbeddingJob.succeed])
  | returned => exact absurd heq (by simp [EmbeddingJob.giveBack])

theorem Becomes.stored {w : World V} {worker : Worker V} {moved : Moved V} {move : Move}
    {j j' : EmbeddingJob} (h : Becomes w worker moved move j j')
    (hj : j.status = .succeeded → jobKey j ∈ moved.embeddings.map embeddingKey) :
    j'.status = .succeeded → jobKey j' ∈ moved.embeddings.map embeddingKey := by
  intro hstatus
  cases h with
  | same => exact hj hstatus
  | leased => exact absurd hstatus (by simp [EmbeddingJob.lease])
  | completed hholds hstored => exact hstored
  | @returned now j error retryAt hholds =>
    refine absurd hstatus ?_
    simp only [EmbeddingJob.giveBack]
    split <;> simp

theorem LeasesApart.symm {p q : Worker V} (h : LeasesApart p q) : LeasesApart q p :=
  fun job hjob other hother heq => h other hother job hjob heq.symm

/-- A job of the table after a move is an old one, with what became of it, or a new one. -/
theorem becomes_or_new {w : World V} {worker : Worker V} {move : Move} {moved : Moved V}
    {f : EmbeddingJob → EmbeddingJob} {new : List EmbeddingJob}
    (hjobs : moved.jobs = w.jobs.map f ++ new)
    (hbecomes : ∀ j ∈ w.jobs, Becomes w worker moved move j (f j)) {j' : EmbeddingJob}
    (hj' : j' ∈ moved.jobs) : (∃ j ∈ w.jobs, Becomes w worker moved move j j') ∨ j' ∈ new := by
  rw [hjobs] at hj'
  rcases List.mem_append.mp hj' with hold | hnew
  · obtain ⟨j, hj, rfl⟩ := List.mem_map.mp hold
    exact Or.inl ⟨j, hj, hbecomes j hj⟩
  · exact Or.inr hnew

/-- A move keeps the queue in order. -/
theorem orderly_withMove {w : World V} (hw : Orderly w) {i : ℕ} {worker : Worker V}
    (hi : w.workers[i]? = some worker) {move : Move} {moved : Moved V}
    (h : Effect rt vectors w worker move moved) : Orderly (w.withMove i worker moved) := by
  have hworker := List.mem_of_getElem? hi
  obtain ⟨f, new, hjobs, hbecomes, hadded⟩ := effect_jobs rt vectors hw hworker h
  obtain ⟨rows, hembeddings, hkeys⟩ := effect_embeddings rt vectors hw h
  have hissued := effect_issued rt vectors h
  have hphase := effect_phase rt vectors h
  rw [← hembeddings] at hkeys
  have hmem : ∀ j' ∈ moved.jobs, (∃ j ∈ w.jobs, Becomes w worker moved move j j') ∨ j' ∈ new :=
    fun j' hj' => becomes_or_new hjobs hbecomes hj'
  have hstays : ∀ j ∈ w.jobs, ∃ j' ∈ moved.jobs, SameWork j j' := fun j hj =>
    ⟨f j, hjobs ▸ List.mem_append_left _ (List.mem_map_of_mem hj), (hbecomes j hj).sameWork⟩
  have hgrows : ∀ key ∈ w.embeddings.map embeddingKey,
      key ∈ moved.embeddings.map embeddingKey := by
    intro key hkey
    rw [hembeddings, List.map_append]
    exact List.mem_append_left _ hkey
  refine ⟨?_, ?_, hkeys, fun j' hj' => ?_, fun j' hj' => ?_, fun j' hj' => ?_,
    fun p hp job hjob => ?_, fun p hp job hjob => ?_, ?_⟩
  · show (moved.jobs.map EmbeddingJob.id).Nodup
    have hsame : (w.jobs.map f).map EmbeddingJob.id = w.jobs.map EmbeddingJob.id := by
      rw [List.map_map]
      exact List.map_congr_left fun j hj => (hbecomes j hj).sameWork.id
    rw [hjobs, List.map_append, hsame, ← List.map_append]
    exact hadded.ids
  · show (moved.jobs.map jobKey).Nodup
    have hsame : (w.jobs.map f).map jobKey = w.jobs.map jobKey := by
      rw [List.map_map]
      exact List.map_congr_left fun j hj => Prod.ext (hbecomes j hj).sameWork.factVersionId
        (hbecomes j hj).sameWork.model
    rw [hjobs, List.map_append, hsame, ← List.map_append]
    exact hadded.keys
  · rcases hmem j' hj' with ⟨j, hj, hb⟩ | hnew
    · exact hb.lease_iff (hw.lease_iff j hj)
    · obtain ⟨hstatus, htoken, -⟩ := hadded.pending j' hnew
      simp [hstatus, htoken]
  · rcases hmem j' hj' with ⟨j, hj, hb⟩ | hnew
    · exact hb.issued fun token heq => hissued token (hw.issued j hj token heq)
    · intro token heq
      rw [(hadded.pending j' hnew).2.1] at heq
      exact absurd heq (by simp)
  · rcases hmem j' hj' with ⟨j, hj, hb⟩ | hnew
    · exact hb.stored fun hstatus => hgrows _ (hw.stored j hj hstatus)
    · intro hstatus
      rw [(hadded.pending j' hnew).1] at hstatus
      exact absurd hstatus (by simp)
  · show job.leaseToken ∈ moved.issued
    rcases mem_set_cases hp with rfl | ⟨k, -, hk⟩
    · rcases hphase job hjob with hold | ⟨-, htoken, -⟩
      · exact hissued _ (hw.tokens worker hworker job hold)
      · exact htoken
    · exact hissued _ (hw.tokens p (List.mem_of_getElem? hk) job hjob)
  · have hfound : ∃ j ∈ w.jobs, InHand p.config job j := by
      rcases mem_set_cases hp with rfl | ⟨k, -, hk⟩
      · rcases hphase job hjob with hold | ⟨-, -, j, hj, hhand, -⟩
        · exact hw.inHand worker hworker job hold
        · exact ⟨j, hj, hhand⟩
      · exact hw.inHand p (List.mem_of_getElem? hk) job hjob
    obtain ⟨j, hj, hhand⟩ := hfound
    obtain ⟨j', hj', hsame⟩ := hstays j hj
    exact ⟨j', hj', hsame.id.trans hhand.id, hsame.organizationId.trans hhand.organizationId,
      hsame.factVersionId.trans hhand.factVersionId, hsame.model.trans hhand.model⟩
  · refine hw.apart.set (fun p q => LeasesApart.symm) fun k q hk hik job hjob other hother => ?_
    rcases hphase job hjob with hold | ⟨hfresh, -⟩
    · exact hw.apart i k worker q hi hk hik job hold other hother
    · rintro heq
      exact hfresh (heq ▸ hw.tokens q (List.mem_of_getElem? hk) other hother)

theorem orderly_start {w : World V} (h : Start w) : Orderly w where
  ids := by simp [h.jobs]
  keys := by simp [h.jobs]
  embeddingKeys := by simp [h.embeddings]
  lease_iff := by simp [h.jobs]
  issued := by simp [h.jobs]
  stored := by simp [h.jobs]
  tokens := by simp [h.workers]
  inHand := by simp [h.workers]
  apart := by simpa [h.workers] using apart_nil LeasesApart

theorem orderly_hire {w : World V} (hw : Orderly w) (c : EmbeddingWorker) :
    Orderly { w with workers := w.workers ++ [⟨c, .idle⟩] } := by
  refine ⟨hw.ids, hw.keys, hw.embeddingKeys, hw.lease_iff, hw.issued, hw.stored,
    fun p hp job hjob => ?_, fun p hp job hjob => ?_, ?_⟩
  · rcases List.mem_append.mp hp with hp | hp
    · exact hw.tokens p hp job hjob
    · obtain rfl := List.mem_singleton.mp hp
      exact absurd hjob List.not_mem_nil
  · rcases List.mem_append.mp hp with hp | hp
    · exact hw.inHand p hp job hjob
    · obtain rfl := List.mem_singleton.mp hp
      exact absurd hjob List.not_mem_nil
  · exact hw.apart.append (fun p q => LeasesApart.symm) fun q _ job hjob =>
      absurd hjob List.not_mem_nil

/-- Every step is the hiring of a worker, a move, a write of a version or the passing of
time. -/
theorem step_cases {w w' : World V} {a : Action} (h : step rt vectors w a = some w') :
    (∃ c, a = .hire c ∧ w' = { w with workers := w.workers ++ [⟨c, .idle⟩] }) ∨
      (∃ i worker move moved, a = .move i move ∧ w.workers[i]? = some worker ∧
        move.begun w.now = true ∧ Moves rt vectors w worker move moved ∧
          w' = w.withMove i worker moved) ∨
      (∃ write, a = .record write ∧ accepted w.db write = true ∧
        w' = { w with db := write.apply w.db }) ∨
      ∃ now, a = .tick now ∧ w' = { w with now } := by
  cases a with
  | hire c => exact Or.inl ⟨c, rfl, (Option.some.inj h).symm⟩
  | move i move =>
    refine Or.inr (Or.inl ?_)
    simp only [step] at h
    cases hi : w.workers[i]? with
    | none => simp [hi] at h
    | some worker =>
      simp only [hi] at h
      by_cases hbegun : move.begun w.now = true
      · rw [if_pos hbegun] at h
        obtain ⟨moved, hmoved, heq⟩ := Option.map_eq_some_iff.mp h
        exact ⟨i, worker, move, moved, rfl, hi, hbegun, moveWorker_moves rt vectors hmoved, heq.symm⟩
      · rw [if_neg hbegun] at h
        exact absurd h (by simp)
  | record write =>
    refine Or.inr (Or.inr (Or.inl ?_))
    simp only [step] at h
    by_cases haccepted : accepted w.db write = true
    · rw [if_pos haccepted] at h
      exact ⟨write, rfl, haccepted, (Option.some.inj h).symm⟩
    · rw [if_neg haccepted] at h
      exact absurd h (by simp)
  | tick now =>
    refine Or.inr (Or.inr (Or.inr ?_))
    simp only [step] at h
    by_cases hnow : w.now ≤ now
    · rw [if_pos hnow] at h
      exact ⟨now, rfl, (Option.some.inj h).symm⟩
    · rw [if_neg hnow] at h
      exact absurd h (by simp)

theorem orderly_step {w w' : World V} {a : Action} (hw : Orderly w)
    (h : step rt vectors w a = some w') : Orderly w' := by
  rcases step_cases rt vectors h with ⟨c, -, rfl⟩ | ⟨i, worker, move, moved, -, hi, -, hmoved, rfl⟩ |
    ⟨write, -, -, rfl⟩ | ⟨now, -, rfl⟩
  · exact orderly_hire hw c
  · exact orderly_withMove rt vectors hw hi (hmoved.effect rt vectors)
  · exact { hw with }
  · exact { hw with }

theorem orderly_reachable {w : World V} (h : (system rt vectors).Reachable w) : Orderly w :=
  (system rt vectors).reachable_invariant Orderly (fun _ => orderly_start)
    (fun _ _ _ hw hstep => orderly_step rt vectors hw hstep) h

/-- The state of the queue that no schedule leaves. -/
structure QueueSafe (w : World V) : Prop where
  lease_iff : ∀ j ∈ w.jobs, j.leaseToken.isSome = true ↔ j.status = .running
  stored : ∀ j ∈ w.jobs, j.status = .succeeded →
    ∃ e ∈ w.embeddings, e.factVersionId = j.factVersionId ∧ e.model = j.model
  oneJob : (w.jobs.map fun j => (j.factVersionId, j.model)).Nodup
  oneEmbedding : (w.embeddings.map fun e => (e.factVersionId, e.model)).Nodup
  oneHolder : ∀ j ∈ w.jobs, ∀ (i k : ℕ) (p q : Worker V), w.workers[i]? = some p →
    w.workers[k]? = some q →
    Holds p j → Holds q j → i = k

/-- The step is the end of the job's lease by the worker that holds it. -/
def EndedByHolder (w : World V) (a : Action) (j : EmbeddingJob) (w' : World V) : Prop :=
  ∃ i worker, w.workers[i]? = some worker ∧ Holds worker j ∧
    ((a = .move i .finish ∧ j.succeed ∈ w'.jobs) ∨
      ∃ now error retryAt, a = .move i (.recordFailure now) ∧ j.giveBack error retryAt ∈ w'.jobs)

/-- The step leases the job anew, under a token never drawn before, after its lease expired. -/
def TakenOver (w : World V) (a : Action) (j : EmbeddingJob) (w' : World V) : Prop :=
  ∃ i worker now skipped tokens since token, w.workers[i]? = some worker ∧
    a = .move i (.claim now skipped tokens) ∧ now ≤ w.now ∧ j.lockedAt = some since ∧
    since < now - worker.config.lease ∧ token ∉ w.issued ∧ j.lease now token ∈ w'.jobs

theorem Orderly.oneHolder {w : World V} (hw : Orderly w) {j : EmbeddingJob} {i k : ℕ}
    {p q : Worker V} (hi : w.workers[i]? = some p) (hk : w.workers[k]? = some q)
    (hp : Holds p j) (hq : Holds q j) : i = k := by
  by_contra hik
  obtain ⟨job, hjob, -, htoken⟩ := hp
  obtain ⟨other, hother, -, htoken'⟩ := hq
  exact hw.apart i k p q hi hk hik job hjob other hother
    (Option.some.inj (htoken.symm.trans htoken'))

theorem Orderly.queueSafe {w : World V} (hw : Orderly w) : QueueSafe w where
  lease_iff := hw.lease_iff
  stored := by
    intro j hj hstatus
    obtain ⟨e, he, hkey⟩ := List.mem_map.mp (hw.stored j hj hstatus)
    exact ⟨e, he, congrArg Prod.fst hkey, congrArg Prod.snd hkey⟩
  oneJob := hw.keys
  oneEmbedding := hw.embeddingKeys
  oneHolder := fun _ _ _ _ _ _ hi hk hp hq => hw.oneHolder hi hk hp hq

theorem Orderly.running_of_holds {w : World V} (hw : Orderly w) {j : EmbeddingJob} (hj : j ∈ w.jobs)
    {worker : Worker V} (h : Holds worker j) : j.status = .running := by
  obtain ⟨job, -, -, htoken⟩ := h
  exact (hw.lease_iff j hj).mp (by rw [htoken]; rfl)

/-- What became of a row in one step of the whole system. -/
theorem step_becomes {w w' : World V} {a : Action} (hw : Orderly w)
    (h : step rt vectors w a = some w') {j : EmbeddingJob} (hj : j ∈ w.jobs) :
    j ∈ w'.jobs ∨ ∃ i worker move moved j', a = .move i move ∧ w.workers[i]? = some worker ∧
      move.begun w.now = true ∧ Becomes w worker moved move j j' ∧ j' ∈ w'.jobs := by
  rcases step_cases rt vectors h with ⟨c, -, rfl⟩ |
    ⟨i, worker, move, moved, ha, hi, hbegun, hmoved, rfl⟩ | ⟨write, -, -, rfl⟩ | ⟨now, -, rfl⟩
  · exact Or.inl hj
  · obtain ⟨f, new, hjobs, hbecomes, -⟩ := effect_jobs rt vectors hw (List.mem_of_getElem? hi)
      (hmoved.effect rt vectors)
    refine Or.inr ⟨i, worker, move, moved, f j, ha, hi, hbegun, hbecomes j hj, ?_⟩
    show f j ∈ moved.jobs
    rw [hjobs]
    exact List.mem_append_left _ (List.mem_map_of_mem hj)
  · exact Or.inl hj
  · exact Or.inl hj

/-- A job that is done with is in no step's reach. -/
theorem step_keeps_final {w w' : World V} {a : Action} (hw : Orderly w)
    (h : step rt vectors w a = some w') {j : EmbeddingJob} (hj : j ∈ w.jobs)
    (hstatus : j.status = .succeeded ∨ j.status = .failed) : j ∈ w'.jobs := by
  have hnot : j.status ≠ .running := by
    rcases hstatus with hs | hs <;> simp [hs]
  rcases step_becomes rt vectors hw h hj with hsame |
    ⟨i, worker, move, moved, j', -, -, -, hbecomes, hj'⟩
  · exact hsame
  · cases hbecomes with
    | same => exact hj'
    | leased hpicked =>
      rcases due_status (mem_picked hpicked).2 with hpending | ⟨hrunning, -⟩
      · rw [hpending] at hstatus
        exact absurd hstatus (by simp)
      · exact absurd hrunning hnot
    | completed hholds => exact absurd (hw.running_of_holds hj hholds) hnot
    | returned hholds => exact absurd (hw.running_of_holds hj hholds) hnot

theorem run_keeps_final {w w' : World V} {trace : List Action} (hw : Orderly w)
    (h : (system rt vectors).run w trace = some w') {j : EmbeddingJob} (hj : j ∈ w.jobs)
    (hstatus : j.status = .succeeded ∨ j.status = .failed) : j ∈ w'.jobs :=
  ((system rt vectors).run_preserves (fun w => Orderly w ∧ j ∈ w.jobs)
    (fun _ _ _ hinv hstep => ⟨orderly_step rt vectors hinv.1 hstep,
      step_keeps_final rt vectors hinv.1 hstep hinv.2 hstatus⟩) h ⟨hw, hj⟩).2

theorem step_leaves_running {w w' : World V} {a : Action} (hw : Orderly w)
    (h : step rt vectors w a = some w') {j : EmbeddingJob} (hj : j ∈ w.jobs)
    (hstatus : j.status = .running) :
    j ∈ w'.jobs ∨ EndedByHolder w a j w' ∨ TakenOver w a j w' := by
  rcases step_becomes rt vectors hw h hj with hsame |
    ⟨i, worker, move, moved, j', ha, hi, hbegun, hbecomes, hj'⟩
  · exact Or.inl hsame
  · cases hbecomes with
    | same => exact Or.inl hj'
    | @leased now skipped tokens j token hpicked hfresh =>
      rcases due_status (mem_picked hpicked).2 with hpending | ⟨-, since, hsince, hexpired⟩
      · rw [hstatus] at hpending
        exact absurd hpending (by simp)
      · exact Or.inr (Or.inr ⟨i, worker, now, skipped, tokens, since, token, hi, ha,
          of_decide_eq_true hbegun, hsince, hexpired, hfresh, hj'⟩)
    | completed hholds => exact Or.inr (Or.inl ⟨i, worker, hi, hholds, Or.inl ⟨ha, hj'⟩⟩)
    | @returned now j error retryAt hholds =>
      exact Or.inr (Or.inl ⟨i, worker, hi, hholds, Or.inr ⟨now, error, retryAt, ha, hj'⟩⟩)

/-- Of the moves of a worker, only one that leases jobs changes a job it does not hold. -/
theorem move_keeps_unheld {w w' : World V} {i : ℕ} {move : Move} (hw : Orderly w)
    (h : step rt vectors w (.move i move) = some w') {worker : Worker V}
    (hi : w.workers[i]? = some worker) {j : EmbeddingJob} (hj : j ∈ w.jobs)
    (hholds : ¬ Holds worker j) (hmove : ∀ now skipped tokens, move ≠ .claim now skipped tokens) :
    j ∈ w'.jobs := by
  rcases step_becomes rt vectors hw h hj with hsame |
    ⟨i', worker', move', moved, j', ha, hi', -, hbecomes, hj'⟩
  · exact hsame
  · obtain ⟨rfl, rfl⟩ := Action.move.inj ha
    obtain rfl : worker = worker' := Option.some.inj (hi.symm.trans hi')
    cases hbecomes with
    | same => exact hj'
    | leased => exact absurd rfl (hmove _ _ _)
    | completed hheld => exact absurd hheld hholds
    | returned hheld => exact absurd hheld hholds

/-- In every reachable state a row is leased exactly while it runs, a job that succeeded
has its vector, and keys are unique; a finished job stays as it is in every further run;
a running one is changed only by the holder of its lease or by a new lease after the old
one expired; and a worker that does not hold the lease of a job leaves it alone, except
to lease it anew. -/
theorem embedding_queue_safe {w : World V} (h : (system rt vectors).Reachable w) :
    QueueSafe w ∧
      (∀ j ∈ w.jobs, j.status = .succeeded ∨ j.status = .failed →
        ∀ trace w', (system rt vectors).run w trace = some w' → j ∈ w'.jobs) ∧
      (∀ j ∈ w.jobs, j.status = .running → ∀ a w', step rt vectors w a = some w' →
        j ∈ w'.jobs ∨ EndedByHolder w a j w' ∨ TakenOver w a j w') ∧
      ∀ j ∈ w.jobs, ∀ i worker, w.workers[i]? = some worker → ¬ Holds worker j →
        ∀ move w', (∀ now skipped tokens, move ≠ .claim now skipped tokens) →
          step rt vectors w (.move i move) = some w' → j ∈ w'.jobs := by
  have hw := orderly_reachable rt vectors h
  refine ⟨hw.queueSafe, fun j hj hstatus trace w' hrun => ?_, fun j hj hstatus a w' hstep => ?_,
    fun j hj i worker hi hholds move w' hmove hstep => ?_⟩
  · exact run_keeps_final rt vectors hw hrun hj hstatus
  · exact step_leaves_running rt vectors hw hstep hj hstatus
  · exact move_keeps_unheld rt vectors hw hstep hi hj hholds hmove

end Moves

/-- The second worker leases the job after the first one has been silent for too long. -/
def exampleLate : List Action :=
  [.record exampleWrite, .hire exampleWorker, .hire exampleWorker,
   .move 0 .select, .move 0 (.insert 5 [100]), .move 0 (.claim 5 [] [200]),
   .move 0 .load, .move 0 (.lookup 1), .move 0 .send, .tick 400000000,
   .move 1 .select, .move 1 (.insert 400000000 []), .move 1 (.claim 400000000 [] [201])]

theorem exampleLate_runs :
    ((system hashingRuntime exampleVectors).run exampleStart exampleLate).any (fun w =>
      (step hashingRuntime exampleVectors w (.move 0 .finish)).isSome &&
        (w.workers[0]?.any fun p => p.phase.jobs.map ClaimedJob.leaseToken == [200]) &&
        w.jobs.any fun j => j.status == .running && j.leaseToken == some 201) = true := by
  decide +kernel

theorem embedding_queue_safe_example :
    ∃ w w', (system hashingRuntime exampleVectors).run exampleStart exampleLate = some w ∧
      step hashingRuntime exampleVectors w (.move 0 .finish) = some w' ∧ QueueSafe w ∧
      ∃ j ∈ w.jobs, j.status = .running ∧ j ∈ w'.jobs := by
  obtain ⟨w, hrun, hw⟩ := (Option.any_eq_true _ _).mp exampleLate_runs
  simp only [Bool.and_eq_true, List.any_eq_true, Option.any_eq_true, beq_iff_eq] at hw
  obtain ⟨⟨hfinish, worker, hworker, htokens⟩, j, hj, hstatus, htoken⟩ := hw
  obtain ⟨w', hstep⟩ := Option.isSome_iff_exists.mp hfinish
  have hsafe := embedding_queue_safe hashingRuntime exampleVectors
    ⟨exampleStart, exampleLate, exampleStart_start, hrun⟩
  refine ⟨w, w', hrun, hstep, hsafe.1, j, hj, hstatus, ?_⟩
  refine hsafe.2.2.2 j hj 0 worker hworker ?_ .finish w' (by simp) hstep
  rintro ⟨job, hjob, -, hmatch⟩
  have hmem : job.leaseToken ∈ worker.phase.jobs.map ClaimedJob.leaseToken :=
    List.mem_map_of_mem hjob
  rw [htokens, List.mem_singleton] at hmem
  rw [htoken, hmem] at hmatch
  exact absurd (Option.some.inj hmatch) (by decide)

end ContextLedger.EmbeddingLeases
