import ContextLedger.EvidenceLinks

/-!
What the links of evidence say in every run. A link that is committed stays as it is,
since its key is taken for good. A call finds the links that are committed when it
looks, and raises for one of another relation. It does not look again when its insert
runs into a link: the runs in which that link always has the relation asked for are
the ones in which no call ends with another relation than it asked for.
-/
namespace ContextLedger.LinkRelations

open Values Schema Facts EvidenceLinks Processes

/-- A link that gives a call what it asks for. -/
def Answers (asked : Asked) (id : Uuid) (l : FactVersionEvidence) : Prop :=
  key l = (asked.versionId, id) ∧ l.relation = asked.relation

/-- An insert runs into no committed link of another relation. -/
def Unraced (w : World) : Action → Prop
  | .move i .insert => ∀ call, w.calls[i]? = some call → ∀ id todo,
      call.phase = .missed id todo → ∀ l ∈ w.links, key l = (call.asked.versionId, id) →
        l.relation = call.asked.relation
  | _ => True

/-- What a call was told, and what it did not commit. -/
structure Truthful (w : World) : Prop where
  completed : ∀ call ∈ w.calls, call.phase = .committed → ∀ id ∈ call.asked.evidenceIds,
    ∃ l ∈ w.links, Answers call.asked id l
  conflicted : ∀ (i : ℕ) (call : Call), w.calls[i]? = some call →
    (∃ l ∈ call.met, l.relation ≠ call.asked.relation) →
      (∃ message, call.phase = .rolledBack (some (.domain (.conflict message)))) ∧
        (∀ e ∈ w.landed, e.1 ≠ i) ∧
        ∀ k, call.txn = some k → ∃ failure, w.base.txns[k]? = some (.rolledBack failure)
  landed : w.links = w.landed.flatMap Prod.snd

/-- The invariant of one call. -/
structure Kept (links : List FactVersionEvidence) (call : Call) : Prop where
  answered : (∀ failure, call.phase ≠ .rolledBack failure) → ∀ id ∈ call.asked.evidenceIds,
    id ∈ call.todo ∨ ∃ l ∈ links ++ call.rows, Answers call.asked id l
  rows : call.phase = .committed → ∀ l ∈ call.rows, l ∈ links
  own : ∀ l ∈ call.rows, l.relation = call.asked.relation
  met : (∃ l ∈ call.met, l.relation ≠ call.asked.relation) →
    ∃ l, call.phase = .rolledBack (some (alreadyLinked l))

/-- The transaction around a call that has rolled back has rolled back. -/
def Together (w : World) (call : Call) : Prop :=
  ∀ k, call.txn = some k → k < w.base.txns.length ∧
    ∀ failure, call.phase = .rolledBack failure →
      ∃ failure, w.base.txns[k]? = some (.rolledBack failure)

/-- The invariant of a world. -/
structure Linked (w : World) : Prop where
  calls : ∀ call ∈ w.calls, Kept w.links call
  together : ∀ call ∈ w.calls, Together w call
  unique : ((w.links ++ w.calls.flatMap held).map key).Nodup
  landed : w.links = w.landed.flatMap Prod.snd
  landedCalls : ∀ e ∈ w.landed, ∃ call, w.calls[e.1]? = some call ∧ call.phase = .committed

variable {links : List FactVersionEvidence} {call call' : Call} {m : LinkMove}

theorem Kept.mono {more : List FactVersionEvidence} (h : Kept links call) :
    Kept (links ++ more) call where
  answered := fun hphase id hid => (h.answered hphase id hid).imp_right fun ⟨l, hl, hanswers⟩ => by
    refine ⟨l, ?_, hanswers⟩
    rcases List.mem_append.mp hl with hl | hl
    · exact List.mem_append_left _ (List.mem_append_left _ hl)
    · exact List.mem_append_right _ hl
  rows := fun hphase l hl => List.mem_append_left _ (h.rows hphase l hl)
  own := h.own
  met := h.met

/-- An id that is answered is no longer to do. -/
theorem Kept.answer (h : Kept links call) {id : Uuid} {todo : List Uuid}
    (hopen : call.phase.isOpen = true) (htodo : call.todo = id :: todo)
    {l : FactVersionEvidence} (hl : l ∈ links ++ call.rows) (hanswers : Answers call.asked id l) :
    ∀ id' ∈ call.asked.evidenceIds,
      id' ∈ todo ∨ ∃ l ∈ links ++ call.rows, Answers call.asked id' l := by
  intro id' hid'
  have hphase : ∀ failure, call.phase ≠ .rolledBack failure := by
    intro failure hphase
    rw [hphase] at hopen
    exact Bool.false_ne_true hopen
  rcases h.answered hphase id' hid' with htodo' | hdone
  · rw [htodo] at htodo'
    rcases List.mem_cons.mp htodo' with rfl | htodo'
    · exact .inr ⟨l, hl, hanswers⟩
    · exact .inl htodo'
  · exact .inr hdone

/-- A call in progress has met no link of another relation. -/
theorem Kept.met_open (h : Kept links call) (hopen : call.phase.isOpen = true) :
    ∀ l ∈ call.met, l.relation = call.asked.relation := by
  intro l hl
  by_contra hne
  obtain ⟨l', hphase⟩ := h.met ⟨l, hl, hne⟩
  rw [hphase] at hopen
  exact Bool.false_ne_true hopen

theorem not_met_append {met : List FactVersionEvidence} {l : FactVersionEvidence}
    {relation : EvidenceRelation} (hmet : ∀ l ∈ met, l.relation = relation)
    (hl : l.relation = relation) : ¬∃ l' ∈ met ++ [l], l'.relation ≠ relation := by
  rintro ⟨l', hl', hne⟩
  rcases List.mem_append.mp hl' with hl' | hl'
  · exact hne (hmet l' hl')
  · rw [List.mem_singleton.mp hl'] at hne
    exact hne hl

theorem Kept.moved (h : Kept links call) (hopen : call.phase.isOpen = true)
    (hmoved : Moved links call m call')
    (hunraced : m = .insert → ∀ id todo, call.phase = .missed id todo → ∀ l ∈ links,
      key l = (call.asked.versionId, id) → l.relation = call.asked.relation) :
    Kept links call' := by
  have hmet := h.met_open hopen
  have hphase : ∀ failure, call.phase ≠ .rolledBack failure := by
    intro failure hphase
    rw [hphase] at hopen
    exact Bool.false_ne_true hopen
  cases hmoved with
  | quiet phase hopen' htodo =>
    refine ⟨fun _ id hid => ?_, fun hcommitted => ?_, h.own, fun ⟨l, hl, hne⟩ => absurd (hmet l hl) hne⟩
    · rw [htodo]
      exact h.answered hphase id hid
    · have hcommitted' : phase = .committed := hcommitted
      rw [hcommitted'] at hopen'
      exact absurd hopen' Bool.false_ne_true
  | failed failure =>
    exact ⟨fun h => absurd rfl (h failure), nofun, h.own, fun ⟨l, hl, hne⟩ => absurd (hmet l hl) hne⟩
  | agreed id todo l htodo hl hkey hrelation =>
    exact ⟨fun _ => h.answer hopen htodo hl ⟨hkey, hrelation⟩, nofun, h.own,
      fun h => absurd h (not_met_append hmet hrelation)⟩
  | conflicted l hrelation =>
    exact ⟨fun h => absurd rfl (h _), nofun, h.own, fun _ => ⟨l, rfl⟩⟩
  | lost id todo l hmissed hl hkey =>
    have hrelation : l.relation = call.asked.relation := by
      rcases List.mem_append.mp hl with hl | hl
      · exact hunraced rfl id todo hmissed l hl hkey
      · exact h.own l hl
    have htodo : call.todo = id :: todo := by rw [Call.todo, hmissed]
    exact ⟨fun _ => h.answer hopen htodo hl ⟨hkey, hrelation⟩, nofun, h.own,
      fun h => absurd h (not_met_append hmet hrelation)⟩
  | inserted id todo hmissed hfree =>
    have htodo : call.todo = id :: todo := by rw [Call.todo, hmissed]
    refine ⟨fun _ id' hid' => ?_, nofun, fun l hl => ?_, fun ⟨l, hl, hne⟩ => absurd (hmet l hl) hne⟩
    · rcases h.answered hphase id' hid' with htodo' | ⟨l, hl, hanswers⟩
      · rw [htodo] at htodo'
        rcases List.mem_cons.mp htodo' with rfl | htodo'
        · exact .inr ⟨call.newLink id', List.mem_append_right _
            (List.mem_append_right _ List.mem_cons_self), rfl, rfl⟩
        · exact .inl htodo'
      · refine .inr ⟨l, ?_, hanswers⟩
        rw [← List.append_assoc]
        exact List.mem_append_left _ hl
    · rcases List.mem_append.mp hl with hl | hl
      · exact h.own l hl
      · rw [List.mem_singleton.mp hl]
        rfl

theorem Kept.commit (h : Kept links call) (hphase : call.phase = .linked) :
    Kept (links ++ call.rows) { call with phase := .committed } where
  answered := fun _ id hid => by
    have hopen : ∀ failure, call.phase ≠ .rolledBack failure := by
      intro failure hfailed
      rw [hphase] at hfailed
      cases hfailed
    rcases h.answered hopen id hid with htodo | ⟨l, hl, hanswers⟩
    · rw [Call.todo, hphase] at htodo
      exact absurd htodo List.not_mem_nil
    · exact .inr ⟨l, List.mem_append_left _ hl, hanswers⟩
  rows := fun _ _ hl => List.mem_append_right _ hl
  own := h.own
  met := fun hmet => by
    obtain ⟨l, hfailed⟩ := h.met hmet
    rw [hphase] at hfailed
    cases hfailed

theorem kept_begun (links : List FactVersionEvidence) {call : Call}
    (htodo : call.todo = call.asked.evidenceIds) (hrows : call.rows = []) (hmet : call.met = []) :
    Kept links call where
  answered := fun _ id hid => .inl (htodo ▸ hid)
  rows := fun _ l hl => by
    rw [hrows] at hl
    exact absurd hl List.not_mem_nil
  own := fun l hl => by
    rw [hrows] at hl
    exact absurd hl List.not_mem_nil
  met := fun ⟨l, hl, _⟩ => by
    rw [hmet] at hl
    exact absurd hl List.not_mem_nil

theorem moved_same (hmoved : Moved links call m call') :
    call'.txn = call.txn ∧ call'.phase ≠ .committed := by
  cases hmoved with
  | quiet phase hopen htodo =>
    refine ⟨rfl, fun hphase => ?_⟩
    have hphase' : phase = .committed := hphase
    rw [hphase'] at hopen
    exact Bool.false_ne_true hopen
  | failed failure => exact ⟨rfl, nofun⟩
  | agreed id todo l htodo hl hkey hrelation => exact ⟨rfl, nofun⟩
  | conflicted l hrelation => exact ⟨rfl, nofun⟩
  | lost id todo l hphase hl hkey => exact ⟨rfl, nofun⟩
  | inserted id todo hphase hfree => exact ⟨rfl, nofun⟩

theorem held_of_open (hopen : call.phase.isOpen = true) : held call = call.rows := by
  obtain ⟨ctx, now, txn, asked, rows, met, phase⟩ := call
  cases phase with
  | committed => exact absurd hopen Bool.false_ne_true
  | rolledBack failure => exact absurd hopen Bool.false_ne_true
  | _ => rfl

/-- A step keeps the keys distinct: what it adds has the key of no link that is
committed or held. -/
theorem unique_moved {rest : List FactVersionEvidence} (hmoved : Moved links call m call')
    (hfree : ∀ id todo, m = .insert → call.phase = .missed id todo → ∀ l ∈ rest,
      key l ≠ (call.asked.versionId, id))
    (h : ((links ++ (call.rows ++ rest)).map key).Nodup) :
    ((links ++ (held call' ++ rest)).map key).Nodup := by
  have hnone : ((links ++ rest).map key).Nodup :=
    h.sublist (((List.sublist_append_right call.rows rest).append_left links).map key)
  cases hmoved with
  | quiet phase hopen' htodo =>
    rw [held_of_open hopen']
    exact h
  | failed failure => exact hnone
  | agreed id todo l htodo hl hkey hrelation => exact h
  | conflicted l hrelation => exact hnone
  | lost id todo l hphase hl hkey => exact h
  | inserted id todo hphase hown =>
    have hperm : (links ++ ((call.rows ++ [call.newLink id]) ++ rest)).Perm
        (call.newLink id :: (links ++ (call.rows ++ rest))) := by
      rw [List.append_assoc, List.singleton_append, ← List.append_assoc, ← List.append_assoc]
      exact List.perm_middle
    refine (hperm.map key).nodup_iff.mpr (List.nodup_cons.mpr ⟨fun hmem => ?_, h⟩)
    obtain ⟨l, hl, hkey⟩ := List.mem_map.mp hmem
    rw [← List.append_assoc] at hl
    rcases List.mem_append.mp hl with hl | hl
    · exact hown l hl hkey
    · exact hfree id todo rfl hphase l hl hkey

variable {rt : Runtime}

/-- A transaction that has rolled back stays so. -/
theorem rolledBack_of_step {w w' : Concurrent.World} {e : Concurrent.Event}
    (h : Concurrent.step rt w e = some w') :
    w.txns.length ≤ w'.txns.length ∧ ∀ (k : ℕ) (failure : Option Failure),
      w.txns[k]? = some (.rolledBack failure) → w'.txns[k]? = some (.rolledBack failure) := by
  have happend : ∀ t : Concurrent.Txn, w.txns.length ≤ (w.txns ++ [t]).length ∧
      ∀ (k : ℕ) (failure : Option Failure), w.txns[k]? = some (.rolledBack failure) →
        (w.txns ++ [t])[k]? = some (.rolledBack failure) := by
    intro t
    refine ⟨?_, fun k failure hk => ?_⟩
    · rw [List.length_append]
      exact Nat.le_add_right _ _
    · rw [List.getElem?_append_left (List.getElem?_eq_some_iff.mp hk).1]
      exact hk
  have hset : ∀ (i : ℕ) (t t' : Concurrent.Txn), w.txns[i]? = some t →
      (∀ failure, t ≠ .rolledBack failure) → w.txns.length ≤ (w.txns.set i t').length ∧
      ∀ (k : ℕ) (failure : Option Failure), w.txns[k]? = some (.rolledBack failure) →
        (w.txns.set i t')[k]? = some (.rolledBack failure) := by
    intro i t t' hi hne
    refine ⟨List.length_set.ge, fun k failure hk => ?_⟩
    by_cases hik : i = k
    · rw [hik, hk] at hi
      exact absurd (Option.some.inj hi).symm (hne failure)
    · rw [List.getElem?_set_ne hik]
      exact hk
  cases Concurrent.step_cases h with
  | recording ctx command haction => exact happend _
  | revoking ctx factId versionId reason haction => exact happend _
  | moved i m t t' haction ht hready hstep =>
    refine hset i t t' ht fun failure hfailed => ?_
    rw [hfailed] at hstep
    cases m <;> cases hstep
  | committed i t db haction ht hcommit =>
    refine hset i t _ ht fun failure hfailed => ?_
    rw [hfailed] at hcommit
    cases hcommit
  | answered org entityId factId validAt knownAt haction hle => exact ⟨le_rfl, fun _ _ h => h⟩

section

variable {w : World}

theorem length_baseAfter (w : World) (call : Call) :
    (w.baseAfter call).txns.length = w.base.txns.length := by
  unfold World.baseAfter
  split
  · exact List.length_set
  · rfl

theorem rolledBack_baseAfter (w : World) (call : Call) {k : ℕ} {failure : Option Failure}
    (h : w.base.txns[k]? = some (.rolledBack failure)) :
    ∃ failure, (w.baseAfter call).txns[k]? = some (.rolledBack failure) := by
  unfold World.baseAfter
  split
  · rename_i k' failure' htxn hphase
    show ∃ failure, (w.base.txns.set k' (.rolledBack failure'))[k]? = some (.rolledBack failure)
    by_cases hk : k' = k
    · rw [hk, List.getElem?_set_self (List.getElem?_eq_some_iff.mp h).1]
      exact ⟨failure', rfl⟩
    · rw [List.getElem?_set_ne hk]
      exact ⟨failure, h⟩
  · exact ⟨failure, h⟩

/-- A step of one call leaves the other transactions as they are, and takes the one around
it along when it raises. -/
theorem together_move (h : ∀ call ∈ w.calls, Together w call) {i : ℕ}
    (hi : w.calls[i]? = some call) (htxn : call'.txn = call.txn) :
    ∀ c ∈ w.calls.set i call', Together { w with
      base := w.baseAfter call'
      calls := w.calls.set i call' } c := by
  intro c hc k hk
  rcases mem_set_cases hc with rfl | ⟨j, -, hj⟩
  · have hlt := (h call (List.mem_of_getElem? hi) k (htxn.symm.trans hk)).1
    refine ⟨hlt.trans_eq (length_baseAfter w c).symm, fun failure hphase => ⟨failure, ?_⟩⟩
    show (w.baseAfter c).txns[k]? = _
    rw [World.baseAfter, hk, hphase]
    exact List.getElem?_set_self hlt
  · obtain ⟨hlt, hfailed⟩ := h c (List.mem_of_getElem? hj) k hk
    refine ⟨hlt.trans_eq (length_baseAfter w call').symm, fun failure hphase => ?_⟩
    obtain ⟨failure, hk'⟩ := hfailed failure hphase
    exact rolledBack_baseAfter w call' hk'

/-- A step of the transactions around the calls. -/
theorem together_base (h : ∀ call ∈ w.calls, Together w call) {base : Concurrent.World}
    (hlength : w.base.txns.length ≤ base.txns.length)
    (hkept : ∀ (k : ℕ) (failure : Option Failure), w.base.txns[k]? = some (.rolledBack failure) →
      base.txns[k]? = some (.rolledBack failure)) :
    ∀ call ∈ w.calls, ∀ k, call.txn = some k → k < base.txns.length ∧
      ∀ failure, call.phase = .rolledBack failure →
        ∃ failure, base.txns[k]? = some (.rolledBack failure) := by
  intro call hcall k hk
  obtain ⟨hlt, hfailed⟩ := h call hcall k hk
  refine ⟨hlt.trans_le hlength, fun failure hphase => ?_⟩
  obtain ⟨failure, hk'⟩ := hfailed failure hphase
  exact ⟨failure, hkept k failure hk'⟩

theorem Linked.base (hw : Linked w) {base : Concurrent.World} {evidenceIds : List (List Uuid)}
    (hlength : w.base.txns.length ≤ base.txns.length)
    (hkept : ∀ (k : ℕ) (failure : Option Failure), w.base.txns[k]? = some (.rolledBack failure) →
      base.txns[k]? = some (.rolledBack failure)) :
    Linked { w with base, evidenceIds } :=
  ⟨hw.calls, together_base hw.together hlength hkept, hw.unique, hw.landed, hw.landedCalls⟩

/-- A call begins with nothing inserted. -/
theorem Linked.append (hw : Linked w) (htodo : call.todo = call.asked.evidenceIds)
    (hopen : call.phase.isOpen = true) (hrows : call.rows = []) (hmet : call.met = [])
    (htxn : ∀ k, call.txn = some k → k < w.base.txns.length) :
    Linked { w with calls := w.calls ++ [call] } where
  calls := fun c hc => by
    rcases List.mem_append.mp hc with hc | hc
    · exact hw.calls c hc
    · rw [List.mem_singleton.mp hc]
      exact kept_begun w.links htodo hrows hmet
  together := fun c hc k hk => by
    rcases List.mem_append.mp hc with hc | hc
    · exact hw.together c hc k hk
    · rw [List.mem_singleton.mp hc] at hk ⊢
      refine ⟨htxn k hk, fun failure hphase => ?_⟩
      rw [hphase] at hopen
      exact absurd hopen Bool.false_ne_true
  unique := by
    show ((w.links ++ (w.calls ++ [call]).flatMap held).map key).Nodup
    rw [List.flatMap_append, List.flatMap_singleton, held_of_open hopen, hrows, List.append_nil]
    exact hw.unique
  landed := hw.landed
  landedCalls := fun e he => by
    obtain ⟨c, hc, hphase⟩ := hw.landedCalls e he
    exact ⟨c, (List.getElem?_append_left (List.getElem?_eq_some_iff.mp hc).1).trans hc, hphase⟩

/-- A commit of another call leaves the calls that have committed. -/
theorem landedCalls_set (hw : Linked w) {i : ℕ} (hi : w.calls[i]? = some call)
    (hopen : call.phase.isOpen = true) (call' : Call) :
    ∀ e ∈ w.landed, ∃ c, (w.calls.set i call')[e.1]? = some c ∧ c.phase = .committed := by
  intro e he
  obtain ⟨c, hc, hphase⟩ := hw.landedCalls e he
  have hne : i ≠ e.1 := by
    intro heq
    rw [heq, hc] at hi
    rw [← Option.some.inj hi, hphase] at hopen
    exact Bool.false_ne_true hopen
  exact ⟨c, (List.getElem?_set_ne hne).trans hc, hphase⟩

theorem not_blocked {i : ℕ} (h : w.blocked i call m = false) :
    ∀ id todo, m = .insert → call.phase = .missed id todo →
      ∀ l ∈ (w.calls.eraseIdx i).flatMap held, key l ≠ (call.asked.versionId, id) := by
  rintro id todo rfl hphase l hl hkey
  simp only [World.blocked, hphase] at h
  rw [List.any_eq_false] at h
  obtain ⟨other, hother, hl⟩ := List.mem_flatMap.mp hl
  have hnone := h other hother
  rw [Bool.not_eq_true, List.any_eq_false] at hnone
  exact hnone l hl (by rw [hkey]; exact beq_self_eq_true _)

theorem Linked.move (hw : Linked w) {i : ℕ} (hi : w.calls[i]? = some call)
    (hblocked : w.blocked i call m = false) (hopen : call.phase.isOpen = true)
    (hmoved : Moved w.links call m call')
    (hunraced : m = .insert → ∀ id todo, call.phase = .missed id todo → ∀ l ∈ w.links,
      key l = (call.asked.versionId, id) → l.relation = call.asked.relation) :
    Linked { w with base := w.baseAfter call', calls := w.calls.set i call' } where
  calls := fun c hc => by
    rcases mem_set_cases hc with rfl | ⟨j, -, hj⟩
    · exact (hw.calls call (List.mem_of_getElem? hi)).moved hopen hmoved hunraced
    · exact hw.calls c (List.mem_of_getElem? hj)
  together := together_move hw.together hi (moved_same hmoved).1
  unique := by
    have hbefore := (perm_flatMap_eraseIdx held hi).append_left w.links
    rw [held_of_open hopen] at hbefore
    have hafter := (perm_flatMap_set_eraseIdx held hi call').append_left w.links
    refine (hafter.map key).nodup_iff.mpr ?_
    exact unique_moved hmoved (not_blocked hblocked) ((hbefore.map key).nodup_iff.mp hw.unique)
  landed := hw.landed
  landedCalls := landedCalls_set hw hi hopen call'

/-- A commit makes the rows of the call visible. -/
theorem Linked.commit (hw : Linked w) {i : ℕ} (hi : w.calls[i]? = some call)
    (hphase : call.phase = .linked) {base : Concurrent.World}
    (hlength : w.base.txns.length ≤ base.txns.length)
    (hkept : ∀ (k : ℕ) (failure : Option Failure), w.base.txns[k]? = some (.rolledBack failure) →
      base.txns[k]? = some (.rolledBack failure)) :
    Linked { w with
      base
      links := w.links ++ call.rows
      calls := w.calls.set i { call with phase := .committed }
      landed := w.landed ++ [(i, call.rows)] } where
  calls := fun c hc => by
    rcases mem_set_cases hc with rfl | ⟨j, -, hj⟩
    · exact (hw.calls call (List.mem_of_getElem? hi)).commit hphase
    · exact (hw.calls c (List.mem_of_getElem? hj)).mono
  together := fun c hc => by
    have hbase := together_base hw.together hlength hkept
    rcases mem_set_cases hc with rfl | ⟨j, -, hj⟩
    · exact fun k hk => ⟨(hbase call (List.mem_of_getElem? hi) k hk).1, nofun⟩
    · exact hbase c (List.mem_of_getElem? hj)
  unique := by
    have hopen : call.phase.isOpen = true := by
      rw [hphase]
      rfl
    have hbefore := (perm_flatMap_eraseIdx held hi).append_left w.links
    rw [held_of_open hopen, ← List.append_assoc] at hbefore
    have hafter := (perm_flatMap_set_eraseIdx held hi { call with phase := .committed }).append_left
      (w.links ++ call.rows)
    exact (hafter.map key).nodup_iff.mpr ((hbefore.map key).nodup_iff.mp hw.unique)
  landed := by
    show w.links ++ call.rows = (w.landed ++ [(i, call.rows)]).flatMap Prod.snd
    rw [List.flatMap_append, List.flatMap_singleton, ← hw.landed]
  landedCalls := fun e he => by
    rcases List.mem_append.mp he with he | he
    · exact landedCalls_set hw hi (by rw [hphase]; rfl) _ e he
    · rw [List.mem_singleton.mp he]
      exact ⟨_, List.getElem?_set_self (List.getElem?_eq_some_iff.mp hi).1, rfl⟩

theorem baseCommitted_kept {clock : Instant} {base : Concurrent.World}
    (h : w.baseCommitted rt clock call = some base) :
    w.base.txns.length ≤ base.txns.length ∧ ∀ (k : ℕ) (failure : Option Failure),
      w.base.txns[k]? = some (.rolledBack failure) → base.txns[k]? = some (.rolledBack failure) := by
  rw [World.baseCommitted] at h
  split at h
  · obtain rfl := Option.some.inj h
    exact ⟨le_rfl, fun _ _ h => h⟩
  · exact rolledBack_of_step h

/-- What one step keeps, when its insert runs into no other relation. -/
theorem linked_step {w' : World} {a : Action} (hw : Linked w) (hunraced : Unraced w a)
    (h : step rt w a = some w') : Linked w' := by
  cases step_cases h with
  | based e e' base evidenceIds hstep =>
    exact hw.base (rolledBack_of_step hstep).1 (rolledBack_of_step hstep).2
  | attached now ctx versionId evidenceId relation => exact hw.append rfl rfl rfl rfl nofun
  | entered k ctx now asked hk =>
    refine hw.append rfl rfl rfl rfl fun k' hk' => ?_
    obtain rfl := Option.some.inj hk'
    exact hk
  | moved i m call call' hi hblocked hstep =>
    obtain ⟨hopen, hmoved⟩ := stepCall_cases hstep
    refine hw.move hi hblocked hopen hmoved ?_
    rintro rfl
    exact hunraced call hi
  | committed clock i call base hi hphase hbase =>
    obtain ⟨hlength, hkept⟩ := baseCommitted_kept hbase
    exact hw.commit hi hphase hlength hkept
  | changed users memberships sources captured =>
    exact ⟨hw.calls, hw.together, hw.unique, hw.landed, hw.landedCalls⟩

/-- No step takes a committed link back. -/
theorem links_of_step {w' : World} {a : Action} (h : step rt w a = some w') :
    ∀ l ∈ w.links, l ∈ w'.links := by
  intro l hl
  cases step_cases h with
  | committed clock i call base hi hphase hbase => exact List.mem_append_left _ hl
  | based e e' base evidenceIds hstep => exact hl
  | attached now ctx versionId evidenceId relation => exact hl
  | entered k ctx now asked hk => exact hl
  | moved i m call call' hi hblocked hstep => exact hl
  | changed users memberships sources captured => exact hl

theorem linked_start (h : Start w) : Linked w where
  calls := fun c hc => by
    rw [h.calls] at hc
    exact absurd hc List.not_mem_nil
  together := fun c hc => by
    rw [h.calls] at hc
    exact absurd hc List.not_mem_nil
  unique := by
    rw [h.links, h.calls]
    exact List.nodup_nil
  landed := by
    rw [h.links, h.landed]
    rfl
  landedCalls := fun e he => by
    rw [h.landed] at he
    exact absurd he List.not_mem_nil

theorem Linked.truthful (hw : Linked w) : Truthful w where
  completed := fun call hcall hphase id hid => by
    have hkept := hw.calls call hcall
    have hopen : ∀ failure, call.phase ≠ .rolledBack failure := by
      intro failure hfailed
      rw [hphase] at hfailed
      cases hfailed
    rcases hkept.answered hopen id hid with htodo | ⟨l, hl, hanswers⟩
    · rw [Call.todo, hphase] at htodo
      exact absurd htodo List.not_mem_nil
    · rcases List.mem_append.mp hl with hl | hl
      · exact ⟨l, hl, hanswers⟩
      · exact ⟨l, hkept.rows hphase l hl, hanswers⟩
  conflicted := fun i call hi hmet => by
    have hcall := List.mem_of_getElem? hi
    obtain ⟨l, hphase⟩ := (hw.calls call hcall).met hmet
    refine ⟨⟨_, hphase⟩, fun e he heq => ?_, fun k hk => (hw.together call hcall k hk).2 _ hphase⟩
    obtain ⟨c, hc, hcommitted⟩ := hw.landedCalls e he
    rw [heq, hi] at hc
    rw [← Option.some.inj hc, hphase] at hcommitted
    cases hcommitted
  landed := hw.landed

theorem Linked.eq_of_key (hw : Linked w) {l l' : FactVersionEvidence} (hl : l ∈ w.links)
    (hl' : l' ∈ w.links) (hkey : key l' = key l) : l' = l := by
  have hnodup : (w.links.map key).Nodup :=
    hw.unique.sublist ((List.sublist_append_left _ _).map key)
  exact List.inj_on_of_nodup_map hnodup hl' hl hkey

end

/-- In a run in which no insert runs into a link of another relation, a call that ends has
left the relation it asked for, one that met another relation has raised and left nothing,
and a committed link stays as it is. -/
theorem relations_hold (rt : Runtime) (w₀ w : World) (trace : List Action) (h₀ : Start w₀)
    (hrun : (system rt).run w₀ trace = some w) (hmeets : (system rt).RunMeets Unraced w₀ trace) :
    Truthful w ∧ ∀ w' trace', (system rt).run w trace' = some w' →
      (system rt).RunMeets Unraced w trace' → Truthful w' ∧
        ∀ l ∈ w.links, l ∈ w'.links ∧ ∀ l' ∈ w'.links, key l' = key l → l' = l := by
  have hstep : ∀ s a s', Linked s → Unraced s a → (system rt).step s a = some s' → Linked s' :=
    fun _ _ _ hs hunraced hstep => linked_step hs hunraced hstep
  have hw := (system rt).run_preserves_of_meets Unraced Linked hstep hrun hmeets (linked_start h₀)
  refine ⟨hw.truthful, fun w' trace' hrun' hmeets' => ?_⟩
  have hw' := (system rt).run_preserves_of_meets Unraced Linked hstep hrun' hmeets' hw
  refine ⟨hw'.truthful, fun l hl => ?_⟩
  have hl' : l ∈ w'.links := (system rt).run_preserves (fun s => l ∈ s.links)
    (fun _ _ _ hs hstep => links_of_step hstep l hs) hrun' hl
  exact ⟨hl', fun l'' hl'' => hw'.eq_of_key hl' hl''⟩

def exampleStart : World := ⟨Concurrent.exampleWorld, [], [], [], []⟩

def exampleEvidence : Evidence :=
  ⟨7, 1, 3, .documentExcerpt, "paid in full", "digest", none, .obj [], .internal, 0, 0⟩

def exampleCapture : Action :=
  .others exampleDatabase.users exampleDatabase.memberships exampleDatabase.sources [exampleEvidence]

/-- A call that records a version with this evidence, up to its first look at the links. -/
def exampleRecorded (evidenceIds : List Uuid) : List Action :=
  [.base ⟨10, .beginRecord exampleContext { Facts.exampleCommand true 0 with evidenceIds }⟩,
   .base ⟨11, .move 0 (.locate 10 11)⟩, .base ⟨12, .move 0 .lock⟩, .base ⟨13, .move 0 .plan⟩,
   .base ⟨14, .move 0 .stamp⟩, .base ⟨15, .move 0 (.write 12)⟩, .link 0, .move 0 .seeVersion]

/-- A call that attaches the evidence, up to its first look at the links. -/
def exampleAttach (i : ℕ) (relation : EvidenceRelation) : List Action :=
  [.attach 20 exampleContext 12 7 relation, .move i .authorize, .move i .seeVersion,
   .move i .seeEvidence, .move i .getLink]

/-- The evidence is linked with the version; a call that wants it to contradict raises. -/
def exampleTrace : List Action :=
  exampleCapture :: exampleRecorded [7] ++
    [.move 0 .seeEvidence, .move 0 .getLink, .move 0 .insert, .move 0 .getLink, .commit 16 0] ++
    exampleAttach 1 .contradicts

/-- Two calls look before either inserts; the second inserts when the first has committed. -/
def exampleRace : List Action :=
  exampleCapture :: exampleRecorded [] ++ [.commit 16 0] ++
    exampleAttach 1 .supports ++ exampleAttach 2 .contradicts ++
    [.move 1 .insert, .move 1 .getLink, .commit 21 1, .move 2 .insert, .move 2 .getLink,
     .commit 22 2]

def isCommitted (call : Call) : Bool :=
  match call.phase with
  | .committed => true
  | _ => false

def isRolledBack (call : Call) : Bool :=
  match call.phase with
  | .rolledBack _ => true
  | _ => false

/-- The check of a step by which an insert runs into no other relation. -/
def unracedCheck (w : World) : Action → Bool
  | .move i .insert => (w.calls[i]?).all fun call =>
    match call.phase with
    | .missed id _ => w.links.all fun l =>
      decide (key l = (call.asked.versionId, id) → l.relation = call.asked.relation)
    | _ => true
  | _ => true

theorem unraced_of_check {w : World} {a : Action} (h : unracedCheck w a = true) : Unraced w a := by
  cases a with
  | move i m =>
    cases m with
    | insert =>
      intro call hi id todo hphase l hl hkey
      simp only [unracedCheck, hi, Option.all_some, hphase, List.all_eq_true,
        decide_eq_true_eq] at h
      exact h l hl hkey
    | _ => trivial
  | _ => trivial

theorem exampleTrace_unraced : (system exampleRuntime).RunMeets
    (fun w a => unracedCheck w a = true) exampleStart exampleTrace := by
  decide +kernel

theorem exampleTrace_raises :
    ((system exampleRuntime).run exampleStart exampleTrace).any (fun w =>
      (w.calls[0]?).any isCommitted && (w.calls[1]?).any isRolledBack) = true := by
  decide +kernel

/-- A version that is recorded with its evidence, and a call that asks for another relation. -/
theorem relations_hold_recorded : ∃ w,
    (system exampleRuntime).run exampleStart exampleTrace = some w ∧
      (w.calls[0]?).any isCommitted = true ∧ (w.calls[1]?).any isRolledBack = true ∧
      Truthful w := by
  obtain ⟨w, hrun, hcheck⟩ := (Option.any_eq_true _ _).mp exampleTrace_raises
  rw [Bool.and_eq_true] at hcheck
  have hstart : Start exampleStart := ⟨⟨⟨rfl, rfl, rfl⟩, rfl, rfl, rfl⟩, rfl, rfl, rfl, rfl⟩
  exact ⟨w, hrun, hcheck.1, hcheck.2, (relations_hold exampleRuntime exampleStart w exampleTrace
    hstart hrun (Transition.System.RunMeets.mono _ (fun _ _ => unraced_of_check)
      exampleTrace_unraced)).1⟩

/-- Whether a call that has committed asked for a relation that no link has. -/
def isDeceived (w : World) (call : Call) : Bool :=
  isCommitted call && call.asked.evidenceIds.any fun id =>
    w.links.all fun l => key l != (call.asked.versionId, id) || l.relation != call.asked.relation

theorem exampleRace_deceives :
    ((system exampleRuntime).run exampleStart exampleRace).any (fun w =>
      w.calls.any (isDeceived w)) = true := by
  decide +kernel

/-- A call that lost the race ends without an error, and the link has the other relation. -/
theorem relation_differs : ¬∀ (rt : Runtime) (w₀ w : World) (trace : List Action), Start w₀ →
    (system rt).run w₀ trace = some w → Truthful w := by
  intro hall
  obtain ⟨w, hrun, hcheck⟩ := (Option.any_eq_true _ _).mp exampleRace_deceives
  obtain ⟨call, hcall, hdeceived⟩ := List.any_eq_true.mp hcheck
  rw [isDeceived, Bool.and_eq_true] at hdeceived
  obtain ⟨hcommitted, hnone⟩ := hdeceived
  obtain ⟨id, hid, hnone⟩ := List.any_eq_true.mp hnone
  have hphase : call.phase = .committed := by
    unfold isCommitted at hcommitted
    split at hcommitted
    · assumption
    · exact absurd hcommitted Bool.false_ne_true
  have htruthful := hall exampleRuntime exampleStart w exampleRace
    ⟨⟨⟨rfl, rfl, rfl⟩, rfl, rfl, rfl⟩, rfl, rfl, rfl, rfl⟩ hrun
  obtain ⟨l, hl, hkey, hrelation⟩ := htruthful.completed call hcall hphase id hid
  have hother := List.all_eq_true.mp hnone l hl
  rw [hkey, hrelation] at hother
  simp at hother

end ContextLedger.LinkRelations
