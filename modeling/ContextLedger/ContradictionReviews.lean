import ContextLedger.ContradictionClaims
import ContextLedger.ContradictionOrder

/-!
What a review supplies to the model and what it does with the answer. Each finding is
accepted or rejected, and when the review returns every accepted one has a row, its own or
one that was there before.
-/
namespace ContextLedger.ContradictionReviews

open Values Authorization FactRules Schema Facts Reference TemporalEngine ContradictionRows
open ContradictionClaims ContradictionWorld ContradictionSteps ContradictionOrder
open Grounding (factLabel factLabel_injective)
open AdminPresence (requirePermission_eq_ok)

theorem mem_distinctOnFact {rows : List (FactVersion × String)} {row : FactVersion × String}
    (h : row ∈ distinctOnFact rows) : row ∈ rows := by
  induction rows with
  | nil => exact h
  | cons first rows ih =>
    rcases List.mem_cons.mp h with rfl | h
    · exact List.mem_cons_self
    · exact List.mem_cons_of_mem first (ih (List.mem_of_mem_filter h))

theorem nodup_distinctOnFact (rows : List (FactVersion × String)) :
    ((distinctOnFact rows).map fun row => row.1.factId).Nodup := by
  induction rows with
  | nil => exact List.nodup_nil
  | cons first rows ih =>
    rw [distinctOnFact, List.map_cons, List.nodup_cons]
    refine ⟨fun hmem => ?_, ih.sublist (List.filter_sublist.map _)⟩
    obtain ⟨row, hrow, hid⟩ := List.mem_map.mp hmem
    have hne := (List.mem_filter.mp hrow).2
    simp [hid] at hne

/-- The fact shown is that of a committed version. -/
def Known (db : Database) (org : Uuid) (f : ResolvedFact) : Prop :=
  ∃ v ∈ db.versions, v.organizationId = org ∧ v.id = f.version.id ∧ v.factId = f.factId ∧
    v.privacyScope = f.version.privacyScope ∧ OfEntity db v f.entityId

theorem Known.extends {db db' : Database} (h : Extends db db') {org : Uuid} {f : ResolvedFact}
    (hf : Known db org f) : Known db' org f := by
  obtain ⟨v, hv, horg, hid, hfact, hscope, hentity⟩ := hf
  obtain ⟨v', hv', hsame⟩ := h.versions v hv
  exact ⟨v', hv', hsame.organizationId.trans horg, hsame.id.trans hid, hsame.factId.trans hfact,
    hsame.privacyScope.trans hscope, hentity.extends h hsame⟩

theorem known_of_entityRows {db : Database} {org entityId : Uuid} {row : FactVersion × String}
    (h : row ∈ entityRows db org entityId) {entityType externalId : String} :
    Known db org ⟨row.1.factId, entityId, entityType, externalId, row.2, toSnapshot row.1⟩ := by
  obtain ⟨horg, f, hf, hforg, hentity, hid, -⟩ := mem_entityRows h
  obtain ⟨v, hv, hrow⟩ := List.mem_flatMap.mp h
  have hrowv : row.1 = v := by
    split at hrow
    · obtain ⟨-, -, rfl⟩ := List.mem_map.mp hrow
      rfl
    · exact absurd hrow List.not_mem_nil
  rw [hrowv] at horg hid ⊢
  exact ⟨v, hv, horg, rfl, rfl, rfl, f, hf, hforg.trans horg.symm, hid, hentity⟩

/-- The facts of an entity are committed, and each is there once. -/
theorem factsAt_known {rt : Runtime} {db : Database} {ctx : TenantContext}
    {entityType externalId : String} {clock : Instant} {facts : List ResolvedFact}
    (h : factsAt rt db ctx entityType externalId none none clock = .ok facts) :
    (∀ f ∈ facts, Known db ctx.organizationId f) ∧ (facts.map ResolvedFact.factId).Nodup ∧
      ∃ entityId, ∀ f ∈ facts, f.entityId = entityId := by
  obtain ⟨instant, -, h⟩ := bind_eq_ok.mp h
  obtain ⟨known, hknown, h⟩ := bind_eq_ok.mp h
  obtain rfl : known = none := (Except.ok.inj hknown).symm
  obtain ⟨role, -, h⟩ := bind_eq_ok.mp h
  obtain ⟨identifier, -, h⟩ := bind_eq_ok.mp h
  obtain ⟨external, -, h⟩ := bind_eq_ok.mp h
  cases hentity : findEntity db ctx.organizationId identifier.1 external.1 with
  | none =>
    rw [hentity] at h
    exact absurd h (by simp [notFound])
  | some entity =>
    rw [hentity] at h
    obtain rfl := Except.ok.inj h
    refine ⟨fun f hf => ?_, ?_, entity.id, fun f hf => ?_⟩
    · obtain ⟨row, hrow, rfl⟩ := List.mem_map.mp ((List.mem_insertionSort _).mp hf)
      have hmem := mem_distinctOnFact hrow
      exact known_of_entityRows (List.mem_of_mem_filter ((List.mem_insertionSort _).mp hmem))
    · rw [((List.perm_insertionSort _ _).map _).nodup_iff, List.map_map]
      exact nodup_distinctOnFact _
    · obtain ⟨row, -, rfl⟩ := List.mem_map.mp ((List.mem_insertionSort _).mp hf)
      rfl

/-- What a review supplies to the model. -/
structure Supply (db : Database) (ctx : TenantContext) (visible : List PrivacyScope)
    (facts : List ResolvedFact) : Prop where
  scopes : ∃ role, hasPermission role .readFacts = true ∧ visible = visibleTo role ctx
  shown : ∀ f ∈ facts, Known db ctx.organizationId f ∧ f.version.privacyScope ∈ visible
  distinct : (facts.map ResolvedFact.factId).Nodup
  entity : ∃ entityId, ∀ f ∈ facts, f.entityId = entityId
  several : 2 ≤ facts.length ∧ facts.length ≤ maxReviewFacts

theorem Supply.extends {db db' : Database} (h : Extends db db') {ctx : TenantContext}
    {visible : List PrivacyScope} {facts : List ResolvedFact} (hs : Supply db ctx visible facts) :
    Supply db' ctx visible facts :=
  ⟨hs.scopes, fun f hf => ⟨(hs.shown f hf).1.extends h, (hs.shown f hf).2⟩, hs.distinct,
    hs.entity, hs.several⟩

theorem supply_reviewed {rt : Runtime} {db : Database} {ctx : TenantContext}
    {entityType externalId : String} {clock : Instant} {facts : List ResolvedFact}
    {role : MembershipRole} (hrole : hasPermission role .readFacts = true)
    (h : factsAt rt db ctx entityType externalId none none clock = .ok facts)
    (hmany : 2 ≤ (reviewed (visibleTo role ctx) facts).length) :
    Supply db ctx (visibleTo role ctx) (reviewed (visibleTo role ctx) facts) := by
  obtain ⟨hknown, hdistinct, entityId, hentity⟩ := factsAt_known h
  have hsub : (reviewed (visibleTo role ctx) facts).Sublist facts :=
    (List.take_sublist _ _).trans List.filter_sublist
  refine ⟨⟨role, hrole, rfl⟩, fun f hf => ⟨hknown f (hsub.subset hf), ?_⟩,
    hdistinct.sublist (hsub.map _), ⟨entityId, fun f hf => hentity f (hsub.subset hf)⟩, hmany,
    List.length_take_le _ _⟩
  have hmem := (List.mem_filter.mp ((List.take_sublist _ _).subset hf)).2
  exact List.contains_iff_mem.mp hmem

theorem byLabel_eq_some {facts : List ResolvedFact} {label : String} {f : ResolvedFact} :
    byLabel facts label = some f ↔ ∃ i, facts[i]? = some f ∧ label = factLabel (i + 1) := by
  unfold byLabel
  rw [Option.map_eq_some_iff]
  constructor
  · rintro ⟨⟨g, n⟩, hfind, rfl⟩
    have hmem := List.mem_of_find?_eq_some hfind
    have hlabel := List.find?_some hfind
    obtain ⟨i, hi⟩ := List.mem_iff_getElem?.mp hmem
    rw [List.getElem?_zipIdx, Option.map_eq_some_iff] at hi
    obtain ⟨g', hg', hpair⟩ := hi
    obtain ⟨rfl, rfl⟩ := Prod.mk.inj hpair
    refine ⟨i, hg', ?_⟩
    rw [Nat.add_comm]
    exact (beq_iff_eq.mp hlabel).symm
  · rintro ⟨i, hi, rfl⟩
    refine ⟨(f, i + 1), ?_, rfl⟩
    obtain ⟨hlt, rfl⟩ := List.getElem?_eq_some_iff.mp hi
    have hlt' : i < (facts.zipIdx 1).length := by simpa using hlt
    rw [List.find?_eq_some_iff_getElem]
    refine ⟨by simp, i, hlt', by simp [Nat.add_comm], fun j hj => ?_⟩
    have hne : factLabel (1 + j) ≠ factLabel (i + 1) := by
      intro hsame
      have := factLabel_injective hsame
      omega
    simpa using hne

theorem accept_eq_some {facts : List ResolvedFact} {finding : Finding} {a : Accepted} :
    accept facts finding = some a ↔ ∃ i j, facts[i]? = some a.left ∧ facts[j]? = some a.right ∧
      finding = ⟨factLabel (i + 1), factLabel (j + 1), a.explanation⟩ ∧
        a.left.factId ≠ a.right.factId := by
  obtain ⟨left, right, explanation⟩ := finding
  obtain ⟨f, g, text⟩ := a
  unfold accept
  constructor
  · intro h
    split at h
    · rename_i f' g' hleft hright
      split_ifs at h with hne
      cases h
      obtain ⟨i, hi, hlabel⟩ := byLabel_eq_some.mp hleft
      obtain ⟨j, hj, hlabel'⟩ := byLabel_eq_some.mp hright
      refine ⟨i, j, hi, hj, ?_, hne⟩
      rw [Finding.mk.injEq]
      exact ⟨hlabel, hlabel', rfl⟩
    · exact absurd h (by simp)
  · rintro ⟨i, j, hi, hj, hfinding, hne⟩
    obtain ⟨rfl, rfl, rfl⟩ := Finding.mk.inj hfinding
    rw [byLabel_eq_some.mpr ⟨i, hi, rfl⟩, byLabel_eq_some.mpr ⟨j, hj, rfl⟩]
    exact if_neg hne

/-- A finding counts when it names two of the supplied labels. -/
theorem accept_isSome_iff {facts : List ResolvedFact}
    (hdistinct : (facts.map ResolvedFact.factId).Nodup) (finding : Finding) :
    (accept facts finding).isSome = true ↔ ∃ i j, i < facts.length ∧ j < facts.length ∧ i ≠ j ∧
      finding.left = factLabel (i + 1) ∧ finding.right = factLabel (j + 1) := by
  rw [Option.isSome_iff_exists]
  constructor
  · rintro ⟨a, ha⟩
    obtain ⟨i, j, hi, hj, rfl, hne⟩ := accept_eq_some.mp ha
    obtain ⟨hilt, hleft⟩ := List.getElem?_eq_some_iff.mp hi
    obtain ⟨hjlt, hright⟩ := List.getElem?_eq_some_iff.mp hj
    refine ⟨i, j, hilt, hjlt, ?_, rfl, rfl⟩
    rintro rfl
    rw [← hleft, ← hright] at hne
    exact hne rfl
  · rintro ⟨i, j, hi, hj, hij, hleft, hright⟩
    refine ⟨⟨facts[i], facts[j], finding.explanation⟩, accept_eq_some.mpr ⟨i, j,
      List.getElem?_eq_getElem hi, List.getElem?_eq_getElem hj, ?_, fun hsame => hij ?_⟩⟩
    · rw [← hleft, ← hright]
    · have hi' : i < (facts.map ResolvedFact.factId).length := by simpa using hi
      have hj' : j < (facts.map ResolvedFact.factId).length := by simpa using hj
      have hget : (facts.map ResolvedFact.factId)[i] = (facts.map ResolvedFact.factId)[j] := by
        simpa using hsame
      exact hdistinct.getElem_inj_iff.mp hget

theorem length_accepted (facts : List ResolvedFact) (findings : List Finding) :
    (accepted facts findings).length + rejected facts findings = findings.length := by
  unfold accepted rejected
  induction findings with
  | nil => rfl
  | cons finding findings ih =>
    cases h : accept facts finding with
    | none =>
      rw [List.filterMap_cons_none h, List.countP_cons_of_pos (by simp [h]), List.length_cons]
      omega
    | some a =>
      rw [List.filterMap_cons_some h, List.countP_cons_of_neg (by simp [h]), List.length_cons,
        List.length_cons]
      omega

/-- What a transaction that stores findings has done; `rows` are those that it sees. -/
structure Tallied (rows : List ContradictionRow) (ctx : TenantContext) (work : Storing)
    (todo : List Accepted) : Prop where
  finished : ∃ finished, accepted work.facts work.findings = finished ++ todo ∧
    finished.length = work.created.length + work.known ∧
      ∀ a ∈ finished, ∃ row ∈ rows, row.pair = a.pair ctx.organizationId
  stored : ∀ row ∈ work.rows, ∃ a ∈ accepted work.facts work.findings, ∃ id,
    row = semanticRow ctx a id work.now
  created : work.created.map ContradictionView.id = work.rows.map ContradictionRow.id

theorem Tallied.mono {rows rows' : List ContradictionRow} {ctx : TenantContext} {work : Storing}
    {todo : List Accepted} (hrows : ∀ row ∈ rows, ∃ row' ∈ rows', row'.pair = row.pair)
    (h : Tallied rows ctx work todo) : Tallied rows' ctx work todo := by
  obtain ⟨finished, haccepted, hlength, hpairs⟩ := h.finished
  refine ⟨⟨finished, haccepted, hlength, fun a ha => ?_⟩, h.stored, h.created⟩
  obtain ⟨row, hrow, hpair⟩ := hpairs a ha
  obtain ⟨row', hrow', hsame⟩ := hrows row hrow
  exact ⟨row', hrow', hsame.trans hpair⟩

/-- One more finding has a row. -/
theorem Tallied.next {rows : List ContradictionRow} {ctx : TenantContext} {work work' : Storing}
    {found : Accepted} {todo : List Accepted} (h : Tallied rows ctx work (found :: todo))
    (hfacts : work'.facts = work.facts) (hfindings : work'.findings = work.findings)
    (hcount : work'.created.length + work'.known = work.created.length + work.known + 1)
    (hfound : ∃ row ∈ rows, row.pair = found.pair ctx.organizationId)
    (hstored : ∀ row ∈ work'.rows, ∃ a ∈ accepted work.facts work.findings, ∃ id,
      row = semanticRow ctx a id work'.now)
    (hcreated : work'.created.map ContradictionView.id = work'.rows.map ContradictionRow.id) :
    Tallied rows ctx work' todo := by
  obtain ⟨finished, haccepted, hlength, hpairs⟩ := h.finished
  refine ⟨⟨finished ++ [found], ?_, ?_, fun a ha => ?_⟩, ?_, hcreated⟩
  · rw [hfacts, hfindings, haccepted, List.append_assoc, List.singleton_append]
  · rw [List.length_append, List.length_singleton, hlength, hcount]
  · rcases List.mem_append.mp ha with ha | ha
    · exact hpairs a ha
    · rw [List.mem_singleton.mp ha]
      exact hfound
  · rw [hfacts, hfindings]
    exact hstored

theorem pair_semanticRow (ctx : TenantContext) (a : Accepted) (id : Uuid) (now : Instant) :
    (semanticRow ctx a id now).pair = a.pair ctx.organizationId := by
  simp only [ContradictionRow.pair, semanticRow, Accepted.pair]

/-- A finding that had no row gets one. -/
theorem Tallied.insert {rows : List ContradictionRow} {ctx : TenantContext} {work : Storing}
    {found : Accepted} {todo : List Accepted} {row : ContradictionRow} {shown : ContradictionView}
    {id : Uuid} (h : Tallied (rows ++ work.rows) ctx work (found :: todo))
    (hrow : row = semanticRow ctx found id work.now) (hshown : shown.id = row.id) :
    Tallied (rows ++ (work.rows ++ [row])) ctx
      { work with rows := work.rows ++ [row], created := work.created ++ [shown] } todo := by
  have hfound : found ∈ accepted work.facts work.findings := by
    obtain ⟨finished, haccepted, -, -⟩ := h.finished
    rw [haccepted]
    exact List.mem_append_right _ List.mem_cons_self
  have hpair : row.pair = found.pair ctx.organizationId := by rw [hrow, pair_semanticRow]
  have hmore : ∀ old ∈ rows ++ work.rows, ∃ row' ∈ rows ++ (work.rows ++ [row]),
      row'.pair = old.pair := by
    intro old hold
    rw [← List.append_assoc]
    exact ⟨old, List.mem_append_left _ hold, rfl⟩
  refine (h.mono hmore).next rfl rfl ?_ ?_ ?_ ?_
  · show (work.created ++ [shown]).length + work.known = _
    rw [List.length_append, List.length_singleton, Nat.add_right_comm]
  · exact ⟨row, List.mem_append_right _ (List.mem_append_right _ List.mem_cons_self), hpair⟩
  · intro old hold
    rcases List.mem_append.mp hold with hold | hold
    · exact h.stored old hold
    · exact ⟨found, hfound, id, (List.mem_singleton.mp hold).trans hrow⟩
  · rw [List.map_append, List.map_append, h.created, List.map_singleton, List.map_singleton, hshown]

/-- What a review knows at each of its phases. -/
def ReviewOk (w : World) : Review → Prop
  | ⟨_, _, _, .reading role⟩ => hasPermission role .readFacts = true
  | ⟨_, _, _, .allowed role⟩ => hasPermission role .readFacts = true
  | ⟨ctx, _, _, .supplied visible facts⟩ => Supply w.base.db ctx visible facts
  | ⟨ctx, _, _, .answered visible facts _ _⟩ => Supply w.base.db ctx visible facts
  | ⟨ctx, _, _, .storing work⟩ => Supply w.base.db ctx work.visible work.facts ∧
      Tallied (w.rows ++ work.rows) ctx work work.todo
  | ⟨ctx, _, _, .missed work found⟩ => Supply w.base.db ctx work.visible work.facts ∧
      Tallied (w.rows ++ work.rows) ctx work (found :: work.todo) ∧
        ∀ row ∈ work.rows, row.pair ≠ found.pair ctx.organizationId
  | ⟨ctx, entityType, externalId, .done work result⟩ =>
      Supply w.base.db ctx work.visible work.facts ∧ Tallied w.rows ctx work [] ∧
        (∀ row ∈ work.rows, Later w row) ∧
          result = work.result ⟨ctx, entityType, externalId, .storing work⟩
  | _ => True

theorem exists_pair_of_later {w : World} {row : ContradictionRow} (h : Later w row) :
    ∃ row' ∈ w.rows, row'.pair = row.pair := by
  rcases h with hrow | ⟨-, request, now, shown, hrow, -⟩
  · exact ⟨row, hrow, rfl⟩
  · exact ⟨request.close row now, hrow, rfl⟩

theorem ReviewOk.later {w w' : World} (hext : Extends w.base.db w'.base.db)
    (hlater : ∀ row, Later w row → Later w' row) {review : Review} (h : ReviewOk w review) :
    ReviewOk w' review := by
  have hrows : ∀ row ∈ w.rows, ∃ row' ∈ w'.rows, row'.pair = row.pair :=
    fun row hrow => exists_pair_of_later (hlater row (Or.inl hrow))
  have happend (own : List ContradictionRow) :
      ∀ row ∈ w.rows ++ own, ∃ row' ∈ w'.rows ++ own, row'.pair = row.pair := by
    intro row hrow
    rcases List.mem_append.mp hrow with hrow | hrow
    · obtain ⟨row', hrow', hpair⟩ := hrows row hrow
      exact ⟨row', List.mem_append_left _ hrow', hpair⟩
    · exact ⟨row, List.mem_append_right _ hrow, rfl⟩
  obtain ⟨ctx, entityType, externalId, phase⟩ := review
  cases phase with
  | begun => trivial
  | reading role => exact h
  | allowed role => exact h
  | supplied visible facts => exact Supply.extends hext h
  | answered visible facts model findings => exact Supply.extends hext h
  | storing work => exact ⟨h.1.extends hext, h.2.mono (happend work.rows)⟩
  | missed work found =>
    exact ⟨h.1.extends hext, h.2.1.mono (happend work.rows), h.2.2⟩
  | done work result =>
    exact ⟨h.1.extends hext, h.2.1.mono hrows, fun row hrow => hlater row (h.2.2.1 row hrow),
      h.2.2.2⟩
  | nothing result => trivial
  | failed failure => trivial
  | aborted => trivial

theorem view_id {db : Database} {row : ContradictionRow} {shown : ContradictionView}
    (h : view db db row = some shown) : shown.id = row.id := by
  obtain ⟨left, -, h⟩ := Option.bind_eq_some_iff.mp h
  obtain ⟨right, -, h⟩ := Option.bind_eq_some_iff.mp h
  obtain rfl := Option.some.inj h
  rfl

/-- One move of a review. -/
theorem ReviewOk.moved {rt : Runtime} {w : World} {review : Review} {m : ReviewMove}
    {phase : ReviewPhase} (h : ReviewOk w review)
    (hmoved : Reviewing rt w.base.db w.rows review m phase) :
    ReviewOk w { review with phase } := by
  obtain ⟨ctx, entityType, externalId, old⟩ := review
  cases hmoved with
  | reading role hphase hrole =>
    obtain ⟨user, membership, -, -, -, hpermission, -, rfl⟩ := requirePermission_eq_ok.mp hrole
    exact hpermission
  | allowed role hphase =>
    obtain rfl := hphase
    exact h
  | nothing => trivial
  | supplied role clock facts hphase hfacts hmany =>
    obtain rfl := hphase
    exact supply_reviewed h hfacts hmany
  | answered visible facts content model findings hphase =>
    obtain rfl := hphase
    exact h
  | started visible facts model findings now hphase =>
    obtain rfl := hphase
    refine ⟨h, ⟨⟨[], rfl, rfl, fun a ha => absurd ha List.not_mem_nil⟩,
      fun row hrow => absurd hrow List.not_mem_nil, rfl⟩⟩
  | known work found todo hphase htodo hknown =>
    obtain rfl := hphase
    obtain ⟨hsupply, htallied⟩ := h
    rw [htodo] at htallied
    refine ⟨hsupply, htallied.next rfl rfl ?_ hknown htallied.stored htallied.created⟩
    rw [Nat.add_assoc]
  | missed work found todo hphase htodo hmissed =>
    obtain rfl := hphase
    obtain ⟨hsupply, htallied⟩ := h
    rw [htodo] at htallied
    exact ⟨hsupply, ⟨htallied.finished, htallied.stored, htallied.created⟩,
      fun row hrow => hmissed row (List.mem_append_right _ hrow)⟩
  | stored work found id shown hphase hfree hshown =>
    obtain rfl := hphase
    obtain ⟨hsupply, htallied, -⟩ := h
    exact ⟨hsupply, htallied.insert rfl (view_id hshown)⟩
  | failed => trivial
  | aborted => trivial

/-- The commit of a review. -/
theorem ReviewOk.committed {w w' : World} {ctx : TenantContext} {entityType externalId : String}
    {work : Storing} (h : ReviewOk w ⟨ctx, entityType, externalId, .storing work⟩)
    (htodo : work.todo = []) (hbase : w'.base = w.base) (hrows : w'.rows = w.rows ++ work.rows) :
    ReviewOk w' ⟨ctx, entityType, externalId,
      .done work (work.result ⟨ctx, entityType, externalId, .storing work⟩)⟩ := by
  obtain ⟨hsupply, htallied⟩ := h
  rw [htodo] at htallied
  refine ⟨?_, ?_, fun row hrow => Or.inl ?_, rfl⟩
  · rw [hbase]
    exact hsupply
  · rw [hrows]
    exact htallied
  · rw [hrows]
    exact List.mem_append_right _ hrow

theorem extends_step_world {rt : Runtime} {w w' : World} {a : Action} (h : step rt w a = some w') :
    Extends w.base.db w'.base.db := by
  cases step_cases h with
  | recorders e rowId base hfresh hstep => exact extends_step hstep
  | others users memberships =>
    exact ⟨fun v hv => ⟨v, hv, SameClaim.refl v⟩, fun _ h => h, fun _ h => h, fun _ h => h⟩
  | closeBegun => exact Extends.refl _
  | closeMoved => exact Extends.refl _
  | closeCommitted => exact Extends.refl _
  | reviewBegun => exact Extends.refl _
  | reviewMoved => exact Extends.refl _
  | reviewCommitted => exact Extends.refl _

theorem not_done_moved {rt : Runtime} {db : Database} {rows : List ContradictionRow}
    {review : Review} {m : ReviewMove} {phase : ReviewPhase}
    (hmoved : Reviewing rt db rows review m phase) (work : Storing) (result : ReviewResult) :
    review.phase ≠ .done work result := by
  intro hdone
  cases hmoved with
  | reading role hphase => exact absurd (hphase.symm.trans hdone) (by simp)
  | allowed role hphase => exact absurd (hphase.symm.trans hdone) (by simp)
  | nothing role clock result hphase => exact absurd (hphase.symm.trans hdone) (by simp)
  | supplied role clock facts hphase => exact absurd (hphase.symm.trans hdone) (by simp)
  | answered visible facts content model findings hphase =>
    exact absurd (hphase.symm.trans hdone) (by simp)
  | started visible facts model findings now hphase =>
    exact absurd (hphase.symm.trans hdone) (by simp)
  | known work found todo hphase => exact absurd (hphase.symm.trans hdone) (by simp)
  | missed work found todo hphase => exact absurd (hphase.symm.trans hdone) (by simp)
  | stored work found id shown hphase => exact absurd (hphase.symm.trans hdone) (by simp)
  | failed failure hopen =>
    rw [hdone] at hopen
    exact absurd hopen (by simp [ReviewPhase.isOpen])
  | aborted hopen =>
    rw [hdone] at hopen
    exact absurd hopen (by simp [ReviewPhase.isOpen])

/-- A row that a model suggested belongs to a review that returned. -/
def Owned (w : World) (row : ContradictionRow) : Prop :=
  ∃ review ∈ w.reviews, ∃ work result, review.phase = .done work result ∧
    ∃ stored ∈ work.rows, stored.id = row.id

structure Reviewed (w : World) : Prop where
  lawful : Lawful w
  reviews : ∀ review ∈ w.reviews, ReviewOk w review
  owned : ∀ row ∈ w.rows, row.kind = .semantic → Owned w row

theorem reviewed_start {w : World} (h : Start w) : Reviewed w := by
  refine ⟨lawful_start h, ?_, ?_⟩
  · rw [h.reviews]
    exact fun review hreview => absurd hreview List.not_mem_nil
  · rw [h.rows]
    exact fun row hrow => absurd hrow List.not_mem_nil

theorem reviewOk_step {rt : Runtime} {w w' : World} {a : Action} (hw : Reviewed w)
    (h : step rt w a = some w') : ∀ review ∈ w'.reviews, ReviewOk w' review := by
  have hkept : ∀ review ∈ w.reviews, ReviewOk w' review := fun review hreview =>
    (hw.reviews review hreview).later (extends_step_world h) fun _ => later_step hw.lawful h
  cases step_cases h with
  | recorders => exact hkept
  | others => exact hkept
  | closeBegun => exact hkept
  | closeMoved => exact hkept
  | closeCommitted => exact hkept
  | reviewBegun ctx entityType externalId =>
    intro review hreview
    rcases List.mem_append.mp hreview with hreview | hreview
    · exact hkept review hreview
    · rw [List.mem_singleton.mp hreview]
      trivial
  | reviewMoved i m review phase hreview hready hmoved =>
    intro other hother
    rcases Processes.mem_set_cases hother with rfl | ⟨j, -, hj⟩
    · exact (hw.reviews review (List.mem_of_getElem? hreview)).moved hmoved
    · exact hkept other (List.mem_of_getElem? hj)
  | reviewCommitted i review work hreview hphase htodo =>
    intro other hother
    rcases Processes.mem_set_cases hother with rfl | ⟨j, -, hj⟩
    · have hok := hw.reviews review (List.mem_of_getElem? hreview)
      obtain ⟨ctx, entityType, externalId, old⟩ := review
      obtain rfl : old = .storing work := hphase
      exact hok.committed htodo rfl rfl
    · exact hkept other (List.mem_of_getElem? hj)

theorem Owned.reviews {w w' : World} {row : ContradictionRow} (h : Owned w row)
    (hkept : ∀ review ∈ w.reviews, ∀ work result, review.phase = .done work result →
      review ∈ w'.reviews) : Owned w' row := by
  obtain ⟨review, hreview, work, result, hphase, hstored⟩ := h
  exact ⟨review, hkept review hreview work result hphase, work, result, hphase, hstored⟩

theorem owned_step {rt : Runtime} {w w' : World} {a : Action} (hw : Reviewed w)
    (h : step rt w a = some w') : ∀ row ∈ w'.rows, row.kind = .semantic → Owned w' row := by
  cases step_cases h with
  | recorders e rowId base hfresh hstep =>
    intro row hrow hkind
    rcases List.mem_append.mp hrow with hrow | hrow
    · exact (hw.owned row hrow hkind).reviews fun review hreview _ _ _ => hreview
    · rcases newRows_cases w.base e rowId with hnone | ⟨k, ctx, now, d, write, c, -, -, -, hone⟩
      · rw [hnone] at hrow
        exact absurd hrow List.not_mem_nil
      · rw [hone] at hrow
        rw [List.mem_singleton.mp hrow] at hkind
        exact absurd hkind (by simp [valueConflictRow])
  | others => exact hw.owned
  | closeBegun => exact hw.owned
  | closeMoved => exact hw.owned
  | closeCommitted i request row shown hcloser =>
    intro other hother hkind
    obtain ⟨-, old, hold, -, hid, ⟨now, hclose⟩, -⟩ := seen_old hw.lawful hcloser
    obtain ⟨before, hbefore, rfl⟩ := List.mem_map.mp hother
    by_cases hsame : before.id = row.id
    · rw [if_pos hsame] at hkind ⊢
      rw [hclose] at hkind
      obtain ⟨review, hreview, work, result, hphase, stored, hstored, hstoredId⟩ :=
        hw.owned old hold hkind
      exact ⟨review, hreview, work, result, hphase, stored, hstored, hstoredId.trans hid⟩
    · rw [if_neg hsame] at hkind ⊢
      exact hw.owned before hbefore hkind
  | reviewBegun ctx entityType externalId =>
    intro row hrow hkind
    exact (hw.owned row hrow hkind).reviews fun review hreview _ _ _ =>
      List.mem_append_left _ hreview
  | reviewMoved i m review phase hreview hready hmoved =>
    intro row hrow hkind
    refine (hw.owned row hrow hkind).reviews fun other hother work result hdone =>
      Processes.mem_set_of_ne hreview hother ?_
    rintro rfl
    exact not_done_moved hmoved work result hdone
  | reviewCommitted i review work hreview hphase htodo =>
    intro row hrow hkind
    rcases List.mem_append.mp hrow with hrow | hrow
    · refine (hw.owned row hrow hkind).reviews fun other hother work' result hdone =>
        Processes.mem_set_of_ne hreview hother ?_
      rintro rfl
      rw [hphase] at hdone
      exact absurd hdone (by simp)
    · obtain ⟨hi, -⟩ := List.getElem?_eq_some_iff.mp hreview
      exact ⟨_, List.mem_iff_getElem?.mpr ⟨i, List.getElem?_set_self hi⟩, work, _, rfl, row, hrow,
        rfl⟩

theorem reviewed_step {rt : Runtime} {w w' : World} {a : Action} (hw : Reviewed w)
    (h : step rt w a = some w') : Reviewed w' :=
  ⟨lawful_step hw.lawful h, reviewOk_step hw h, owned_step hw h⟩

theorem reviewed_reachable {rt : Runtime} {w : World} (h : (system rt).Reachable w) : Reviewed w :=
  (system rt).reachable_invariant Reviewed (fun _ => reviewed_start)
    (fun _ _ _ hw hstep => reviewed_step hw hstep) h

/-- What a review that returned has done with the answer of the model. -/
structure Accounted (w : World) (ctx : TenantContext) (work : Storing) (result : ReviewResult) :
    Prop where
  supply : Supply w.base.db ctx work.visible work.facts
  factsReviewed : result.factsReviewed = work.facts.length
  total : result.created.length + result.alreadyKnown + result.rejectedFindings =
    work.findings.length
  named : ∀ finding ∈ work.findings, (accept work.facts finding).isSome = true ↔
    ∃ i j, i < work.facts.length ∧ j < work.facts.length ∧ i ≠ j ∧
      finding.left = factLabel (i + 1) ∧ finding.right = factLabel (j + 1)
  recorded : ∀ a ∈ accepted work.facts work.findings,
    ∃ row ∈ w.rows, row.pair = a.pair ctx.organizationId
  created : ∀ shown ∈ result.created, ∃ a ∈ accepted work.facts work.findings,
    Later w (semanticRow ctx a shown.id work.now)

/-- Every finding of a review that returned was turned into a row, found to have one, or
rejected, which it is exactly when it does not name two of the facts supplied; and every row
that a model suggested comes from such a review. -/
theorem reviews_accounted {rt : Runtime} {w : World} (hw : (system rt).Reachable w) :
    (∀ review ∈ w.reviews, ∀ work result, review.phase = .done work result →
      Accounted w review.ctx work result) ∧
        ∀ row ∈ w.rows, row.kind = .semantic → Owned w row := by
  have hreviewed := reviewed_reachable hw
  refine ⟨fun review hreview work result hphase => ?_, hreviewed.owned⟩
  have hok := hreviewed.reviews review hreview
  obtain ⟨ctx, entityType, externalId, phase⟩ := review
  obtain rfl : phase = .done work result := hphase
  obtain ⟨hsupply, htallied, hlater, rfl⟩ := hok
  obtain ⟨finished, haccepted, hlength, hpairs⟩ := htallied.finished
  rw [List.append_nil] at haccepted
  refine ⟨hsupply, rfl, ?_, fun finding _ => accept_isSome_iff hsupply.distinct finding, ?_, ?_⟩
  · have htotal := length_accepted work.facts work.findings
    rw [haccepted, hlength] at htotal
    exact htotal
  · rw [haccepted]
    exact hpairs
  · intro shown hshown
    have hid : shown.id ∈ work.rows.map ContradictionRow.id := by
      rw [← htallied.created]
      exact List.mem_map_of_mem hshown
    obtain ⟨row, hrow, hrowId⟩ := List.mem_map.mp hid
    obtain ⟨a, ha, id, rfl⟩ := htallied.stored row hrow
    obtain rfl : id = shown.id := hrowId
    exact ⟨a, ha, hlater _ hrow⟩

/-- The customer has two facts. -/
def exampleFacts : List Action :=
  (Concurrent.exampleRecord 0 (exampleCommand true 0) 10 ⟨10, 11, 12⟩ ++
    Concurrent.exampleRecord 1 { exampleCommand true 5 with property := "closed" } 30
      ⟨20, 21, 22⟩).map fun e => .base e 39

def exampleAnswer : String :=
  "\x7b\"findings\": [\x7b\"left\": \"F2\", \"right\": \"F1\", \"explanation\": \"active and closed\"\x7d, " ++
    "\x7b\"left\": \"F1\", \"right\": \"F3\", \"explanation\": \"no such fact\"\x7d]\x7d"

/-- The model names two facts that exclude each other, and one that was not supplied. -/
def exampleReview : List Action :=
  [.beginReview exampleContext "customer" "c-1", .moveReview 0 .read, .moveReview 0 .allow,
   .moveReview 0 (.supply 40), .moveReview 0 (.answer (.message exampleAnswer "model-1")),
   .moveReview 0 (.begin 41), .moveReview 0 .select, .moveReview 0 (.insert 50), .commitReview 0]

/-- One finding has a row, the other was rejected. -/
def exampleReviewed (w : World) : Bool :=
  decide ((w.rows.map fun row => (row.id, row.leftVersionId, row.rightVersionId)) =
    [(50, 12, 22)]) &&
      w.reviews.any fun review => match review.phase with
        | .done _ result => result.created.length == 1 && result.rejectedFindings == 1
        | _ => false

theorem exampleReview_runs : ((system exampleRuntime).run ContradictionOrder.exampleWorld
    (exampleFacts ++ exampleReview)).any exampleReviewed = true := by
  decide +kernel

theorem reviews_accounted_example : ∃ w, exampleReviewed w = true ∧
    (∀ review ∈ w.reviews, ∀ work result, review.phase = .done work result →
      Accounted w review.ctx work result) ∧ ∀ row ∈ w.rows, row.kind = .semantic → Owned w row := by
  obtain ⟨w, hrun, hend⟩ := (Option.any_eq_true _ _).mp exampleReview_runs
  exact ⟨w, hend, reviews_accounted ⟨_, _, ContradictionOrder.exampleWorld_start, hrun⟩⟩

end ContextLedger.ContradictionReviews
