import ContextLedger.ContradictionPairs
import ContextLedger.Rankings

/-!
What readers see of the contradictions. A reader is permitted, then the rows are selected,
and then the two sides of each are read one after the other; anything may happen in between.
Nobody sees a contradiction without the right to see both of its versions.
-/
namespace ContextLedger.ContradictionViews

open Values Authorization FactRules Schema Facts Contradictions VersionTable TemporalEngine
open Reference ContradictionRows ContradictionClaims ContradictionWorld ContradictionSteps
open ContradictionOrder ContradictionReviews ContradictionPairs
open AdminPresence (requirePermission_eq_ok)

def maxList : ℤ := 200

structure ListRequest where
  status : Option ContradictionStatus
  entityType : Option String
  externalId : Option String
  limit : ℤ

/-- `WHERE`; the entity of a row is one row of the join. -/
def ListRequest.selects (request : ListRequest) (db : Database) (org : Uuid)
    (visible : List PrivacyScope) (row : ContradictionRow) : Bool :=
  row.organizationId == org && visible.contains row.privacyScope &&
    (request.status.all fun status => row.status == status) &&
      db.entities.any fun e => e.organizationId == row.organizationId && e.id == row.entityId &&
        (request.entityType.all fun text => e.entityType == text) &&
          request.externalId.all fun text => e.externalId == text

/-- `ORDER BY detected_at DESC, id`. -/
def NewestFirst (a b : ContradictionRow) : Prop :=
  b.detectedAt < a.detectedAt ∨ (b.detectedAt = a.detectedAt ∧ a.id.toNat ≤ b.id.toNat)

instance : DecidableRel NewestFirst := fun _ _ => inferInstanceAs (Decidable (_ ∨ (_ ∧ _)))

instance : Std.Total NewestFirst where
  total a b := by
    unfold NewestFirst
    rcases lt_trichotomy a.detectedAt b.detectedAt with h | h | h
    · exact Or.inr (Or.inl h)
    · rcases Nat.le_total a.id.toNat b.id.toNat with hid | hid
      · exact Or.inl (Or.inr ⟨h.symm, hid⟩)
      · exact Or.inr (Or.inr ⟨h, hid⟩)
    · exact Or.inl (Or.inl h)

instance : IsTrans ContradictionRow NewestFirst where
  trans a b c := by
    unfold NewestFirst
    rintro (hab | ⟨hab, hid⟩) (hbc | ⟨hbc, hid'⟩)
    · exact Or.inl (hbc.trans hab)
    · exact Or.inl (hbc ▸ hab)
    · exact Or.inl (hab ▸ hbc)
    · exact Or.inr ⟨hbc.trans hab, hid.trans hid'⟩

def ListRequest.rows (request : ListRequest) (w : World) (org : Uuid)
    (visible : List PrivacyScope) : List ContradictionRow :=
  ((w.rows.filter (request.selects w.base.db org visible)).insertionSort NewestFirst).take
    request.limit.toNat

/-- The states that the statements of a read see; `sides` are those that the sides of the
first row, the second and so on see. -/
structure Stages where
  permitted : World
  selected : World
  sides : ℕ → World × World

def Stages.view (stages : Stages) (row : ContradictionRow) (i : ℕ) : Result ContradictionView :=
  match ContradictionRows.view (stages.sides i).1.base.db (stages.sides i).2.base.db row with
  | some shown => .ok shown
  | none => .error .notOneRow

def listContradictions (stages : Stages) (ctx : TenantContext) (request : ListRequest) :
    Result (List ContradictionView) := do
  if ¬(1 ≤ request.limit ∧ request.limit ≤ maxList) then
    validationFailed "limit must be between 1 and 200"
  else
    let role ← requirePermission stages.permitted.base.db ctx .readFacts
    if (request.entityType.any Jsonb.hasNul || request.externalId.any Jsonb.hasNul) then
      .error .unstorableText
    else
      let rows := request.rows stages.selected ctx.organizationId (visibleTo role ctx)
      (rows.zipIdx).mapM fun e => stages.view e.1 e.2

def get (stages : Stages) (ctx : TenantContext) (contradictionId : Uuid) :
    Result ContradictionView := do
  let role ← requirePermission stages.permitted.base.db ctx .readFacts
  match selectRow stages.selected.rows ctx.organizationId contradictionId (visibleTo role ctx) with
  | none => notFound "contradiction not found"
  | some row => stages.view row 0

/-- The statements run in this order; anything may happen in between. -/
structure Reading (rt : Runtime) extends Stages where
  reachable : (system rt).Reachable permitted
  toSelected : ∃ trace, (system rt).run permitted trace = some selected
  toFirst : ∀ i, ∃ trace, (system rt).run selected trace = some (sides i).1
  toSecond : ∀ i, ∃ trace, (system rt).run (sides i).1 trace = some (sides i).2

variable {rt : Runtime}

theorem mem_visible_iff (role : MembershipRole) (ceilings : List (Option PrivacyScope)) :
    ∃ n, ∀ scope, scope ∈ visiblePrivacyScopes role ceilings ↔ privacyRank scope ≤ n := by
  unfold visiblePrivacyScopes
  generalize ceilings.foldl _ _ = n
  refine ⟨n, fun scope => ?_⟩
  rw [List.mem_take_iff_getElem]
  constructor
  · rintro ⟨i, hi, hscope⟩
    rw [privacyRank_of_getElem? (List.getElem?_eq_some_iff.mpr ⟨by omega, hscope⟩)]
    omega
  · intro hrank
    refine ⟨privacyRank scope, ?_, ?_⟩
    · cases scope <;> simp [privacyRank, privacyOrder] at hrank ⊢ <;> omega
    · cases scope <;> rfl

/-- Both versions are visible exactly when the scope of their row is. -/
theorem widerScope_visible_iff {role : MembershipRole} {ctx : TenantContext} {a b : PrivacyScope} :
    widerScope a b ∈ visibleTo role ctx ↔ a ∈ visibleTo role ctx ∧ b ∈ visibleTo role ctx := by
  obtain ⟨n, hn⟩ := mem_visible_iff role [ctx.maxPrivacyScope]
  unfold visibleTo
  rw [hn, hn, hn]
  unfold widerScope
  split_ifs with hlt <;> omega

/-- What a side shows of a version. -/
structure ShowsSide (db : Database) (org versionId : Uuid) (visible : List PrivacyScope)
    (side : ContradictionSide) : Prop where
  version : ∃ v ∈ db.versions, v.organizationId = org ∧ v.id = versionId ∧
    side.version = toSnapshot v ∧ side.factId = v.factId ∧ side.sourceId = v.sourceId
  fact : ∃ f ∈ db.facts, f.organizationId = org ∧ f.id = side.factId ∧ f.property = side.property
  source : ∃ s ∈ db.sources, s.organizationId = org ∧ s.id = side.sourceId ∧
    s.name = side.sourceName
  scope : side.version.privacyScope ∈ visible

/-- What a reader is shown for a row: the row, its entity, and its versions when they are read. -/
structure Shown (stages : Stages) (visible : List PrivacyScope) (i : ℕ) (row : ContradictionRow)
    (shown : ContradictionView) : Prop where
  content : ∃ entity left right, shown = row.shown entity left right ∧
    entity.organizationId = row.organizationId ∧ entity.id = row.entityId
  left : ShowsSide (stages.sides i).1.base.db row.organizationId row.leftVersionId visible shown.left
  right : ShowsSide (stages.sides i).2.base.db row.organizationId row.rightVersionId visible
    shown.right

theorem getVersion_of_mem {db : Database} (hsound : Sound db) {v : FactVersion}
    (hv : v ∈ db.versions) : getVersion db v.organizationId v.id = some v := by
  cases hfind : getVersion db v.organizationId v.id with
  | none => simpa using List.find?_eq_none.mp hfind v hv
  | some v' =>
    have hkey := List.find?_some hfind
    rw [Bool.and_eq_true, beq_iff_eq, beq_iff_eq] at hkey
    rw [hsound.eq_of_id (List.mem_of_find?_eq_some hfind) hv hkey.2]

/-- Every committed version has a side. -/
theorem exists_side {db : Database} (hsound : Sound db) (hrooted : Rooted db) {v : FactVersion}
    (hv : v ∈ db.versions) {visible : List PrivacyScope} (hscope : v.privacyScope ∈ visible)
    {entityId : Uuid} (hentity : OfEntity db v entityId) :
    ∃ s e, side db v.organizationId v.id = some (s, e) ∧
      ShowsSide db v.organizationId v.id visible s ∧ e.organizationId = v.organizationId ∧
        e.id = entityId := by
  obtain ⟨g, hg, hgorg, hgid, hgentity⟩ := hentity
  cases hfact : getFact db v.organizationId v.factId with
  | none =>
    have hnot := List.find?_eq_none.mp hfact g hg
    simp [hgorg, hgid] at hnot
  | some f =>
    have hf := List.mem_of_find?_eq_some hfact
    have hfkey := List.find?_some hfact
    rw [Bool.and_eq_true, beq_iff_eq, beq_iff_eq] at hfkey
    obtain rfl : f = g :=
      List.inj_on_of_nodup_map hsound.factIds hf hg (hfkey.2.trans hgid.symm)
    obtain ⟨e₀, he₀, he₀org, he₀id⟩ := hrooted.entityOf f hf
    cases hfound : db.entities.find? fun e =>
        e.organizationId == v.organizationId && e.id == f.entityId with
    | none =>
      have hnot := List.find?_eq_none.mp hfound e₀ he₀
      simp [he₀org, he₀id, hgorg] at hnot
    | some e =>
      have hekey := List.find?_some hfound
      rw [Bool.and_eq_true, beq_iff_eq, beq_iff_eq] at hekey
      obtain ⟨s₀, hs₀, hs₀org, hs₀id⟩ := hrooted.sourceOf v hv
      cases hsource : getSource db v.organizationId v.sourceId with
      | none =>
        have hnot := List.find?_eq_none.mp hsource s₀ hs₀
        simp [hs₀org, hs₀id] at hnot
      | some s =>
        have hs := List.mem_of_find?_eq_some hsource
        have hskey := List.find?_some hsource
        rw [Bool.and_eq_true, beq_iff_eq, beq_iff_eq] at hskey
        refine ⟨⟨f.id, f.property, s.id, s.name, toSnapshot v⟩, e, ?_, ⟨?_, ?_, ?_, hscope⟩,
          hekey.1, hekey.2.trans hgentity⟩
        · unfold side
          rw [getVersion_of_mem hsound hv]
          simp only [Option.bind_eq_bind, Option.bind_some, hfact, hfound, hsource]
          rfl
        · exact ⟨v, hv, rfl, rfl, rfl, hgid, hskey.2⟩
        · exact ⟨f, hf, hgorg, rfl, rfl⟩
        · exact ⟨s, hs, hskey.1, rfl, rfl⟩

/-- The states of a read are reachable, and nothing is taken out on the way. -/
theorem Reading.extends (reading : Reading rt) (i : ℕ) :
    Extends reading.selected.base.db (reading.sides i).1.base.db ∧
      Extends (reading.sides i).1.base.db (reading.sides i).2.base.db := by
  have hrun {w w' : World} {trace : List Action} (h : (system rt).run w trace = some w') :
      Extends w.base.db w'.base.db := by
    refine (system rt).run_preserves (fun v => Extends w.base.db v.base.db)
      (fun v a v' hv hstep => ?_) h (Extends.refl _)
    exact hv.trans (extends_step_world hstep)
  obtain ⟨trace, htrace⟩ := reading.toFirst i
  obtain ⟨trace', htrace'⟩ := reading.toSecond i
  exact ⟨hrun htrace, hrun htrace'⟩

theorem Reading.selected_reachable (reading : Reading rt) :
    (system rt).Reachable reading.selected := by
  obtain ⟨trace, htrace⟩ := reading.toSelected
  exact reading.reachable.extend _ htrace

theorem Reading.sides_reachable (reading : Reading rt) (i : ℕ) :
    (system rt).Reachable (reading.sides i).1 ∧ (system rt).Reachable (reading.sides i).2 := by
  obtain ⟨trace, htrace⟩ := reading.toFirst i
  obtain ⟨trace', htrace'⟩ := reading.toSecond i
  have hfirst := reading.selected_reachable.extend _ htrace
  exact ⟨hfirst, hfirst.extend _ htrace'⟩

/-- A side is read in a later state than its row. -/
theorem exists_side_later {w w' : World} (hw' : (system rt).Reachable w')
    (hext : Extends w.base.db w'.base.db) {v : FactVersion} (hv : v ∈ w.base.db.versions)
    {visible : List PrivacyScope} (hscope : v.privacyScope ∈ visible) {entityId : Uuid}
    (hentity : OfEntity w.base.db v entityId) :
    ∃ s e, side w'.base.db v.organizationId v.id = some (s, e) ∧
      ShowsSide w'.base.db v.organizationId v.id visible s ∧
        e.organizationId = v.organizationId ∧ e.id = entityId := by
  have hgrounded := (paired_reachable hw').grounded
  obtain ⟨v', hv', hsame⟩ := hext.versions v hv
  have hscope' : v'.privacyScope ∈ visible := by
    rw [hsame.privacyScope]
    exact hscope
  have h := exists_side hgrounded.consistent.sound hgrounded.rooted hv' hscope'
    (hentity.extends hext hsame)
  rw [hsame.organizationId, hsame.id] at h
  exact h

/-- No view of a row that was selected fails, and it shows nothing that is not visible. -/
theorem view_of_selected (reading : Reading rt) (i : ℕ) {role : MembershipRole}
    {ctx : TenantContext} {row : ContradictionRow} (hrow : row ∈ reading.selected.rows)
    (hscope : row.privacyScope ∈ visibleTo role ctx) :
    ∃ shown, reading.toStages.view row i = .ok shown ∧
      Shown reading.toStages (visibleTo role ctx) i row shown := by
  obtain ⟨l, r, h⟩ := (contradictions_disputed reading.selected_reachable row hrow)
  obtain ⟨hfirst, hsecond⟩ := reading.extends i
  obtain ⟨hreach, hreach'⟩ := reading.sides_reachable i
  rw [h.scope, widerScope_visible_iff] at hscope
  obtain ⟨hl, hlorg, hlid⟩ := h.left
  obtain ⟨hr, hrorg, hrid⟩ := h.right
  obtain ⟨left, e, hleft, hshows, heorg, heid⟩ :=
    exists_side_later hreach hfirst hl hscope.1 h.entity.1
  obtain ⟨right, e', hright, hshows', -, -⟩ :=
    exists_side_later hreach' (hfirst.trans hsecond) hr hscope.2 h.entity.2
  rw [hlorg, hlid] at hleft hshows
  rw [hlorg] at heorg
  rw [hrorg, hrid] at hright hshows'
  refine ⟨row.shown e left right, ?_, ⟨e, left, right, rfl, heorg, heid⟩, hshows, hshows'⟩
  have hview : ContradictionRows.view (reading.sides i).1.base.db (reading.sides i).2.base.db row =
      some (row.shown e left right) := by
    unfold ContradictionRows.view
    rw [hleft, Option.bind_eq_bind, Option.bind_some, hright]
    rfl
  unfold Stages.view
  rw [hview]

/-- The row is of the reader's organization, and both of its versions are visible. -/
def Allowed (w : World) (org : Uuid) (visible : List PrivacyScope) (row : ContradictionRow) : Prop :=
  row.organizationId = org ∧ ∀ l r, Disputed w.base.db row l r →
    l.privacyScope ∈ visible ∧ r.privacyScope ∈ visible

theorem allowed_iff {w : World} (hw : (system rt).Reachable w) {role : MembershipRole}
    {ctx : TenantContext} {row : ContradictionRow} (hrow : row ∈ w.rows) :
    Allowed w ctx.organizationId (visibleTo role ctx) row ↔
      row.organizationId = ctx.organizationId ∧ row.privacyScope ∈ visibleTo role ctx := by
  refine and_congr_right fun _ => ⟨fun h => ?_, fun h l r hdisputed => ?_⟩
  · obtain ⟨l, r, hdisputed⟩ := contradictions_disputed hw row hrow
    rw [hdisputed.scope, widerScope_visible_iff]
    exact h l r hdisputed
  · rw [hdisputed.scope, widerScope_visible_iff] at h
    exact h

/-- The row has the status and the entity that the reader asks for. -/
structure Asked (db : Database) (request : ListRequest) (row : ContradictionRow) : Prop where
  status : ∀ status, request.status = some status → row.status = status
  entity : ∃ e ∈ db.entities, e.organizationId = row.organizationId ∧ e.id = row.entityId ∧
    (∀ text, request.entityType = some text → e.entityType = text) ∧
      ∀ text, request.externalId = some text → e.externalId = text

theorem selects_iff {request : ListRequest} {w : World} (hw : (system rt).Reachable w)
    {role : MembershipRole} {ctx : TenantContext} {row : ContradictionRow} (hrow : row ∈ w.rows) :
    request.selects w.base.db ctx.organizationId (visibleTo role ctx) row = true ↔
      Allowed w ctx.organizationId (visibleTo role ctx) row ∧ Asked w.base.db request row := by
  rw [allowed_iff hw hrow]
  simp only [ListRequest.selects, Bool.and_eq_true, beq_iff_eq, List.contains_iff_mem,
    List.any_eq_true, Option.all_eq_true]
  constructor
  · rintro ⟨⟨⟨horg, hscope⟩, hstatus⟩, e, he, ⟨⟨heorg, heid⟩, htype⟩, hexternal⟩
    exact ⟨⟨horg, hscope⟩, hstatus, e, he, heorg, heid, htype, hexternal⟩
  · rintro ⟨⟨horg, hscope⟩, hstatus, e, he, heorg, heid, htype, hexternal⟩
    exact ⟨⟨⟨horg, hscope⟩, hstatus⟩, e, he, ⟨⟨heorg, heid⟩, htype⟩, hexternal⟩

/-- What a list shows: of the rows that are asked for the newest ones, each as it is shown. -/
structure Listed (stages : Stages) (ctx : TenantContext) (visible : List PrivacyScope)
    (request : ListRequest) (rows : List ContradictionRow) (views : List ContradictionView) :
    Prop where
  shown : List.Forall₂ (fun e shown => Shown stages visible e.2 e.1 shown) rows.zipIdx views
  sorted : rows.Pairwise fun a b => NewestFirst a b ∧ a ≠ b
  few : rows.length ≤ request.limit.toNat
  asked : ∀ row ∈ rows, row ∈ stages.selected.rows ∧
    Allowed stages.selected ctx.organizationId visible row ∧
      Asked stages.selected.base.db request row
  complete : ∀ row ∈ stages.selected.rows, Allowed stages.selected ctx.organizationId visible row →
    Asked stages.selected.base.db request row →
      row ∈ rows ∨ rows.length = request.limit.toNat ∧ ∀ other ∈ rows, NewestFirst other row

theorem mapM_of_forall_exists {α β : Type} {f : α → Result β} {P : α → β → Prop}
    {inputs : List α} (h : ∀ a ∈ inputs, ∃ b, f a = .ok b ∧ P a b) :
    ∃ outputs, inputs.mapM f = .ok outputs ∧ List.Forall₂ P inputs outputs := by
  induction inputs with
  | nil => exact ⟨[], rfl, List.Forall₂.nil⟩
  | cons a inputs ih =>
    obtain ⟨b, hb, hP⟩ := h a List.mem_cons_self
    obtain ⟨outputs, houtputs, hrest⟩ := ih fun c hc => h c (List.mem_cons_of_mem a hc)
    refine ⟨b :: outputs, ?_, List.Forall₂.cons hP hrest⟩
    rw [List.mapM_cons, hb, houtputs]
    rfl

theorem nodup_selected {w : World} (hw : (system rt).Reachable w) : w.rows.Nodup :=
  (nodup_rows (lawful_reachable hw)).of_map _

theorem listed (reading : Reading rt) {role : MembershipRole} {ctx : TenantContext}
    {request : ListRequest}
    (hrole : requirePermission reading.permitted.base.db ctx .readFacts = .ok role)
    (hlimit : 1 ≤ request.limit ∧ request.limit ≤ maxList)
    (hnul : (request.entityType.any Jsonb.hasNul || request.externalId.any Jsonb.hasNul) = false) :
    ∃ rows views, listContradictions reading.toStages ctx request = .ok views ∧
      Listed reading.toStages ctx (visibleTo role ctx) request rows views := by
  have hw := reading.selected_reachable
  let rows := request.rows reading.selected ctx.organizationId (visibleTo role ctx)
  have hrows : ∀ row ∈ rows, row ∈ reading.selected.rows ∧
      request.selects reading.selected.base.db ctx.organizationId (visibleTo role ctx) row = true :=
    fun row hrow => List.mem_filter.mp ((List.mem_insertionSort _).mp (List.mem_of_mem_take hrow))
  have hasked : ∀ row ∈ rows, row ∈ reading.selected.rows ∧
      Allowed reading.selected ctx.organizationId (visibleTo role ctx) row ∧
        Asked reading.selected.base.db request row := fun row hrow =>
    ⟨(hrows row hrow).1, (selects_iff hw (hrows row hrow).1).mp (hrows row hrow).2⟩
  have hall : ∀ e ∈ rows.zipIdx, ∃ shown, reading.toStages.view e.1 e.2 = .ok shown ∧
      Shown reading.toStages (visibleTo role ctx) e.2 e.1 shown := by
    intro e he
    obtain ⟨hmem, hallowed, -⟩ := hasked e.1 (List.fst_mem_of_mem_zipIdx he)
    exact view_of_selected reading e.2 hmem ((allowed_iff hw hmem).mp hallowed).2
  obtain ⟨views, hviews, hshown⟩ := mapM_of_forall_exists hall
  refine ⟨rows, views, ?_, hshown, ?_, List.length_take_le _ _, hasked,
    fun row hrow hallowed hasks => ?_⟩
  · unfold listContradictions
    rw [if_neg (not_not.mpr hlimit), hrole]
    show (if _ then _ else _) = _
    rw [if_neg (by rw [hnul]; simp)]
    exact hviews
  · refine (Rankings.pairwise_insertionSort_of_nodup NewestFirst ?_).sublist (List.take_sublist _ _)
    exact (nodup_selected hw).filter _
  · exact Rankings.mem_take_insertionSort NewestFirst request.limit.toNat
      (List.mem_filter.mpr ⟨hrow, (selects_iff hw hrow).mpr ⟨hallowed, hasks⟩⟩)

/-- Readers see exactly the contradictions both of whose versions are visible to them: the list
shows the newest of those asked for, one that is asked for by its id is shown or not found, and
no statement of a read fails whatever others do between two of them. -/
theorem reads_exact (reading : Reading rt) (ctx : TenantContext) (role : MembershipRole)
    (hrole : requirePermission reading.permitted.base.db ctx .readFacts = .ok role) :
    (∀ request : ListRequest, 1 ≤ request.limit ∧ request.limit ≤ maxList →
      (request.entityType.any Jsonb.hasNul || request.externalId.any Jsonb.hasNul) = false →
        ∃ rows views, listContradictions reading.toStages ctx request = .ok views ∧
          Listed reading.toStages ctx (visibleTo role ctx) request rows views) ∧
      ∀ id, (∃ row ∈ reading.selected.rows, row.id = id ∧
          Allowed reading.selected ctx.organizationId (visibleTo role ctx) row ∧
            ∃ shown, get reading.toStages ctx id = .ok shown ∧
              Shown reading.toStages (visibleTo role ctx) 0 row shown) ∨
        (∀ row ∈ reading.selected.rows, row.id = id →
          ¬Allowed reading.selected ctx.organizationId (visibleTo role ctx) row) ∧
            get reading.toStages ctx id = notFound "contradiction not found" := by
  have hw := reading.selected_reachable
  refine ⟨fun request hlimit hnul => listed reading hrole hlimit hnul, fun id => ?_⟩
  cases hselect : selectRow reading.selected.rows ctx.organizationId id (visibleTo role ctx) with
  | some row =>
    obtain ⟨hrow, horg, hid, hscope⟩ := selectRow_eq_some hselect
    obtain ⟨shown, hview, hshown⟩ := view_of_selected reading 0 hrow hscope
    refine Or.inl ⟨row, hrow, hid, (allowed_iff hw hrow).mpr ⟨horg, hscope⟩, shown, ?_, hshown⟩
    unfold ContradictionViews.get
    rw [hrole]
    show (match selectRow _ _ _ _ with | none => _ | some row => _) = _
    rw [hselect]
    exact hview
  | none =>
    refine Or.inr ⟨fun row hrow hid hallowed => ?_, ?_⟩
    · have hnot := List.find?_eq_none.mp hselect row hrow
      obtain ⟨horg, hscope⟩ := (allowed_iff hw hrow).mp hallowed
      simp [hid, horg, hscope] at hnot
    · unfold ContradictionViews.get
      rw [hrole]
      show (match selectRow _ _ _ _ with | none => _ | some row => _) = _
      rw [hselect]

/-- A reader who is permitted before the sources disagree sees that they do. -/
def exampleReading : Reading exampleRuntime where
  permitted := exampleWorld
  selected := exampleDisputed
  sides := fun _ => (exampleDisputed, exampleDisputed)
  reachable := ⟨exampleWorld, [], exampleWorld_start, rfl⟩
  toSelected := ⟨exampleRecorded, (Option.some_get _).symm⟩
  toFirst := fun _ => ⟨[], rfl⟩
  toSecond := fun _ => ⟨[], rfl⟩

def exampleRequest : ListRequest := ⟨none, some "customer", none, 50⟩

theorem reads_exact_example :
    ((listContradictions exampleReading.toStages exampleContext exampleRequest).toOption.map
      fun views => views.map fun shown => (shown.id, shown.left.sourceName, shown.right.sourceName)) =
        some [(40, "crm", "billing")] ∧
      ∃ rows views, listContradictions exampleReading.toStages exampleContext exampleRequest =
        .ok views ∧ Listed exampleReading.toStages exampleContext
          (visibleTo .engineer exampleContext) exampleRequest rows views :=
  ⟨by decide +kernel, (reads_exact exampleReading exampleContext .engineer (by rfl)).1
    exampleRequest (by decide) (by decide)⟩

end ContextLedger.ContradictionViews
