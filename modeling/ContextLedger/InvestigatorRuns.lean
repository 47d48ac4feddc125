import ContextLedger.Investigator

/-!
What holds of every run of the investigator, whatever the model replies and the
tools answer. A loop head holds a complete conversation; a call adds one reply to it
and stays within the budget; what the ledger has observed was in a payload that a
tool returned in this run. The last reply is judged against that ledger alone.
-/
namespace ContextLedger.InvestigatorRuns

open Numerals JsonText Values Validation Authorization Reference Retrieval Decisions ServiceReads
open InvestigatorTools hiding runTool
open Investigator

mutual

/-- Every text in a value, keys aside. -/
def texts : Json → List String
  | .str s => [s]
  | .arr items => itemsTexts items
  | .obj fields => fieldsTexts fields
  | _ => []

def itemsTexts : List Json → List String
  | [] => []
  | item :: items => texts item ++ itemsTexts items

def fieldsTexts : List (String × Json) → List String
  | [] => []
  | (_, value) :: fields => texts value ++ fieldsTexts fields

end

theorem mem_itemsTexts {items : List Json} {item : Json} {s : String} (h : item ∈ items)
    (hs : s ∈ texts item) : s ∈ itemsTexts items := by
  induction items with
  | nil => exact absurd h List.not_mem_nil
  | cons first rest ih =>
    rw [itemsTexts]
    rcases List.mem_cons.mp h with rfl | h
    · exact List.mem_append_left _ hs
    · exact List.mem_append_right _ (ih h)

theorem mem_fieldsTexts {fields : List (String × Json)} {field : String × Json} {s : String}
    (h : field ∈ fields) (hs : s ∈ texts field.2) : s ∈ fieldsTexts fields := by
  induction fields with
  | nil => exact absurd h List.not_mem_nil
  | cons first rest ih =>
    rw [fieldsTexts]
    rcases List.mem_cons.mp h with rfl | h
    · exact List.mem_append_left _ hs
    · exact List.mem_append_right _ (ih h)

/-- A text of one part of a payload is a text of the payload. -/
theorem mem_texts_payload {payload : Payload} {part : String × Part} {s : String}
    (h : part ∈ payload) (hs : s ∈ texts part.2.json) : s ∈ texts payload.json := by
  rw [Payload.json, texts]
  exact mem_fieldsTexts (List.mem_map_of_mem h) hs

theorem mem_texts_facts {shown : List Shown} {one : Shown} {s : String} (h : one ∈ shown)
    (hs : s ∈ texts one.json) : s ∈ texts (Part.facts shown).json := by
  rw [Part.json, texts]
  exact mem_itemsTexts (List.mem_map_of_mem h) hs

theorem uuidText_mem_version (v : VersionSnapshot) (more : List (String × Json)) :
    uuidText v.id ∈ texts (Shown.version v more).json := by
  rw [Shown.json, texts]
  exact mem_fieldsTexts (List.mem_append_left _ List.mem_cons_self) (List.mem_singleton.mpr rfl)

theorem uuidText_mem_receiptShown {fact : ReceiptFact}
    (h : ∀ v, fact.version = some v → v.id = fact.factVersionId) :
    uuidText fact.factVersionId ∈ texts (receiptShown fact).json := by
  rw [receiptShown]
  split
  · rename_i v _ hversion
    rw [← h v hversion]
    exact uuidText_mem_version v _
  · rw [Shown.json, texts]
    exact mem_fieldsTexts List.mem_cons_self (List.mem_singleton.mpr rfl)

/-- The receipts show each version under its own id. -/
def ShowsOwnIds (backend : Backend) : Prop :=
  ∀ k id r, backend.receipt k id = .ok r →
    ∀ fact ∈ r.facts, ∀ v, fact.version = some v → v.id = fact.factVersionId

/-- What a tool adds to the ledger stands in the payload it returns. -/
theorem uuidText_mem_payload {backend : Backend} (hown : ShowsOwnIds backend) {k : ℕ}
    {call : ToolCall} {answer : Answer} (h : toolAnswer backend k call = .ok answer) {u : Uuid}
    (hu : u ∈ answer.observed) : uuidText u ∈ texts answer.payload.json := by
  cases call with
  | getDecisionReceipt decisionId =>
    obtain ⟨r, hreceipt, rfl⟩ := map_eq_ok.mp h
    rcases List.mem_cons.mp hu with rfl | hu
    · exact mem_texts_payload List.mem_cons_self (List.mem_singleton.mpr rfl)
    · obtain ⟨fact, hfact, rfl⟩ := List.mem_map.mp hu
      have hpart : ("facts", Part.facts (r.facts.map receiptShown)) ∈ (receiptAnswer r).payload := by
        simp [receiptAnswer]
      exact mem_texts_payload hpart (mem_texts_facts (List.mem_map_of_mem hfact)
        (uuidText_mem_receiptShown (hown k _ r hreceipt fact hfact)))
  | getFactLineage versionId =>
    obtain ⟨l, -, rfl⟩ := map_eq_ok.mp h
    obtain ⟨v, hv, rfl⟩ := List.mem_map.mp hu
    have hshown : ∀ {shown : List VersionSnapshot}, v ∈ shown →
        uuidText v.id ∈ texts (Part.facts (shown.map fun v => .version v [])).json :=
      fun hv => mem_texts_facts (List.mem_map_of_mem hv) (uuidText_mem_version v [])
    rcases List.mem_append.mp hv with hv | hv
    · rcases List.mem_cons.mp hv with rfl | hv
      · exact mem_texts_payload List.mem_cons_self (uuidText_mem_version _ [])
      · have hpart : ("earlier_versions", Part.facts (l.ancestors.map fun v => .version v [])) ∈
            lineagePayload l := by simp [lineagePayload]
        exact mem_texts_payload hpart (hshown hv)
    · have hpart : ("later_versions", Part.facts (l.descendants.map fun v => .version v [])) ∈
          lineagePayload l := by simp [lineagePayload]
      exact mem_texts_payload hpart (hshown hv)
  | findDecisionsRelyingOn versionId =>
    obtain ⟨ids, -, rfl⟩ := map_eq_ok.mp h
    have hpart : ("decision_ids", Part.plain (.arr (ids.map fun id => .str (uuidText id)))) ∈
        (relyingAnswer versionId ids).payload := by simp [relyingAnswer]
    refine mem_texts_payload hpart ?_
    rw [Part.json, texts]
    exact mem_itemsTexts (List.mem_map_of_mem hu) (List.mem_singleton.mpr rfl)
  | searchFacts args =>
    obtain ⟨result, -, rfl⟩ := map_eq_ok.mp h
    obtain ⟨item, hitem, rfl⟩ := List.mem_map.mp hu
    have hpart : ("facts", Part.facts (result.results.map retrievedShown)) ∈
        (searchAnswer args result).payload := by simp [searchAnswer]
    exact mem_texts_payload hpart (mem_texts_facts (List.mem_map_of_mem hitem)
      (uuidText_mem_version item.version _))

theorem showsOwnIds_serviceBackend (b : ServiceBackend) (ctx : TenantContext)
    (moments : ℕ → Moment) : ShowsOwnIds (serviceBackend b ctx moments) := by
  intro k id r hreceipt fact hfact v hv
  obtain ⟨role, decision, snapshot, -, -, -, hfacts⟩ := receipt_eq_ok hreceipt
  rw [hfacts] at hfact
  obtain ⟨row, -, rfl⟩ := List.mem_map.mp hfact
  rw [receiptFact] at hv ⊢
  split_ifs at hv ⊢
  · obtain rfl := Option.some.inj hv
    exact asKnown_id _ _

/-- A reply and the replies to its calls. -/
structure Turn where
  content : String
  answered : List (Call × String)

def Turn.messages (t : Turn) : List Message :=
  .assistant t.content (t.answered.map Prod.fst) ::
    t.answered.map fun p => .tool p.2 p.1.id

section

variable (inv : DecisionInvestigator)

/-- The two messages of the start, then turns: behind every reply stands one message
for each of its calls, in order and under the id of the call. -/
def Conversation (question : String) (messages : List Message) : Prop :=
  ∃ turns : List Turn, messages =
    [.system inv.system, .human (inv.renderUser question)] ++ turns.flatMap Turn.messages

/-- An id that a tool returned in this run: one it observed, which stands in the
payload when the receipts are those of the services. -/
def ReturnedId (executed : List (ToolCall × Answer)) (id : String) : Prop :=
  ∃ call answer k, (call, answer) ∈ executed ∧ toolAnswer inv.backend k call = .ok answer ∧
    (∃ u ∈ answer.observed, id = uuidText u) ∧
    (ShowsOwnIds inv.backend → id ∈ texts answer.payload.json)

/-- The log of a run and its budget of tool calls. -/
structure Logged (s : State) : Prop where
  runs_le_calls : s.toolRuns ≤ s.callsMade
  runs_le_max : s.toolRuns ≤ inv.maxToolCalls
  executed_le : s.executed.length ≤ s.toolRuns
  answers : ∀ e ∈ s.executed, ∃ k, toolAnswer inv.backend k e.1 = .ok e.2
  observed : ∀ id ∈ s.ledger.observed, ∃ e ∈ s.executed, ∃ u ∈ e.2.observed, id = uuidText u

/-- What the calls of a reply leave alone. -/
structure Untouched (s s' : State) : Prop where
  result : s'.result = s.result
  asked : s'.asked = s.asked

theorem Untouched.trans {s t u : State} (h : Untouched s t) (h' : Untouched t u) :
    Untouched s u :=
  ⟨h'.result.trans h.result, h'.asked.trans h.asked⟩

variable {inv} {s s' : State} {call : Call}

theorem runTool_untouched (s : State) (call : Call) :
    Untouched s (runTool inv s call).2 ∧ (runTool inv s call).2.messages = s.messages := by
  unfold runTool
  simp only
  split_ifs
  · split
    · exact ⟨⟨rfl, rfl⟩, rfl⟩
    · split
      · exact ⟨⟨rfl, rfl⟩, rfl⟩
      · exact ⟨⟨rfl, rfl⟩, rfl⟩
      · exact ⟨⟨rfl, rfl⟩, rfl⟩
  · exact ⟨⟨rfl, rfl⟩, rfl⟩

/-- A call handed to a tool uses one of the runs that are left. -/
theorem runTool_logged (h : Logged inv s) (hcalls : s.toolRuns < s.callsMade)
    (hmax : s.toolRuns < inv.maxToolCalls) : Logged inv (runTool inv s call).2 := by
  have hcounted : Logged inv { s with toolRuns := s.toolRuns + 1 } :=
    ⟨hcalls, hmax, h.executed_le.trans (Nat.le_succ _), h.answers, h.observed⟩
  unfold runTool
  simp only
  split_ifs
  · split
    · exact hcounted
    · split
      · rename_i toolCall answer hanswer
        refine ⟨hcalls, hmax, ?_, ?_, ?_⟩
        · rw [List.length_append]
          exact Nat.succ_le_succ h.executed_le
        · intro e he
          rcases List.mem_append.mp he with he | he
          · exact h.answers e he
          · rw [List.mem_singleton.mp he]
            exact ⟨_, hanswer⟩
        · intro id hid
          rcases List.mem_append.mp hid with hid | hid
          · obtain ⟨e, he, hu⟩ := h.observed id hid
            exact ⟨e, List.mem_append_left _ he, hu⟩
          · obtain ⟨u, hu, rfl⟩ := List.mem_map.mp hid
            exact ⟨_, List.mem_append_right _ List.mem_cons_self, u, hu, rfl⟩
      · exact ⟨hcalls, hmax, hcounted.executed_le, h.answers, h.observed⟩
      · exact hcounted
  · exact hcounted

theorem answerCall_untouched (s : State) (call : Call) :
    Untouched s (answerCall inv s call).2 ∧ (answerCall inv s call).2.messages = s.messages := by
  unfold answerCall
  simp only
  split_ifs
  · exact ⟨⟨rfl, rfl⟩, rfl⟩
  · obtain ⟨hkept, hmessages⟩ :=
      @runTool_untouched inv { s with callsMade := s.callsMade + 1 } call
    exact ⟨⟨hkept.result, hkept.asked⟩, hmessages⟩

theorem answerCall_logged (h : Logged inv s) : Logged inv (answerCall inv s call).2 := by
  have hcounted : Logged inv { s with callsMade := s.callsMade + 1 } :=
    ⟨h.runs_le_calls.trans (Nat.le_succ _), h.runs_le_max, h.executed_le, h.answers, h.observed⟩
  unfold answerCall
  simp only
  split_ifs with hover
  · exact hcounted
  · have hwithin : s.callsMade + 1 ≤ inv.maxToolCalls := not_lt.mp hover
    exact runTool_logged hcounted (Nat.lt_succ_of_le h.runs_le_calls)
      (lt_of_le_of_lt h.runs_le_calls hwithin)

/-- The calls of a reply keep the log, and when none of them raised each has its
message behind the ones before. -/
theorem answerCalls_spec (calls : List Call) (h : Logged inv s) {done : Bool}
    (hcalls : answerCalls inv s calls = (done, s')) :
    Logged inv s' ∧ Untouched s s' ∧ (done = true → ∃ answered : List (Call × String),
      answered.map Prod.fst = calls ∧
      s'.messages = s.messages ++ answered.map fun p => .tool p.2 p.1.id) := by
  induction calls generalizing s with
  | nil =>
    obtain ⟨rfl, rfl⟩ := Prod.mk.inj hcalls
    exact ⟨h, ⟨rfl, rfl⟩, fun _ => ⟨[], rfl, (List.append_nil _).symm⟩⟩
  | cons call rest ih =>
    have hlogged : Logged inv (answerCall inv s call).2 := answerCall_logged h
    obtain ⟨huntouched, hmessages⟩ := @answerCall_untouched inv s call
    rw [answerCalls] at hcalls
    cases hanswer : answerCall inv s call with
    | mk content s₁ =>
      rw [hanswer] at hcalls hlogged huntouched hmessages
      cases content with
      | none =>
        obtain ⟨rfl, rfl⟩ := Prod.mk.inj hcalls
        exact ⟨hlogged, huntouched, fun h => absurd h Bool.false_ne_true⟩
      | some content =>
        have hlogged₁ : Logged inv
            { s₁ with messages := s₁.messages ++ [.tool content call.id] } :=
          ⟨hlogged.runs_le_calls, hlogged.runs_le_max, hlogged.executed_le, hlogged.answers,
            hlogged.observed⟩
        obtain ⟨hlogged', huntouched', hdone⟩ := ih hlogged₁ hcalls
        refine ⟨hlogged', huntouched.trans ⟨huntouched'.result, huntouched'.asked⟩, fun h => ?_⟩
        obtain ⟨answered, hfirst, hbehind⟩ := hdone h
        have hbefore : s₁.messages = s.messages := hmessages
        refine ⟨(call, content) :: answered, ?_, ?_⟩
        · rw [List.map_cons, hfirst]
        · rw [hbehind]
          show s₁.messages ++ [Message.tool content call.id] ++ _ = _
          rw [hbefore, List.append_assoc]
          rfl

/-- What the last reply may make of a result. -/
structure Verdict (inv : DecisionInvestigator) (executed : List (ToolCall × Answer))
    (result : Investigation) : Prop where
  answered : result.status = .answered →
    result.citedIds ≠ [] ∧ result.rejectedIds = [] ∧
      ∀ id ∈ result.citedIds, ReturnedId inv executed id
  rejected : result.rejectedIds ≠ [] → result.status = .ungrounded
  unanswered : result.status ∈ [.stepLimit, .ungrounded, .failed] → result.answer = none

/-- A result before the last reply. -/
structure Fresh (result : Investigation) : Prop where
  status : result.status = .stepLimit
  answer : result.answer = none
  rejectedIds : result.rejectedIds = []

theorem Fresh.verdict {result : Investigation} (h : Fresh result)
    (executed : List (ToolCall × Answer)) : Verdict inv executed result where
  answered := fun hanswered => by rw [h.status] at hanswered; cases hanswered
  rejected := fun hrejected => absurd h.rejectedIds hrejected
  unanswered := fun _ => h.answer

theorem fail_verdict {result : Investigation} (h : Fresh result) (cause : String)
    (executed : List (ToolCall × Answer)) : Verdict inv executed (fail result cause) where
  answered := fun hanswered => by cases hanswered
  rejected := fun hrejected => absurd h.rejectedIds hrejected
  unanswered := fun _ => rfl

theorem Logged.returnedId (h : Logged inv s) {id : String} (hid : id ∈ s.ledger.observed) :
    ReturnedId inv s.executed id := by
  obtain ⟨⟨call, answer⟩, he, u, hu, rfl⟩ := h.observed id hid
  obtain ⟨k, hanswer⟩ := h.answers _ he
  exact ⟨call, answer, k, he, hanswer, ⟨u, hu, rfl⟩, fun hown => uuidText_mem_payload hown hanswer hu⟩

/-- The last reply is judged by the ledger. -/
theorem finish_verdict (h : Logged inv s) (result : Investigation) (fields : FinalFields) :
    Verdict inv s.executed (finish result fields s.ledger) := by
  unfold finish
  simp only
  split_ifs with hungrounded hinsufficient
  · exact ⟨nofun, fun _ => rfl, fun _ => rfl⟩
  · obtain ⟨hrejected, -⟩ := not_or.mp hungrounded
    exact ⟨nofun, fun h => absurd h hrejected, fun h => by simp at h⟩
  · obtain ⟨hrejected, hcited⟩ := not_or.mp hungrounded
    have hsufficient : fields.insufficient = false := Bool.eq_false_iff.mpr hinsufficient
    refine ⟨fun _ => ⟨fun h => hcited ⟨hsufficient, h⟩, not_not.mp hrejected, fun id hid => ?_⟩,
      fun h => absurd h hrejected, fun h => by simp at h⟩
    exact h.returnedId (of_decide_eq_true (List.mem_filter.mp hid).2)

variable (inv) in
/-- Between two questions to the model. -/
structure AtHead (question : String) (s : State) : Prop where
  conversation : Conversation inv question s.messages
  asked : ∀ messages ∈ s.asked, Conversation inv question messages
  logged : Logged inv s
  fresh : Fresh s.result

variable (inv) in
/-- After a run with so many questions to the model. -/
structure Ended (question : String) (questions : ℕ) (s : State) : Prop where
  asked : ∀ messages ∈ s.asked, Conversation inv question messages
  questions_le : s.asked.length ≤ questions
  logged : Logged inv s
  verdict : Verdict inv s.executed s.result

variable {question : String}

theorem atHead_start (question : String) : AtHead inv question (start inv question) where
  conversation := ⟨[], rfl⟩
  asked := fun _ h => absurd h List.not_mem_nil
  logged := ⟨le_rfl, Nat.zero_le _, le_rfl, fun _ h => absurd h List.not_mem_nil,
    fun _ h => absurd h List.not_mem_nil⟩
  fresh := ⟨rfl, rfl, rfl⟩

theorem AtHead.logged_hear (h : AtHead inv question s) (reply : ModelReply) :
    Logged inv (hear (ask s) reply) :=
  ⟨h.logged.runs_le_calls, h.logged.runs_le_max, h.logged.executed_le, h.logged.answers,
    h.logged.observed⟩

theorem AtHead.fresh_hear (h : AtHead inv question s) (reply : ModelReply) :
    Fresh (hear (ask s) reply).result :=
  ⟨h.fresh.status, h.fresh.answer, h.fresh.rejectedIds⟩

theorem AtHead.asked_ask (h : AtHead inv question s) :
    ∀ messages ∈ (ask s).asked, Conversation inv question messages := by
  intro messages hmessages
  rcases List.mem_cons.mp hmessages with rfl | hmessages
  · exact h.conversation
  · exact h.asked messages hmessages

/-- A reply whose calls are all answered leads to the next head. -/
theorem AtHead.answerCalls (h : AtHead inv question s) (reply : ModelReply) {done : Bool}
    (hcalls : Investigator.answerCalls inv (hear (ask s) reply) reply.toolCalls = (done, s')) :
    s'.asked = s.messages :: s.asked ∧ Logged inv s' ∧ Fresh s'.result ∧
      (done = true → AtHead inv question s') := by
  obtain ⟨hlogged, huntouched, hdone⟩ :=
    answerCalls_spec reply.toolCalls (h.logged_hear reply) hcalls
  have hfresh : Fresh s'.result := by
    rw [huntouched.result]
    exact ⟨h.fresh.status, h.fresh.answer, h.fresh.rejectedIds⟩
  refine ⟨huntouched.asked, hlogged, hfresh, fun hd => ⟨?_, ?_, hlogged, hfresh⟩⟩
  · obtain ⟨answered, hfirst, hmessages⟩ := hdone hd
    obtain ⟨turns, hturns⟩ := h.conversation
    refine ⟨turns ++ [⟨reply.content, answered⟩], ?_⟩
    rw [hmessages, List.flatMap_append, List.flatMap_singleton, ← List.append_assoc, ← hturns,
      Turn.messages, hfirst]
    exact List.append_assoc _ _ _
  · rw [huntouched.asked]
    exact h.asked_ask

/-- The loop from a head, by induction on the questions that are left. -/
theorem loop_ended (remaining : ℕ) (h : AtHead inv question s) :
    Ended inv question (s.asked.length + remaining) (loop inv remaining s).1 := by
  induction remaining generalizing s with
  | zero => exact ⟨h.asked, le_rfl, h.logged, h.fresh.verdict _⟩
  | succ remaining ih =>
    have hlogged : Logged inv (ask s) :=
      ⟨h.logged.runs_le_calls, h.logged.runs_le_max, h.logged.executed_le, h.logged.answers,
        h.logged.observed⟩
    have hfresh : Fresh (ask s).result := ⟨h.fresh.status, h.fresh.answer, h.fresh.rejectedIds⟩
    have hone : (ask s).asked.length ≤ s.asked.length + (remaining + 1) :=
      Nat.add_le_add_left (Nat.succ_le_succ (Nat.zero_le _)) _
    rw [loop]
    split
    · exact ⟨h.asked_ask, hone, ⟨hlogged.1, hlogged.2, hlogged.3, hlogged.4, hlogged.5⟩,
        fail_verdict hfresh _ _⟩
    · exact ⟨h.asked_ask, hone, hlogged, hfresh.verdict _⟩
    · rename_i reply _
      have hheard := h.logged_hear reply
      dsimp only
      split_ifs
      · split
        · exact ⟨h.asked_ask, hone, ⟨hheard.1, hheard.2, hheard.3, hheard.4, hheard.5⟩,
            fail_verdict (h.fresh_hear reply) _ _⟩
        · exact ⟨h.asked_ask, hone, ⟨hheard.1, hheard.2, hheard.3, hheard.4, hheard.5⟩,
            finish_verdict hheard _ _⟩
      · split
        · rename_i s₁ hcalls
          obtain ⟨hasked, -, -, hhead⟩ := h.answerCalls reply hcalls
          obtain ⟨hconversations, hquestions, hlogged', hverdict⟩ := ih (hhead rfl)
          refine ⟨hconversations, ?_, hlogged', hverdict⟩
          rw [hasked, List.length_cons] at hquestions
          omega
        · rename_i s₁ hcalls
          obtain ⟨hasked, hlogged', hfresh', -⟩ := h.answerCalls reply hcalls
          refine ⟨?_, ?_, hlogged', hfresh'.verdict _⟩
          · rw [hasked]
            exact h.asked_ask
          · rw [hasked]
            exact hone

/-- A run asks the model and hands calls to tools within the two budgets, asks it
only with complete conversations, and its result cites what tools returned. Only a
question of no characters, or of too many, is not run. -/
theorem investigate_bounded_grounded (inv : DecisionInvestigator) (question : String) :
    ((strip question = "" ∨ maxQuestionChars < (strip question).length) ∧
      investigate inv question =
        validationFailed ("question must be 1-" ++ natText maxQuestionChars ++ " characters")) ∨
      ∃ s outcome, investigate inv question = .ok (s, outcome) ∧
        s.asked.length ≤ inv.maxSteps ∧ s.toolRuns ≤ inv.maxToolCalls ∧
        s.executed.length ≤ s.toolRuns ∧
        (∀ messages ∈ s.asked, Conversation inv (strip question) messages) ∧
        (s.investigation.status = .answered →
          s.investigation.citedIds ≠ [] ∧ s.investigation.rejectedIds = [] ∧
            ∀ id ∈ s.investigation.citedIds, ReturnedId inv s.executed id) ∧
        (s.investigation.rejectedIds ≠ [] → s.investigation.status = .ungrounded) ∧
        (s.investigation.status ∈ [.stepLimit, .ungrounded, .failed] →
          s.investigation.answer = none) := by
  unfold investigate
  simp only
  split_ifs with hinvalid
  · exact .inl ⟨hinvalid, rfl⟩
  · have hended := loop_ended inv.maxSteps (@atHead_start inv (strip question))
    refine .inr ⟨_, _, rfl, ?_, hended.logged.runs_le_max, hended.logged.executed_le,
      hended.asked, hended.verdict.answered, hended.verdict.rejected, hended.verdict.unanswered⟩
    exact hended.questions_le.trans (Nat.zero_add _).le

end

end ContextLedger.InvestigatorRuns
