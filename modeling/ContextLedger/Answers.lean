import ContextLedger.Grounding
import ContextLedger.PythonText

/-!
Grounded answers. Retrieval decides what the caller may see; without facts no
model is asked. Otherwise the facts are rendered for the model, its answer is
read and checked against the very facts that were rendered, and the citations
are resolved from these facts.
-/
namespace ContextLedger.Answers

open Numerals JsonText Values Validation Authorization Reference Retrieval Grounding

structure Citation where
  label : String
  factVersionId : Uuid
  factId : Uuid
  sourceId : Uuid
  sourceName : String
  entityType : String
  externalId : String
  property : String
  validFrom : Instant
  validUntil : Option Instant

structure RetrievalInfo where
  validAt : Instant
  knownAt : Option Instant
  vectorSearch : String
  privacyScopes : List PrivacyScope
  factsSupplied : ℕ
  cache : CacheStatus

structure GenerationInfo where
  provider : String
  model : String
  promptVersion : String
  promptFingerprint : String
  inputTokens : ℕ
  outputTokens : ℕ
  attempts : ℕ
  finishReason : String

structure GroundedAnswer where
  question : String
  status : AnswerStatus
  answer : Option String
  grounded : Bool
  insufficientEvidence : Bool
  citations : List Citation
  inferences : List String
  rejectedCitations : List String
  retrieval : RetrievalInfo
  generation : Option GenerationInfo
  suppliedFactVersionIds : List Uuid

structure AnswerQuery where
  question : String
  validAt : Option Datetime
  knownAt : Option Datetime
  limit : ℤ
  entityType : Option String
  externalIds : List String
  properties : List String
  maxPrivacyScope : Option PrivacyScope

/-- The versioned prompt, as far as answers name it. -/
structure Prompt where
  version : String
  fingerprint : String

structure ChainInputs where
  question : String
  validAt : String
  knownAt : String
  facts : String

/-- What the model sent; `content` is missing when it is not text. -/
structure Message where
  content : Option String
  provider : Option String
  model : Option String
  inputTokens : Option ℕ
  outputTokens : Option ℕ
  attempts : Option ℕ
  finishReason : Option String

/-- Why there is no answer: a failure of the retrieval, the one error for the model
and its output, with the class of its cause, or an error nothing handles. -/
inductive AnswerError where
  | service (failure : Failure)
  | generation (message cause : String)
  | raised (error : Raised)

/-- What the service calls: retrieval, and the chain of prompt and model, which fails
with the class of a generation error. -/
structure Calls where
  retrieve : TenantContext → RetrievalQuery → Result RetrievalResult
  complete : ChainInputs → Except String Message

def maxQuestionChars : ℕ := 1000

/-- 0.3 as a float. -/
def defaultTrustWeight : PyFloat :=
  (FloatText.nearest false (3 / 10)).elim .nan .finite

def normalizedQuestion (query : AnswerQuery) : String :=
  String.intercalate " " (words query.question)

def retrievalQuery (query : AnswerQuery) : RetrievalQuery where
  query := normalizedQuestion query
  limit := query.limit
  validAt := query.validAt
  knownAt := query.knownAt
  entityType := query.entityType
  externalIds := query.externalIds
  properties := query.properties
  sourceIds := []
  minAuthority := none
  minConfidence := none
  maxPrivacyScope := query.maxPrivacyScope
  trustWeight := defaultTrustWeight

def retrievalInfo (retrieval : RetrievalResult) (facts : List PackedFact) : RetrievalInfo where
  validAt := retrieval.validAt
  knownAt := retrieval.knownAt
  vectorSearch := vectorSearchText retrieval.vectorUsed
  privacyScopes := retrieval.privacyScopes
  factsSupplied := facts.length
  cache := retrieval.cache

/-- Nothing to answer from. -/
def noFacts (question : String) (info : RetrievalInfo) : GroundedAnswer where
  question := question
  status := .insufficientEvidence
  answer := some "No facts you are allowed to see match this question at that time."
  grounded := true
  insufficientEvidence := true
  citations := []
  inferences := []
  rejectedCitations := []
  retrieval := info
  generation := none
  suppliedFactVersionIds := []

def chainInputs (question : String) (retrieval : RetrievalResult) (facts : List PackedFact) :
    ChainInputs where
  question := question
  validAt := isoformat retrieval.validAt
  knownAt := (retrieval.knownAt.map isoformat).getD "everything recorded so far"
  facts := renderFacts facts

def jsonContent (message : Message) : Except Raised Json :=
  match message.content with
  | none => .error (.malformed "the model returned non-text content")
  | some text =>
    match PythonText.loads text with
    | .error .notJson => .error (.malformed "the model did not return valid JSON")
    | .error .longInt => .error .valueError
    | .ok payload => .ok payload

def generationInfo (prompt : Prompt) (message : Message) : GenerationInfo where
  provider := message.provider.getD "unknown"
  model := message.model.getD "unknown"
  promptVersion := prompt.version
  promptFingerprint := prompt.fingerprint
  inputTokens := message.inputTokens.getD 0
  outputTokens := message.outputTokens.getD 0
  attempts := message.attempts.getD 1
  finishReason := message.finishReason.getD "unknown"

def citation (f : PackedFact) : Citation where
  label := f.label
  factVersionId := f.factVersionId
  factId := f.factId
  sourceId := f.sourceId
  sourceName := f.sourceName
  entityType := f.entityType
  externalId := f.externalId
  property := f.property
  validFrom := f.validFrom
  validUntil := f.validUntil

variable (upper : String → String)

/-- The answer that goes out, from the checked answer of the model. -/
def assemble (question : String) (info : RetrievalInfo) (generation : GenerationInfo)
    (facts : List PackedFact) (model : ModelAnswer) : GroundedAnswer :=
  let check := checkAnswer upper model facts
  { question := question
    status := check.status
    answer := if check.status ≠ .ungrounded then some model.answer else none
    grounded := decide (check.status ≠ .ungrounded)
    insufficientEvidence := decide (check.status = .insufficientEvidence)
    citations := check.cited.map citation
    inferences := if check.status = .answered then model.inferences else []
    rejectedCitations := check.rejectedLabels
    retrieval := info
    generation := some generation
    suppliedFactVersionIds := facts.map PackedFact.factVersionId }

def generationFailed (cause : String) : Except AnswerError GroundedAnswer :=
  .error (.generation "the language model could not produce an answer" cause)

/-- With facts at hand: ask the model, read what it sent and check it. -/
def generate (calls : Calls) (prompt : Prompt) (question : String) (retrieval : RetrievalResult)
    (facts : List PackedFact) : Except AnswerError GroundedAnswer :=
  match calls.complete (chainInputs question retrieval facts) with
  | .error cause => generationFailed cause
  | .ok message =>
    match jsonContent message >>= parseModelAnswer with
    | .error (.malformed _) => generationFailed "MalformedGenerationError"
    | .error error => .error (.raised error)
    | .ok model => .ok (assemble upper question (retrievalInfo retrieval facts)
        (generationInfo prompt message) facts model)

def answer (calls : Calls) (prompt : Prompt) (ctx : TenantContext) (query : AnswerQuery) :
    Except AnswerError GroundedAnswer :=
  let question := normalizedQuestion query
  if question = "" then
    .error (.service (.domain (.validationFailed "question must not be empty")))
  else if maxQuestionChars < question.length then
    .error (.service (.domain (.validationFailed ("question must be at most " ++
      natText maxQuestionChars ++ " characters"))))
  else
    match calls.retrieve ctx (retrievalQuery query) with
    | .error failure => .error (.service failure)
    | .ok retrieval =>
      let facts := packFacts retrieval.results
      if facts = [] then .ok (noFacts question (retrievalInfo retrieval facts))
      else generate upper calls prompt question retrieval facts

/-- How an outgoing answer follows from a check. -/
structure Returned (model : ModelAnswer) (check : GroundingCheck) (g : GroundedAnswer) :
    Prop where
  status : g.status = check.status
  withheld : g.status = .ungrounded → g.answer = none
  kept : g.status ≠ .ungrounded → g.answer = some model.answer
  grounded : g.grounded = true ↔ g.status ≠ .ungrounded
  citations : g.citations = check.cited.map citation
  inferences : g.status = .answered → g.inferences = model.inferences
  inferences_eq_nil : g.status ≠ .answered → g.inferences = []
  rejected : g.rejectedCitations = check.rejectedLabels

theorem assemble_returned (question : String) (info : RetrievalInfo) (generation : GenerationInfo)
    (facts : List PackedFact) (model : ModelAnswer) :
    Returned model (checkAnswer upper model facts)
      (assemble upper question info generation facts model) where
  status := rfl
  withheld h := if_neg (not_not.mpr h)
  kept h := if_pos h
  grounded := decide_eq_true_iff
  citations := rfl
  inferences h := if_pos h
  inferences_eq_nil h := if_neg h
  rejected := rfl

/-- Whatever a model sends is either refused as malformed or read and checked: the
answer stands exactly when it cites something and nothing that was not supplied. -/
theorem parsed_answer_exact (question : String) (info : RetrievalInfo)
    (generation : GenerationInfo) (results : List RetrievedFact) (payload : Json) :
    (∃ message, parseModelAnswer payload = .error (.malformed message)) ∨
      ∃ (answer : String) (insufficient : Bool) (cited inferences : List String)
        (model : ModelAnswer),
        AnswerPayload payload answer insufficient cited inferences ∧
        model = ⟨strip answer, insufficient, cited.map strip, inferences⟩ ∧
        parseModelAnswer payload = .ok model ∧
        Exact upper results model (checkAnswer upper model (packFacts results)) ∧
        Returned model (checkAnswer upper model (packFacts results))
          (assemble upper question info generation (packFacts results) model) := by
  rcases parseModelAnswer_cases payload with
    hmalformed | ⟨answer, insufficient, cited, inferences, hpayload, hparse⟩
  · exact .inl hmalformed
  · exact .inr ⟨answer, insufficient, cited, inferences, _, hpayload, rfl, hparse,
      checkAnswer_exact upper _ results, assemble_returned upper _ _ _ _ _⟩

/-- The model cites a label that no supplied fact has. -/
def CitesUnsupplied (results : List RetrievedFact) (payload : Json) : Prop :=
  results ≠ [] ∧ ∃ model, parseModelAnswer payload = .ok model ∧
    ∃ label ∈ model.citedFacts, upper label ∉ suppliedLabels results.length

/-- It does so while it says that the evidence is insufficient. -/
def DeclinesWithUnsupplied (results : List RetrievedFact) (payload : Json) : Prop :=
  results ≠ [] ∧ ∃ model, parseModelAnswer payload = .ok model ∧
    model.insufficientEvidence = true ∧
    ∃ label ∈ model.citedFacts, upper label ∉ suppliedLabels results.length

section

variable {upper} {calls : Calls} {prompt : Prompt} {ctx : TenantContext} {query : AnswerQuery}
  {g : GroundedAnswer} {retrieval : RetrievalResult} {payload : Json}

theorem packFacts_eq_nil {results : List RetrievedFact} : packFacts results = [] ↔ results = [] := by
  rw [packFacts, List.map_eq_nil_iff, List.zipIdx_eq_nil_iff]

/-- An answer goes out without a model, or from what the model sent. -/
theorem answer_eq_ok (hretrieve : calls.retrieve ctx (retrievalQuery query) = .ok retrieval)
    (h : answer upper calls prompt ctx query = .ok g) :
    (retrieval.results = [] ∧
        g = noFacts (normalizedQuestion query)
          (retrievalInfo retrieval (packFacts retrieval.results))) ∨
      ∃ message payload model, retrieval.results ≠ [] ∧
        calls.complete (chainInputs (normalizedQuestion query) retrieval
          (packFacts retrieval.results)) = .ok message ∧
        jsonContent message = .ok payload ∧ parseModelAnswer payload = .ok model ∧
        g = assemble upper (normalizedQuestion query)
          (retrievalInfo retrieval (packFacts retrieval.results))
          (generationInfo prompt message) (packFacts retrieval.results) model := by
  unfold answer at h
  simp only at h
  split_ifs at h with hempty hlong
  rw [hretrieve] at h
  simp only at h
  split_ifs at h with hfacts
  · exact .inl ⟨packFacts_eq_nil.mp hfacts, (Except.ok.inj h).symm⟩
  · right
    unfold generate at h
    cases hcomplete : calls.complete (chainInputs (normalizedQuestion query) retrieval
        (packFacts retrieval.results)) with
    | error cause =>
      rw [hcomplete] at h
      cases h
    | ok message =>
      rw [hcomplete] at h
      simp only at h
      cases hcontent : jsonContent message with
      | error error =>
        rw [hcontent] at h
        cases error <;> cases h
      | ok payload =>
        rw [hcontent] at h
        cases hparse : parseModelAnswer payload with
        | error error =>
          have hbind : (Except.ok payload >>= parseModelAnswer) = .error error := hparse
          rw [hbind] at h
          cases error <;> cases h
        | ok model =>
          have hbind : (Except.ok payload >>= parseModelAnswer) = .ok model := hparse
          rw [hbind] at h
          exact ⟨message, payload, model, fun hnil => hfacts (packFacts_eq_nil.mpr hnil), rfl,
            hcontent, hparse, (Except.ok.inj h).symm⟩

/-- With an unsupplied label the answer is withheld exactly when the model did not
decline. -/
theorem status_of_unsupplied {results : List RetrievedFact} {model : ModelAnswer}
    (h : ∃ label ∈ model.citedFacts, upper label ∉ suppliedLabels results.length) :
    (checkAnswer upper model (packFacts results)).status = .ungrounded ↔
      model.insufficientEvidence = false := by
  have hexact := checkAnswer_exact upper model results
  obtain ⟨label, hlabel, hunknown⟩ := h
  constructor
  · intro hstatus
    refine Bool.eq_false_iff.mpr fun hinsufficient => ?_
    rw [hexact.insufficient_iff.mpr hinsufficient] at hstatus
    cases hstatus
  · intro hinsufficient
    cases hstatus : (checkAnswer upper model (packFacts results)).status with
    | answered => exact absurd ((hexact.answered_iff.mp hstatus).2.2.2 label hlabel) hunknown
    | insufficientEvidence =>
      have hflag := hexact.insufficient_iff.mp hstatus
      exact absurd (hflag.symm.trans hinsufficient) Bool.noConfusion
    | ungrounded => rfl

theorem rejectedLabels_eq_nil_iff {results : List RetrievedFact} {model : ModelAnswer} :
    (checkAnswer upper model (packFacts results)).rejectedLabels = [] ↔
      ¬ ∃ label ∈ model.citedFacts, upper label ∉ suppliedLabels results.length := by
  rw [(checkAnswer_exact upper model results).rejected, List.filter_eq_nil_iff]
  simp only [decide_eq_true_eq, not_exists, not_and]

/-- A grounded answer has only verified citations unless the model declined and still
cited a label that was never supplied. -/
theorem grounded_iff_not_declinesWithUnsupplied
    (hretrieve : calls.retrieve ctx (retrievalQuery query) = .ok retrieval)
    (hpayload : ∀ message, calls.complete (chainInputs (normalizedQuestion query) retrieval
      (packFacts retrieval.results)) = .ok message → jsonContent message = .ok payload)
    (h : answer upper calls prompt ctx query = .ok g) :
    ((g.grounded = true → g.rejectedCitations = []) ↔
        ¬ DeclinesWithUnsupplied upper retrieval.results payload) ∧
      ((CitesUnsupplied upper retrieval.results payload → g.grounded = false ∧ g.answer = none) ↔
        ¬ DeclinesWithUnsupplied upper retrieval.results payload) := by
  rcases answer_eq_ok hretrieve h with
    ⟨hnil, rfl⟩ | ⟨message, payload', model, hne, hcomplete, hcontent, hparse, rfl⟩
  · have hnever : ¬ DeclinesWithUnsupplied upper retrieval.results payload := fun h => h.1 hnil
    exact ⟨⟨fun _ => hnever, fun _ _ => rfl⟩,
      ⟨fun _ => hnever, fun _ hcites => absurd hnil hcites.1⟩⟩
  · obtain rfl := Except.ok.inj ((hpayload message hcomplete).symm.trans hcontent)
    have hreturned := assemble_returned upper (normalizedQuestion query)
      (retrievalInfo retrieval (packFacts retrieval.results)) (generationInfo prompt message)
      (packFacts retrieval.results) model
    have hdeclines : DeclinesWithUnsupplied upper retrieval.results payload ↔
        model.insufficientEvidence = true ∧
          ∃ label ∈ model.citedFacts, upper label ∉ suppliedLabels retrieval.results.length := by
      constructor
      · rintro ⟨-, other, hother, hflag, hlabel⟩
        obtain rfl := Except.ok.inj (hother.symm.trans hparse)
        exact ⟨hflag, hlabel⟩
      · rintro ⟨hflag, hlabel⟩
        exact ⟨hne, model, hparse, hflag, hlabel⟩
    rw [hdeclines]
    refine ⟨⟨?_, ?_⟩, ⟨?_, ?_⟩⟩
    · rintro hlaw ⟨hflag, hunknown⟩
      have hgrounded := hreturned.grounded.mpr fun hstatus =>
        Bool.noConfusion (((status_of_unsupplied hunknown).mp (hreturned.status ▸ hstatus)).symm.trans
          hflag)
      exact rejectedLabels_eq_nil_iff.mp (hreturned.rejected ▸ hlaw hgrounded) hunknown
    · intro hnot hgrounded
      rw [hreturned.rejected, rejectedLabels_eq_nil_iff]
      intro hunknown
      have hflag : model.insufficientEvidence = false :=
        Bool.eq_false_iff.mpr fun hflag => hnot ⟨hflag, hunknown⟩
      exact hreturned.grounded.mp hgrounded
        (hreturned.status.trans ((status_of_unsupplied hunknown).mpr hflag))
    · rintro hlaw ⟨hflag, hunknown⟩
      obtain ⟨hgrounded, -⟩ := hlaw ⟨hne, model, hparse, hunknown⟩
      have hstatus : (checkAnswer upper model (packFacts retrieval.results)).status =
          .ungrounded := by
        rw [← hreturned.status]
        by_contra hother
        exact Bool.noConfusion ((hreturned.grounded.mpr hother).symm.trans hgrounded)
      exact Bool.noConfusion (((status_of_unsupplied hunknown).mp hstatus).symm.trans hflag)
    · rintro hnot ⟨-, other, hother, hunknown⟩
      obtain rfl := Except.ok.inj (hother.symm.trans hparse)
      have hflag : other.insufficientEvidence = false :=
        Bool.eq_false_iff.mpr fun hflag => hnot ⟨hflag, hunknown⟩
      have hstatus := hreturned.status.trans ((status_of_unsupplied hunknown).mpr hflag)
      exact ⟨Bool.eq_false_iff.mpr fun h => hreturned.grounded.mp h hstatus,
        hreturned.withheld hstatus⟩

end

/-- `str.upper` on ASCII. -/
def asciiUpper (s : String) : String :=
  String.ofList (s.toList.map fun c => if 'a' ≤ c ∧ c ≤ 'z' then Char.ofNat (c.toNat - 32) else c)

def limitFact : RetrievedFact :=
  ⟨⟨1, 2, 1, .int 5000, 3, 0, none, 0, 0, none, none, 90, 950, .internal⟩, "customer",
    "customer-991", "credit_limit", "billing-db", .human, ⟨1, ⟨0, 0, 0, none, none, none, none⟩⟩⟩

def limitPayload (insufficient : Bool) (label : String) : Json :=
  .obj [("answer", .str "The limit is 5000."), ("insufficient_evidence", .bool insufficient),
    ("cited_facts", .arr [.str label]), ("inferences", .arr [])]

/-- One fact is found, and the model sends the payload. -/
def limitCalls (payload : Json) : Calls where
  retrieve _ query := .ok ⟨query.query, 0, none, true, "embedding", [.internal], 1, 1, [limitFact], .off⟩
  complete _ := .ok ⟨some (dumps compact payload), none, none, none, none, none, none⟩

def limitQuery : AnswerQuery := ⟨"What is the limit?", none, none, 8, none, [], [], none⟩

def limitContext : TenantContext := ⟨1, 2, .viewer, none, none, none⟩

theorem jsonContent_limit (payload : Json) (h : UniqueKeys payload)
    (hint : PythonText.hasLongInt payload = false) (message : Message)
    (inputs : ChainInputs) (hmessage : (limitCalls payload).complete inputs = .ok message) :
    jsonContent message = .ok payload := by
  obtain rfl := Except.ok.inj hmessage
  have hloads : PythonText.loads (dumps compact payload) = .ok payload := by
    rw [PythonText.loads, JsonReader.loads_dumps compact payload h]
    exact if_neg (by rw [hint]; exact Bool.false_ne_true)
  simp only [jsonContent, hloads]

theorem grounded_iff_not_declinesWithUnsupplied_limit :
    ∃ g, answer asciiUpper (limitCalls (limitPayload false "f1")) ⟨"grounded-answer-v2", "0"⟩
        limitContext limitQuery = .ok g ∧
      ((g.grounded = true → g.rejectedCitations = []) ↔
        ¬ DeclinesWithUnsupplied asciiUpper [limitFact] (limitPayload false "f1")) := by
  have hanswers : ((answer asciiUpper (limitCalls (limitPayload false "f1"))
      ⟨"grounded-answer-v2", "0"⟩ limitContext limitQuery).toOption.isSome) = true := by
    decide +kernel
  have hunique : UniqueKeys (limitPayload false "f1") := by
    simp [limitPayload, UniqueKeys, UniqueItems, UniqueFields]
  cases h : answer asciiUpper (limitCalls (limitPayload false "f1")) ⟨"grounded-answer-v2", "0"⟩
      limitContext limitQuery with
  | error error =>
    rw [h] at hanswers
    cases hanswers
  | ok g =>
    exact ⟨g, rfl, (grounded_iff_not_declinesWithUnsupplied rfl
      (fun message => jsonContent_limit _ hunique (by decide) message _) h).1⟩

/-- A model that declines and cites F9 gets a grounded answer with a rejected label. -/
theorem grounded_with_rejected_citation :
    ((answer asciiUpper (limitCalls (limitPayload true "F9")) ⟨"grounded-answer-v2", "0"⟩
        limitContext limitQuery).toOption.map fun g => (g.grounded, g.rejectedCitations)) =
      some (true, ["F9"]) := by
  decide +kernel

end ContextLedger.Answers
