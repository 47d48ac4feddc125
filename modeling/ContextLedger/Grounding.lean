import ContextLedger.Contradictions
import ContextLedger.Retrieval

/-!
What a model may see and what it may cite. The facts of a retrieval are labelled
F1 to Fn; the answer of the model is read from JSON of any shape, and its labels
are looked up among those that were supplied. An answer is kept only when every
label was supplied and there is one.
-/
namespace ContextLedger.Grounding

open Numerals JsonText Values Validation Reference Retrieval

structure PackedFact where
  label : String
  factVersionId : Uuid
  factId : Uuid
  sourceId : Uuid
  sourceName : String
  sourceType : String
  entityType : String
  externalId : String
  property : String
  value : Json
  validFrom : Instant
  validUntil : Option Instant
  recordedAt : Instant
  authority : ℤ
  confidence : ℤ

/-- Equality field by field. -/
def PackedFact.eq (a b : PackedFact) : Bool :=
  a.label == b.label && a.factVersionId == b.factVersionId && a.factId == b.factId &&
    a.sourceId == b.sourceId && a.sourceName == b.sourceName && a.sourceType == b.sourceType &&
    a.entityType == b.entityType && a.externalId == b.externalId && a.property == b.property &&
    Contradictions.valueEq a.value b.value && a.validFrom == b.validFrom &&
    a.validUntil == b.validUntil && a.recordedAt == b.recordedAt && a.authority == b.authority &&
    a.confidence == b.confidence

def factLabel (i : ℕ) : String := "F" ++ natText i

def packFact (r : RetrievedFact) (i : ℕ) : PackedFact where
  label := factLabel i
  factVersionId := r.version.id
  factId := r.version.factId
  sourceId := r.version.sourceId
  sourceName := r.sourceName
  sourceType := r.sourceType.text
  entityType := r.entityType
  externalId := r.externalId
  property := r.property
  value := r.version.value
  validFrom := r.version.validFrom
  validUntil := r.version.validUntil
  recordedAt := r.version.recordedAt
  authority := r.version.authority
  confidence := r.version.confidence

def packFacts (results : List RetrievedFact) : List PackedFact :=
  (results.zipIdx 1).map fun e => packFact e.1 e.2

/-- F1 to Fn. -/
def suppliedLabels (n : ℕ) : List String := (List.range' 1 n).map factLabel

def maxValueChars : ℕ := 500

/-- Values keep their characters; only what JSON must escape is escaped. -/
def valueStyle : Style := ⟨true, false⟩

def nameStyle : Style := ⟨true, true⟩

def truncated (text : String) : String :=
  if maxValueChars < text.length then
    String.ofList (text.toList.take maxValueChars) ++ "...(truncated)"
  else text

def intText (i : ℤ) : String := String.ofList (Literal.ofInt i).render

/-- Confidences are kept in thousandths. -/
def confidenceText (thousandths : ℤ) : String :=
  String.ofList (Literal.render ⟨decide (thousandths < 0), thousandths.natAbs, 3, none⟩)

def renderFact (f : PackedFact) : String :=
  "[" ++ f.label ++ "] " ++ f.entityType ++ "/" ++ f.externalId ++ " " ++ f.property ++ " = " ++
    truncated (dumpsSorted valueStyle f.value) ++ " | valid " ++ isoformat f.validFrom ++ " to " ++
    ((f.validUntil.map isoformat).getD "open-ended") ++ " | source " ++
    dumps nameStyle (.str f.sourceName) ++ " (" ++ f.sourceType ++ ") | authority " ++
    intText f.authority ++ ", confidence " ++ confidenceText f.confidence ++ " | recorded " ++
    isoformat f.recordedAt

def renderFacts (facts : List PackedFact) : String :=
  if facts = [] then "(no facts)" else String.intercalate "\n" (facts.map renderFact)

inductive AnswerStatus where
  | answered
  | insufficientEvidence
  | ungrounded
  deriving DecidableEq

structure ModelAnswer where
  answer : String
  insufficientEvidence : Bool
  citedFacts : List String
  inferences : List String

structure GroundingCheck where
  status : AnswerStatus
  cited : List PackedFact
  rejectedLabels : List String

/-- The one error that callers handle, and what a subscript, a method call or the
conversion of a number raises. -/
inductive Raised where
  | malformed (message : String)
  | keyError
  | typeError
  | attributeError
  | valueError
  deriving DecidableEq

/-- `payload[key]` with a text as the key. -/
def subscript : Json → String → Except Raised Json
  | .obj fields, key =>
    match fields.lookup key with
    | some value => .ok value
    | none => .error .keyError
  | _, _ => .error .typeError

/-- `payload.get(key, default)`. -/
def getOr : Json → String → Json → Except Raised Json
  | .obj fields, key, default => .ok ((fields.lookup key).getD default)
  | _, _, _ => .error .attributeError

def stringItems : List Json → Option (List String)
  | [] => some []
  | .str s :: items => (stringItems items).map fun rest => s :: rest
  | _ :: _ => none

/-- The items of a list that holds texts only. -/
def stringList : Json → Option (List String)
  | .arr items => stringItems items
  | _ => none

structure AnswerFields where
  answer : Json
  insufficient : Json
  cited : Json
  inferences : Json

def answerFields (payload : Json) : Except Raised AnswerFields := do
  let answer ← subscript payload "answer"
  let insufficient ← subscript payload "insufficient_evidence"
  let cited ← subscript payload "cited_facts"
  let inferences ← getOr payload "inferences" (.arr [])
  return ⟨answer, insufficient, cited, inferences⟩

def checkFields (fields : AnswerFields) : Except Raised ModelAnswer :=
  match fields.answer, fields.insufficient with
  | .str answer, .bool insufficient =>
    match stringList fields.cited, stringList fields.inferences with
    | none, _ => .error (.malformed "cited_facts must be a list of labels")
    | some _, none => .error (.malformed "inferences must be a list of strings")
    | some cited, some inferences =>
      .ok ⟨strip answer, insufficient, cited.map strip, inferences⟩
  | _, _ => .error (.malformed "structured answer has fields of the wrong type")

def missingFields : String := "structured answer is missing required fields"

def parseModelAnswer (payload : Json) : Except Raised ModelAnswer :=
  match answerFields payload with
  | .ok fields => checkFields fields
  | .error .keyError => .error (.malformed missingFields)
  | .error .typeError => .error (.malformed missingFields)
  | .error raised => .error raised

/-- The fact under a label and where it stands; of two with one label the last. -/
def byLabel (supplied : List PackedFact) (label : String) : Option (PackedFact × ℕ) :=
  supplied.zipIdx.reverse.find? fun e => e.1.label = label

/-- `in` finds the object itself or an equal one. -/
def sameFact (a b : PackedFact × ℕ) : Bool := a.2 == b.2 || a.1.eq b.1

/-- The facts cited so far and the labels rejected so far. -/
structure Citing where
  cited : List (PackedFact × ℕ)
  rejected : List String

variable (upper : String → String)

def checkLabel (supplied : List PackedFact) (c : Citing) (label : String) : Citing :=
  match byLabel supplied (upper label) with
  | none => { c with rejected := c.rejected ++ [label] }
  | some fact =>
    if c.cited.any fun other => sameFact other fact then c
    else { c with cited := c.cited ++ [fact] }

def citing (supplied : List PackedFact) (labels : List String) : Citing :=
  labels.foldl (checkLabel upper supplied) ⟨[], []⟩

/-- `upper` is `str.upper`. -/
def checkAnswer (model : ModelAnswer) (supplied : List PackedFact) : GroundingCheck :=
  let c := citing upper supplied model.citedFacts
  if model.insufficientEvidence then ⟨.insufficientEvidence, [], c.rejected⟩
  else if c.rejected ≠ [] ∨ c.cited = [] ∨ model.answer = "" then ⟨.ungrounded, [], c.rejected⟩
  else ⟨.answered, c.cited.map Prod.fst, c.rejected⟩

section

variable {upper}

theorem stringItems_eq_some {items : List Json} {texts : List String} :
    stringItems items = some texts ↔ items = texts.map Json.str := by
  induction items generalizing texts with
  | nil =>
    cases texts with
    | nil => exact ⟨fun _ => rfl, fun _ => rfl⟩
    | cons t texts => exact ⟨fun h => by simp [stringItems] at h, fun h => by simp at h⟩
  | cons item items ih =>
    cases item with
    | str s =>
      rw [stringItems, Option.map_eq_some_iff]
      constructor
      · rintro ⟨rest, hrest, rfl⟩
        rw [ih.mp hrest]
        rfl
      · intro h
        cases texts with
        | nil => exact absurd h (List.cons_ne_nil _ _)
        | cons t texts =>
          obtain ⟨ht, hrest⟩ := List.cons.inj h
          exact ⟨texts, ih.mpr hrest, by rw [Json.str.inj ht]⟩
    | null | bool b | int i | float x | arr xs | obj fs =>
      constructor
      · intro h
        exact absurd h.symm (Option.some_ne_none texts)
      · intro h
        cases texts with
        | nil => exact absurd h (List.cons_ne_nil _ _)
        | cons t texts => exact absurd (List.cons.inj h).1 (by simp)

theorem stringList_eq_some {v : Json} {texts : List String} :
    stringList v = some texts ↔ v = .arr (texts.map Json.str) := by
  cases v with
  | arr items => rw [stringList, stringItems_eq_some, Json.arr.injEq]
  | null | bool b | int i | float x | str s | obj fs =>
    exact ⟨fun h => absurd h.symm (Option.some_ne_none texts), fun h => absurd h (by simp)⟩

/-- The payload of an answer; the inferences may be missing. -/
def AnswerPayload (payload : Json) (answer : String) (insufficient : Bool)
    (cited inferences : List String) : Prop :=
  ∃ fields, payload = .obj fields ∧ fields.lookup "answer" = some (.str answer) ∧
    fields.lookup "insufficient_evidence" = some (.bool insufficient) ∧
    fields.lookup "cited_facts" = some (.arr (cited.map Json.str)) ∧
    (fields.lookup "inferences").getD (.arr []) = .arr (inferences.map Json.str)

theorem checkFields_cases (fields : AnswerFields) :
    (∃ message, checkFields fields = .error (.malformed message)) ∨
      ∃ (answer : String) (insufficient : Bool) (cited inferences : List String),
        (fields.answer = .str answer ∧ fields.insufficient = .bool insufficient ∧
          fields.cited = .arr (cited.map Json.str) ∧
          fields.inferences = .arr (inferences.map Json.str)) ∧
        checkFields fields = .ok ⟨strip answer, insufficient, cited.map strip, inferences⟩ := by
  obtain ⟨answer, insufficient, cited, inferences⟩ := fields
  cases answer with
  | str answer =>
    cases insufficient with
    | bool insufficient =>
      cases hcited : stringList cited with
      | none =>
        refine .inl ⟨"cited_facts must be a list of labels", ?_⟩
        simp only [checkFields, hcited]
      | some labels =>
        cases hinferences : stringList inferences with
        | none =>
          refine .inl ⟨"inferences must be a list of strings", ?_⟩
          simp only [checkFields, hcited, hinferences]
        | some texts =>
          refine .inr ⟨answer, insufficient, labels, texts, ⟨rfl, rfl,
            stringList_eq_some.mp hcited, stringList_eq_some.mp hinferences⟩, ?_⟩
          simp only [checkFields, hcited, hinferences]
    | null | int i | float x | str s | arr xs | obj fs => exact .inl ⟨_, rfl⟩
  | null | bool b | int i | float x | arr xs | obj fs => exact .inl ⟨_, rfl⟩

/-- The reading of a payload fails in one way only. -/
theorem parseModelAnswer_cases (payload : Json) :
    (∃ message, parseModelAnswer payload = .error (.malformed message)) ∨
      ∃ (answer : String) (insufficient : Bool) (cited inferences : List String),
        AnswerPayload payload answer insufficient cited inferences ∧
        parseModelAnswer payload =
          .ok ⟨strip answer, insufficient, cited.map strip, inferences⟩ := by
  cases payload with
  | obj fields =>
    cases hanswer : fields.lookup "answer" with
    | none =>
      refine .inl ⟨missingFields, ?_⟩
      rw [parseModelAnswer, answerFields, subscript, hanswer]
      rfl
    | some answer =>
    cases hinsufficient : fields.lookup "insufficient_evidence" with
    | none =>
      refine .inl ⟨missingFields, ?_⟩
      rw [parseModelAnswer, answerFields, subscript, hanswer, subscript, hinsufficient]
      rfl
    | some insufficient =>
    cases hcited : fields.lookup "cited_facts" with
    | none =>
      refine .inl ⟨missingFields, ?_⟩
      rw [parseModelAnswer, answerFields, subscript, hanswer, subscript, hinsufficient, subscript,
        hcited]
      rfl
    | some cited =>
      have hfields : parseModelAnswer (.obj fields) = checkFields
          ⟨answer, insufficient, cited, (fields.lookup "inferences").getD (.arr [])⟩ := by
        rw [parseModelAnswer, answerFields, subscript, hanswer, subscript, hinsufficient,
          subscript, hcited]
        rfl
      rw [hfields]
      rcases checkFields_cases ⟨answer, insufficient, cited,
        (fields.lookup "inferences").getD (.arr [])⟩ with
        hmalformed | ⟨a, b, cs, is, ⟨rfl, rfl, rfl, his⟩, hok⟩
      · exact .inl hmalformed
      · exact .inr ⟨a, b, cs, is, ⟨fields, rfl, hanswer, hinsufficient, hcited, his⟩, hok⟩
  | null | bool b | int i | float x | str s | arr items => exact .inl ⟨_, rfl⟩

theorem byLabel_eq_none {supplied : List PackedFact} {label : String} :
    byLabel supplied label = none ↔ label ∉ supplied.map PackedFact.label := by
  rw [byLabel, List.find?_eq_none]
  constructor
  · intro h hmem
    obtain ⟨f, hf, rfl⟩ := List.mem_map.mp hmem
    obtain ⟨i, hi⟩ := List.mem_iff_getElem?.mp hf
    exact h (f, i) (List.mem_reverse.mpr (List.mem_zipIdx_iff_getElem?.mpr hi))
      (decide_eq_true rfl)
  · rintro h ⟨f, i⟩ he hlabel
    have hf : f ∈ supplied := List.fst_mem_of_mem_zipIdx (List.mem_reverse.mp he)
    exact h (List.mem_map.mpr ⟨f, hf, of_decide_eq_true hlabel⟩)

theorem byLabel_eq_some {supplied : List PackedFact} {label : String} {fact : PackedFact × ℕ}
    (h : byLabel supplied label = some fact) :
    fact.1.label = label ∧ supplied[fact.2]? = some fact.1 := by
  have hlabel := List.find?_some h
  have hmem := List.mem_reverse.mp (List.mem_of_find?_eq_some h)
  exact ⟨of_decide_eq_true hlabel, List.mem_zipIdx_iff_getElem?.mp hmem⟩

theorem sameFact_iff {supplied : List PackedFact} {label label' : String}
    {fact fact' : PackedFact × ℕ} (h : byLabel supplied label = some fact)
    (h' : byLabel supplied label' = some fact') : sameFact fact fact' = true ↔ label = label' := by
  obtain ⟨hlabel, hget⟩ := byLabel_eq_some h
  obtain ⟨hlabel', hget'⟩ := byLabel_eq_some h'
  constructor
  · intro hsame
    rcases Bool.or_eq_true_iff.mp hsame with hindex | heq
    · rw [eq_of_beq hindex, hget'] at hget
      rw [← hlabel, ← hlabel', Option.some.inj hget]
    · have hlabels : fact.1.label = fact'.1.label := by
        simp only [PackedFact.eq, Bool.and_eq_true, beq_iff_eq] at heq
        exact heq.1.1.1.1.1.1.1.1.1.1.1.1.1.1
      rw [← hlabel, ← hlabel', hlabels]
  · rintro rfl
    obtain rfl := Option.some.inj (h.symm.trans h')
    rw [sameFact, beq_self_eq_true, Bool.true_or]

theorem checkLabel_of_none {supplied : List PackedFact} {label : String} (c : Citing)
    (h : byLabel supplied (upper label) = none) :
    checkLabel upper supplied c label = { c with rejected := c.rejected ++ [label] } := by
  rw [checkLabel, h]

theorem checkLabel_of_some {supplied : List PackedFact} {label : String} {fact : PackedFact × ℕ}
    (c : Citing) (h : byLabel supplied (upper label) = some fact) :
    checkLabel upper supplied c label =
      if c.cited.any fun other => sameFact other fact then c
      else { c with cited := c.cited ++ [fact] } := by
  rw [checkLabel, h]

/-- Each label is looked up: the first mention of a fact counts, and what was never
supplied is kept apart. -/
theorem citing_eq (upper : String → String) (supplied : List PackedFact) (labels : List String) :
    citing upper supplied labels =
      ⟨(labels.map upper).eraseDups.filterMap (byLabel supplied),
        labels.filter fun label => upper label ∉ supplied.map PackedFact.label⟩ := by
  induction labels using List.reverseRecOn with
  | nil => rfl
  | append_singleton labels label ih =>
    have hstep : citing upper supplied (labels ++ [label]) =
        checkLabel upper supplied (citing upper supplied labels) label := by
      rw [citing, List.foldl_append]
      rfl
    rw [hstep, ih, List.map_append, List.eraseDups_append, List.filter_append,
      List.filterMap_append]
    cases hfact : byLabel supplied (upper label) with
    | none =>
      have hunknown := byLabel_eq_none.mp hfact
      have hnothing : (([label].map upper).removeAll (labels.map upper)).eraseDups.filterMap
          (byLabel supplied) = [] := by
        refine List.filterMap_eq_nil_iff.mpr ?_
        intro u hu
        obtain rfl : u = upper label := by
          simpa using List.mem_of_mem_filter (List.mem_eraseDups.mp hu)
        exact hfact
      have hkept : [label].filter (fun label => upper label ∉ supplied.map PackedFact.label) =
          [label] := List.filter_cons_of_pos (decide_eq_true hunknown)
      rw [checkLabel_of_none _ hfact, hnothing, hkept, List.append_nil]
    | some fact =>
      have hknown : upper label ∈ supplied.map PackedFact.label := by
        by_contra hunknown
        rw [byLabel_eq_none.mpr hunknown] at hfact
        exact absurd hfact.symm (Option.some_ne_none fact)
      have hkept : [label].filter (fun label => upper label ∉ supplied.map PackedFact.label) =
          [] := List.filter_cons_of_neg (by simpa using hknown)
      rw [hkept, List.append_nil]
      have hany : ((labels.map upper).eraseDups.filterMap (byLabel supplied)).any
          (fun other => sameFact other fact) = true ↔ upper label ∈ labels.map upper := by
        rw [List.any_eq_true]
        constructor
        · rintro ⟨other, hother, hsame⟩
          obtain ⟨u, hu, hfound⟩ := List.mem_filterMap.mp hother
          rw [← (sameFact_iff hfound hfact).mp hsame]
          exact List.mem_eraseDups.mp hu
        · intro hmem
          exact ⟨fact, List.mem_filterMap.mpr ⟨_, List.mem_eraseDups.mpr hmem, hfact⟩,
            (sameFact_iff hfact hfact).mpr rfl⟩
      rw [checkLabel_of_some _ hfact]
      by_cases hmem : upper label ∈ labels.map upper
      · have hnothing : ([label].map upper).removeAll (labels.map upper) = [] :=
          List.filter_cons_of_neg (by simpa using hmem)
        rw [if_pos (hany.mpr hmem), hnothing, List.eraseDups_nil, List.filterMap_nil,
          List.append_nil]
      · have hone : ([label].map upper).removeAll (labels.map upper) = [upper label] :=
          List.filter_cons_of_pos (by simpa using hmem)
        rw [if_neg fun h => hmem (hany.mp h), hone, List.eraseDups_cons, List.filter_nil,
          List.eraseDups_nil, List.filterMap_cons_some hfact, List.filterMap_nil]

theorem factLabel_injective : Function.Injective factLabel := by
  intro i j h
  refine digits_injective ?_
  have htexts := congrArg String.toList h
  simpa [factLabel, natText, String.toList_append] using htexts

theorem labels_packFacts (results : List RetrievedFact) :
    (packFacts results).map PackedFact.label = suppliedLabels results.length := by
  rw [packFacts, suppliedLabels, List.map_map, ← List.zipIdx_map_snd 1 results, List.map_map]
  rfl

/-- What a check keeps of an answer about some results. -/
structure Exact (upper : String → String) (results : List RetrievedFact) (model : ModelAnswer)
    (check : GroundingCheck) : Prop where
  answered_iff : check.status = .answered ↔
    model.insufficientEvidence = false ∧ model.answer ≠ "" ∧ model.citedFacts ≠ [] ∧
      ∀ label ∈ model.citedFacts, upper label ∈ suppliedLabels results.length
  insufficient_iff : check.status = .insufficientEvidence ↔ model.insufficientEvidence = true
  cited : check.status = .answered →
    check.cited.map PackedFact.label = (model.citedFacts.map upper).eraseDups ∧
      ∀ fact ∈ check.cited, fact ∈ packFacts results
  cited_eq_nil : check.status ≠ .answered → check.cited = []
  rejected : check.rejectedLabels =
    model.citedFacts.filter fun label => upper label ∉ suppliedLabels results.length

theorem map_label_filterMap {supplied : List PackedFact} {labels : List String}
    (h : ∀ label ∈ labels, label ∈ supplied.map PackedFact.label) :
    ((labels.filterMap (byLabel supplied)).map Prod.fst).map PackedFact.label = labels := by
  induction labels with
  | nil => rfl
  | cons label labels ih =>
    cases hfact : byLabel supplied label with
    | none => exact absurd (h label List.mem_cons_self) (byLabel_eq_none.mp hfact)
    | some fact =>
      rw [List.filterMap_cons_some hfact, List.map_cons, List.map_cons,
        ih fun l hl => h l (List.mem_cons_of_mem label hl), (byLabel_eq_some hfact).1]

theorem citing_packFacts (upper : String → String) (results : List RetrievedFact)
    (labels : List String) :
    (citing upper (packFacts results) labels).rejected =
        labels.filter (fun label => upper label ∉ suppliedLabels results.length) ∧
      ((citing upper (packFacts results) labels).rejected = [] →
        ((citing upper (packFacts results) labels).cited = [] ↔ labels = []) ∧
        ((citing upper (packFacts results) labels).cited.map Prod.fst).map PackedFact.label =
          (labels.map upper).eraseDups) := by
  rw [citing_eq]
  simp only [labels_packFacts]
  refine ⟨trivial, fun hnone => ?_⟩
  have hmap : (((labels.map upper).eraseDups.filterMap (byLabel (packFacts results))).map
      Prod.fst).map PackedFact.label = (labels.map upper).eraseDups := by
    refine map_label_filterMap fun u hu => ?_
    obtain ⟨label, hlabel, rfl⟩ := List.mem_map.mp (List.mem_eraseDups.mp hu)
    rw [labels_packFacts]
    by_contra hunknown
    exact List.filter_eq_nil_iff.mp hnone label hlabel (decide_eq_true hunknown)
  refine ⟨⟨fun hnil => ?_, fun hnil => by rw [hnil]; rfl⟩, hmap⟩
  rw [hnil] at hmap
  cases labels with
  | nil => rfl
  | cons label labels =>
    rw [List.map_cons, List.eraseDups_cons] at hmap
    exact absurd hmap (List.cons_ne_nil _ _).symm

theorem mem_of_citing {upper : String → String} {supplied : List PackedFact}
    {labels : List String} {fact : PackedFact}
    (h : fact ∈ (citing upper supplied labels).cited.map Prod.fst) : fact ∈ supplied := by
  rw [citing_eq] at h
  obtain ⟨entry, hentry, rfl⟩ := List.mem_map.mp h
  obtain ⟨label, -, hfound⟩ := List.mem_filterMap.mp hentry
  exact List.mem_of_getElem? (byLabel_eq_some hfound).2

theorem checkAnswer_exact (upper : String → String) (model : ModelAnswer)
    (results : List RetrievedFact) :
    Exact upper results model (checkAnswer upper model (packFacts results)) := by
  obtain ⟨hrejected, hcited⟩ := citing_packFacts upper results model.citedFacts
  by_cases hinsufficient : model.insufficientEvidence = true
  · have hcheck : checkAnswer upper model (packFacts results) =
        ⟨.insufficientEvidence, [], (citing upper (packFacts results) model.citedFacts).rejected⟩ :=
      if_pos hinsufficient
    rw [hcheck]
    exact {
      answered_iff := ⟨fun h => (by cases h), fun h => absurd (hinsufficient.symm.trans h.1) (by decide)⟩
      insufficient_iff := ⟨fun _ => hinsufficient, fun _ => rfl⟩
      cited := fun h => by cases h
      cited_eq_nil := fun _ => rfl
      rejected := hrejected }
  · have hunknown : (citing upper (packFacts results) model.citedFacts).rejected = [] ↔
        ∀ label ∈ model.citedFacts, upper label ∈ suppliedLabels results.length := by
      rw [hrejected, List.filter_eq_nil_iff]
      simp only [decide_eq_true_eq, not_not]
    by_cases hwithheld : (citing upper (packFacts results) model.citedFacts).rejected ≠ [] ∨
        (citing upper (packFacts results) model.citedFacts).cited = [] ∨ model.answer = ""
    · have hcheck : checkAnswer upper model (packFacts results) =
          ⟨.ungrounded, [], (citing upper (packFacts results) model.citedFacts).rejected⟩ := by
        rw [checkAnswer, if_neg hinsufficient, if_pos hwithheld]
      rw [hcheck]
      exact {
        answered_iff := by
          refine ⟨fun h => (by cases h), ?_⟩
          rintro ⟨-, hanswer, hlabels, hknown⟩
          have hnone := hunknown.mpr hknown
          rcases hwithheld with hrejects | hnothing | hempty
          · exact absurd hnone hrejects
          · exact absurd ((hcited hnone).1.mp hnothing) hlabels
          · exact absurd hempty hanswer
        insufficient_iff := ⟨fun h => (by cases h), fun h => absurd h hinsufficient⟩
        cited := fun h => by cases h
        cited_eq_nil := fun _ => rfl
        rejected := hrejected }
    · have hcheck : checkAnswer upper model (packFacts results) =
          ⟨.answered, (citing upper (packFacts results) model.citedFacts).cited.map Prod.fst,
            (citing upper (packFacts results) model.citedFacts).rejected⟩ := by
        rw [checkAnswer, if_neg hinsufficient, if_neg hwithheld]
      obtain ⟨hnone, hsome⟩ := not_or.mp hwithheld
      obtain ⟨hsome, hanswer⟩ := not_or.mp hsome
      have hnone := not_not.mp hnone
      rw [hcheck]
      exact {
        answered_iff := ⟨fun _ => ⟨Bool.eq_false_iff.mpr hinsufficient, hanswer,
          fun hnil => hsome ((hcited hnone).1.mpr hnil), hunknown.mp hnone⟩, fun _ => rfl⟩
        insufficient_iff := ⟨fun h => (by cases h), fun h => absurd h hinsufficient⟩
        cited := fun _ => ⟨(hcited hnone).2, fun fact hfact => mem_of_citing hfact⟩
        cited_eq_nil := fun h => absurd rfl h
        rejected := hrejected }

end

end ContextLedger.Grounding
