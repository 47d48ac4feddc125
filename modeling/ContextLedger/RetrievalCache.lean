import ContextLedger.MemoryStore
import ContextLedger.JsonbRoundTrip
import ContextLedger.Retrieval

/-!
The shared cache of retrieval results. A result is kept under a key made of the
organization, its generation number and the hash of everything else that can
change the answer; bumping the generation orphans every older entry. The keys of
results tell their organization and generation, and are never the key of a
generation.
-/
namespace ContextLedger.RetrievalCache

open Numerals JsonText JsonInjective Jsonb Values Authorization Retrieval MemoryStore

def generationTtlSeconds : ℚ := 7 * 24 * 3600

def keyVersion : String := "v1"

def generationKey (org : Uuid) : String := "cl:retrieval:gen:" ++ uuidText org

def resultKey (org : Uuid) (generation : ℕ) (digest : String) : String :=
  "cl:retrieval:" ++ keyVersion ++ ":" ++ uuidText org ++ ":" ++ natText generation ++ ":" ++ digest

/-- Separators ", " and ": ", and escapes outside ASCII. -/
def defaultStyle : Style := ⟨true, true⟩

/-- What is hashed; pinned instants are texts, others the words for their defaults. -/
def material (scopes : List PrivacyScope) (model : String) (p : Prepared) : Json :=
  .obj [("scopes", .arr (((scopes.map PrivacyScope.text).insertionSort (· ≤ ·)).map .str)),
    ("model", .str model),
    ("query", .str p.query),
    ("limit", .int p.limit),
    ("trust_weight", .float (.finite p.trustWeight)),
    ("entity_type", p.filters.entityType.elim .null fun t => .str t.1),
    ("external_ids", .arr (p.filters.externalIds.map .str)),
    ("properties", .arr (p.filters.properties.map .str)),
    ("source_ids", .arr (p.filters.sourceIds.map fun s => .str (uuidText s))),
    ("min_authority", p.filters.minAuthority.elim .null .int),
    ("min_confidence", p.filters.minConfidence.elim .null fun c => .str c.text),
    ("valid_at", .str (p.request.validAt.elim "now" Datetime.isoformat)),
    ("known_at", .str (p.request.knownAt.elim "latest" Datetime.isoformat))]

def key (rt : Runtime) (org : Uuid) (generation : ℕ) (scopes : List PrivacyScope) (model : String)
    (p : Prepared) : String :=
  resultKey org generation (rt.sha256 (dumpsSorted defaultStyle (material scopes model p)))

/-- What the entry of a result says about each version of it. -/
def scopesOf (result : RetrievalResult) : List (Uuid × PrivacyScope) :=
  result.results.map fun f => (f.version.id, f.version.privacyScope)

/-- How results are written and read. An entry that does not decode is a miss; one
that does shows the versions and scopes that were written. -/
structure Codec where
  dumpJson : RetrievalResult → String
  validateJson : String → Option RetrievalResult
  faithful : ∀ {r r' : RetrievalResult}, validateJson (dumpJson r) = some r' →
    scopesOf r' = scopesOf r

structure Cache where
  codec : Codec
  ttlSeconds : ℚ

/-- The current generation; a missing key reads as 0. -/
def generation (store : Store) (now : ℚ) (org : Uuid) : Result ℕ :=
  match store.get now (generationKey org) with
  | none => .ok 0
  | some raw => readInt raw

def invalidate (store : Store) (now : ℚ) (org : Uuid) : Result (Counter × Store) :=
  store.increment now (generationKey org) generationTtlSeconds

def Cache.get (cache : Cache) (store : Store) (now : ℚ) (key : String) : Option RetrievalResult :=
  (store.get now key).bind cache.codec.validateJson

def Cache.put (cache : Cache) (store : Store) (now : ℚ) (key : String) (result : RetrievalResult) :
    Store :=
  (store.set now key (cache.codec.dumpJson result) cache.ttlSeconds false).2

theorem put_eq (cache : Cache) (store : Store) (now : ℚ) (key : String)
    (result : RetrievalResult) : cache.put store now key result =
      store.insert key ⟨cache.codec.dumpJson result, now + cache.ttlSeconds⟩ := rfl

theorem get_eq_some {cache : Cache} {store : Store} {now : ℚ} {key : String}
    {result : RetrievalResult} (h : cache.get store now key = some result) :
    ∃ entry, store.live now key = some entry ∧
      cache.codec.validateJson entry.value = some result := by
  obtain ⟨raw, hraw, hread⟩ := Option.bind_eq_some_iff.mp h
  obtain ⟨entry, hlive, rfl⟩ := Option.map_eq_some_iff.mp hraw
  exact ⟨entry, hlive, hread⟩

theorem invalidate_eq_ok {store : Store} {now : ℚ} {org : Uuid} {counter : Counter}
    {store' : Store} (h : invalidate store now org = .ok (counter, store')) :
    ∃ expires, now < expires ∧
      store' = store.insert (generationKey org) ⟨natText counter.value, expires⟩ :=
  increment_eq_ok (by norm_num [generationTtlSeconds]) h

theorem resultKey_toList (org : Uuid) (n : ℕ) (digest : String) :
    (resultKey org n digest).toList = "cl:retrieval:".toList ++ (keyVersion.toList ++
      (":".toList ++ ((uuidText org).toList ++
        (":".toList ++ (digits n ++ (":".toList ++ digest.toList)))))) := by
  unfold resultKey natText
  simp only [String.toList_append, String.toList_ofList, List.append_assoc]

theorem generationKey_toList (org : Uuid) :
    (generationKey org).toList = "cl:retrieval:gen:".toList ++ (uuidText org).toList := by
  unfold generationKey
  rw [String.toList_append]

theorem generationKey_injective : Function.Injective generationKey := by
  intro a b h
  have htext := congrArg String.toList h
  rw [generationKey_toList, generationKey_toList] at htext
  exact uuidText_injective (String.toList_injective (List.append_cancel_left htext))

theorem resultKey_ne_generationKey (org : Uuid) (n : ℕ) (digest : String) (other : Uuid) :
    resultKey org n digest ≠ generationKey other := by
  intro h
  have hhead : "cl:retrieval:gen:".toList = "cl:retrieval:".toList ++ 'g' :: "en:".toList := by
    decide +kernel
  have hversion : keyVersion.toList = 'v' :: ['1'] := by decide +kernel
  have htext := congrArg String.toList h
  rw [resultKey_toList, generationKey_toList, hhead, List.append_assoc] at htext
  have hrest := List.append_cancel_left htext
  rw [hversion] at hrest
  exact absurd (List.cons.inj hrest).1 (by decide)

theorem colon_not_mem_digits (n : ℕ) : ':' ∉ digits n := by
  intro h
  exact absurd (isDigit_of_mem_digits h) (by decide)

/-- A key tells the organization, the generation and the digest it was made of. -/
theorem resultKey_inj {org org' : Uuid} {n n' : ℕ} {digest digest' : String}
    (h : resultKey org n digest = resultKey org' n' digest') :
    org = org' ∧ n = n' ∧ digest = digest' := by
  have htext := congrArg String.toList h
  rw [resultKey_toList, resultKey_toList] at htext
  have hcolon : ":".toList = [':'] := by decide +kernel
  rw [hcolon] at htext
  obtain ⟨horg, hrest⟩ := List.append_inj (List.append_cancel_left (List.append_cancel_left
    (List.append_cancel_left htext))) (by rw [length_uuidText, length_uuidText])
  obtain ⟨hn, hdigest⟩ := append_inj_of_separator (colon_not_mem_digits n)
    (colon_not_mem_digits n') (List.append_cancel_left hrest)
  exact ⟨uuidText_injective (String.toList_injective horg), digits_injective hn,
    String.toList_injective hdigest⟩

theorem text_injective : Function.Injective PrivacyScope.text := by
  intro a b h
  cases a <;> cases b <;> first | rfl | exact absurd h (by decide)

theorem sortItems_str (texts : List String) : sortItems (texts.map .str) = texts.map .str := by
  induction texts with
  | nil => rfl
  | cons t texts ih => rw [List.map_cons, sortItems, sortKeys, ih]

/-- Keys that agree were made for the same scopes, unless the hash collides. -/
theorem mem_scopes_of_key {rt : Runtime} (hsha : Function.Injective rt.sha256) {org org' : Uuid}
    {n n' : ℕ} {scopes scopes' : List PrivacyScope} {model model' : String} {p p' : Prepared}
    (h : key rt org n scopes model p = key rt org' n' scopes' model' p') (scope : PrivacyScope) :
    scope ∈ scopes ↔ scope ∈ scopes' := by
  have hmaterial : sortKeys (material scopes model p) = sortKeys (material scopes' model' p') :=
    (dumpsSorted_eq_iff defaultStyle _ _).mp (hsha (resultKey_inj h).2.2)
  have hkeys : ∀ {fields}, material scopes model p = .obj fields →
      (fields.map Prod.fst).Nodup := by
    intro fields hfields
    cases hfields
    show (["scopes", "model", "query", "limit", "trust_weight", "entity_type", "external_ids",
      "properties", "source_ids", "min_authority", "min_confidence", "valid_at", "known_at"]).Nodup
    decide
  have hscopes := sortKeys_field (hkeys rfl) hmaterial "scopes" (List.mem_cons_self ..)
    (List.mem_cons_self ..)
  rw [sortKeys, sortKeys, sortItems_str, sortItems_str, Json.arr.injEq] at hscopes
  have htexts := List.map_injective_iff.mpr (fun _ _ => Json.str.inj) hscopes
  have hmem : ∀ scopes : List PrivacyScope, scope ∈ scopes ↔
      scope.text ∈ (scopes.map PrivacyScope.text).insertionSort (· ≤ ·) := by
    intro scopes
    rw [List.mem_insertionSort, List.mem_map_of_injective text_injective]
  rw [hmem scopes, hmem scopes', htexts]

def factJson (f : RetrievedFact) : Json :=
  .obj [("id", .str (uuidText f.version.id)), ("privacy_scope", .str f.version.privacyScope.text)]

/-- The identifiers and scopes of a result, as an entry could keep them. -/
def resultJson (r : RetrievalResult) : Json := .arr (r.results.map factJson)

theorem scopesOf_of_resultJson {r r' : RetrievalResult} (h : resultJson r = resultJson r') :
    scopesOf r = scopesOf r' := by
  have hfacts : r.results.map factJson = r'.results.map factJson := Json.arr.inj h
  have hread : ∀ f f' : RetrievedFact, factJson f = factJson f' →
      (f.version.id, f.version.privacyScope) = (f'.version.id, f'.version.privacyScope) := by
    intro f f' hf
    simp only [factJson, Json.obj.injEq, List.cons.injEq, Prod.mk.injEq, Json.str.injEq] at hf
    exact Prod.ext (uuidText_injective hf.1.2) (text_injective hf.2.1.2)
  unfold scopesOf
  generalize r.results = facts at hfacts
  generalize r'.results = facts' at hfacts
  induction facts generalizing facts' with
  | nil => rw [List.map_eq_nil_iff.mp hfacts.symm]
  | cons f facts ih =>
    obtain ⟨f', rest, rfl, hf, hrest⟩ := List.map_eq_cons_iff.mp hfacts.symm
    rw [List.map_cons, List.map_cons, hread f f' hf.symm, ih rest hrest.symm]

/-- Reads back the given results and takes everything else for a miss. -/
def listCodec (known : List RetrievalResult) : Codec where
  dumpJson r := dumps defaultStyle (resultJson r)
  validateJson text := known.find? fun r => decide (dumps defaultStyle (resultJson r) = text)
  faithful := by
    intro r r' h
    have htext : dumps defaultStyle (resultJson r') = dumps defaultStyle (resultJson r) := by
      simpa using List.find?_some h
    exact scopesOf_of_resultJson (dumps_injective defaultStyle htext)

end ContextLedger.RetrievalCache
