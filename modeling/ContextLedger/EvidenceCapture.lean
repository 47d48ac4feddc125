import ContextLedger.Decisions

/-!
Capturing evidence. The excerpt is normalised and hashed, and the same content from
the same source is stored once: a second capture returns the row that is there.
-/
namespace ContextLedger.EvidenceCapture

open JsonText Values Validation Authorization Schema Facts

def excerptMaxChars : ℕ := 8000

def metadataMaxBytes : ℕ := 4096

def uriMaxLength : ℕ := 2048

def allowedUriSchemes : List String := ["https://", "http://", "s3://"]

/-- `replace("\r\n", "\n").replace("\r", "\n")` -/
def unixLines : List Char → List Char
  | '\r' :: '\n' :: rest => '\n' :: unixLines rest
  | '\r' :: rest => '\n' :: unixLines rest
  | c :: rest => c :: unixLines rest
  | [] => []

/-- The excerpt as it is stored and hashed. -/
def normalizeExcerpt (value : String) : Result String :=
  let excerpt := strip (String.ofList (unixLines value.toList))
  if excerpt = "" then validationFailed "excerpt must not be empty"
  else if excerptMaxChars < excerpt.length then
    validationFailed ("excerpt must be at most " ++ natText excerptMaxChars ++ " characters; " ++
      "store larger documents externally and reference them by uri")
  else if Jsonb.hasNul excerpt then
    validationFailed "excerpt must not contain NUL characters"
  else .ok excerpt

def contentHash (rt : Runtime) (normalizedExcerpt : String) : String := rt.sha256 normalizedExcerpt

def validateMetadata : Option Json → Result Json
  | none => .ok (.obj [])
  | some (.obj fields) =>
    match encodeError (.obj fields) with
    | some message => validationFailed ("metadata is not valid JSON: " ++ message)
    | none =>
      if metadataMaxBytes < (dumps compact (.obj fields)).utf8ByteSize then
        validationFailed ("metadata must be at most " ++ natText metadataMaxBytes ++ " bytes")
      else .ok (.obj fields)
  | some _ => validationFailed "metadata must be a JSON object"

/-- A reference to material that is stored elsewhere. -/
def normalizeUri : Option String → Result (Option String)
  | none => .ok none
  | some value =>
    let uri := strip value
    if uriMaxLength < uri.length ∨ !allowedUriSchemes.any fun scheme =>
        scheme.toList.isPrefixOf uri.toList then
      validationFailed "uri must be an http(s):// or s3:// URL of at most 2048 characters"
    else .ok (some uri)

structure CaptureEvidence where
  sourceId : Uuid
  evidenceType : EvidenceType
  excerpt : String
  capturedAt : Datetime
  uri : Option String
  metadata : Option Json
  privacyScope : PrivacyScope

structure CapturedEvidence where
  evidence : Evidence
  created : Bool

/-- `INSERT … ON CONFLICT DO NOTHING`, then the row with this content. -/
def capture (db : Database) (new : Evidence) : Result (CapturedEvidence × Database) :=
  match db.evidence.find? fun e => e.organizationId == new.organizationId &&
      e.sourceId == new.sourceId && e.contentSha256 == new.contentSha256 with
  | some evidence => .ok (⟨evidence, false⟩, db)
  | none =>
    if db.evidence.any fun e => e.id == new.id then .error (.integrity "pk_evidence")
    else .ok (⟨new, true⟩, { db with evidence := db.evidence ++ [new] })

/-- `clock` is the time of the database, which it stamps the new row with. -/
def captureEvidence (rt : Runtime) (ctx : TenantContext) (command : CaptureEvidence)
    (clock : Instant) (id : Uuid) (db : Database) : Result (CapturedEvidence × Database) := do
  let normalized ← normalizeExcerpt command.excerpt
  let digest := contentHash rt normalized
  let metadata ← validateMetadata command.metadata
  let uri ← normalizeUri command.uri
  let capturedAt ← requireAware command.capturedAt "captured_at"
  let _ ← requirePermission db ctx .writeFacts
  match getSource db ctx.organizationId command.sourceId with
  | none => notFound "source not found"
  | some _ =>
    match Jsonb.store metadata with
    | none => .error .unstorableText
    | some stored =>
      if uri.any Jsonb.hasNul then .error .unstorableText
      else capture db ⟨id, ctx.organizationId, command.sourceId, command.evidenceType, normalized,
        digest, uri, stored, command.privacyScope, capturedAt, clock⟩

end ContextLedger.EvidenceCapture
