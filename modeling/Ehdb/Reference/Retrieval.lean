import Ehdb.ProofKit.Isolation
import Ehdb.Reference.EventLog

/-! `InMemoryRetrievalCatalog`: documents, their chunks and the embeddings of chunks. It is one of
the engines of the reference runtime; the others stay open. The arithmetic of `f32` and the lower
case of a text are left to the platform. -/

namespace Ehdb.Reference

open ProofKit Transaction Ehdb.Stream

structure Document where
  id : String
  tenant : String
  namespaceName : String
  sourceUri : String
  contentType : String
  createdBy : String
  deriving DecidableEq

structure RegisterDocument where
  id : String
  tenant : String
  namespaceName : String
  sourceUri : String
  contentType : String
  transactionId : String

structure Chunk where
  id : String
  documentId : String
  ordinal : Nat
  text : String
  checksum : String
  createdBy : String
  deriving DecidableEq

structure RegisterChunk where
  id : String
  documentId : String
  ordinal : Nat
  text : String
  checksum : String
  transactionId : String

structure Embedding (F : Type) where
  chunkId : String
  modelId : String
  dimensions : Nat
  vector : List F
  createdBy : String
  deriving DecidableEq

structure RegisterEmbedding (F : Type) where
  chunkId : String
  modelId : String
  dimensions : Nat
  vector : List F
  transactionId : String

structure VectorSearch (F : Type) where
  tenant : String
  namespaceName : String
  modelId : String
  query : List F
  limit : Nat

structure VectorSearchHit (F : Type) where
  chunk : Chunk
  embedding : Embedding F
  score : F

structure TextSearch where
  tenant : String
  namespaceName : String
  query : String
  limit : Nat

structure TextSearchHit where
  chunk : Chunk
  matchCount : Nat

structure HybridSearch (F : Type) where
  tenant : String
  namespaceName : String
  modelId : String
  query : List F
  textQuery : String
  limit : Nat
  vectorWeight : F
  textWeight : F

structure HybridSearchHit (F : Type) where
  chunk : Chunk
  embedding : Embedding F
  vectorScore : F
  textMatchCount : Nat
  combinedScore : F

/-- The operations of `f32`, and `str::to_lowercase`. -/
structure Platform (F : Type) where
  toLowercase : String → String
  isFinite : F → Bool
  /-- `value == 0.0` -/
  isZero : F → Bool
  /-- `value < 0.0` -/
  isNegative : F → Bool
  add : F → F → F
  mul : F → F → F
  div : F → F → F
  sqrt : F → F
  sum : List F → F
  ofNat : Nat → F
  totalCmp : F → F → Ordering

def textContains (needle : List Char) : List Char → Bool
  | [] => needle.isEmpty
  | ch :: rest => needle.isPrefixOf (ch :: rest) || textContains needle rest

/-- `str::matches(..).count()` of a query that is not empty: after a match, `skip` characters belong
to it. -/
def countMatches (query : List Char) : Nat → List Char → Nat
  | _, [] => 0
  | skip + 1, _ :: rest => countMatches query skip rest
  | 0, ch :: rest =>
    if query.isPrefixOf (ch :: rest) then 1 + countMatches query (query.length - 1) rest
    else countMatches query 0 rest

/-- `sort_by`, which is stable. -/
def sortBy {α : Type} (cmp : α → α → Ordering) (l : List α) : List α :=
  l.insertionSort fun a b => (cmp a b).isLE = true

section Vectors

variable {F : Type} (P : Platform F)

def normalizedTextQuery (query : String) : Result String :=
  let query := P.toLowercase (strTrim query)
  if query.isEmpty then .error (.invalidState "text search query must not be empty")
  else .ok query

def validateSearchLimit (label : String) (limit : Nat) : Result Unit :=
  if limit = 0 then .error (.invalidState s!"{label} limit must be greater than zero") else .ok ()

def validateHybridWeights (vectorWeight textWeight : F) : Result Unit := do
  if !P.isFinite vectorWeight || !P.isFinite textWeight then
    throw (.invalidState "hybrid search weights must be finite")
  if P.isNegative vectorWeight || P.isNegative textWeight then
    throw (.invalidState "hybrid search weights must not be negative")
  if P.isZero vectorWeight && P.isZero textWeight then
    throw (.invalidState "at least one hybrid search weight must be greater than zero")

def countTextMatches (text normalizedQuery : String) : Nat :=
  countMatches normalizedQuery.toList 0 (P.toLowercase text).toList

def vectorNormSquared (vector : List F) : F :=
  P.sum (vector.map fun value => P.mul value value)

def vectorNorm (vector : List F) : F := P.sqrt (vectorNormSquared P vector)

def validateVector (label : String) (vector : List F) : Result Unit := do
  if vector.isEmpty then
    throw (.invalidState s!"{label} must not be empty")
  if vector.any fun value => !P.isFinite value then
    throw (.invalidState s!"{label} must contain only finite values")
  if P.isZero (vectorNormSquared P vector) then
    throw (.invalidState s!"{label} must not be the zero vector")

def cosineSimilarity (left right : List F) (leftNorm : F) : F :=
  P.div (P.sum (List.zipWith P.mul left right)) (P.mul leftNorm (vectorNorm P right))

end Vectors

abbrev DocumentKey := StreamKey

def documentKey (tenant namespaceName id : String) : DocumentKey :=
  toLex (tenant, toLex (namespaceName, id))

abbrev EmbeddingKey := String ×ₗ String

def embeddingKey (chunkId modelId : String) : EmbeddingKey := toLex (chunkId, modelId)

structure InMemoryRetrievalCatalog (F : Type) where
  documents : OrderedMap DocumentKey Document
  chunks : OrderedMap String Chunk
  embeddings : OrderedMap EmbeddingKey (Embedding F)

namespace InMemoryRetrievalCatalog

variable {F : Type} (P : Platform F)

def empty : InMemoryRetrievalCatalog F := ⟨.empty, .empty, .empty⟩

variable (catalog : InMemoryRetrievalCatalog F)

def registerDocument (request : RegisterDocument) : Result (InMemoryRetrievalCatalog F) := do
  let key := documentKey request.tenant request.namespaceName request.id
  if (catalog.documents.find? key).isSome then
    throw (.alreadyExists s!"{request.tenant}.{request.namespaceName}.{request.id}")
  let document : Document := ⟨request.id, request.tenant, request.namespaceName, request.sourceUri,
    request.contentType, request.transactionId⟩
  return { catalog with documents := catalog.documents.insert key document }

/-- The document is looked up by its id alone, in every tenant and namespace. -/
def documentById (documentId : String) : Result Document :=
  match (catalog.documents.entries.map Prod.snd).find? fun document => document.id = documentId with
  | some document => .ok document
  | none => .error (.notFound documentId)

def registerChunk (request : RegisterChunk) : Result (InMemoryRetrievalCatalog F) := do
  let _ ← catalog.documentById request.documentId
  if (catalog.chunks.find? request.id).isSome then
    throw (.alreadyExists request.id)
  let chunk : Chunk := ⟨request.id, request.documentId, request.ordinal, request.text,
    request.checksum, request.transactionId⟩
  return { catalog with chunks := catalog.chunks.insert chunk.id chunk }

def registerEmbedding (request : RegisterEmbedding F) : Result (InMemoryRetrievalCatalog F) := do
  if (catalog.chunks.find? request.chunkId).isNone then
    throw (.notFound request.chunkId)
  if request.dimensions = 0 || request.vector.length ≠ request.dimensions then
    throw (.invalidState (s!"embedding dimensions {request.dimensions} do not match vector " ++
      s!"length {request.vector.length}"))
  validateVector P "embedding vector" request.vector
  let key := embeddingKey request.chunkId request.modelId
  if (catalog.embeddings.find? key).isSome then
    throw (.alreadyExists s!"{request.chunkId}.{request.modelId}")
  let embedding : Embedding F := ⟨request.chunkId, request.modelId, request.dimensions,
    request.vector, request.transactionId⟩
  return { catalog with embeddings := catalog.embeddings.insert key embedding }

def documentIdsForScope (tenant namespaceName : String) : List String :=
  ((catalog.documents.entries.map Prod.snd).filter fun document =>
    document.tenant = tenant && document.namespaceName = namespaceName).map Document.id

def findChunksContaining
    (tenant namespaceName needle : String) : List Chunk :=
  let documentIds := catalog.documentIdsForScope tenant namespaceName
  let chunks := (catalog.chunks.entries.map Prod.snd).filter fun chunk =>
    documentIds.contains chunk.documentId &&
      textContains (P.toLowercase needle).toList (P.toLowercase chunk.text).toList
  sortBy (fun left right =>
    (compare left.documentId right.documentId).then (compare left.ordinal right.ordinal)) chunks

def compareChunks (left right : Chunk) : Ordering :=
  ((compare left.documentId right.documentId).then (compare left.ordinal right.ordinal)).then
    (compare left.id right.id)

/-- The chunk of an embedding, if it is one of the model and of the size of the query and its
document is in scope. -/
def scopedChunk (documentIds : List String)
    (modelId : String) (queryLength : Nat) (embedding : Embedding F) : Option Chunk := do
  if embedding.modelId ≠ modelId || embedding.dimensions ≠ queryLength then
    none
  let chunk ← catalog.chunks.find? embedding.chunkId
  if documentIds.contains chunk.documentId then some chunk else none

def searchSimilar (request : VectorSearch F) : Result (List (VectorSearchHit F)) := do
  validateSearchLimit "vector search" request.limit
  validateVector P "query vector" request.query
  let queryNorm := vectorNorm P request.query
  let documentIds := catalog.documentIdsForScope request.tenant request.namespaceName
  let hits := (catalog.embeddings.entries.map Prod.snd).filterMap fun embedding => do
    let chunk ← catalog.scopedChunk documentIds request.modelId request.query.length embedding
    return ⟨chunk, embedding, cosineSimilarity P request.query embedding.vector queryNorm⟩
  let sorted := sortBy (fun left right =>
    (P.totalCmp right.score left.score).then (compareChunks left.chunk right.chunk)) hits
  return sorted.take request.limit

def searchText (request : TextSearch) : Result (List TextSearchHit) := do
  let query ← normalizedTextQuery P request.query
  validateSearchLimit "text search" request.limit
  let documentIds := catalog.documentIdsForScope request.tenant request.namespaceName
  let hits := (catalog.chunks.entries.map Prod.snd).filterMap fun chunk =>
    let matchCount := countTextMatches P chunk.text query
    if !documentIds.contains chunk.documentId || matchCount = 0 then none
    else some ⟨chunk, matchCount⟩
  let sorted := sortBy (fun left right =>
    (compare right.matchCount left.matchCount).then (compareChunks left.chunk right.chunk)) hits
  return sorted.take request.limit

def searchHybrid (request : HybridSearch F) : Result (List (HybridSearchHit F)) := do
  let textQuery ← normalizedTextQuery P request.textQuery
  validateSearchLimit "hybrid search" request.limit
  validateVector P "hybrid query vector" request.query
  validateHybridWeights P request.vectorWeight request.textWeight
  let queryNorm := vectorNorm P request.query
  let documentIds := catalog.documentIdsForScope request.tenant request.namespaceName
  let hits := (catalog.embeddings.entries.map Prod.snd).filterMap fun embedding => do
    let chunk ← catalog.scopedChunk documentIds request.modelId request.query.length embedding
    let vectorScore := cosineSimilarity P request.query embedding.vector queryNorm
    let textMatchCount := countTextMatches P chunk.text textQuery
    let combinedScore := P.add (P.mul request.vectorWeight vectorScore)
      (P.mul request.textWeight (P.ofNat textMatchCount))
    if P.isZero combinedScore then none
    else some ⟨chunk, embedding, vectorScore, textMatchCount, combinedScore⟩
  let sorted := sortBy (fun left right =>
    (((P.totalCmp right.combinedScore left.combinedScore).then
      (P.totalCmp right.vectorScore left.vectorScore)).then
        (compare right.textMatchCount left.textMatchCount)).then
          (compareChunks left.chunk right.chunk)) hits
  return sorted.take request.limit

end InMemoryRetrievalCatalog

inductive RetrievalMutation (F : Type) where
  | registerDocument (documentId sourceUri contentType : String)
  | registerChunk (documentId chunkId : String) (ordinal : Nat) (text checksum : String)
  | registerEmbedding (chunkId modelId : String) (dimensions : Nat) (vector : List F)

def validateRetrievalMutation {F : Type} : RetrievalMutation F → Result Unit
  | .registerDocument documentId _ _ => validateIdentifier documentId
  | .registerChunk documentId chunkId _ _ _ => do
    validateIdentifier documentId
    validateIdentifier chunkId
  | .registerEmbedding chunkId modelId _ _ => do
    validateIdentifier chunkId
    validateIdentifier modelId

def applyRetrieval {F : Type} (P : Platform F) (transactionId tenant namespaceName : String)
    (catalog : InMemoryRetrievalCatalog F) :
    RetrievalMutation F → Result (InMemoryRetrievalCatalog F)
  | .registerDocument documentId sourceUri contentType =>
    catalog.registerDocument
      ⟨documentId, tenant, namespaceName, sourceUri, contentType, transactionId⟩
  | .registerChunk documentId chunkId ordinal text checksum =>
    catalog.registerChunk ⟨chunkId, documentId, ordinal, text, checksum, transactionId⟩
  | .registerEmbedding chunkId modelId dimensions vector =>
    catalog.registerEmbedding P ⟨chunkId, modelId, dimensions, vector, transactionId⟩

def retrievalEngines {F O D : Type} (P : Platform F) (G : Engines O D) :
    Engines (RetrievalMutation F ⊕ O) (InMemoryRetrievalCatalog F × D) where
  empty := (.empty, G.empty)
  validate
    | .inl mutation => validateRetrievalMutation mutation
    | .inr mutation => G.validate mutation
  apply transactionId tenant namespaceName
    | .inl mutation, (catalog, rest) => do
      let catalog ← applyRetrieval P transactionId tenant namespaceName catalog mutation
      return (catalog, rest)
    | .inr mutation, (catalog, rest) => do
      let rest ← G.apply transactionId tenant namespaceName mutation rest
      return (catalog, rest)
  unreadable
    -- the numbers of an embedding that is accepted are finite
    | .inl _ => none
    | .inr mutation => G.unreadable mutation

def commitEach {O D : Type} (G : Engines O D) (x : Session O D)
    (requests : List (CommitTransaction (Mutation O))) :
    List (CommitTransaction (Mutation O) × Result (LogRecord O)) × Session O D :=
  answerEach (fun x request => x.call (LocalReferenceRuntime.append G request)) x requests

def commitRun {O D : Type} (G : Engines O D) (requests : List (CommitTransaction (Mutation O))) :
    List (CommitTransaction (Mutation O) × Result (LogRecord O)) × Session O D :=
  commitEach G (.new G) requests

def catalogAfter {F O D : Type} (P : Platform F) (G : Engines O D)
    (requests : List (CommitTransaction (Mutation (RetrievalMutation F ⊕ O)))) :
    InMemoryRetrievalCatalog F := (commitRun (retrievalEngines P G) requests).2.runtime.state.rest.1

section Ids

variable {F O : Type}

def RetrievalMutation.documentIds : RetrievalMutation F → List String
  | .registerDocument documentId _ _ => [documentId]
  | .registerChunk documentId _ _ _ _ => [documentId]
  | .registerEmbedding _ _ _ _ => []

def RetrievalMutation.chunkIds : RetrievalMutation F → List String
  | .registerDocument _ _ _ => []
  | .registerChunk _ chunkId _ _ _ => [chunkId]
  | .registerEmbedding chunkId _ _ _ => [chunkId]

abbrev RetrievalCommit (F O : Type) := CommitTransaction (Mutation (RetrievalMutation F ⊕ O))

variable (request : RetrievalCommit F O)

def registrations : List (RetrievalMutation F) :=
  request.mutations.filterMap fun
    | .other (.inl mutation) => some mutation
    | _ => none

def documentIdsOf : List String :=
  (registrations request).flatMap RetrievalMutation.documentIds

def chunkIdsOf : List String :=
  (registrations request).flatMap RetrievalMutation.chunkIds

def ofScope (tenant namespaceName : String) (request : RetrievalCommit F O) : Bool :=
  request.tenant = tenant && request.namespaceName = namespaceName

def staysInRetrieval : Bool :=
  request.mutations.all fun
    | .other (.inr _) => false
    | _ => true

/-- Two commits have different transaction ids and use no document id and no chunk id in common. -/
def sharesNoId (request request' : RetrievalCommit F O) : Bool :=
  request.transactionId ≠ request'.transactionId &&
    (documentIdsOf request).all (!(documentIdsOf request').contains ·) &&
    (chunkIdsOf request).all (!(chunkIdsOf request').contains ·)

/-- No commit of another tenant or namespace has an id in common with one of `tenant` and
`namespaceName`. -/
def keepsApart (tenant namespaceName : String) (requests : List (RetrievalCommit F O)) : Bool :=
  (requests.filter (ofScope tenant namespaceName)).all fun request =>
    (requests.filter (!ofScope tenant namespaceName ·)).all (sharesNoId request)

end Ids

end Ehdb.Reference
