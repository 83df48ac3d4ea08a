import Ehdb.Proof.Reference.EventRuns
import Ehdb.Reference.Retrieval

/-! A scope is a tenant and namespace with the ids that its commits use. Catalogs that agree at
those ids answer it alike, and a commit that uses none of them does not show. -/

namespace Ehdb.Proof.Reference

open ProofKit Ehdb.Reference Transaction Ehdb.Stream Journal List
open LocalReferenceRuntime (append)
open OrderedMap (find?_eq_some find?_insert mem_insert)

structure Scope where
  tenant : String
  namespaceName : String
  documents : List String
  chunks : List String
  transactions : List String

variable {F : Type} {P : Platform F} {S : Scope} {c c' c₁ : InMemoryRetrievalCatalog F}

/-- The documents of the scope have ids of the scope, and so have the chunks of a document whose id
is one of the scope. -/
structure Within (S : Scope) (c : InMemoryRetrievalCatalog F) : Prop where
  documents : ∀ e ∈ c.documents.entries, e.1 = documentKey e.2.tenant e.2.namespaceName e.2.id ∧
    (e.2.tenant = S.tenant → e.2.namespaceName = S.namespaceName → e.2.id ∈ S.documents)
  chunks : ∀ e ∈ c.chunks.entries, e.1 = e.2.id ∧ (e.2.documentId ∈ S.documents → e.2.id ∈ S.chunks)
  embeddings : ∀ e ∈ c.embeddings.entries, e.1 = embeddingKey e.2.chunkId e.2.modelId

/-- The catalogs agree on what the scope owns. -/
structure SameIn (S : Scope) (c c' : InMemoryRetrievalCatalog F) : Prop where
  documents : ∀ tenant namespaceName, ∀ id ∈ S.documents,
    c.documents.find? (documentKey tenant namespaceName id) =
      c'.documents.find? (documentKey tenant namespaceName id)
  chunks : ∀ id ∈ S.chunks, c.chunks.find? id = c'.chunks.find? id
  embeddings : ∀ id ∈ S.chunks, ∀ modelId,
    c.embeddings.find? (embeddingKey id modelId) = c'.embeddings.find? (embeddingKey id modelId)

structure Shared (S : Scope) (c c' : InMemoryRetrievalCatalog F) : Prop where
  left : Within S c
  right : Within S c'
  same : SameIn S c c'

theorem within_empty : Within S (.empty : InMemoryRetrievalCatalog F) := by
  constructor <;> intro e mem <;> cases mem

theorem shared_empty : Shared S (.empty : InMemoryRetrievalCatalog F) .empty :=
  ⟨within_empty, within_empty, fun _ _ _ _ => rfl, fun _ _ => rfl, fun _ _ _ => rfl⟩

variable {tenant namespaceName id : String}

structure InScope (S : Scope) (mutation : RetrievalMutation F) : Prop where
  documents : ∀ id ∈ mutation.documentIds, id ∈ S.documents
  chunks : ∀ id ∈ mutation.chunkIds, id ∈ S.chunks

structure OutOfScope (S : Scope) (mutation : RetrievalMutation F) : Prop where
  documents : ∀ id ∈ mutation.documentIds, id ∉ S.documents
  chunks : ∀ id ∈ mutation.chunkIds, id ∉ S.chunks

theorem Shared.symm (h : Shared S c c') : Shared S c' c :=
  ⟨h.right, h.left, fun t n id mem => (h.same.documents t n id mem).symm,
    fun id mem => (h.same.chunks id mem).symm, fun id mem m => (h.same.embeddings id mem m).symm⟩

theorem Shared.document (h : Shared S c c') {document} (own : document.id ∈ S.documents)
    (among : document ∈ c.documents.entries.map Prod.snd) :
    document ∈ c'.documents.entries.map Prod.snd := by
  obtain ⟨⟨key, _⟩, mem, is⟩ := mem_map.1 among
  cases is
  obtain ⟨is_key, -⟩ := h.left.documents _ mem
  have found := find?_eq_some.2 mem
  rw [show key = _ from is_key, h.same.documents _ _ _ own] at found
  exact mem_map.2 ⟨_, find?_eq_some.1 found, rfl⟩

theorem Shared.documentById (h : Shared S c c') {documentId} (own : documentId ∈ S.documents) :
    Alike (fun _ _ => True) (c.documentById documentId) (c'.documentById documentId) := by
  have transfer {c c' : InMemoryRetrievalCatalog F} (h : Shared S c c')
      (absent : (c'.documents.entries.map Prod.snd).find? (·.id = documentId) = none) :
      (c.documents.entries.map Prod.snd).find? (·.id = documentId) = none := by
    rw [find?_eq_none] at absent ⊢
    intro document mem is
    have is' : document.id = documentId := by simpa using is
    exact absent document (h.document (is' ▸ own) mem) is
  unfold InMemoryRetrievalCatalog.documentById
  cases found : (c.documents.entries.map Prod.snd).find? (·.id = documentId) with
  | none =>
    rw [transfer h.symm found]
    exact rfl
  | some document =>
    cases found' : (c'.documents.entries.map Prod.snd).find? (·.id = documentId) with
    | none =>
      rw [transfer h found'] at found
      cases found
    | some document' => exact trivial

section Inserted

variable {document : Document} {chunk : Chunk} {embedding : Embedding F}

theorem Within.insertDocument (h : Within S c) {key}
    (is : key = documentKey document.tenant document.namespaceName document.id)
    (own : document.tenant = S.tenant → document.namespaceName = S.namespaceName →
      document.id ∈ S.documents) :
    Within S ⟨c.documents.insert key document, c.chunks, c.embeddings⟩ := by
  refine ⟨?_, h.chunks, h.embeddings⟩
  rintro ⟨key, value⟩ mem
  rcases mem_insert.1 mem with ⟨rfl, rfl⟩ | ⟨-, old⟩
  · exact ⟨is, own⟩
  · exact h.documents _ old

theorem Within.insertChunk (h : Within S c)
    (own : chunk.documentId ∈ S.documents → chunk.id ∈ S.chunks) :
    Within S ⟨c.documents, c.chunks.insert chunk.id chunk, c.embeddings⟩ := by
  refine ⟨h.documents, ?_, h.embeddings⟩
  rintro ⟨key, value⟩ mem
  rcases mem_insert.1 mem with ⟨rfl, rfl⟩ | ⟨-, old⟩
  · exact ⟨rfl, own⟩
  · exact h.chunks _ old

theorem Within.insertEmbedding (h : Within S c) {key}
    (is : key = embeddingKey embedding.chunkId embedding.modelId) :
    Within S ⟨c.documents, c.chunks, c.embeddings.insert key embedding⟩ := by
  refine ⟨h.documents, h.chunks, ?_⟩
  rintro ⟨key, value⟩ mem
  rcases mem_insert.1 mem with ⟨rfl, rfl⟩ | ⟨-, old⟩
  · exact is
  · exact h.embeddings _ old

end Inserted

theorem find?_insert_congr {κ β : Type} [LinearOrder κ] {m m' : OrderedMap κ β} {k k' : κ} {v : β}
    (same : m.find? k' = m'.find? k') : (m.insert k v).find? k' = (m'.insert k v).find? k' := by
  rw [find?_insert, find?_insert, same]

variable {mutation : RetrievalMutation F}

theorem Shared.applyRetrieval (h : Shared S c c') (own : InScope S mutation)
    (txId tenant namespaceName : String) :
    Alike (Shared S) (applyRetrieval P txId tenant namespaceName c mutation)
      (Reference.applyRetrieval P txId tenant namespaceName c' mutation) := by
  cases mutation with
  | registerDocument documentId sourceUri contentType =>
    have own := own.documents documentId mem_cons_self
    refine alike_unless (by rw [h.same.documents _ _ _ own]) ⟨?_, ?_, ?_⟩
    · exact h.left.insertDocument rfl fun _ _ => own
    · exact h.right.insertDocument rfl fun _ _ => own
    · exact ⟨fun t n id mem => find?_insert_congr (h.same.documents t n id mem), h.same.chunks,
        h.same.embeddings⟩
  | registerChunk documentId chunkId ordinal text checksum =>
    have own_chunk := own.chunks chunkId mem_cons_self
    refine (h.documentById (own.documents documentId mem_cons_self)).bind ?_
    intro _ _ _
    refine alike_unless (by rw [h.same.chunks _ own_chunk]) ⟨?_, ?_, ?_⟩
    · exact h.left.insertChunk fun _ => own_chunk
    · exact h.right.insertChunk fun _ => own_chunk
    · exact ⟨h.same.documents, fun id mem => find?_insert_congr (h.same.chunks id mem),
        h.same.embeddings⟩
  | registerEmbedding chunkId modelId dimensions vector =>
    have own := own.chunks chunkId mem_cons_self
    refine alike_unless (by rw [h.same.chunks _ own]) (alike_unless Iff.rfl ?_)
    refine alike_bind _ fun _ => alike_unless (by rw [h.same.embeddings _ own]) ⟨?_, ?_, ?_⟩
    · exact h.left.insertEmbedding rfl
    · exact h.right.insertEmbedding rfl
    · exact ⟨h.same.documents, h.same.chunks,
        fun id mem m => find?_insert_congr (h.same.embeddings id mem m)⟩

theorem Shared.applyOther (h : Shared S c c') {txId} (other : OutOfScope S mutation)
    (elsewhere : ¬(tenant = S.tenant ∧ namespaceName = S.namespaceName))
    (applied : Reference.applyRetrieval P txId tenant namespaceName c mutation = .ok c₁) :
    Shared S c₁ c' := by
  cases mutation with
  | registerDocument documentId sourceUri contentType =>
    obtain ⟨-, applied⟩ := unless_eq_ok applied
    cases applied
    have foreign := other.documents documentId mem_cons_self
    refine ⟨?_, h.right, ?_, h.same.chunks, h.same.embeddings⟩
    · exact h.left.insertDocument rfl fun t n => absurd ⟨t, n⟩ elsewhere
    · intro t n id mem
      have differs : documentKey t n id ≠ documentKey tenant namespaceName documentId :=
        fun same => foreign ((congrArg (fun key => (ofLex (ofLex key).2).2) same :
          id = documentId) ▸ mem)
      rw [find?_insert, if_neg differs]
      exact h.same.documents t n id mem
  | registerChunk documentId chunkId ordinal text checksum =>
    obtain ⟨_, -, applied⟩ := bind_eq_ok applied
    obtain ⟨-, applied⟩ := unless_eq_ok applied
    cases applied
    refine ⟨?_, h.right, h.same.documents, ?_, h.same.embeddings⟩
    · exact h.left.insertChunk fun own =>
        absurd own (other.documents documentId mem_cons_self)
    · intro id mem
      have differs : id ≠ chunkId := fun same => other.chunks chunkId mem_cons_self (same ▸ mem)
      rw [find?_insert, if_neg differs]
      exact h.same.chunks id mem
  | registerEmbedding chunkId modelId dimensions vector =>
    obtain ⟨-, applied⟩ := unless_eq_ok applied
    obtain ⟨-, applied⟩ := unless_eq_ok applied
    obtain ⟨_, -, applied⟩ := bind_eq_ok applied
    obtain ⟨-, applied⟩ := unless_eq_ok applied
    cases applied
    refine ⟨h.left.insertEmbedding rfl, h.right, h.same.documents, h.same.chunks, ?_⟩
    intro id mem m
    have differs : embeddingKey id m ≠ embeddingKey chunkId modelId :=
      fun same => other.chunks chunkId mem_cons_self
        ((congrArg (fun key => (ofLex key).1) same : id = chunkId) ▸ mem)
    rw [find?_insert, if_neg differs]
    exact h.same.embeddings id mem m

theorem Within.documentIds (h : Within S c)
    (listed : id ∈ c.documentIdsForScope S.tenant S.namespaceName) : id ∈ S.documents := by
  obtain ⟨document, mem, rfl⟩ := mem_map.1 listed
  obtain ⟨among, in_scope⟩ := mem_filter.1 mem
  obtain ⟨e, entry, rfl⟩ := mem_map.1 among
  have in_scope : e.2.tenant = S.tenant ∧ e.2.namespaceName = S.namespaceName := by
    simpa using in_scope
  exact (h.documents e entry).2 in_scope.1 in_scope.2

theorem Shared.documentIds (h : Shared S c c') : c.documentIdsForScope S.tenant S.namespaceName =
      c'.documentIdsForScope S.tenant S.namespaceName := by
  have outside {c : InMemoryRetrievalCatalog F} (h : Within S c) :
      ∀ e ∈ c.documents.entries, decide ((ofLex (ofLex e.1).2).2 ∈ S.documents) = false →
        (if (e.2.tenant = S.tenant && e.2.namespaceName = S.namespaceName : Bool) = true then
          (some ∘ Document.id) e.2 else none) = none := by
    intro e mem foreign
    obtain ⟨is_key, own⟩ := h.documents e mem
    rw [is_key] at foreign
    have foreign : e.2.id ∉ S.documents := of_decide_eq_false foreign
    refine if_neg fun in_scope => foreign ?_
    have in_scope : e.2.tenant = S.tenant ∧ e.2.namespaceName = S.namespaceName := by
      simpa using in_scope
    exact own in_scope.1 in_scope.2
  unfold InMemoryRetrievalCatalog.documentIdsForScope
  rw [← filterMap_eq_map, filterMap_filter, filterMap_filter]
  refine OrderedMap.filterMap_values_congr (fun key => (ofLex (ofLex key).2).2 ∈ S.documents) ?_
    (outside h.left) (outside h.right) fun _ _ _ => rfl
  intro key own
  exact h.same.documents _ _ _ (of_decide_eq_true own)

variable {γ : Type}

section

variable (h : Shared S c c')

include h

theorem Shared.chunks_filterMap {f : Chunk → Option γ}
    (of_scope : ∀ chunk, chunk.documentId ∉ S.documents → f chunk = none) :
    (c.chunks.entries.map Prod.snd).filterMap f = (c'.chunks.entries.map Prod.snd).filterMap f := by
  have outside {c : InMemoryRetrievalCatalog F} (h : Within S c) :
      ∀ e ∈ c.chunks.entries, decide (e.1 ∈ S.chunks) = false → f e.2 = none := by
    intro e mem foreign
    obtain ⟨is_key, own⟩ := h.chunks e mem
    rw [is_key] at foreign
    exact of_scope e.2 fun mem => of_decide_eq_false foreign (own mem)
  refine OrderedMap.filterMap_values_congr (fun id => id ∈ S.chunks) ?_ (outside h.left)
    (outside h.right) fun _ _ _ => rfl
  intro id own
  exact h.same.chunks id (of_decide_eq_true own)

theorem Shared.embeddings_filterMap (modelId : String) (length : Nat)
    (f : Chunk → Embedding F → Option γ) :
    ((c.embeddings.entries.map Prod.snd).filterMap fun embedding =>
      c.scopedChunk (c.documentIdsForScope S.tenant S.namespaceName) modelId length embedding >>=
        fun chunk => f chunk embedding) =
    (c'.embeddings.entries.map Prod.snd).filterMap fun embedding =>
      c'.scopedChunk (c'.documentIdsForScope S.tenant S.namespaceName) modelId length embedding >>=
        fun chunk => f chunk embedding := by
  have outside {c : InMemoryRetrievalCatalog F} (h : Within S c) :
      ∀ e ∈ c.embeddings.entries, decide ((ofLex e.1).1 ∈ S.chunks) = false →
        (c.scopedChunk (c.documentIdsForScope S.tenant S.namespaceName) modelId length e.2 >>=
          fun chunk => f chunk e.2) = none := by
    intro e mem foreign
    rw [h.embeddings e mem] at foreign
    have foreign : e.2.chunkId ∉ S.chunks := of_decide_eq_false foreign
    cases found : c.scopedChunk (c.documentIdsForScope S.tenant S.namespaceName) modelId length
        e.2 with
    | none => rfl
    | some chunk =>
      unfold InMemoryRetrievalCatalog.scopedChunk at found
      split at found
      · cases found
      · obtain ⟨chunk', is_chunk, found⟩ := Option.bind_eq_some_iff.1 found
        split at found
        · rename_i of_scope
          obtain ⟨is_key, own⟩ := h.chunks _ (find?_eq_some.1 is_chunk)
          have is_key : e.2.chunkId = chunk'.id := is_key
          rw [is_key] at foreign
          exact absurd (own (h.documentIds (by simpa using of_scope))) foreign
        · cases found
  refine OrderedMap.filterMap_values_congr (fun key => (ofLex key).1 ∈ S.chunks) ?_
    (outside h.left) (outside h.right) ?_
  · intro key own
    exact h.same.embeddings _ (of_decide_eq_true own) _
  · intro e mem own
    rw [h.left.embeddings e mem] at own
    have own : e.2.chunkId ∈ S.chunks := of_decide_eq_true own
    rw [h.documentIds]
    unfold InMemoryRetrievalCatalog.scopedChunk
    rw [h.same.chunks _ own]

theorem Shared.findChunksContaining (needle : String) :
    c.findChunksContaining P S.tenant S.namespaceName needle =
      c'.findChunksContaining P S.tenant S.namespaceName needle := by
  unfold InMemoryRetrievalCatalog.findChunksContaining
  rw [← h.documentIds]
  dsimp only
  rw [← filterMap_eq_filter, h.chunks_filterMap]
  intro chunk foreign
  have absent : chunk.documentId ∉ c.documentIdsForScope S.tenant S.namespaceName :=
    fun mem => foreign (h.left.documentIds mem)
  simp [absent]

theorem Shared.searchText (query : String) (limit : Nat) :
    c.searchText P ⟨S.tenant, S.namespaceName, query, limit⟩ =
      c'.searchText P ⟨S.tenant, S.namespaceName, query, limit⟩ := by
  unfold InMemoryRetrievalCatalog.searchText
  dsimp only
  refine bind_congr fun query => bind_congr fun _ => ?_
  rw [← h.documentIds, h.chunks_filterMap]
  intro chunk foreign
  have absent : chunk.documentId ∉ c.documentIdsForScope S.tenant S.namespaceName :=
    fun mem => foreign (h.left.documentIds mem)
  simp [absent]

theorem Shared.searchSimilar (modelId : String) (query : List F) (limit : Nat) :
    c.searchSimilar P ⟨S.tenant, S.namespaceName, modelId, query, limit⟩ =
      c'.searchSimilar P ⟨S.tenant, S.namespaceName, modelId, query, limit⟩ := by
  unfold InMemoryRetrievalCatalog.searchSimilar
  dsimp only
  refine bind_congr fun _ => bind_congr fun _ => ?_
  rw [h.embeddings_filterMap]

theorem Shared.searchHybrid (modelId : String) (query : List F)
    (textQuery : String) (limit : Nat) (vectorWeight textWeight : F) : c.searchHybrid P
        ⟨S.tenant, S.namespaceName, modelId, query, textQuery, limit, vectorWeight, textWeight⟩ =
      c'.searchHybrid P
        ⟨S.tenant, S.namespaceName, modelId, query, textQuery, limit, vectorWeight,
          textWeight⟩ := by
  unfold InMemoryRetrievalCatalog.searchHybrid
  dsimp only
  refine bind_congr fun _ => bind_congr fun _ => bind_congr fun _ => bind_congr fun _ => ?_
  rw [h.embeddings_filterMap]

end

variable {F O D : Type} {P : Platform F} {G : Engines O D} {S : Scope}

def SameStreams (S : Scope) (log log' : InMemoryStreamLog) : Prop :=
  ∀ stream, log.streams.find? (streamKey S.tenant S.namespaceName stream) =
    log'.streams.find? (streamKey S.tenant S.namespaceName stream)

section Streams

variable {streams streams' next : InMemoryStreamLog} {record : LogRecord O}

section

variable (h : SameStreams S streams streams')
include h

theorem SameStreams.stream (name : String) : streams.stream ⟨S.tenant, S.namespaceName, name⟩ =
      streams'.stream ⟨S.tenant, S.namespaceName, name⟩ := by
  have found : streams.streams.find? (Coordinates.key ⟨S.tenant, S.namespaceName, name⟩) =
      streams'.streams.find? (Coordinates.key ⟨S.tenant, S.namespaceName, name⟩) := h name
  unfold InMemoryStreamLog.stream
  rw [found]

theorem SameStreams.setStream (coords : Coordinates)
    (state : StreamState) : SameStreams S (streams.setStream coords state)
      (streams'.setStream coords state) := fun name => find?_insert_congr (h name)

theorem SameStreams.insertRecord (name : String) (record : StreamRecord) :
    Alike (SameStreams S) (streams.insertRecord ⟨S.tenant, S.namespaceName, name⟩ record)
      (streams'.insertRecord ⟨S.tenant, S.namespaceName, name⟩ record) := by
  unfold InMemoryStreamLog.insertRecord
  rw [h.stream]
  refine alike_bind _ fun _ => alike_bind _ fun state => alike_unless Iff.rfl ?_
  exact h.setStream _ _

theorem SameStreams.applyStream
    (tenant : record.tenant = S.tenant) (namespaceName : record.namespaceName = S.namespaceName)
    (mutation : StreamMutation) :
    Alike (SameStreams S) (ReferenceDatabase.applyStream streams record mutation)
      (ReferenceDatabase.applyStream streams' record mutation) := by
  have coords (name : String) : coordinatesIn record name = ⟨S.tenant, S.namespaceName, name⟩ := by
    rw [coordinatesIn, tenant, namespaceName]
  cases mutation with
  | createStream stream retention =>
    refine alike_bind _ fun _ => ?_
    have absent : streams.ensureStreamAbsent
        ⟨record.tenant, record.namespaceName, stream, retention⟩ = streams'.ensureStreamAbsent
          ⟨record.tenant, record.namespaceName, stream, retention⟩ := by
      unfold InMemoryStreamLog.ensureStreamAbsent StreamConfig.key
      rw [tenant, namespaceName, h stream]
    rw [absent]
    exact alike_bind _ fun _ => fun name => find?_insert_congr (h name)
  | createConsumer stream consumer =>
    simp only [ReferenceDatabase.applyStream, InMemoryStreamLog.createConsumer,
      InMemoryStreamLog.ensureConsumerAbsent, coords, h.stream]
    refine alike_bind _ fun _ => alike_bind _ fun _ => alike_bind _ fun _ => alike_bind _ ?_
    exact fun state => h.setStream _ _
  | publish stream subject payload sequence =>
    have published : Alike (fun done done' => done.1 = done'.1 ∧ SameStreams S done.2 done'.2)
        (streams.publish (coordinatesIn record stream) subject payload record.transactionId)
        (streams'.publish (coordinatesIn record stream) subject payload record.transactionId) := by
      rw [coords]
      unfold InMemoryStreamLog.publish
      rw [h.stream]
      refine alike_bind _ fun _ => alike_bind _ fun state => ?_
      exact (h.insertRecord _ _).bind fun _ _ same => ⟨rfl, same⟩
    refine published.bind ?_
    rintro ⟨record, next⟩ ⟨_, next'⟩ ⟨rfl, same⟩
    exact alike_unless Iff.rfl same
  | ack stream consumer sequence =>
    simp only [ReferenceDatabase.applyStream, InMemoryStreamLog.ack,
      InMemoryStreamLog.validateAck, coords, h.stream]
    refine alike_bind _ fun _ => alike_bind _ fun _ => alike_bind _ fun _ => ?_
    exact alike_bind _ fun _ => alike_bind _ fun state => h.setStream _ _

theorem SameStreams.applyOther
    (elsewhere : ¬(record.tenant = S.tenant ∧ record.namespaceName = S.namespaceName)) {mutation}
    (applied : ReferenceDatabase.applyStream streams record mutation = .ok next) :
    SameStreams S next streams' := by
  obtain ⟨state, rfl⟩ := applyStream_sets applied
  intro name
  have differs : streamKey S.tenant S.namespaceName name ≠
      (coordinatesIn record mutation.streamName).key := by
    intro same
    have same : (⟨S.tenant, S.namespaceName, name⟩ : Coordinates) = _ := key_inj same
    exact elsewhere ⟨(congrArg Coordinates.tenant same).symm,
      (congrArg Coordinates.namespaceName same).symm⟩
  exact (find?_insert ..).trans ((if_neg differs).trans (h name))

end

end Streams

abbrev ScopeState (F D : Type) := ReferenceDatabase (InMemoryRetrievalCatalog F × D)

/-- The states agree on what the scope owns, streams included. -/
structure SameState (S : Scope) (db db' : ScopeState F D) : Prop where
  catalog : Shared S db.rest.1 db'.rest.1
  streams : SameStreams S db.streams db'.streams

section Records

variable {db db' db₁ : ScopeState F D} {record : LogRecord (RetrievalMutation F ⊕ O)}

def OwnMutation (S : Scope) : Mutation (RetrievalMutation F ⊕ O) → Prop
  | .stream _ => True
  | .other (.inl mutation) => InScope S mutation
  | .other (.inr _) => False

def OtherMutation (S : Scope) : Mutation (RetrievalMutation F ⊕ O) → Prop
  | .other (.inl mutation) => OutOfScope S mutation
  | _ => True

theorem SameState.applyRecord (h : SameState S db db') (tenant : record.tenant = S.tenant)
    (namespaceName : record.namespaceName = S.namespaceName)
    (own : ∀ mutation ∈ record.mutations, OwnMutation S mutation) :
    Alike (SameState S) (db.applyRecord (retrievalEngines P G) record)
      (db'.applyRecord (retrievalEngines P G) record) := by
  refine alike_foldlM ?_ h
  intro mutation mem db db' h
  rcases mutation with mutation | mutation | mutation
  · exact (h.streams.applyStream tenant namespaceName mutation).bind
      fun _ _ streams => ⟨h.catalog, streams⟩
  · have applied := h.catalog.applyRetrieval (P := P) (own _ mem) record.transactionId record.tenant
      record.namespaceName
    have both : Alike (fun rest rest' : InMemoryRetrievalCatalog F × D => Shared S rest.1 rest'.1)
        ((retrievalEngines P G).apply record.transactionId record.tenant record.namespaceName
          (.inl mutation) db.rest)
        ((retrievalEngines P G).apply record.transactionId record.tenant record.namespaceName
          (.inl mutation) db'.rest) := by
      refine applied.bind ?_
      intro _ _ catalog
      exact catalog
    exact both.bind fun _ _ catalog => ⟨catalog, h.streams⟩
  · exact (own _ mem).elim

section

variable (h : SameState S db db')
  (elsewhere : ¬(record.tenant = S.tenant ∧ record.namespaceName = S.namespaceName))
include h elsewhere

theorem SameState.applyOther
    {mutation} (other : OtherMutation S mutation)
    (applied : ReferenceDatabase.applyMutation (retrievalEngines P G) record db mutation =
      .ok db₁) :
    SameState S db₁ db' := by
  rcases mutation with mutation | mutation | mutation
  · obtain ⟨streams, changed, is⟩ := bind_eq_ok applied
    cases is
    exact ⟨h.catalog, h.streams.applyOther elsewhere changed⟩
  · obtain ⟨rest, changed, is⟩ := bind_eq_ok applied
    cases is
    obtain ⟨catalog, registered, is⟩ := bind_eq_ok changed
    cases is
    exact ⟨h.catalog.applyOther other elsewhere registered, h.streams⟩
  · obtain ⟨rest, changed, is⟩ := bind_eq_ok applied
    cases is
    obtain ⟨others, -, is⟩ := bind_eq_ok changed
    cases is
    exact ⟨h.catalog, h.streams⟩

end

end Records

abbrev ScopeSession (F O D : Type) :=
  Session (RetrievalMutation F ⊕ O) (InMemoryRetrievalCatalog F × D)

/-- Sessions that the scope cannot tell apart. -/
structure SameSession (S : Scope) (x x' : ScopeSession F O D) : Prop where
  state : SameState S x.runtime.state x'.runtime.state
  transactions : ∀ id ∈ S.transactions,
    (id ∈ x.runtime.log.transactionIds ↔ id ∈ x'.runtime.log.transactionIds)

structure OwnCommit (S : Scope) (request : RetrievalCommit F O) : Prop where
  tenant : request.tenant = S.tenant
  namespaceName : request.namespaceName = S.namespaceName
  transaction : request.transactionId ∈ S.transactions
  mutations : ∀ mutation ∈ request.mutations, OwnMutation S mutation

structure OtherCommit (S : Scope) (request : RetrievalCommit F O) : Prop where
  elsewhere : ¬(request.tenant = S.tenant ∧ request.namespaceName = S.namespaceName)
  transaction : request.transactionId ∉ S.transactions
  mutations : ∀ mutation ∈ request.mutations, OtherMutation S mutation

section Commits

variable {x x' : ScopeSession F O D} {req : RetrievalCommit F O}

theorem call_append {O D G} (x : Session O D)
    (req : CommitTransaction (Mutation O)) : x.call (append G req) =
      match commitOn G x.runtime req with
      | .ok (record, runtime) => (.ok record, ⟨x.file ++ [record], runtime⟩)
      | .error e => (.error e, x) := by
  have done := outcome_append (G := G) x.runtime x.file req
  cases committed : commitOn G x.runtime req with
  | error e =>
    rw [committed] at done
    exact call_of_outcome done
  | ok result =>
    rw [committed] at done
    exact call_of_outcome done

theorem alike_buildRecord {M : Type} {V : M → Result Unit} {log log' : InMemoryTransactionLog M}
    {req : CommitTransaction M}
    (same : req.transactionId ∈ log.transactionIds ↔ req.transactionId ∈ log'.transactionIds) :
    Alike (fun record record' => log.buildRecord V req = .ok record ∧
      log'.buildRecord V req = .ok record') (log.buildRecord V req) (log'.buildRecord V req) := by
  have alike : Alike (fun _ _ => True) (log.buildRecord V req) (log'.buildRecord V req) :=
    alike_bind _ fun _ => alike_unless same trivial
  cases built : log.buildRecord V req <;> cases built' : log'.buildRecord V req <;>
    rw [built, built'] at alike
  · exact alike
  · exact alike.elim
  · exact alike.elim
  · exact ⟨rfl, rfl⟩

theorem alike_commitOn (h : SameSession S x x') (own : OwnCommit S req) :
    Alike (fun done done' => SameState S done.2.state done'.2.state ∧
        done.2.log.transactionIds = req.transactionId :: x.runtime.log.transactionIds ∧
        done'.2.log.transactionIds = req.transactionId :: x'.runtime.log.transactionIds)
      (commitOn (retrievalEngines P G) x.runtime req)
      (commitOn (retrievalEngines P G) x'.runtime req) := by
  refine (alike_buildRecord (h.transactions _ own.transaction)).bind ?_
  rintro record record' ⟨built, built'⟩
  obtain ⟨log, inserted⟩ := insert_of_build built
  obtain ⟨log', inserted'⟩ := insert_of_build built'
  obtain ⟨-, -, rfl⟩ := buildRecord_eq_ok built
  obtain ⟨-, -, rfl⟩ := buildRecord_eq_ok built'
  obtain ⟨-, -, -, is_log⟩ := insertRecord_eq_ok_iff.1 inserted
  obtain ⟨-, -, -, is_log'⟩ := insertRecord_eq_ok_iff.1 inserted'
  -- The records differ in their numbers, which the state does not see.
  have applied : Alike (SameState S)
      (x.runtime.state.applyRecord (retrievalEngines P G)
        (recordOf req x.runtime.log.expectedSequence))
      (x'.runtime.state.applyRecord (retrievalEngines P G)
        (recordOf req x.runtime.log.expectedSequence)) :=
    h.state.applyRecord own.tenant own.namespaceName own.mutations
  refine applied.bind ?_
  intro state state' same
  rw [inserted, inserted']
  exact ⟨same, by rw [is_log], by rw [is_log']⟩

theorem SameSession.own (h : SameSession S x x') (own : OwnCommit S req) :
    verdict (x.call (append (retrievalEngines P G) req)).1 =
        verdict (x'.call (append (retrievalEngines P G) req)).1 ∧
      SameSession S (x.call (append (retrievalEngines P G) req)).2
        (x'.call (append (retrievalEngines P G) req)).2 := by
  have alike := alike_commitOn (P := P) (G := G) h own
  rw [call_append, call_append]
  cases committed : commitOn (retrievalEngines P G) x.runtime req with
  | error e =>
    cases committed' : commitOn (retrievalEngines P G) x'.runtime req with
    | error e' =>
      rw [committed, committed'] at alike
      obtain rfl : e = e' := alike
      exact ⟨rfl, h⟩
    | ok done' =>
      rw [committed, committed'] at alike
      exact alike.elim
  | ok done =>
    cases committed' : commitOn (retrievalEngines P G) x'.runtime req with
    | error e' =>
      rw [committed, committed'] at alike
      exact alike.elim
    | ok done' =>
      rw [committed, committed'] at alike
      obtain ⟨state, ids, ids'⟩ := alike
      refine ⟨rfl, state, ?_⟩
      intro id mem
      rw [ids, ids', mem_cons, mem_cons, h.transactions id mem]

theorem SameSession.other (h : SameSession S x x') (other : OtherCommit S req) :
    SameSession S (x.call (append (retrievalEngines P G) req)).2 x' := by
  rw [call_append]
  cases committed : commitOn (retrievalEngines P G) x.runtime req with
  | error e => exact h
  | ok done =>
    obtain ⟨record, runtime⟩ := done
    obtain ⟨built, takes⟩ := commitOn_eq_ok committed
    obtain ⟨-, -, rfl⟩ := buildRecord_eq_ok built
    obtain ⟨-, -, -, log⟩ := insertRecord_eq_ok_iff.1 takes.log
    refine ⟨foldlM_keeps (SameState S · x'.runtime.state) (fun _ mem _ _ same applied =>
      same.applyOther other.elsewhere (other.mutations _ mem) applied) h.state takes.state, ?_⟩
    intro id mem
    have differs : id ≠ req.transactionId := fun same => other.transaction (same ▸ mem)
    rw [log, mem_cons, h.transactions id mem]
    simp [differs]

end Commits

def scopeOf (tenant namespaceName : String) (requests : List (RetrievalCommit F O)) : Scope where
  tenant := tenant
  namespaceName := namespaceName
  documents := (requests.filter (ofScope tenant namespaceName)).flatMap documentIdsOf
  chunks := (requests.filter (ofScope tenant namespaceName)).flatMap chunkIdsOf
  transactions := (requests.filter (ofScope tenant namespaceName)).map (·.transactionId)

section Runs

variable {tenant namespaceName : String} {requests : List (RetrievalCommit F O)}
  {req : RetrievalCommit F O}

theorem mem_registrations {mutation} :
    mutation ∈ registrations req ↔ .other (.inl mutation) ∈ req.mutations := by
  unfold registrations
  rw [mem_filterMap]
  constructor
  · rintro ⟨found, mem, is⟩
    split at is
    · cases is
      exact mem
    · cases is
  · exact fun mem => ⟨_, mem, rfl⟩

theorem ofScope_iff : ofScope tenant namespaceName req = true ↔
    req.tenant = tenant ∧ req.namespaceName = namespaceName := by
  simp [ofScope]

theorem otherCommit (apart : keepsApart tenant namespaceName requests = true)
    (mem : req ∈ requests) (other : ofScope tenant namespaceName req = false) :
    OtherCommit (scopeOf tenant namespaceName requests) req := by
  have disjoint : ∀ own ∈ requests.filter (ofScope tenant namespaceName),
      own.transactionId ≠ req.transactionId ∧ (∀ id ∈ documentIdsOf own, id ∉ documentIdsOf req) ∧
        ∀ id ∈ chunkIdsOf own, id ∉ chunkIdsOf req := by
    intro own among
    have among_others : req ∈ requests.filter (!ofScope tenant namespaceName ·) :=
      mem_filter.2 ⟨mem, by rw [other]; rfl⟩
    simpa [sharesNoId, and_assoc] using all_eq_true.1 (all_eq_true.1 apart own among) _ among_others
  refine ⟨fun same => ?_, fun used => ?_, ?_⟩
  · exact Bool.false_ne_true (other.symm.trans (ofScope_iff.2 same))
  · obtain ⟨own, among, same⟩ := mem_map.1 used
    exact (disjoint own among).1 same
  · intro mutation used
    rcases mutation with mutation | mutation | mutation
    · exact trivial
    · have registered := mem_registrations.2 used
      refine ⟨fun id mem of_scope => ?_, fun id mem of_scope => ?_⟩
      · obtain ⟨own, among, in_own⟩ := mem_flatMap.1 of_scope
        exact (disjoint own among).2.1 id in_own (mem_flatMap.2 ⟨mutation, registered, mem⟩)
      · obtain ⟨own, among, in_own⟩ := mem_flatMap.1 of_scope
        exact (disjoint own among).2.2 id in_own (mem_flatMap.2 ⟨mutation, registered, mem⟩)
    · exact trivial

theorem purge_commits (apart : keepsApart tenant namespaceName requests = true)
    (retrieval : ∀ req ∈ requests.filter (ofScope tenant namespaceName),
      staysInRetrieval req = true) : ProofKit.seenBy (ofScope tenant namespaceName) verdict
        (commitRun (retrievalEngines P G) requests).1 =
      ProofKit.seenBy (ofScope tenant namespaceName) verdict (commitRun (retrievalEngines P G)
        (requests.filter (ofScope tenant namespaceName))).1 ∧
    SameSession (scopeOf tenant namespaceName requests)
      (commitRun (retrievalEngines P G) requests).2
      (commitRun (retrievalEngines P G)
        (requests.filter (ofScope tenant namespaceName))).2 := by
  have unwinds : Unwinds (fun (x : ScopeSession F O D) req =>
      x.call (append (retrievalEngines P G) req))
      (ofScope tenant namespaceName) verdict (· ∈ requests)
      (SameSession (scopeOf tenant namespaceName requests)) := by
    constructor
    · intro x x' req mem own h
      refine h.own ?_
      obtain ⟨is_tenant, is_namespace⟩ := ofScope_iff.1 own
      have among : req ∈ requests.filter (ofScope tenant namespaceName) := mem_filter.2 ⟨mem, own⟩
      refine ⟨is_tenant, is_namespace, mem_map.2 ⟨req, among, rfl⟩, ?_⟩
      intro mutation used
      rcases mutation with mutation | mutation | mutation
      · exact trivial
      · have registered := mem_registrations.2 used
        refine ⟨fun id mem => ?_, fun id mem => ?_⟩
        · exact mem_flatMap.2 ⟨req, among, mem_flatMap.2 ⟨mutation, registered, mem⟩⟩
        · exact mem_flatMap.2 ⟨req, among, mem_flatMap.2 ⟨mutation, registered, mem⟩⟩
      · exact absurd (all_eq_true.1 (retrieval req among) _ used) Bool.false_ne_true
    · intro x x' req mem other h
      exact h.other (otherCommit apart mem other)
  have start : SameSession (scopeOf tenant namespaceName requests)
      (Session.new (retrievalEngines P G)) (.new (retrievalEngines P G)) :=
    ⟨⟨shared_empty, fun _ => rfl⟩, fun _ _ => Iff.rfl⟩
  exact unwinds.purge start fun _ mem => mem

end Runs

end Ehdb.Proof.Reference
