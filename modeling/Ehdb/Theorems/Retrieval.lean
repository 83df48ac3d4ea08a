import Ehdb.Proof.Reference.Retrieval
import Ehdb.Theorems.EventLog

/-! Documents, chunks and transactions have one space of ids for all tenants. A tenant and namespace
is unaffected by the others as long as these use none of its ids. -/

namespace Ehdb.Theorems

open ProofKit Reference Proof.Reference Transaction Ehdb.Stream

/-- Two runs with the same commits of a tenant and namespace, in which no other commit uses a
transaction id, document id or chunk id of those, answer these commits alike, and every search of
the tenant and namespace finds the same. -/
theorem retrieval_isolated {F O D : Type} (P : Platform F) (G : Engines O D)
    (tenant namespaceName : String) (requests requests' : List (RetrievalCommit F O))
    (same : requests.filter (ofScope tenant namespaceName) =
      requests'.filter (ofScope tenant namespaceName))
    (retrieval : ∀ request ∈ requests.filter (ofScope tenant namespaceName),
      staysInRetrieval request = true) (apart : keepsApart tenant namespaceName requests = true)
    (apart' : keepsApart tenant namespaceName requests' = true) :
    seenBy (ofScope tenant namespaceName) verdict (commitRun (retrievalEngines P G) requests).1 =
        seenBy (ofScope tenant namespaceName) verdict
          (commitRun (retrievalEngines P G) requests').1 ∧
      (∀ needle, (catalogAfter P G requests).findChunksContaining P tenant namespaceName needle =
        (catalogAfter P G requests').findChunksContaining P tenant namespaceName needle) ∧
      (∀ query limit, (catalogAfter P G requests).searchText P
        ⟨tenant, namespaceName, query, limit⟩ =
        (catalogAfter P G requests').searchText P ⟨tenant, namespaceName, query, limit⟩) ∧
      (∀ modelId query limit,
        (catalogAfter P G requests).searchSimilar P ⟨tenant, namespaceName, modelId, query, limit⟩ =
        (catalogAfter P G requests').searchSimilar P
          ⟨tenant, namespaceName, modelId, query, limit⟩) ∧
      ∀ modelId query textQuery limit vectorWeight textWeight,
        (catalogAfter P G requests).searchHybrid P
            ⟨tenant, namespaceName, modelId, query, textQuery, limit, vectorWeight, textWeight⟩ =
          (catalogAfter P G requests').searchHybrid P
            ⟨tenant, namespaceName, modelId, query, textQuery, limit, vectorWeight,
              textWeight⟩ := by
  obtain ⟨seen, session⟩ := purge_commits (P := P) (G := G) apart retrieval
  obtain ⟨seen', session'⟩ := purge_commits (P := P) (G := G) apart' (same ▸ retrieval)
  rw [← same] at seen' session'
  -- Both runs look like the one with the commits of the scope alone.
  have left := session.state.catalog
  have right := session'.state.catalog
  refine ⟨seen.trans seen'.symm, fun needle => ?_, fun query limit => ?_,
    fun modelId query limit => ?_, ?_⟩
  · exact (left.findChunksContaining needle).trans (right.findChunksContaining needle).symm
  · exact (left.searchText query limit).trans (right.searchText query limit).symm
  · exact (left.searchSimilar modelId query limit).trans
      (right.searchSimilar modelId query limit).symm
  · intro modelId query textQuery limit vectorWeight textWeight
    exact (left.searchHybrid modelId query textQuery limit vectorWeight textWeight).trans
      (right.searchHybrid modelId query textQuery limit vectorWeight textWeight).symm

def wholeNumbers : Platform Nat where
  toLowercase := id
  isFinite _ := true
  isZero value := value = 0
  isNegative _ := false
  add := (· + ·)
  mul := (· * ·)
  div := (· / ·)
  sqrt := Nat.sqrt
  sum := List.sum
  ofNat := id
  totalCmp := compare

def sampleDocument (transactionId tenant documentId : String) : RetrievalCommit Nat Empty :=
  ⟨transactionId, tenant, "kb", [.other (.inl (.registerDocument documentId "uri" "text/plain"))]⟩

def sampleChunk (transactionId tenant documentId chunkId text : String) :
    RetrievalCommit Nat Empty :=
  ⟨transactionId, tenant, "kb",
    [.other (.inl (.registerChunk documentId chunkId 0 text "checksum"))]⟩

def reportAlone : List (RetrievalCommit Nat Empty) :=
  [sampleDocument "t1" "tenant-a" "report", sampleChunk "t2" "tenant-a" "report" "c1" "own words"]

def reportBesideMemo : List (RetrievalCommit Nat Empty) :=
  [sampleDocument "t1" "tenant-a" "report", sampleDocument "t3" "tenant-b" "memo",
    sampleChunk "t4" "tenant-b" "memo" "c2" "a memo",
    sampleChunk "t2" "tenant-a" "report" "c1" "own words"]

theorem retrieval_isolated_beside_others : seenBy (ofScope "tenant-a" "kb") verdict
        (commitRun (retrievalEngines wholeNumbers noEngines) reportAlone).1 =
      seenBy (ofScope "tenant-a" "kb") verdict
        (commitRun (retrievalEngines wholeNumbers noEngines) reportBesideMemo).1 :=
  (retrieval_isolated wholeNumbers noEngines "tenant-a" "kb" reportAlone reportBesideMemo rfl
    (by decide) (by decide) (by decide)).1

/-- Another tenant puts a chunk under the document in between, with the id of the chunk that follows
it. -/
def foreignChunkInReport : List (RetrievalCommit Nat Empty) :=
  [sampleDocument "t1" "tenant-a" "report",
    sampleChunk "t3" "tenant-b" "report" "c1" "foreign words",
    sampleChunk "t2" "tenant-a" "report" "c1" "own words"]

/-- The chunk of the other tenant is found in the document, and the tenant's own chunk is turned
away. -/
theorem foreign_chunk_is_found_and_blocks :
    reportAlone.filter (ofScope "tenant-a" "kb") = foreignChunkInReport.filter
      (ofScope "tenant-a" "kb") ∧
      (seenBy (ofScope "tenant-a" "kb") verdict
        (commitRun (retrievalEngines wholeNumbers noEngines) reportAlone).1).map Prod.snd =
          [.ok (), .ok ()] ∧ (seenBy (ofScope "tenant-a" "kb") verdict
        (commitRun (retrievalEngines wholeNumbers noEngines) foreignChunkInReport).1).map Prod.snd =
          [.ok (), .error (.alreadyExists "c1")] ∧
      (catalogAfter wholeNumbers noEngines reportAlone).findChunksContaining wholeNumbers
        "tenant-a" "kb" "foreign" = [] ∧
      (catalogAfter wholeNumbers noEngines foreignChunkInReport).findChunksContaining wholeNumbers
        "tenant-a" "kb" "foreign" = [⟨"c1", "report", 0, "foreign words", "checksum", "t3"⟩] := by
  refine ⟨rfl, ?_, ?_, ?_, ?_⟩
  · decide
  · decide
  · decide
  · decide

end Ehdb.Theorems
