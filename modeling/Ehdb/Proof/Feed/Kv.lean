import Ehdb.Feed.Kv

/-! `KvMap` is what the networked face is for: a map from buckets and keys to values that expire. -/

namespace Ehdb.Proof.Kv

open Feed ProofKit List
open L0 (KvStore KvEntry)
open KvCoordinator (expiry scan scanEntry)

structure Lease where
  value : String
  since : Nat
  ttlMs : Nat
  deriving DecidableEq

abbrev KvMap := String → String → Option Lease

namespace KvMap

def set (m : KvMap) (bucket key : String) (lease : Option Lease) : KvMap :=
  fun b k => if b = bucket ∧ k = key then lease else m b k

def apply (m : KvMap) : Nat × KvCall → KvMap
  | (now, .put bucket key value ttlMs) => m.set bucket key (some ⟨value, now, ttlMs⟩)
  | (_, .delete bucket key) => m.set bucket key none
  | (_, .get ..) => m
  | (_, .scan _) => m

def after (calls : List (Nat × KvCall)) : KvMap := calls.foldl apply fun _ _ => none

def get (m : KvMap) (now : Nat) (bucket key : String) : Option String :=
  (m bucket key).bind fun lease =>
    if lease.ttlMs = 0 ∨ now < lease.since + lease.ttlMs then some lease.value else none

end KvMap

def Plain (bucket : String) : Prop := '/' ∉ bucket.toList

instance (bucket : String) : Decidable (Plain bucket) :=
  inferInstanceAs (Decidable ('/' ∉ bucket.toList))

def Nested (bucket key : String) : Prop := (bucket ++ "/").toList <+: key.toList

instance (bucket key : String) : Decidable (Nested bucket key) :=
  inferInstanceAs (Decidable ((bucket ++ "/").toList <+: key.toList))

theorem toList_bucket (bucket : String) : (bucket ++ "/").toList = bucket.toList ++ ['/'] := by
  simp

theorem toList_physical (bucket key : String) :
    (physical bucket key).toList = bucket.toList ++ '/' :: key.toList := by
  simp [physical]

theorem split_unique {c : Char} {a b rest rest'} (ha : c ∉ a) (hb : c ∉ b)
    (h : a ++ c :: rest = b ++ c :: rest') : a = b ∧ rest = rest' := by
  induction a generalizing b with
  | nil =>
    cases b with
    | nil => exact ⟨rfl, by simpa using h⟩
    | cons y b =>
      have same : c = y := by simpa using (cons.inj h).1
      exact absurd (same ▸ mem_cons_self ..) hb
  | cons x a ih =>
    cases b with
    | nil =>
      have same : x = c := by simpa using (cons.inj h).1
      exact absurd (same ▸ mem_cons_self ..) ha
    | cons y b =>
      obtain ⟨rfl, tail⟩ := cons.inj h
      obtain ⟨rfl, eq⟩ := ih (fun m => ha (.tail _ m))
        (fun m => hb (.tail _ m)) tail
      exact ⟨rfl, eq⟩

variable {b b' k : String}

theorem physical_inj {k'} (plain : Plain b) (plain' : Plain b')
    (h : physical b k = physical b' k') : b = b' ∧ k = k' := by
  have lists := congrArg String.toList h
  rw [toList_physical, toList_physical] at lists
  obtain ⟨bucket, key⟩ := split_unique plain plain' lists
  exact ⟨String.toList_injective bucket, String.toList_injective key⟩

theorem prefix_physical (b k : String) : (b ++ "/").toList <+: (physical b k).toList :=
  ⟨k.toList, by simp [toList_physical]⟩

theorem trim_physical (flat : ¬Nested b k) : trimStartMatches (b ++ "/") (physical b k) = k := by
  have starts := isPrefixOf_iff_prefix.2 (prefix_physical b k)
  have stops : ((b ++ "/").toList.isPrefixOf k.toList) = false := by
    rw [Bool.eq_false_iff]
    exact fun h => flat ( isPrefixOf_iff_prefix.1 h)
  have rest : (physical b k).toList.drop (b ++ "/").toList.length = k.toList := by
    simp [physical]
  have size : (physical b k).toList.length = (b.toList.length + k.toList.length) + 1 := by
    rw [toList_physical, length_append, length_cons]
    omega
  rw [trimStartMatches, size, stripRepeatedly, if_pos starts, rest]
  -- one strip was enough
  have done : ∀ fuel, stripRepeatedly (b ++ "/").toList fuel k.toList = k.toList := by
    intro fuel
    cases fuel with
    | zero => rfl
    | succ fuel => rw [stripRepeatedly, stops, if_neg Bool.false_ne_true]
  rw [done]
  exact String.ofList_toList

variable {E : EnvelopeCodec} {store : KvStore} {m : KvMap}

def envelope (lease : Lease) : Envelope :=
  ⟨lease.value, expiry lease.since lease.ttlMs⟩

/-- The calls that the face answers like a map: buckets have no slash, a key that is put does not
start with its bucket and a slash, and its expiry fits in a `u64`. -/
def Regular : Nat × KvCall → Prop
  | (now, .put bucket key _ ttlMs) =>
    Plain bucket ∧ ¬Nested bucket key ∧ (ttlMs = 0 ∨ now + ttlMs < 2 ^ 64)
  | (_, .delete bucket _) => Plain bucket
  | (_, .get bucket _) => Plain bucket
  | (_, .scan bucket) => Plain bucket

instance (call : Nat × KvCall) : Decidable (Regular call) := by
  obtain ⟨now, call⟩ := call
  cases call <;> unfold Regular <;> infer_instance

/-- The store's physical keys hold the envelopes of the map's leases, and nothing else. -/
structure Represents (E : EnvelopeCodec) (store : KvStore) (m : KvMap) : Prop where
  entry : ∀ bucket key, Plain bucket → (store.get (physical bucket key)).map KvEntry.value =
      (m bucket key).map fun lease => E.toString (envelope lease)
  keys : ∀ key entry, store.get key = some entry →
    ∃ bucket k, Plain bucket ∧ ¬Nested bucket k ∧ key = physical bucket k
  fits : ∀ bucket key lease, m bucket key = some lease →
    lease.ttlMs = 0 ∨ lease.since + lease.ttlMs < 2 ^ 64

theorem Represents.empty (E : EnvelopeCodec) : Represents E .empty fun _ _ => none where
  entry _ _ _ := rfl
  keys _ _ h := by cases h
  fits _ _ _ h := by cases h

theorem set_self (bucket key : String) (lease : Option Lease) :
    m.set bucket key lease bucket key = lease := by
  simp [KvMap.set]

variable {bucket key : String}

theorem set_ne (lease : Option Lease) (differ : ¬(b = bucket ∧ k = key)) :
    m.set bucket key lease b k = m b k := by
  simp [KvMap.set, differ]

theorem physical_ne (plain : Plain bucket) (plain' : Plain b) (differ : ¬(b = bucket ∧ k = key)) :
    physical b k ≠ physical bucket key := fun same => differ (physical_inj plain' plain same)

variable {value : String} {now : Nat}

theorem Represents.change (rep : Represents E store m) {store' lease} (plain : Plain bucket)
    (text : ∀ key', (store'.get key').map KvEntry.value =
      if key' = physical bucket key then lease.map fun lease => E.toString (envelope lease)
      else (store.get key').map KvEntry.value)
    (allowed : ∀ l ∈ lease, ¬Nested bucket key ∧ (l.ttlMs = 0 ∨ l.since + l.ttlMs < 2 ^ 64)) :
    Represents E store' (m.set bucket key lease) := by
  refine ⟨fun b k plain' => ?_, fun key' entry found => ?_, fun b k l found => ?_⟩
  · rw [text]
    by_cases same : b = bucket ∧ k = key
    · rw [same.1, same.2, if_pos rfl, set_self]
    · rw [if_neg (physical_ne plain plain' same), set_ne _ same]
      exact rep.entry b k plain'
  · have value := text key'
    rw [found] at value
    split at value
    · obtain ⟨l, new, -⟩ := Option.map_eq_some_iff.1 value.symm
      exact ⟨bucket, key, plain, (allowed l new).1, by assumption⟩
    · obtain ⟨old, before, -⟩ := Option.map_eq_some_iff.1 value.symm
      exact rep.keys key' old before
  · by_cases same : b = bucket ∧ k = key
    · rw [same.1, same.2, set_self] at found
      exact (allowed l found).2
    · rw [set_ne _ same] at found
      exact rep.fits b k l found

theorem Represents.put (rep : Represents E store m) {ttlMs} (plain : Plain bucket)
    (flat : ¬Nested bucket key) (fits : ttlMs = 0 ∨ now + ttlMs < 2 ^ 64) : Represents E
      (KvCoordinator.put E bucket key value (expiry now ttlMs) store).2
      (m.set bucket key (some ⟨value, now, ttlMs⟩)) := by
  refine rep.change plain (fun key' => KvStore.get_put ..) fun l new => ?_
  cases new
  exact ⟨flat, fits⟩

theorem Represents.delete (rep : Represents E store m) (plain : Plain bucket) :
    Represents E (KvCoordinator.delete bucket key store).2 (m.set bucket key none) := by
  refine rep.change plain (fun key' => ?_) nofun
  rw [KvCoordinator.delete, KvStore.get_delete]
  split <;> rfl

theorem Represents.apply (rep : Represents E store m) {call}
    (regular : Regular call) : Represents E (KvCall.apply E store call) (m.apply call) := by
  obtain ⟨now, call⟩ := call
  cases call with
  | put bucket key value ttlMs =>
    obtain ⟨plain, flat, fits⟩ := regular
    exact rep.put plain flat fits
  | delete bucket key => exact rep.delete regular
  | get | scan => exact rep

theorem represents {calls} (regular : ∀ call ∈ calls, Regular call) :
    Represents E (runKvCalls E calls) (KvMap.after calls) := by
  induction calls using reverseRecOn with
  | nil => exact .empty E
  | append_singleton calls call ih =>
    rw [runKvCalls, KvMap.after, foldl_append, foldl_append]
    have before := ih fun call mem => regular call (mem_append_left _ mem)
    exact before.apply (regular call (by simp))

variable {lease : Lease}

theorem expired_envelope (now : Nat) (fits : lease.ttlMs = 0 ∨ lease.since + lease.ttlMs < 2 ^ 64) :
    (envelope lease).expired now = true ↔ ¬(lease.ttlMs = 0 ∨ now < lease.since + lease.ttlMs) := by
  by_cases never : lease.ttlMs = 0
  · simp [envelope, expiry, Envelope.expired, never]
  · have small := fits.resolve_left never
    have exp : (envelope lease).exp = lease.since + lease.ttlMs := by
      rw [envelope, expiry, if_neg never, Nat.mod_eq_of_lt small]
    simp only [Envelope.expired, exp, Bool.and_eq_true, decide_eq_true_eq]
    omega

theorem exp_envelope_lt : (envelope lease).exp < 2 ^ 64 := by
  unfold envelope expiry
  split
  · exact Nat.two_pow_pos 64
  · exact Nat.mod_lt _ (Nat.two_pow_pos 64)

theorem Represents.get_lease (rep : Represents E store m) (held : m bucket key = some lease)
    (now : Nat) : m.get now bucket key =
      if (envelope lease).expired now then none else some (envelope lease).v := by
  have expired := expired_envelope now (rep.fits bucket key lease held)
  rw [KvMap.get, held, Option.bind_some]
  by_cases live : lease.ttlMs = 0 ∨ now < lease.since + lease.ttlMs
  · rw [if_pos live, if_neg fun h => expired.1 h live]
    rfl
  · rw [if_neg live, if_pos (expired.2 live)]

theorem Represents.get (rep : Represents E store m) (plain : Plain bucket) (now : Nat)
    (key : String) : KvCoordinator.get E now bucket key store = .ok (m.get now bucket key) := by
  have entry := rep.entry bucket key plain
  cases held : m bucket key with
  | none =>
    rw [held] at entry
    have absent : store.get (physical bucket key) = none := by simpa using entry
    simp [KvCoordinator.get, KvMap.get, absent, held]
  | some lease =>
    rw [held] at entry
    obtain ⟨found, present, value⟩ := Option.map_eq_some_iff.1 entry
    rw [rep.get_lease held, KvCoordinator.get, present]
    simp only [value, E.fromStr_toString _ exp_envelope_lt]

theorem scanEntry_lease (flat : ¬Nested bucket key) (lease : Lease) :
    scanEntry E now (bucket ++ "/")
        (physical bucket key, E.toString (envelope lease)) =
      if (envelope lease).expired now then none else some (key, (envelope lease).v) := by
  rw [scanEntry, E.fromStr_toString _ exp_envelope_lt, Option.bind_some, trim_physical flat]

section

variable (rep : Represents E store m) (plain : Plain bucket)
include rep plain

theorem Represents.mem_prefixScan
    {raw text} : (raw, text) ∈ store.prefixScan (bucket ++ "/") ↔
      ∃ key lease, ¬Nested bucket key ∧ m bucket key = some lease ∧
        raw = physical bucket key ∧ text = E.toString (envelope lease) := by
  rw [KvStore.mem_prefixScan]
  constructor
  · rintro ⟨⟨rest, eq⟩, version, found⟩
    obtain ⟨b, key, plain', flat, rfl⟩ := rep.keys raw _ found
    rw [toList_bucket, toList_physical, append_assoc] at eq
    obtain rfl := String.toList_injective (split_unique plain plain' eq).1
    have entry := rep.entry bucket key plain
    rw [found, Option.map_some] at entry
    obtain ⟨lease, held, value⟩ := Option.map_eq_some_iff.1 entry.symm
    exact ⟨key, lease, flat, held, rfl, value.symm⟩
  · rintro ⟨key, lease, flat, held, rfl, rfl⟩
    have entry := rep.entry bucket key plain
    rw [held] at entry
    obtain ⟨⟨value, version⟩, found, rfl⟩ := Option.map_eq_some_iff.1 entry
    exact ⟨prefix_physical bucket key, version, found⟩

theorem Represents.mem_scan :
    (key, value) ∈ scan E now bucket store ↔ m.get now bucket key = some value := by
  rw [scan, mem_filterMap]
  constructor
  · rintro ⟨⟨raw, text⟩, mem, seen⟩
    obtain ⟨k, lease, flat, held, rfl, rfl⟩ := (rep.mem_prefixScan plain).1 mem
    rw [scanEntry_lease flat] at seen
    split at seen
    · cases seen
    · rename_i live
      cases seen
      rw [rep.get_lease held, if_neg live]
  · intro h
    cases held : m bucket key with
    | none => simp [KvMap.get, held] at h
    | some lease =>
      rw [rep.get_lease held] at h
      have flat : ¬Nested bucket key := by
        have entry := rep.entry bucket key plain
        rw [held] at entry
        obtain ⟨found, present, -⟩ := Option.map_eq_some_iff.1 entry
        obtain ⟨b, k, plain', flat, same⟩ := rep.keys _ found present
        obtain ⟨rfl, rfl⟩ := physical_inj plain plain' same
        exact flat
      refine ⟨_, (rep.mem_prefixScan plain).2 ⟨key, lease, flat, held, rfl, rfl⟩, ?_⟩
      rw [scanEntry_lease flat]
      split at h
      · cases h
      · rename_i live
        cases h
        rw [if_neg live]

theorem Represents.scan_nodup (now : Nat) : ((scan E now bucket store).map Prod.fst).Nodup := by
  rw [scan, List.Nodup, pairwise_map, pairwise_filterMap]
  refine (store.prefixScan_ascends (bucket ++ "/")).imp_of_mem ?_
  rintro ⟨raw, text⟩ ⟨raw', text'⟩ mem mem' below ⟨k, v⟩ seen ⟨k', v'⟩ seen' same
  obtain ⟨key, lease, flat, -, rfl, rfl⟩ := (rep.mem_prefixScan plain).1 mem
  obtain ⟨key', lease', flat', -, rfl, rfl⟩ := (rep.mem_prefixScan plain).1 mem'
  rw [scanEntry_lease flat] at seen
  rw [scanEntry_lease flat'] at seen'
  split at seen
  · cases seen
  · split at seen'
    · cases seen'
    · cases seen
      cases seen'
      have equal : k = k' := same
      exact absurd below (by rw [equal]; exact lt_irrefl _)

end

end Ehdb.Proof.Kv
