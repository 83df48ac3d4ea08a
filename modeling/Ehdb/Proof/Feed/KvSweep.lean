import Ehdb.Feed.Kv
import Ehdb.ProofKit.PoolPair

/-! A run is compared with the same run in which sweeps do nothing. The two stores differ in entries
that are expired. -/

namespace Ehdb.Proof.Kv

open Feed ProofKit List
open L0 (KvStore KvEntry Outcome)
open KvCoordinator (deleteDoomed scanEntry)

variable {E : EnvelopeCodec} {store other : KvStore} {clock : Nat} {key : String}

/-- Whether no put to one of its victims has come since the sweep collected them. -/
def clear (sweep : Nat) (doomed : List String) : List KvEvent → Bool
  | [] => false
  | .collected i _ _ keys :: rest => (i = sweep && keys = doomed) || clear sweep doomed rest
  | .put key :: rest => key ∉ doomed && clear sweep doomed rest
  | .clock .. :: rest => clear sweep doomed rest
  | .swept .. :: rest => clear sweep doomed rest

/-- Whether every sweep deleted its victims before a put to one of them, and the clock did not go
backwards. -/
def undisturbed : List KvEvent → Bool
  | [] => true
  | .clock before now :: rest => before ≤ now && undisturbed rest
  | .collected _ now clock _ :: rest => now ≤ clock && undisturbed rest
  | .put _ :: rest => undisturbed rest
  | .swept sweep doomed _ :: rest => clear sweep doomed rest && undisturbed rest

theorem undisturbed_tail {e rest}
    (h : undisturbed (e :: rest) = true) : undisturbed rest = true := by
  cases e with
  | clock | collected | swept => exact (Bool.and_eq_true_iff.1 h).2
  | put => exact h

def text (store : KvStore) (key : String) : Option String :=
  (store.get key).map KvEntry.value

def Lapsed (E : EnvelopeCodec) (clock : Nat) (text : String) : Prop :=
  ∃ env, E.fromStr text = some env ∧ env.expired clock = true

def Gone (E : EnvelopeCodec) (clock : Nat) (store : KvStore) (key : String) : Prop :=
  ∀ t, text store key = some t → Lapsed E clock t

/-- The stores agree, apart from keys of lapsed entries that the first has dropped. -/
def Swept (E : EnvelopeCodec) (clock : Nat) (store other : KvStore) : Prop :=
  ∀ key, text store key = text other key ∨ (text store key = none ∧ Gone E clock other key)

variable {now : Nat}

theorem Lapsed.mono {t} (h : Lapsed E clock t) (le : clock ≤ now) : Lapsed E now t := by
  obtain ⟨env, read, expired⟩ := h
  refine ⟨env, read, ?_⟩
  simp only [Envelope.expired, Bool.and_eq_true, decide_eq_true_eq] at expired ⊢
  exact ⟨expired.1, expired.2.trans le⟩

theorem Gone.mono (h : Gone E clock store key) (le : clock ≤ now) : Gone E now store key :=
  fun t found => (h t found).mono le

theorem Swept.mono (h : Swept E clock store other) (le : clock ≤ now) : Swept E now store other :=
  fun key => (h key).imp id fun ⟨absent, gone⟩ => ⟨absent, gone.mono le⟩

theorem text_put (key value key' : String) :
    text (store.put key value).2 key' = if key' = key then some value else text store key' :=
  KvStore.get_put store key value key'

theorem text_delete (key key' : String) :
    text (store.delete key).2 key' = if key' = key then none else text store key' := by
  rw [text, KvStore.get_delete]
  split <;> rfl

theorem text_deleteDoomed (keys : List String) (key : String) :
    text (deleteDoomed keys store).2 key = if key ∈ keys then none else text store key := by
  have general : ∀ n store, text (keys.foldl (fun (acc : Nat × KvStore) key =>
      (if (acc.2.delete key).1.isSome then acc.1 + 1 else acc.1, (acc.2.delete key).2))
        (n, store)).2
        key = if key ∈ keys then none else text store key := by
    induction keys with
    | nil => exact fun _ _ => rfl
    | cons first rest ih =>
      intro n store
      rw [foldl_cons, ih]
      by_cases later : key ∈ rest
      · simp [later]
      · by_cases same : key = first
        · simp [same, text_delete]
        · simp [later, same, text_delete]
  exact general 0 store

section

variable (h : Swept E clock store other)

include h

theorem Swept.put (key value : String) :
    Swept E clock (store.put key value).2 (other.put key value).2 := by
  intro key'
  rw [text_put, text_put]
  by_cases same : key' = key
  · simp [same]
  · simp only [if_neg same]
    refine (h key').imp id fun ⟨absent, gone⟩ => ⟨absent, fun t found => gone t ?_⟩
    rwa [text_put, if_neg same] at found

theorem Swept.delete (key : String) : Swept E clock (store.delete key).2 (other.delete key).2 := by
  intro key'
  rw [text_delete, text_delete]
  by_cases same : key' = key
  · simp [same]
  · simp only [if_neg same]
    refine (h key').imp id fun ⟨absent, gone⟩ => ⟨absent, fun t found => gone t ?_⟩
    rwa [text_delete, if_neg same] at found

theorem Swept.gone (gone : Gone E clock store key) : Gone E clock other key := by
  rcases h key with same | ⟨-, gone'⟩
  · exact fun t found => gone t (same.trans found)
  · exact gone'

end

variable {keys : List String}

theorem Swept.sweep (h : Swept E clock store other) (gone : ∀ key ∈ keys, Gone E clock store key) :
    Swept E clock (deleteDoomed keys store).2 other := by
  intro key
  rw [text_deleteDoomed]
  by_cases victim : key ∈ keys
  · exact .inr ⟨if_pos victim, h.gone (gone key victim)⟩
  · rw [if_neg victim]
    exact h key

variable {bucket : String}

theorem get_of_text (bucket key : String) : KvCoordinator.get E clock bucket key store =
      match text store (physical bucket key) with
      | none => .ok none
      | some t =>
        match E.fromStr t with
        | none => .error .unparsable
        | some env => .ok (if env.expired clock then none else some env.v) := by
  unfold KvCoordinator.get text
  cases store.get (physical bucket key) <;> rfl

theorem Gone.get {key} (h : Gone E clock store (physical bucket key)) :
    KvCoordinator.get E clock bucket key store = .ok none := by
  rw [get_of_text]
  cases found : text store (physical bucket key) with
  | none => rfl
  | some t =>
    obtain ⟨env, read, expired⟩ := h t found
    simp [read, expired]

theorem Swept.get (h : Swept E clock store other) (bucket key : String) :
    KvCoordinator.get E clock bucket key store = KvCoordinator.get E clock bucket key other := by
  rcases h (physical bucket key) with same | ⟨absent, gone⟩
  · rw [get_of_text, get_of_text, same]
  · rw [gone.get]
    refine Gone.get fun t found => ?_
    rw [absent] at found
    cases found

variable {pre : String}

theorem mem_prefixScan_text {t} :
    (key, t) ∈ store.prefixScan pre ↔ pre.toList <+: key.toList ∧ text store key = some t := by
  rw [KvStore.mem_prefixScan, text]
  refine and_congr_right fun _ => ?_
  constructor
  · rintro ⟨version, found⟩
    simp [found]
  · intro found
    obtain ⟨⟨value, version⟩, held, rfl⟩ := Option.map_eq_some_iff.1 found
    exact ⟨version, held⟩

theorem Swept.scan (h : Swept E clock store other) (bucket : String) :
    KvCoordinator.scan E clock bucket store = KvCoordinator.scan E clock bucket other := by
  set f := scanEntry E clock (bucket ++ "/")
  -- the entries that a scan shows are the same, and both lists are in key order
  have shown (store : KvStore) : KvCoordinator.scan E clock bucket store =
      ((store.prefixScan (bucket ++ "/")).filter fun e => (f e).isSome).filterMap f := by
    rw [filterMap_filter]
    refine filterMap_congr fun e _ => ?_
    cases found : f e <;> simp [f, found]
  rw [shown, shown]
  congr 1
  have ordered (store : KvStore) := (store.prefixScan_ascends (bucket ++ "/")).filter
    fun e => (f e).isSome
  have : Std.Irrefl fun a b : String × String => a.1 < b.1 := ⟨fun _ => lt_irrefl _⟩
  have : Std.Antisymm fun a b : String × String => a.1 < b.1 :=
    ⟨fun _ _ lt gt => absurd (lt_trans lt gt) (lt_irrefl _)⟩
  refine (ordered store).eq_of_mem_iff (ordered other) ?_
  rintro ⟨key, t⟩
  rw [mem_filter, mem_filter, mem_prefixScan_text, mem_prefixScan_text]
  refine and_congr_left fun visible => and_congr_right fun _ => ?_
  rcases h key with same | ⟨absent, gone⟩
  · rw [same]
  · refine ⟨fun found => ?_, fun found => ?_⟩
    · rw [absent] at found
      cases found
    · obtain ⟨env, read, expired⟩ := gone t found
      simp [f, scanEntry, read, expired] at visible

/-- The store under concurrent sweeps beside the same store without them. -/
structure Beside (E : EnvelopeCodec) (s t : KvWorld) : Prop where
  clock : s.clock = t.clock
  swept : Swept E s.clock s.store t.store
  victims : ∀ sweep doomed, clear sweep doomed s.trace = true →
    ∀ key ∈ doomed, Gone E s.clock s.store key
  spared : ∀ sweep doomed live, .swept sweep doomed live ∈ s.trace → live = []

def Reads : KvRequest → Prop
  | .call (.get ..) => True
  | .call (.scan _) => True
  | _ => False

def Calm (s : KvWorld) : Prop := undisturbed s.trace = true

variable {trace : List KvEvent}

section Steps

variable {s t : KvWorld}

theorem Beside.put (h : Beside E s t) (key value : String) {trace} :
    Beside E { s with store := (s.store.put key value).2, trace := .put key :: s.trace }
      { t with store := (t.store.put key value).2, trace := trace } := by
  refine ⟨h.clock, h.swept.put key value, fun sweep doomed cleared victim mem t found => ?_,
    by simpa using h.spared⟩
  obtain ⟨spared, cleared⟩ := Bool.and_eq_true_iff.1 cleared
  have other : victim ≠ key := by
    rintro rfl
    simp [mem] at spared
  rw [text_put, if_neg other] at found
  exact h.victims sweep doomed cleared victim mem t found

theorem Beside.delete (h : Beside E s t) (key : String) :
    Beside E { s with store := (s.store.delete key).2 }
      { t with store := (t.store.delete key).2 } := by
  refine ⟨h.clock, h.swept.delete key, fun sweep doomed cleared victim mem t found => ?_, h.spared⟩
  rw [text_delete] at found
  split at found
  · cases found
  · exact h.victims sweep doomed cleared victim mem t found

theorem Gone.isLive (h : Gone E clock store key) :
    KvCoordinator.isLive E clock store key = false := by
  unfold KvCoordinator.isLive
  cases found : store.get key with
  | none => rfl
  | some entry =>
    obtain ⟨env, read, expired⟩ := h entry.value (by simp [text, found])
    simp [read, expired]

theorem Beside.sweep (h : Beside E s t) {sweep live}
    (alive : live = keys.filter (KvCoordinator.isLive E s.clock s.store))
    (good : undisturbed (.swept sweep keys live :: s.trace) = true) : Beside E
      { s with
        store := (deleteDoomed keys s.store).2
        trace := .swept sweep keys live :: s.trace }
      { t with trace := trace } := by
  have gone := h.victims sweep keys (Bool.and_eq_true_iff.1 good).1
  refine ⟨h.clock, h.swept.sweep gone, ?_, ?_⟩
  · intro other doomed cleared victim mem t found
    rw [text_deleteDoomed] at found
    split at found
    · cases found
    · exact h.victims other doomed cleared victim mem t found
  · intro other doomed live' mem
    rcases mem_cons.1 mem with new | old
    · cases new
      rw [alive, filter_eq_nil_iff]
      exact fun key victim => by simp [(gone key victim).isLive]
    · exact h.spared other doomed live' old

end Steps

/-- Calls as steps that can only make a run less calm. -/
def disturbing : Protocol KvWorld KvRequest KvAnswer Unit where
  start _ := ()
  next _ s _ s' _ := Calm s' → Calm s
  done _ _ _ := True

theorem follows_disturbing (caller : Nat) (request : KvRequest) :
    Follows (disturbing.next caller) ((kvCoordinatorService E true).program caller request)
      (disturbing.done request) () := by
  have quiet {α : Type} {f : KvWorld → α × KvWorld} {Q : α → Unit → Prop}
      (h : ∀ s, Calm (f s).2 → Calm s) (next : ∀ a, Q a ()) :
      Follows (disturbing.next caller) (kvSection f) Q () :=
    .lift fun o s a s' eq => ⟨(), fun good => h s (Option.some.inj eq ▸ good), next a⟩
  cases request with
  | call call =>
    cases call with
    | put =>
      exact .bind (quiet (fun _ good => good) fun _ => quiet (fun _ good => good) fun _ => trivial)
    | delete | get | scan => exact quiet (fun _ good => good) fun _ => trivial
  | sweepExpired bucket =>
    refine .bind (quiet (fun _ good => good) fun now => ?_)
    refine .bind (quiet (fun _ good => undisturbed_tail good) fun keys => ?_)
    exact quiet (fun _ good => undisturbed_tail good) fun _ => trivial

theorem keeps_calm : disturbing.Keeps (kvCoordinatorService E true) Calm (fun _ _ => True)
    (fun _ _ _ _ => True) where
  call _ _ := ⟨trivial, trivial⟩
  act back good := ⟨back good, fun _ _ _ => ⟨trivial, trivial, fun _ _ => trivial⟩⟩
  drop good := ⟨good, fun _ _ => ⟨trivial, fun _ _ => trivial⟩⟩
  world _ good := ⟨undisturbed_tail good, fun _ => ⟨trivial, fun _ _ => trivial⟩⟩

theorem sweeps_paired : (kvCoordinatorService E true).Paired Calm (Beside E)
    (fun request a b => Reads request → a = b) (kvCoordinatorService E false) where
  program caller request := by
    cases request with
    | call call =>
      cases call with
      | put bucket key value ttlMs =>
        refine .bind (.lift fun s t h _ => ⟨h, ?_⟩)
        rw [h.clock]
        exact .lift fun s t h _ => ⟨h.put _ _, fun reads => reads.elim⟩
      | delete bucket key => exact .lift fun s t h _ => ⟨h.delete _, fun reads => reads.elim⟩
      | get bucket key =>
        refine .lift fun s t h _ => ⟨h, fun _ => ?_⟩
        rw [h.swept.get, h.clock]
      | scan bucket =>
        refine .lift fun s t h _ => ⟨h, fun _ => ?_⟩
        rw [h.swept.scan, h.clock]
    | sweepExpired bucket =>
      refine .bind (.lift fun s t h _ => ⟨h, ?_⟩)
      refine .bind (.lift fun s t h good => ⟨?_, ?_⟩)
      · have le := by simpa using (Bool.and_eq_true_iff.1 good).1
        refine ⟨h.clock, h.swept, fun other doomed cleared key mem => ?_, by simpa using h.spared⟩
        rcases Bool.or_eq_true_iff.1 cleared with own | cleared
        · have same := by simpa using (Bool.and_eq_true_iff.1 own).2
          subst same
          refine Gone.mono ?_ le
          obtain ⟨⟨k, v⟩, among, rfl⟩ := mem_map.1 mem
          obtain ⟨scanned, expired⟩ := mem_filter.1 among
          obtain ⟨-, version, found⟩ := KvStore.mem_prefixScan.1 scanned
          intro t held
          rw [text, found, Option.map_some] at held
          cases held
          cases read : E.fromStr v with
          | none => simp [read] at expired
          | some env => exact ⟨env, read, by simpa [read] using expired⟩
        · exact h.victims other doomed cleared key mem
      exact .lift fun s t h good => ⟨h.sweep rfl good, fun reads => reads.elim⟩
  release _ _ _ h _ := h
  world now s t h good := by
    have le : s.clock ≤ now := by simpa using (Bool.and_eq_true_iff.1 good).1
    refine ⟨rfl, h.swept.mono le, fun sweep doomed cleared key mem => ?_, ?_⟩
    · exact (h.victims sweep doomed cleared key mem).mono le
    · intro sweep doomed live mem
      exact h.spared sweep doomed live ((mem_cons.1 mem).resolve_left nofun)
  ends _ := rfl

end Ehdb.Proof.Kv
