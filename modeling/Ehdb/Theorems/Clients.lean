import Ehdb.Proof.Feed.Client

/-! Whether a call gets the answer to its own request, and all its frame, when calls may be
dropped. -/

namespace Ehdb.Theorems

open Feed ProofKit Proof.Client
open L0 (Outcome)

/-- The state after a run of `KvClient` calls, with the calls. `eager` says whether the client was
made by `connect`. -/
def runKv {ρ : Type} (cap : Nat) (parse : Bytes → Option ρ) (eager : Bool)
    (moves : List (Move Outcome Bytes NetEvent)) :
    Pool Client Outcome Bytes (Except ClientError ρ) :=
  (Pool.start (if eager then .connected else .new)).run (kvService cap parse) moves

def runPublish (moves : List (Move Outcome Bytes NetEvent)) :
    Pool Client Outcome Bytes (Except ClientError Nat) :=
  (Pool.start .connected).run publishService moves

/-- In a run that drops no call once it has written a byte, every call that returns `Ok` returns
the server's response to its own request. -/
theorem answers_are_own {ρ : Type} (cap : Nat) (parse : Bytes → Option ρ) (eager : Bool)
    (kvMoves publishMoves : List (Move Outcome Bytes NetEvent)) :
    (undisturbed (runKv cap parse eager kvMoves).shared.trace = true →
      OwnAnswers parse (runKv cap parse eager kvMoves)) ∧
    (undisturbed (runPublish publishMoves).shared.trace = true →
      OwnAnswers (fun seq => some (fromBeBytes seq)) (runPublish publishMoves)) := by
  constructor
  · intro calm
    obtain ⟨ls, tracks⟩ := Pool.run_tracks (kvService cap parse)
      (clientProtocol (kvWireOf parse) true) (follows_kvCall cap parse)
      (if eager then .connected else .new) kvMoves
    refine Pool.Tracks.ownAnswers tracks rfl rfl ?_ ?_ calm
    · cases eager <;> rfl
    · cases eager with
      | false => exact fun s conn => by cases conn
      | true => exact fun s conn => by cases conn; exact ⟨rfl, .inl rfl⟩
  · intro calm
    obtain ⟨ls, tracks⟩ := Pool.run_tracks publishService (clientProtocol ackWireOf false)
      follows_publish .connected publishMoves
    refine Pool.Tracks.ownAnswers tracks rfl rfl rfl (fun s conn => ?_) calm
    cases conn
    exact ⟨rfl, .inl rfl⟩

def clientSteps (i n : Nat) : List (Move Outcome Bytes NetEvent) := List.replicate n (.act i .ok)

def lookups : List (Move Outcome Bytes NetEvent) :=
  .call [1] :: clientSteps 0 8 ++ .world (.serve 0 [10]) :: clientSteps 0 6 ++
  .call [2] :: clientSteps 1 8 ++ .world (.serve 0 [20]) :: clientSteps 1 6

def ack (b : UInt8) : Bytes := [0, 0, 0, 0, 0, 0, 0, b]

def publications : List (Move Outcome Bytes NetEvent) :=
  .call [1] :: clientSteps 0 7 ++ .world (.serve 0 (ack 10)) :: clientSteps 0 9 ++
  .call [2] :: clientSteps 1 7 ++ .world (.serve 0 (ack 20)) :: clientSteps 1 9

theorem lookups_and_publications_are_own :
    (runKv 100 some false lookups).answer 1 = some ([2], .ok [20]) ∧
    (runPublish publications).answer 1 = some ([2], .ok 20) ∧
    OwnAnswers some (runKv 100 some false lookups) ∧
    OwnAnswers (fun seq => some (fromBeBytes seq)) (runPublish publications) :=
  ⟨by decide, by decide, (answers_are_own 100 some false lookups publications).1 (by decide),
    (answers_are_own 100 some false lookups publications).2 (by decide)⟩

def abandonedLookup : List (Move Outcome Bytes NetEvent) :=
  .call [1] :: clientSteps 0 8 ++ .drop 0 :: .world (.serve 0 [10]) ::
  .call [2] :: clientSteps 1 8 ++ .world (.serve 0 [20]) :: clientSteps 1 6

def abandonedPublication : List (Move Outcome Bytes NetEvent) :=
  .call [1] :: clientSteps 0 7 ++ .drop 0 :: .world (.serve 0 (ack 10)) ::
  .call [2] :: clientSteps 1 7 ++ .world (.serve 0 (ack 20)) :: clientSteps 1 9

def answersWith {ρ : Type} [DecidableEq ρ] (value : Bytes → Option ρ) (i : Nat) (body : Bytes)
    (r : ρ) : ClientEvent → Bool
  | .served _ frame response => frame = tagged i (netFrame body) ∧ value response = some r
  | _ => false

/-- The second call is answered with the response to the first, abandoned one. -/
theorem abandoned_answers_are_misread : ¬OwnAnswers some (runKv 100 some false abandonedLookup) ∧
    ¬OwnAnswers (fun seq => some (fromBeBytes seq)) (runPublish abandonedPublication) := by
  constructor
  · intro own
    obtain ⟨k, response, served, value⟩ := own 1 [2] [10] (by decide)
    have none : (runKv 100 some false abandonedLookup).shared.trace.any
        (answersWith some 1 [2] [10]) = false := by decide
    have := List.any_eq_false.1 none _ served
    simp [answersWith, value] at this
  · intro own
    obtain ⟨k, response, served, value⟩ := own 1 [2] 10 (by decide)
    have none : (runPublish abandonedPublication).shared.trace.any
        (answersWith (fun seq => some (fromBeBytes seq)) 1 [2] 10) = false := by decide
    have := List.any_eq_false.1 none _ served
    simp [answersWith, Option.some.inj value] at this

section Frames

open Feed.FrameReader

variable {cap : Nat} {bodies todo : List Bytes} {tail : Bytes} {r : FrameReader}

def bodiesOf (results : List (Except ClientError Bytes)) : List Bytes :=
  results.filterMap Except.toOption

/-- Nothing, or a length above the cap and what comes after it. -/
def Refused (cap : Nat) (tail : Bytes) : Prop :=
  tail = [] ∨ ∃ n rest, tail = (L0.toLeBytes n).reverse ++ rest ∧ cap < n ∧ n < 2 ^ 32

def Framed (bodies : List Bytes) (tail : Bytes) (r : FrameReader) : Prop :=
  r.pending ++ r.arriving = bodies.flatMap netFrame ++ tail

theorem header_of_split {n : Nat} {rest} (long : 4 ≤ r.pending.length)
    (split : r.pending ++ r.arriving = (L0.toLeBytes n).reverse ++ rest) (small : n < 2 ^ 32) :
    fromBeBytes (r.pending.take 4) = n := by
  have header := congrArg (List.take 4) split
  rw [List.take_append_of_le_length long, List.take_left' (by simp)] at header
  rw [header, fromBeBytes_length small]

/-- The next frame is taken once all of it is pending. -/
theorem Framed.takeBody_cons {body : Bytes} (framed : Framed (body :: bodies) tail r)
    (fits : body.length ≤ cap ∧ body.length < 2 ^ 32) : r.takeBody cap =
      if 4 + body.length ≤ r.pending.length then
        some (.ok body, { r with pending := r.pending.drop (4 + body.length) }) else none := by
  rw [Framed, List.flatMap_cons, List.append_assoc] at framed
  unfold FrameReader.takeBody
  by_cases long : 4 ≤ r.pending.length
  · rw [header_of_split long (framed.trans (List.append_assoc ..)) fits.2]
    simp only [if_neg (Nat.not_lt.2 long), if_neg (Nat.not_lt.2 fits.1)]
    split
    · rename_i whole
      obtain ⟨rest, is⟩ : netFrame body <+: r.pending :=
        List.prefix_of_prefix_length_le ⟨_, framed.symm⟩ (List.prefix_append ..)
          (by simpa using whole)
      simp [← is, netFrame]
    · rfl
  · simp only [if_pos (Nat.not_le.1 long)]
    rw [if_neg (by omega)]

theorem Framed.dropFrame {body : Bytes} (framed : Framed (body :: bodies) tail r)
    (whole : 4 + body.length ≤ r.pending.length) :
    Framed bodies tail { r with pending := r.pending.drop (4 + body.length) } := by
  have rest := congrArg (List.drop (4 + body.length)) framed
  rw [List.drop_append_of_le_length whole, List.flatMap_cons, List.append_assoc,
    List.drop_left' (by simp)] at rest
  exact rest

/-- Whether a call reads chunks that hold `n` bytes together, and its reads do not fail. -/
def holdsBytes (n : Nat) (reads : List (Option Nat)) : Bool :=
  reads.all Option.isSome && n ≤ (reads.map fun read => read.getD 0 + 1).sum

theorem Framed.short {body : Bytes} (framed : Framed (body :: bodies) tail r)
    (fits : body.length ≤ cap ∧ body.length < 2 ^ 32) (none : r.takeBody cap = none) :
    r.arriving ≠ [] := by
  rintro arrived
  rw [framed.takeBody_cons fits, if_pos] at none
  · cases none
  · have := congrArg List.length framed
    simp [arrived] at this
    omega

/-- A call whose chunks hold all that is still to come returns the next body. -/
theorem Framed.takesNext {body : Bytes} (reads : List (Option Nat))
    (framed : Framed (body :: bodies) tail r) (fits : body.length ≤ cap ∧ body.length < 2 ^ 32)
    (covered : holdsBytes r.arriving.length reads) :
      (readCapped cap reads r).1 = some (.ok body) := by
  fun_induction FrameReader.readCapped cap reads r with
  | case1 reads r result r' taken =>
    rw [framed.takeBody_cons fits] at taken
    split at taken
    · cases taken
      rfl
    · cases taken
  | case2 r taken =>
    have := framed.short fits taken
    simp [holdsBytes] at covered
    contradiction
  | case3 reads r taken => simp [holdsBytes] at covered
  | case4 r taken more reads arrived =>
      exact absurd (by simpa using arrived) (framed.short fits taken)
  | case5 r taken more reads arrived ih =>
    refine ih (by simpa [Framed] using framed) ?_
    simp [holdsBytes] at covered ⊢
    exact ⟨covered.1, by omega⟩

section

variable (small : ∀ body ∈ bodies, body.length ≤ cap ∧ body.length < 2 ^ 32)
  (refused : Refused cap tail)
include small refused

theorem Framed.takeBody {r' result}
    (framed : Framed bodies tail r) (taken : r.takeBody cap = some (result, r')) :
    ∃ todo, bodies = result.toOption.toList ++ todo ∧ Framed todo tail r' := by
  cases bodies with
  | nil =>
    unfold FrameReader.takeBody at taken
    dsimp only at taken
    split at taken
    · cases taken
    rename_i long
    have long := Nat.not_lt.1 long
    split at taken
    · cases taken
      exact ⟨[], rfl, framed⟩
    · rename_i le
      rcases refused with rfl | ⟨n, rest, rfl, large, bound⟩
      · simp [(List.append_eq_nil_iff.1 framed).1] at long
      · rw [header_of_split long framed bound] at le
        exact absurd large le
  | cons body todo =>
    rw [framed.takeBody_cons (small body List.mem_cons_self)] at taken
    split at taken
    · rename_i whole
      cases taken
      exact ⟨todo, rfl, framed.dropFrame whole⟩
    · cases taken

theorem Framed.readCapped (reads : List (Option Nat)) (framed : Framed bodies tail r) :
    ∃ todo, bodies = bodiesOf (readCapped cap reads r).1.toList ++ todo ∧
      Framed todo tail (readCapped cap reads r).2 := by
  fun_induction FrameReader.readCapped cap reads r with
  | case1 reads r result r' taken =>
    obtain ⟨todo, split, framed⟩ := framed.takeBody small refused taken
    exact ⟨todo, by cases result <;> exact split, framed⟩
  | case2 r taken => exact ⟨bodies, rfl, framed⟩
  | case3 reads r taken => exact ⟨bodies, rfl, framed⟩
  | case4 r taken more reads arrived => exact ⟨bodies, rfl, framed⟩
  | case5 r taken more reads arrived ih => exact ih (by simpa [Framed] using framed)

omit small in
/-- The bodies that calls return are the first ones; all of them, if as many calls as there are
bodies have chunks that hold the whole stream. -/
theorem Framed.run (calls : List (List (Option Nat)))
    (small : ∀ body ∈ bodies, body.length ≤ cap ∧ body.length < 2 ^ 32)
    (framed : Framed bodies tail r) : ∃ todo,
      bodies = bodiesOf (run cap calls r).1 ++ todo ∧ ∀ n,
        (bodies.flatMap netFrame ++ tail).length ≤ n → bodies.length ≤ calls.countP (holdsBytes n) →
          todo = [] := by
  induction calls generalizing r bodies with
  | nil =>
    refine ⟨bodies, rfl, fun n _ none => ?_⟩
    simpa using none
  | cons call calls ih =>
    obtain ⟨todo, split, later⟩ := framed.readCapped small refused call
    obtain ⟨left, is, last⟩ := ih
      (fun body mem => small body (by rw [split]; exact List.mem_append_right _ mem)) later
    refine ⟨left, by rw [split, is]; simp [FrameReader.run, bodiesOf], fun n whole enough => ?_⟩
    refine last n (Nat.le_trans ?_ whole) ?_
    · rw [split]
      simp
    · by_cases covered : holdsBytes n call
      · rw [List.countP_cons_of_pos covered] at enough
        cases bodies with
        | nil =>
          rw [(List.append_eq_nil_iff.1 split.symm).2]
          exact Nat.zero_le _
        | cons body bodies =>
          have taken := framed.takesNext call (small body List.mem_cons_self) (by
            have arriving := congrArg List.length framed
            simp [holdsBytes] at covered ⊢
            refine ⟨covered.1, ?_⟩
            simp at arriving whole
            omega)
          rw [taken] at split
          simp [bodiesOf, Except.toOption] at split
          rw [← split]
          simpa using enough
      · rw [List.countP_cons_of_neg covered] at enough
        refine Nat.le_trans ?_ enough
        rw [split, List.length_append]
        omega

end

theorem run_refused (long : 4 ≤ r.pending.length) (large : cap < fromBeBytes (r.pending.take 4))
    (calls : List (List (Option Nat))) :
    bodiesOf (run cap calls r).1 = [] ∧ (run cap calls r).2 = r := by
  have taken : r.takeBody cap = some (.error .tooLong, r) := by
    rw [takeBody, if_neg (Nat.not_lt.2 long), if_pos large]
  induction calls with
  | nil => exact ⟨rfl, rfl⟩
  | cons call calls ih =>
    have refused : readCapped cap call r = (some (.error .tooLong), r) := by
      unfold readCapped
      rw [taken]
    simpa [FrameReader.run, refused, bodiesOf, Except.toOption] using ih

/-- Whatever chunks the calls read and wherever they are dropped, the bodies they return are those
that were written, in order; all of them, if as many calls as there are bodies read chunks that
cover the stream, wherever other calls come between. A reader that has a length above the cap
returns no body and takes nothing in. -/
theorem frames_survive_chunks_and_drops (calls : List (List (Option Nat)))
    (small : ∀ body ∈ bodies, body.length ≤ cap ∧ body.length < 2 ^ 32)
    (refused : Refused cap tail) :
    let stream := bodies.flatMap netFrame ++ tail
    let (results, r) := run cap calls ⟨stream, []⟩
    bodiesOf results <+: bodies ∧
    (bodies.length ≤ calls.countP (holdsBytes stream.length) → bodiesOf results = bodies) ∧
    (4 ≤ r.pending.length → cap < fromBeBytes (r.pending.take 4) → ∀ more,
      bodiesOf (run cap more r).1 = [] ∧ (run cap more r).2 = r) := by
  obtain ⟨todo, split, last⟩ := Framed.run (r := ⟨bodies.flatMap netFrame ++ tail, []⟩) refused
    calls small rfl
  refine ⟨⟨todo, split.symm⟩, fun enough => ?_, run_refused⟩
  rw [last _ (Nat.le_refl _) enough, List.append_nil] at split
  exact split.symm

/-- Three frames: the first call is dropped after five bytes, a later one fails in the third frame.
-/
theorem frame_survives_a_drop :
    let read := run 8 [[some 4], [some 99], [some 30, some 30], [none], [some 99]]
      ⟨[[7, 8], [], [9]].flatMap netFrame ++ [], []⟩
    bodiesOf read.1 = [[7, 8], [], [9]] ∧ bodiesOf read.1 <+: [[7, 8], [], [9]] :=
  ⟨(frames_survive_chunks_and_drops _ (by simp) (.inl rfl)).2.1 (by decide),
    (frames_survive_chunks_and_drops _ (by simp) (.inl rfl)).1⟩

end Frames

end Ehdb.Theorems
