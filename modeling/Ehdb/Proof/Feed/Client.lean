import Ehdb.Feed.Client

/-! `ClientStep` says what one action of a call does to the client and its connection. -/

namespace Ehdb.Proof.Client

open Feed ProofKit List
open L0 (Outcome toLeBytes fromLeBytes fromLeBytes_toLeBytes)

variable {ρ : Type}

theorem fromBeBytes_length {n} (h : n < 2 ^ 32) : fromBeBytes (toLeBytes n).reverse = n := by
  rw [fromBeBytes, reverse_reverse, fromLeBytes_toLeBytes h]

@[simp]
theorem netFrame_length (body : Bytes) : (netFrame body).length = 4 + body.length := by
  simp [netFrame]

@[simp]
theorem tagged_length (i : Nat) (bytes : Bytes) : (tagged i bytes).length = bytes.length := by
  simp [tagged]

variable {body : Bytes}

theorem header_of_frame {i} (short : body.length < 2 ^ 32) :
    fromBeBytes (((tagged i (netFrame body)).take 4).map Prod.snd) = body.length := by
  have header : ((tagged i (netFrame body)).take 4).map Prod.snd =
      (toLeBytes body.length).reverse := by
    simp [tagged, netFrame]
  rw [header, fromBeBytes_length short]

theorem takeFrame_whole {i} (short : body.length < 2 ^ 32) :
    takeFrame (tagged i (netFrame body)) = some (tagged i (netFrame body), []) := by
  have size : (tagged i (netFrame body)).length = 4 + body.length := by simp
  simp only [takeFrame, header_of_frame short]
  rw [if_pos ⟨by omega, size.ge⟩, take_of_length_le size.le, drop_of_length_le size.le]

variable {todo : Bytes}

theorem takeFrame_incomplete {i sent} (short : body.length < 2 ^ 32)
    (split : sent ++ tagged i todo = tagged i (netFrame body)) (left : todo ≠ []) :
    takeFrame sent = none := by
  unfold takeFrame
  rw [if_neg]
  rintro ⟨long, complete⟩
  have header : sent.take 4 = (tagged i (netFrame body)).take 4 := by
    rw [← split, take_append_of_le_length long]
  rw [header, header_of_frame short] at complete
  have total := congrArg length split
  have := length_pos_of_ne_nil left
  simp only [length_append, tagged_length, netFrame_length] at total
  omega

/-- A reply's form on the wire: what is read is the whole reply, with its own value. -/
structure Wire (ρ : Type) where
  wire : Bytes → Option Bytes
  value : Bytes → Option ρ
  Reads : Bytes → ρ → Prop
  nonempty : ∀ {got r}, Reads got r → got ≠ []
  sound : ∀ {response bytes got rest r}, wire response = some bytes → bytes = got ++ rest →
    Reads got r → rest = [] ∧ value response = some r

/-- Where a request stands on the connection it shares. -/
inductive Stage (ρ : Type) where
  | waiting
  | holding
  | exchanging (todo got : Bytes)
  | broke
  | done (result : Except ClientError ρ)

/-- What one step of a request does to the shared client. -/
inductive ClientStep (W : Wire ρ) (resets : Bool) (i : Nat) :
    Client → Bytes × Stage ρ → Client → Bytes × Stage ρ → Prop
  | guarded {c : Client} {body} (free : c.holder = none) :
      ClientStep W resets i c (body, .waiting) { c with holder := some i } (body, .holding)
  | kept {c body} : ClientStep W resets i c (body, .holding) c (body, .holding)
  | dialed {c body} : ClientStep W resets i c (body, .holding) c.dialed (body, .holding)
  | undialed {c body} : ClientStep W resets i c (body, .holding) { c with holder := none }
        (body, .done (.error .io))
  | begun {c} {body : Bytes} (short : body.length < 2 ^ 32) :
      ClientStep W resets i c (body, .holding) c (body, .exchanging (netFrame body) [])
  | refused {c body} : ClientStep W resets i c (body, .holding) c (body, .broke)
  | wrote {c body todo b} : ClientStep W resets i c (body, .exchanging (b :: todo) [])
        ((c.onSock fun s => { s with sent := s.sent ++ [(i, b)] }).log (.wrote i))
        (body, .exchanging todo [])
  | writeFailed {c body todo b} : ClientStep W resets i c (body, .exchanging (b :: todo) [])
        (c.onSock fun s => { s with broken := true }) (body, .broke)
  | read {c : Client} {body got rest b} {s : Connection}
      (conn : c.conn = some s) (inbox : s.inbox = b :: rest) :
      ClientStep W resets i c (body, .exchanging [] got)
        (c.onSock fun s => { s with inbox := rest }) (body, .exchanging [] (got ++ [b]))
  | closed {c : Client} {body got} {s : Connection} (conn : c.conn = some s)
      (inbox : s.inbox = []) (broken : s.broken = true) :
      ClientStep W resets i c (body, .exchanging [] got) c (body, .broke)
  | readFailed {c body got} : ClientStep W resets i c (body, .exchanging [] got)
        (c.onSock fun s => { s with inbox := [], broken := true }) (body, .broke)
  | finished {c body got r} (whole : W.Reads got r) :
      ClientStep W resets i c (body, .exchanging [] got) { c with holder := none }
        (body, .done (.ok r))
  | rejected {c body got e} (reset : resets = true) :
      ClientStep W resets i c (body, .exchanging [] got) { c with holder := none, sock := none }
        (body, .done (.error e))
  | gaveUp {c body e} : ClientStep W resets i c (body, .broke)
        { c with holder := none, sock := if resets then none else c.sock }
        (body, .done (.error e))

def clientProtocol (W : Wire ρ) (resets : Bool) :
    Protocol Client Bytes (Except ClientError ρ) (Bytes × Stage ρ) where
  start body := (body, .waiting)
  next := ClientStep W resets
  done body result l := l = (body, .done result)

variable {Q : Except ClientError Unit → Bytes × Stage ρ → Prop} {got : Bytes}

section Programs

variable {W : Wire ρ} {resets : Bool} {i : Nat} {body : Bytes} {α : Type}

theorem follows_takeGuard (taken : Q (.ok ()) (body, .holding)) :
    Follows (ClientStep W resets i) (takeGuard i).run Q (body, .waiting) := by
  intro o c b c' h
  dsimp only at h
  split at h
  · rename_i free
    cases h
    exact ⟨_, .guarded free, taken⟩
  · cases h

theorem follows_dial (ok : Q (.ok ()) (body, .holding))
    (error : Q (.error .io) (body, .done (.error .io))) :
    Follows (ClientStep W resets i) dial.run Q (body, .holding) := by
  intro o c b c' h
  dsimp only at h
  split at h
  · cases h
    exact ⟨_, .kept, ok⟩
  · split at h
    · cases h
      exact ⟨_, .dialed, ok⟩
    · cases h
      exact ⟨_, .undialed, error⟩

theorem follows_writeFrame (ok : Q (.ok ()) (body, .exchanging [] []))
    (error : ∀ e, Q (.error e) (body, .broke)) :
    Follows (ClientStep W resets i) (writeFrame i body).run Q (body, .holding) := by
  refine .bindExcept ?_
  intro o c a c' h
  split at h
  · rename_i short
    cases h
    refine ⟨_, .begun short, ?_⟩
    refine .tryEach (fun rest _ l => l = (body, .exchanging rest [])) ?_ ?_ rfl
    · rintro b rest _ _ rfl
      intro o c a c' h
      dsimp only at h
      split at h
      · cases h
        exact ⟨_, .wrote, rfl⟩
      · cases h
        exact ⟨_, .writeFailed, error _⟩
    · rintro _ _ rfl
      exact ok
  · cases h
    exact ⟨_, .refused, error _⟩

theorem follows_readByte {Q} (ok : ∀ b, Q (.ok b) (body, .exchanging [] (got ++ [b])))
    (error : Q (.error .io) (body, .broke)) :
    Follows (ClientStep W resets i) readByte.run Q (body, .exchanging [] got) := by
  intro o c a c' h
  dsimp only at h
  split at h
  · cases h
  · rename_i conn
    cases h
    exact ⟨_, .read conn rfl, ok _⟩
  · rename_i conn
    split at h
    · rename_i broken
      cases h
      exact ⟨_, .closed conn rfl broken, error⟩
    · cases h
  · cases h
    exact ⟨_, .readFailed, error⟩

variable {Q : Except ClientError Bytes → Bytes × Stage ρ → Prop}

theorem follows_readExact (n : Nat)
    (ok : ∀ bytes, bytes.length = n → Q (.ok bytes) (body, .exchanging [] (got ++ bytes)))
    (error : Q (.error .io) (body, .broke)) :
    Follows (ClientStep W resets i) (readExact n).run Q (body, .exchanging [] got) := by
  induction n generalizing got Q with
  | zero =>
    have := ok [] rfl
    rwa [append_nil] at this
  | succ n ih =>
    refine .bindExcept (follows_readByte (fun b => ?_) error)
    refine .bindExcept (ih (fun bytes size => ?_) error)
    have := ok (b :: bytes) (by simp [size])
    rwa [append_cons] at this

theorem follows_gaveUp {e} : Follows (ClientStep W resets i)
      (do ExceptT.lift (giveBack resets (callFailed (.error e : Except ClientError ρ)))
          ExceptT.mk (.ret (.error e)) : ClientAction ρ).run
      (fun result l => l = (body, .done result)) (body, .broke) := by
  intro o c b c' h
  cases h
  exact ⟨_, .gaveUp, rfl⟩

end Programs

def kvWireOf (parse : Bytes → Option ρ) : Wire ρ where
  wire := kvWire
  value := parse
  Reads got r := ∃ header body, got = header ++ body ∧ header.length = 4 ∧
    body.length = fromBeBytes header ∧ parse body = some r
  nonempty := by
    rintro got r ⟨header, body, rfl, size, -, -⟩ empty
    simp [(append_eq_nil_iff.1 empty).1] at size
  sound := by
    rintro response bytes got rest r sent split ⟨header, body, rfl, size, length, parsed⟩
    simp only [kvWire] at sent
    split at sent
    · rename_i short
      cases sent
      rw [netFrame, append_assoc] at split
      obtain ⟨rfl, same⟩ := append_inj split (by simp [size])
      rw [fromBeBytes_length short] at length
      obtain ⟨rfl, empty⟩ := append_inj (same.symm.trans (append_nil _).symm) length
      exact ⟨empty, parsed⟩
    · cases sent

def ackWireOf : Wire Nat where
  wire := ackWire
  value response := some (fromBeBytes response)
  Reads got r := got.length = 8 ∧ r = fromBeBytes got
  nonempty := by
    rintro got r ⟨size, -⟩ rfl
    cases size
  sound := by
    rintro response bytes got rest r sent split ⟨size, rfl⟩
    simp only [ackWire] at sent
    split at sent
    · rename_i eight
      cases sent
      have total := congrArg List.length split
      rw [length_append, eight, size] at total
      obtain rfl : rest = [] := length_eq_zero_iff.1 (by omega)
      rw [split, append_nil]
      exact ⟨rfl, rfl⟩
    · cases sent

theorem follows_kvCall (cap : Nat) (parse : Bytes → Option ρ) (i : Nat) (body : Bytes) :
    Follows (ClientStep (kvWireOf parse) true i) (kvCall cap parse i body).run
      (fun result l => l = (body, .done result)) (body, .waiting) := by
  refine .bindExcept (follows_takeGuard ?_)
  refine .bindExcept (follows_dial ?_ rfl)
  refine .bindExcept (.bind ?_)
  have rejected : ∀ (e : ClientError) (got : Bytes), Follows (ClientStep (kvWireOf parse) true i)
      (do ExceptT.lift (giveBack true (callFailed (.error e : Except ClientError ρ)))
          ExceptT.mk (.ret (.error e)) : ClientAction ρ).run
      (fun result l => l = (body, .done result)) (body, .exchanging [] got) := by
    intro e got o c b c' h
    cases h
    exact ⟨_, .rejected rfl, rfl⟩
  refine .bindExcept (follows_writeFrame ?_ fun _ => follows_gaveUp)
  refine .bindExcept (.bindExcept (follows_readExact 4 (fun header size => ?_) follows_gaveUp))
  dsimp only
  split
  · exact rejected _ header
  refine follows_readExact _ (fun response length => ?_) follows_gaveUp
  dsimp only
  cases parsed : parse response with
  | none => exact rejected _ _
  | some r =>
    intro o c b c' h
    cases h
    exact ⟨_, .finished ⟨header, response, rfl, size, length, parsed⟩, rfl⟩

theorem follows_publish (i : Nat) (body : Bytes) :
    Follows (ClientStep ackWireOf false i) (publish i body).run
      (fun result l => l = (body, .done result)) (body, .waiting) := by
  refine .bindExcept (follows_takeGuard ?_)
  refine .bindExcept (.bind ?_)
  refine .bindExcept (follows_writeFrame ?_ fun _ => follows_gaveUp)
  refine .bindExcept (follows_readExact 8 (fun seq size => ?_) follows_gaveUp)
  intro o c b c' h
  cases h
  exact ⟨_, .finished ⟨size, rfl⟩, rfl⟩

variable {W : Wire ρ} {resets : Bool}

/-- Nothing of an earlier call is on its way, or the connection is dead and empty. -/
def CleanSock (c : Client) : Prop :=
  ∀ s, c.conn = some s → s.inbox = [] ∧ (s.sent = [] ∨ s.broken = true)

structure Unanswered (i : Nat) (body todo got : Bytes) (s : Connection) : Prop where
  nothing : got = []
  inbox : s.inbox = []
  sent : s.broken = true ∨ s.sent ++ tagged i todo = tagged i (netFrame body)

/-- The server has answered call `i`, and its response is what was read and what is left. -/
structure Answered (W : Wire ρ) (trace : List ClientEvent) (i : Nat) (body todo got : Bytes)
    (s : Connection) : Prop where
  written : todo = []
  sent : s.sent = []
  served : ∃ k response bytes, .served k (tagged i (netFrame body)) response ∈ trace ∧
    W.wire response = some bytes ∧ bytes = got ++ s.inbox

structure Exchanging (W : Wire ρ) (c : Client) (i : Nat) (body todo got : Bytes) : Prop where
  short : body.length < 2 ^ 32
  unread : c.conn = none → got = []
  conn : ∀ s, c.conn = some s → Unanswered i body todo got s ∨ Answered W c.trace i body todo got s

/-- The server served this request with a reply that means `r`. -/
def Earned (W : Wire ρ) (trace : List ClientEvent) (i : Nat) (body : Bytes) (r : ρ) : Prop :=
  ∃ k response, .served k (tagged i (netFrame body)) response ∈ trace ∧ W.value response = some r

/-- Only the guard's holder is on the socket, and an answered request has earned its answer. -/
def CallOk (W : Wire ρ) (c : Client) (i : Nat) : Bytes × Stage ρ → Prop
  | (_, .waiting) => c.holder ≠ some i
  | (_, .holding) => c.holder = some i ∧ CleanSock c
  | (body, .exchanging todo got) =>
    c.holder = some i ∧ Exchanging W c i body todo got ∧
      (.wrote i ∈ c.trace ∨ (todo = netFrame body ∧ got = []))
  | (_, .broke) => c.holder = some i ∧ CleanSock c
  | (body, .done result) => c.holder ≠ some i ∧ ∀ r, result = .ok r → Earned W c.trace i body r

/-- One of `n` calls has the client, or nobody has it and nothing is on its way. -/
structure Shared (c : Client) (n : Nat) : Prop where
  held : ∀ i, c.holder = some i → i < n
  free : c.holder = none → CleanSock c

@[simp]
theorem onSock_holder (c : Client) (f : Connection → Connection) :
    (c.onSock f).holder = c.holder := by
  unfold Client.onSock
  split <;> rfl

@[simp]
theorem onSock_trace (c : Client) (f : Connection → Connection) : (c.onSock f).trace = c.trace := by
  unfold Client.onSock
  split <;> rfl

@[simp]
theorem onSock_conn (c : Client) (f : Connection → Connection) :
    (c.onSock f).conn = c.conn.map f := by
  unfold Client.onSock Client.conn
  cases h : c.sock with
  | none => simp [h]
  | some k => simp [getElem?_modify]

@[simp]
theorem log_conn (c : Client) (e : ClientEvent) : (c.log e).conn = c.conn := rfl

theorem dialed_conn (c : Client) : c.dialed.conn = some .fresh := by
  simp [Client.dialed, Client.conn]

variable {c : Client}

theorem cleanSock_onSock {f}
    (h : ∀ s, c.conn = some s → (f s).inbox = [] ∧ ((f s).sent = [] ∨ (f s).broken = true)) :
    CleanSock (c.onSock f) := by
  intro s conn
  rw [onSock_conn, Option.map_eq_some_iff] at conn
  obtain ⟨s, conn, rfl⟩ := conn
  exact h s conn

variable {c' : Client} {l : Bytes × Stage ρ}

theorem Earned.grow {trace trace' body r i}
    (earned : Earned W trace i body r) (grow : ∀ e ∈ trace, e ∈ trace') :
    Earned W trace' i body r := by
  obtain ⟨k, response, served, value⟩ := earned
  exact ⟨k, response, grow _ served, value⟩

theorem CallOk.keep {j} (ok : CallOk W c j l) (other : c.holder ≠ some j)
    (other' : c'.holder ≠ some j) (trace : ∀ e ∈ c.trace, e ∈ c'.trace) : CallOk W c' j l := by
  obtain ⟨body, stage⟩ := l
  cases stage with
  | waiting => exact other'
  | holding => exact absurd ok.1 other
  | exchanging todo got => exact absurd ok.1 other
  | broke => exact absurd ok.1 other
  | done result => exact ⟨other', fun r is => (ok.2 r is).grow trace⟩

/-- What a step leaves: the part of the call that took it, and who has the client. -/
structure Kept (W : Wire ρ) (c' : Client) (i : Nat) (l' : Bytes × Stage ρ) : Prop where
  self : CallOk W c' i l'
  holder : c'.holder = some i ∨ (c'.holder = none ∧ CleanSock c')

variable {b : UInt8} {s : Connection} {l' : Bytes × Stage ρ}

section Steps

variable {c : Client} {i : Nat} {body todo got : Bytes}

theorem Exchanging.write (ex : Exchanging W c i body (b :: todo) []) :
    Exchanging W ((c.onSock fun s => { s with sent := s.sent ++ [(i, b)] }).log (.wrote i)) i
      body todo [] := by
  refine ⟨ex.short, fun _ => rfl, ?_⟩
  intro s conn
  rw [log_conn, onSock_conn, Option.map_eq_some_iff] at conn
  obtain ⟨s, conn, rfl⟩ := conn
  rcases ex.conn s conn with un | an
  · refine .inl ⟨rfl, un.inbox, un.sent.imp id fun sent => ?_⟩
    rw [← sent]
    simp [tagged]
  · cases an.written

theorem Exchanging.read {rest} (ex : Exchanging W c i body [] got) (conn : c.conn = some s)
    (inbox : s.inbox = b :: rest) :
    Exchanging W (c.onSock fun s => { s with inbox := rest }) i body [] (got ++ [b]) := by
  refine ⟨ex.short, by simp [conn], ?_⟩
  intro s' conn'
  rw [onSock_conn, conn] at conn'
  cases conn'
  rcases ex.conn s conn with un | an
  · simp [un.inbox] at inbox
  · obtain ⟨k, response, bytes, served, wire, split⟩ := an.served
    refine .inr ⟨rfl, an.sent, k, response, bytes, by simpa using served, wire, ?_⟩
    rw [split, inbox]
    simp

theorem Exchanging.whole {r} (ex : Exchanging W c i body [] got) (whole : W.Reads got r) :
    CleanSock c ∧ Earned W c.trace i body r := by
  cases conn : c.conn with
  | none => exact absurd (ex.unread conn) (W.nonempty whole)
  | some s =>
    rcases ex.conn s conn with un | an
    · exact absurd un.nothing (W.nonempty whole)
    · obtain ⟨k, response, bytes, served, wire, split⟩ := an.served
      obtain ⟨empty, value⟩ := W.sound wire split whole
      refine ⟨?_, k, response, served, value⟩
      intro s' conn'
      rw [conn] at conn'
      cases conn'
      exact ⟨empty, .inl an.sent⟩

theorem ClientStep.keeps (ok : CallOk W c i l) (free : c.holder = none → CleanSock c)
    (step : ClientStep W resets i c l c' l') : Kept W c' i l' := by
  cases step with
  | guarded none => exact ⟨⟨rfl, free none⟩, .inl rfl⟩
  | kept | refused => exact ⟨ok, .inl ok.1⟩
  | dialed =>
    refine ⟨⟨ok.1, ?_⟩, .inl ok.1⟩
    intro s conn
    rw [dialed_conn] at conn
    cases conn
    exact ⟨rfl, .inl rfl⟩
  | undialed => exact ⟨⟨nofun, nofun⟩, .inr ⟨rfl, ok.2⟩⟩
  | begun short =>
    refine ⟨⟨ok.1, ⟨short, fun _ => rfl, ?_⟩, .inr ⟨rfl, rfl⟩⟩, .inl ok.1⟩
    intro s conn
    obtain ⟨inbox, sent⟩ := ok.2 s conn
    exact .inl ⟨rfl, inbox, sent.symm.imp id fun empty => by rw [empty, nil_append]⟩
  | @wrote _ todo b =>
    have held := (onSock_holder c fun s => { s with sent := s.sent ++ [(i, b)] }).trans ok.1
    exact ⟨⟨held, ok.2.1.write, .inl (mem_cons_self ..)⟩, .inl held⟩
  | writeFailed =>
    have held := (onSock_holder c fun s => { s with broken := true }).trans ok.1
    refine ⟨⟨held, cleanSock_onSock fun s conn => ⟨?_, .inr rfl⟩⟩, .inl held⟩
    rcases ok.2.1.conn s conn with un | an
    · exact un.inbox
    · cases an.written
  | @read _ got rest b s conn inbox =>
    have held := (onSock_holder c fun s => { s with inbox := rest }).trans ok.1
    refine ⟨⟨held, ok.2.1.read conn inbox, .inl ?_⟩, .inl held⟩
    rw [onSock_trace]
    rcases ok.2.2 with wrote | ⟨none, -⟩
    · exact wrote
    · have := congrArg length none
      rw [netFrame_length, length_nil] at this
      omega
  | @closed _ _ s conn inbox broken =>
    refine ⟨⟨ok.1, ?_⟩, .inl ok.1⟩
    intro s' conn'
    rw [conn] at conn'
    cases conn'
    exact ⟨inbox, .inr broken⟩
  | readFailed =>
    have held := (onSock_holder c fun s => { s with inbox := [], broken := true }).trans ok.1
    exact ⟨⟨held, cleanSock_onSock fun _ _ => ⟨rfl, .inr rfl⟩⟩, .inl held⟩
  | finished whole =>
    obtain ⟨clean, earned⟩ := ok.2.1.whole whole
    exact ⟨⟨nofun, fun _ is => Except.ok.inj is ▸ earned⟩, .inr ⟨rfl, clean⟩⟩
  | rejected reset => exact ⟨⟨nofun, nofun⟩, .inr ⟨rfl, fun s conn => by cases conn⟩⟩
  | gaveUp =>
    refine ⟨⟨nofun, nofun⟩, .inr ⟨rfl, ?_⟩⟩
    intro s conn
    cases resets with
    | true => cases conn
    | false => exact ok.2 s conn

theorem ClientStep.trace_grows (step : ClientStep W resets i c l c' l') :
    c'.trace = c.trace ∨ c'.trace = .wrote i :: c.trace := by
  cases step with
  | wrote => exact .inr (by simp [Client.log])
  | writeFailed | read | readFailed => exact .inl (onSock_trace _ _)
  | _ => exact .inl rfl

theorem ClientStep.holds (ok : CallOk W c i l) (step : ClientStep W resets i c l c' l') :
    c.holder = none ∨ c.holder = some i := by
  cases step with
  | guarded none => exact .inl none
  | _ => exact .inr ok.1

end Steps

/-- Everything that is known of the connection in use, by the call that has the client. -/
def Settled (W : Wire ρ) (c c' : Client) : Prop :=
  (CleanSock c → CleanSock c') ∧
    ∀ i body todo got, Exchanging W c i body todo got → Exchanging W c' i body todo got

variable {i : Nat}

theorem CallOk.settled (ok : CallOk W c i l) (settled : Settled W c c')
    (holder : c'.holder = c.holder) (trace : ∀ e ∈ c.trace, e ∈ c'.trace) : CallOk W c' i l := by
  obtain ⟨body, stage⟩ := l
  cases stage with
  | waiting => exact fun mine => ok (holder ▸ mine)
  | holding | broke => exact ⟨holder.trans ok.1, settled.1 ok.2⟩
  | exchanging todo got =>
    exact ⟨holder.trans ok.1, settled.2 _ _ _ _ ok.2.1, ok.2.2.imp (trace _) id⟩
  | done result => exact ⟨holder ▸ ok.1, fun r is => (ok.2 r is).grow trace⟩

theorem Answered.grow {trace trace' body todo got}
    (an : Answered W trace i body todo got s) (grow : ∀ e ∈ trace, e ∈ trace') :
    Answered W trace' i body todo got s := by
  obtain ⟨k, response, bytes, served, rest⟩ := an.served
  exact ⟨an.written, an.sent, k, response, bytes, grow _ served, rest⟩

theorem settled_of_conn (conn : c'.conn = c.conn) (grow : ∀ e ∈ c.trace, e ∈ c'.trace) :
    Settled W c c' := by
  refine ⟨fun clean s h => clean s (conn ▸ h), ?_⟩
  intro i body todo got ex
  refine ⟨ex.short, fun none => ex.unread (conn ▸ none), fun s h => ?_⟩
  exact (ex.conn s (conn ▸ h)).imp id (Answered.grow · grow)

theorem settled_breaks (k : Nat) (c : Client) :
    Settled W c { c with conns := c.conns.modify k fun s => { s with broken := true } } := by
  have conn : ∀ s', Client.conn
      { c with conns := c.conns.modify k fun s => { s with broken := true } } = some s' →
      ∃ s, c.conn = some s ∧ s'.inbox = s.inbox ∧ s'.sent = s.sent ∧
        (s.broken = true → s'.broken = true) := by
    intro s' h
    simp only [Client.conn, Option.bind_eq_some_iff, getElem?_modify] at h ⊢
    obtain ⟨j, sock, h⟩ := h
    rw [Option.map_eq_map, Option.map_eq_some_iff] at h
    obtain ⟨s, found, rfl⟩ := h
    refine ⟨s, ⟨j, sock, found⟩, ?_⟩
    by_cases same : k = j <;> simp [same]
  constructor
  · intro clean s' h
    obtain ⟨s, before, inbox, sent, broken⟩ := conn s' h
    obtain ⟨empty, dead⟩ := clean s before
    exact ⟨inbox.trans empty, dead.imp sent.trans broken⟩
  · intro i body todo got ex
    refine ⟨ex.short, ?_, ?_⟩
    · intro none
      refine ex.unread ?_
      simpa [Client.conn, getElem?_modify, Option.bind_eq_none_iff] using none
    · intro s' h
      obtain ⟨s, before, inbox, sent, broken⟩ := conn s' h
      rcases ex.conn s before with un | an
      · exact .inl ⟨un.nothing, inbox.trans un.inbox, un.sent.imp broken fun h => sent ▸ h⟩
      · obtain ⟨k, response, bytes, served, wire, split⟩ := an.served
        exact .inr ⟨an.written, sent.trans an.sent, k, response, bytes, served, wire, inbox ▸ split⟩

theorem settled_serve (k : Nat) (response : Bytes) (c : Client) :
    Settled W c (c.serve W.wire k response) := by
  unfold Client.serve
  split
  · rename_i s bytes found wire
    split
    · rename_i frame rest alive taken
      by_cases sock : c.sock = some k
      · -- The answer goes to the connection in use: a request was waiting there.
        have here : c.conn = some s := by simp [Client.conn, sock, found]
        have waits : s.sent ≠ [] := fun empty => by
          rw [empty] at taken
          cases taken
        constructor
        · intro clean
          obtain ⟨-, empty | dead⟩ := clean s here
          · exact absurd empty waits
          · simp [alive] at dead
        · intro i body todo got ex
          have bound : k < c.conns.length := (List.getElem?_eq_some_iff.1 found).1
          refine ⟨ex.short, by simp [Client.conn, sock, bound], ?_⟩
          intro s' now
          simp only [Client.conn, sock, Option.bind_some, List.getElem?_set_self bound] at now
          cases now
          rcases ex.conn s here with un | an
          · have split : s.sent ++ tagged i todo = tagged i (netFrame body) :=
              un.sent.resolve_left (by simp [alive])
            by_cases left : todo = []
            · subst left
              have whole : s.sent = tagged i (netFrame body) := by simpa [tagged] using split
              rw [whole, takeFrame_whole ex.short] at taken
              cases taken
              refine .inr ⟨rfl, rfl, k, response, bytes, mem_cons_self .., wire, ?_⟩
              rw [un.nothing, un.inbox]
              rfl
            · rw [takeFrame_incomplete ex.short split left] at taken
              cases taken
          · exact absurd an.sent waits
      · refine settled_of_conn ?_ fun e h => .tail _ h
        cases at_j : c.sock with
        | none => simp [Client.conn, at_j]
        | some j =>
          have other : k ≠ j := fun same => sock (same ▸ at_j)
          simp [Client.conn, at_j, getElem?_set_ne other]
    · exact settled_of_conn rfl fun _ h => h
  · exact settled_of_conn rfl fun _ h => h

def undisturbed : List ClientEvent → Bool
  | [] => true
  | .dropped i :: rest => !rest.contains (.wrote i) && undisturbed rest
  | .wrote _ :: rest => undisturbed rest
  | .served _ _ _ :: rest => undisturbed rest

theorem undisturbed_tail {e rest}
    (h : undisturbed (e :: rest) = true) : undisturbed rest = true := by
  cases e with
  | wrote i => exact h
  | dropped i => exact (Bool.and_eq_true_iff.1 h).2
  | served k frame response => exact h

theorem serve_trace (wire : Bytes → Option Bytes) (k : Nat) (response : Bytes) (c : Client) :
    (c.serve wire k response).trace = c.trace ∨
      ∃ frame, (c.serve wire k response).trace = .served k frame response :: c.trace := by
  unfold Client.serve
  split
  · split
    · exact .inr ⟨_, rfl⟩
    · exact .inl rfl
  · exact .inl rfl

theorem ClientStep.trace_mem (step : ClientStep W resets i c l c' l') :
    ∀ e ∈ c.trace, e ∈ c'.trace := by
  intro e h
  rcases step.trace_grows with same | more
  · exact same ▸ h
  · exact more ▸ .tail _ h

theorem ClientStep.shared {n} (bound : i < n) (shared : Shared c n) (ok : CallOk W c i l)
    (step : ClientStep W resets i c l c' l') : Shared c' n ∧ CallOk W c' i l' ∧
      ∀ {j : Nat} {_ : Bytes} {m}, j ≠ i → CallOk W c j m → CallOk W c' j m := by
  have kept := step.keeps ok shared.free
  refine ⟨⟨fun j h => ?_, fun h => ?_⟩, kept.self, fun other theirs => ?_⟩
  · rcases kept.holder with mine | ⟨none, -⟩
    · exact Option.some.inj (mine.symm.trans h) ▸ bound
    · simp [none] at h
  · rcases kept.holder with mine | ⟨-, clean⟩
    · simp [mine] at h
    · exact clean
  · refine theirs.keep ?_ ?_ step.trace_mem
    · rcases step.holds ok with free | mine
      · simp [free]
      · simpa [mine] using other.symm
    · rcases kept.holder with mine | ⟨none, -⟩
      · simpa [mine] using other.symm
      · simp [none]

theorem Shared.drop {n} (shared : Shared c n) (ok : CallOk W c i l)
    (silent : .wrote i ∉ c.trace) : Shared (c.drop i) n ∧
      ∀ {j : Nat} {_ : Bytes} {m}, j ≠ i → CallOk W c j m → CallOk W (c.drop i) j m := by
  have grow : ∀ e ∈ c.trace, e ∈ (c.drop i).trace := fun e h => .tail _ h
  have holder : (c.drop i).holder = if c.holder = some i then none else c.holder := rfl
  by_cases mine : c.holder = some i
  · rw [if_pos mine] at holder
    refine ⟨⟨fun j h => by simp [holder] at h, fun _ => ?_⟩, fun other theirs =>
      theirs.keep (by simpa [mine] using other.symm) (by simp [holder]) grow⟩
    obtain ⟨body, stage⟩ := l
    cases stage with
    | waiting => exact absurd mine ok
    | holding => exact ok.2
    | broke => exact ok.2
    | done result => exact absurd mine ok.1
    | exchanging todo got =>
      obtain ⟨-, ex, wrote | ⟨rfl, rfl⟩⟩ := ok
      · exact absurd wrote silent
      · intro s conn
        rcases ex.conn s conn with un | an
        · refine ⟨un.inbox, un.sent.symm.imp (fun split => ?_) id⟩
          simpa using split
        · have := congrArg length an.written
          rw [netFrame_length, length_nil] at this
          omega
  · rw [if_neg mine] at holder
    exact ⟨⟨fun j h => shared.held j (holder ▸ h), fun h => shared.free (holder ▸ h)⟩,
      fun _ theirs => theirs.settled (settled_of_conn rfl grow) holder grow⟩

theorem Shared.settled {n : Nat} {ended : Bytes → Bytes × Stage ρ → Prop} (settled : Settled W c c')
    (holder : c'.holder = c.holder) (trace : ∀ e ∈ c.trace, e ∈ c'.trace) (shared : Shared c n) :
    Shared c' n ∧ ∀ {j body m}, ended body m → CallOk W c j m → CallOk W c' j m :=
  ⟨⟨fun i h => shared.held i (holder ▸ h), fun h => settled.1 (shared.free (holder ▸ h))⟩,
    fun _ ok => ok.settled settled holder trace⟩

variable {S : Service Client Outcome Bytes (Except ClientError ρ) NetEvent} {init : Client}
  {ls : Locals Bytes (Bytes × Stage ρ)}

theorem keeps_client (release : S.release = Client.drop)
    (world : S.world = Client.netEvent W.wire) : (clientProtocol W resets).Keeps S
      (fun c => undisturbed c.trace = true) Shared fun c i _ l => CallOk W c i l where
  call {c n} body shared :=
    ⟨⟨fun i h => (shared.held i h).trans (Nat.lt_succ_self n), shared.free⟩,
      fun h => absurd (shared.held n h) (Nat.lt_irrefl n)⟩
  act {c c' n i body l l'} step calm := by
    refine ⟨?_, fun bound shared ok => ClientStep.shared bound shared ok step⟩
    rcases ClientStep.trace_grows step with same | more
    · exact same ▸ calm
    · rw [more] at calm
      exact calm
  drop {c n i body l} calm := by
    rw [release] at calm ⊢
    have silent := (Bool.and_eq_true_iff.1 calm).1
    exact ⟨undisturbed_tail calm, fun shared ok => shared.drop ok (by simpa using silent)⟩
  world {c n} e calm := by
    rw [world] at calm ⊢
    cases e with
    | serve k response =>
      have after := serve_trace W.wire k response c
      refine ⟨?_, Shared.settled (settled_serve k response c) ?_ ?_⟩
      · rcases after with same | ⟨frame, more⟩
        · exact same ▸ calm
        · exact undisturbed_tail (more ▸ calm)
      · show (c.serve W.wire k response).holder = _
        unfold Client.serve
        split
        · split <;> rfl
        · rfl
      · intro e h
        rcases after with same | ⟨frame, more⟩
        · exact same ▸ h
        · exact more ▸ .tail _ h
    | breaks k => exact ⟨calm, Shared.settled (settled_breaks k _) rfl fun _ h => h⟩

/-- Every call that returned `Ok` returned what the server answered to the frame that call
sent. -/
def OwnAnswers (value : Bytes → Option ρ) (p : Pool Client Outcome Bytes (Except ClientError ρ)) :
    Prop :=
  ∀ (i : Nat) (body : Bytes) (r : ρ), p.answer i = some (body, .ok r) →
    ∃ k response, .served k (tagged i (netFrame body)) response ∈ p.shared.trace ∧
      value response = some r

theorem Pool.Tracks.ownAnswers {p}
    (t : p.Tracks S (clientProtocol W resets) init ls) (release : S.release = Client.drop)
    (world : S.world = Client.netEvent W.wire) (unheld : init.holder = none)
    (clean : CleanSock init) (calm : undisturbed p.shared.trace = true) : OwnAnswers W.value p := by
  intro i body r answered
  obtain ⟨l, known, done⟩ := t.answered answered
  have ok := ((keeps_client release world).reach t.reach calm
    ⟨fun i h => by simp [unheld] at h, fun _ => clean⟩).2 i body l known
  rw [show l = (body, .done (.ok r)) from done] at ok
  exact ok.2 r rfl

end Ehdb.Proof.Client
