import Ehdb.L0.Actions
import Ehdb.ProofKit.Pool

/-! `KvClient::call` and `PublishClient::publish` over a socket that is kept across calls. Every
byte is an await point, where the call may be dropped. -/

namespace Ehdb.Feed

open ProofKit
open L0 (Outcome toLeBytes fromLeBytes)

/-- `u32::from_be_bytes` and `u64::from_be_bytes`. -/
def fromBeBytes (bytes : Bytes) : Nat := fromLeBytes bytes.reverse

/-- What `write_frame` writes: the length as `u32` big endian, and the body. -/
def netFrame (body : Bytes) : Bytes := (toLeBytes body.length).reverse ++ body

abbrev Sent := List (Nat × UInt8)

variable (caller : Nat)

def tagged (bytes : Bytes) : Sent := bytes.map fun b => (caller, b)

/-- The first frame of what has arrived at the server, once it is complete, and the rest. -/
def takeFrame (sent : Sent) : Option (Sent × Sent) :=
  let size := 4 + fromBeBytes ((sent.take 4).map Prod.snd)
  if 4 ≤ sent.length ∧ size ≤ sent.length then some (sent.take size, sent.drop size) else none

/-- A connection: what the client wrote and the server has not taken, and what the server wrote
and the client has not read. -/
structure Connection where
  sent : Sent
  inbox : Bytes
  broken : Bool
  deriving DecidableEq

def Connection.fresh : Connection := ⟨[], [], false⟩

inductive ClientEvent where
  | wrote (caller : Nat)
  | dropped (caller : Nat)
  /-- The server answered the request `frame`. -/
  | served (conn : Nat) (frame : Sent) (response : Bytes)
  deriving DecidableEq

/-- A client: the connections it made, the one it keeps, and the call that has the client to
itself (the guard of the socket, or `&mut self`). -/
structure Client where
  conns : List Connection
  sock : Option Nat
  holder : Option Nat
  trace : List ClientEvent
  deriving DecidableEq

namespace Client

def new : Client := ⟨[], none, none, []⟩

def connected : Client := ⟨[.fresh], some 0, none, []⟩

def log (c : Client) (e : ClientEvent) : Client := { c with trace := e :: c.trace }

def conn (c : Client) : Option Connection := c.sock.bind fun k => c.conns[k]?

def onSock (c : Client) (f : Connection → Connection) : Client :=
  match c.sock with
  | some k => { c with conns := c.conns.modify k f }
  | none => c

def dialed (c : Client) : Client :=
  { c with conns := c.conns ++ [.fresh], sock := some c.conns.length }

end Client

inductive ClientError where
  | io
  /-- The frame is longer than a `u32` or the cap. -/
  | tooLong
  | decode
  deriving DecidableEq

abbrev ClientAction (α : Type) := ExceptT ClientError (Prog Client Outcome) α

def writeByte (b : UInt8) : ClientAction Unit :=
  Prog.lift fun o c =>
    match o with
    | .ok =>
      some (.ok (), (c.onSock fun s => { s with sent := s.sent ++ [(caller, b)] }).log
        (.wrote caller))
    | _ => some (.error .io, c.onSock fun s => { s with broken := true })

def writeAll (bytes : Bytes) : ClientAction Unit :=
  Prog.tryEach (fun _ b => writeByte caller b) () bytes

def checkLength (body : Bytes) : ClientAction Unit :=
  Prog.lift fun _ c =>
    if body.length < 2 ^ 32 then some (.ok (), c) else some (.error .tooLong, c)

def writeFrame (body : Bytes) : ClientAction Unit := do
  checkLength body
  writeAll caller (netFrame body)

def readByte : ClientAction UInt8 :=
  Prog.lift fun o c =>
    match c.conn, o with
    | none, _ => none
    | some ⟨_, b :: rest, _⟩, .ok => some (.ok b, c.onSock fun s => { s with inbox := rest })
    | some ⟨_, [], broken⟩, .ok => if broken then some (.error .io, c) else none
    | some _, _ => some (.error .io, c.onSock fun s => { s with inbox := [], broken := true })

def readExact : Nat → ClientAction Bytes
  | 0 => pure []
  | n + 1 => do
    let b ← readByte
    let rest ← readExact n
    return b :: rest

def readFrame (cap : Nat) : ClientAction Bytes := do
  let len ← readExact 4
  if fromBeBytes len > cap then
    throw .tooLong
  readExact (fromBeBytes len)

/-- The bytes on their way to a `FrameReader`, and those it has `pending`. -/
structure FrameReader where
  arriving : Bytes
  pending : Bytes

namespace FrameReader

variable (cap : Nat)

/-- The loop of `read_capped` up to its `read`: what it returns, if it does. -/
def takeBody (r : FrameReader) : Option (Except ClientError Bytes × FrameReader) :=
  let n := fromBeBytes (r.pending.take 4)
  if r.pending.length < 4 then none
  else if n > cap then some (.error .tooLong, r)
  else if 4 + n ≤ r.pending.length then
    some (.ok ((r.pending.drop 4).take n), { r with pending := r.pending.drop (4 + n) })
  else none

/-- A call of `read_capped` whose reads give chunks of these sizes, less one, or fail. It is dropped
at the read after them. -/
def readCapped : List (Option Nat) → FrameReader → Option (Except ClientError Bytes) × FrameReader
  | reads, r =>
    match r.takeBody cap with
    | some (result, r) => (some result, r)
    | none =>
      match reads with
      | [] => (none, r)
      | none :: _ => (some (.error .io), r)
      | some more :: reads =>
        -- nothing arrives any more: the peer has closed the connection
        if r.arriving.isEmpty then (some (.error .io), r)
        else
          readCapped reads ⟨r.arriving.drop (more + 1), r.pending ++ r.arriving.take (more + 1)⟩

def run : List (List (Option Nat)) → FrameReader → List (Except ClientError Bytes) × FrameReader
  | [], r => ([], r)
  | call :: calls, r =>
    let (result, r) := readCapped cap call r
    let (results, r) := run calls r
    (result.toList ++ results, r)

end FrameReader

def takeGuard : ClientAction Unit :=
  Prog.lift fun _ c =>
    if c.holder = none then some (.ok (), { c with holder := some caller }) else none

/-- Dial if there is no socket. When that fails the guard goes with the call. -/
def dial : ClientAction Unit :=
  Prog.lift fun o c =>
    if c.sock.isSome then some (.ok (), c)
    else
      match o with
      | .ok => some (.ok (), c.dialed)
      | _ => some (.error .io, { c with holder := none })

/-- The guard goes; `resets` says whether an error takes the socket with it. -/
def giveBack (resets failed : Bool) : Prog Client Outcome Unit :=
  .lift fun _ c =>
    some ((), { c with holder := none, sock := if failed && resets then none else c.sock })

def callFailed {α : Type} : Except ClientError α → Bool
  | .ok _ => false
  | .error _ => true

def exchange {ρ : Type} (body : Bytes) (read : ClientAction Bytes)
    (parse : Bytes → Option ρ) : ClientAction ρ := do
  writeFrame caller body
  let response ← read
  ExceptT.mk (.ret ((parse response).elim (.error .decode) .ok))

/-- `KvClient::call`, on the body of the request; `parse` is `serde_json` at `KvResp` and `cap`
is `max_frame_bytes()`. -/
def kvCall {ρ : Type} (cap : Nat) (parse : Bytes → Option ρ) (caller : Nat) (body : Bytes) :
    ClientAction ρ := do
  takeGuard caller
  dial
  let result ← ExceptT.lift (exchange caller body (readFrame cap) parse).run
  ExceptT.lift (giveBack true (callFailed result))
  ExceptT.mk (.ret result)

/-- `PublishClient::publish`, on the body of the record. -/
def publish (body : Bytes) : ClientAction Nat := do
  takeGuard caller
  let result ← ExceptT.lift (exchange caller body (readExact 8) fun seq =>
    some (fromBeBytes seq)).run
  ExceptT.lift (giveBack false (callFailed result))
  ExceptT.mk (.ret result)

inductive NetEvent where
  /-- The server answers the first complete request on a connection. -/
  | serve (conn : Nat) (response : Bytes)
  | breaks (conn : Nat)
  deriving DecidableEq

/-- The server takes the first request frame of a connection and writes its response. `wire` is
how a response looks on the wire; `none` if the server cannot send it. -/
def Client.serve (wire : Bytes → Option Bytes) (k : Nat) (response : Bytes) (c : Client) : Client :=
  match c.conns[k]?, wire response with
  | some s, some bytes =>
    match s.broken, takeFrame s.sent with
    | false, some (frame, rest) =>
      { c with
        conns := c.conns.set k { s with sent := rest, inbox := s.inbox ++ bytes }
        trace := .served k frame response :: c.trace }
    | _, _ => c
  | _, _ => c

def Client.netEvent (wire : Bytes → Option Bytes) : NetEvent → Client → Client
  | .serve k response, c => c.serve wire k response
  | .breaks k, c => { c with conns := c.conns.modify k fun s => { s with broken := true } }

/-- A dropped call gives the guard back and leaves the socket where it is. -/
def Client.drop (c : Client) : Client :=
  ({ c with holder := if c.holder = some caller then none else c.holder }).log (.dropped caller)

def kvWire (response : Bytes) : Option Bytes :=
  if response.length < 2 ^ 32 then some (netFrame response) else none

/-- A response of the ingest face on the wire: a sort key, 8 bytes big endian. -/
def ackWire (response : Bytes) : Option Bytes :=
  if response.length = 8 then some response else none

def kvService {ρ : Type} (cap : Nat) (parse : Bytes → Option ρ) :
    Service Client Outcome Bytes (Except ClientError ρ) NetEvent where
  program caller body := (kvCall cap parse caller body).run
  release := Client.drop
  world := Client.netEvent kvWire

def publishService : Service Client Outcome Bytes (Except ClientError Nat) NetEvent where
  program caller body := (publish caller body).run
  release := Client.drop
  world := Client.netEvent ackWire

end Ehdb.Feed
