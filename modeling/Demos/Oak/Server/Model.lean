import Demos.Lib.Run
import Demos.Oak.Text

/-!
# The event server

A server accepts connections and gives each to a session, which reads a message into its buffer,
writes the same bytes back and reads again. The manager keeps the sessions that are not stopped.
All handlers run on one thread, one after the other; between them the loop moves bytes for the
operation that a session waits for, completes it, or reports an error. What peers send, how many
bytes the loop moves at once, the errors and the order of all this are inputs of a step.

An operation that was under way when its socket was closed completes as aborted, and on an open
socket no operation does. A session is destroyed when neither the manager nor a handler holds it.
-/

namespace Demos.Oak

open Demos.Lib

/-- `Session::kMaxMessageSize`. -/
def kMaxMessageSize : ℕ := 8192

/-- `Session::buffer_`. -/
abbrev MessageBuffer := { bytes : Bytes // bytes.length = kMaxMessageSize }

namespace MessageBuffer

/-- The buffer of a new session. -/
def zero : MessageBuffer := ⟨List.replicate kMaxMessageSize 0, List.length_replicate⟩

/-- Bytes are read to the start of the buffer, as many as it has room for. -/
def store (buffer : MessageBuffer) (bytes : Bytes) : MessageBuffer :=
  ⟨(bytes ++ buffer.1.drop bytes.length).take kMaxMessageSize, by
    rw [List.length_take, List.length_append, List.length_drop, buffer.2]
    omega⟩

/-- What was read is what stands at the start of the buffer. -/
theorem take_store (buffer : MessageBuffer) {bytes : Bytes} (h : bytes.length ≤ kMaxMessageSize) :
    (buffer.store bytes).1.take bytes.length = bytes := by
  rw [store, List.take_take, min_eq_left h, List.take_left]

end MessageBuffer

/-- The errors of an operation: `asio::error::operation_aborted` and the others. -/
inductive NetError where
  | operationAborted
  | other (code : ℕ)
deriving DecidableEq, Repr

/-- The operation that a session has asked for: none, one that is under way, with the bytes already
written, or one that is complete and whose handler has not run yet. -/
inductive Operation where
  | idle
  | reading
  | read (result : Except NetError ℕ)
  | writing (size done : ℕ)
  | written (result : Except NetError Unit)

/-- `Session`, with the bytes that its socket has received and nobody has read. -/
structure Session where
  buffer : MessageBuffer
  isOpen : Bool
  inbox : Bytes
  operation : Operation

namespace Session

/-- `Session::AsyncRead`. -/
def asyncRead (session : Session) : Session := { session with operation := .reading }

/-- `Session::AsyncWrite`. -/
def asyncWrite (session : Session) (size : ℕ) : Session :=
  { session with operation := .writing size 0 }

/-- `Session::Start`. -/
def start (session : Session) : Session := session.asyncRead

/-- `Session::Stop`. -/
def stop (session : Session) : Session := { session with isOpen := false }

/-- A session with the socket of a new connection. -/
def create : Session where
  buffer := .zero
  isOpen := true
  inbox := []
  operation := .idle

/-- The memory of a session that does not exist yet. -/
def absent : Session where
  buffer := .zero
  isOpen := false
  inbox := []
  operation := .idle

/-- The loop moves `k` bytes for the operation under way: to the buffer, which completes a read, or
to the peer, which completes a write when nothing is left. The bytes for the peer are returned. -/
def transfer (session : Session) (k : ℕ) : Option (Bytes × Session) :=
  if session.isOpen ∧ 0 < k then
    match session.operation with
    | .reading =>
      if k ≤ kMaxMessageSize ∧ k ≤ session.inbox.length then
        some ([], { session with
          buffer := session.buffer.store (session.inbox.take k)
          inbox := session.inbox.drop k
          operation := .read (.ok k) })
      else none
    | .writing size done =>
      if done + k ≤ size then
        some ((session.buffer.1.drop done).take k, { session with
          operation := if done + k = size then .written (.ok ()) else .writing size (done + k) })
      else none
    | _ => none
  else none

/-- The operation under way completes with an error. -/
def fail (session : Session) (error : NetError) : Option Session :=
  if error = .operationAborted ∧ session.isOpen then none
  else match session.operation with
    | .reading => some { session with operation := .read (.error error) }
    | .writing _ _ => some { session with operation := .written (.error error) }
    | _ => none

end Session

/-- `Server` with its `SessionManager`: the sessions in the order of their creation, those that
`sessions_` holds, whether `acceptor_` is open and whether it has been asked to accept. -/
structure Server where
  sessions : ℕ → Session
  created : ℕ
  managed : List ℕ
  acceptorOpen : Bool
  accepting : Bool

/-- What a step shows. -/
inductive ServerEvent where
  | accepted (id : ℕ)
  | refused (error : NetError)
  | ignored
  | arrived (id : ℕ) (bytes : Bytes)
  | transferred (id : ℕ) (sent : Bytes)
  | failed (id : ℕ) (error : NetError)
  | handled (id : ℕ)
  | stoppedAll
deriving DecidableEq, Repr

namespace Server

/-- The server after `Server::Start`. -/
def init : Server where
  sessions := fun _ => .absent
  created := 0
  managed := []
  acceptorOpen := true
  accepting := true

/-- Change a session. -/
def setSession (s : Server) (id : ℕ) (session : Session) : Server :=
  { s with sessions := Function.update s.sessions id session }

/-- `SessionManager::Start`. -/
def startSession (s : Server) (id : ℕ) : Server :=
  { s with managed := s.managed.insert id }.setSession id (s.sessions id).start

/-- `SessionManager::Stop`. -/
def stopSession (s : Server) (id : ℕ) : Server :=
  { s with managed := s.managed.erase id }.setSession id (s.sessions id).stop

/-- `SessionManager::StopAll`. -/
def stopAll (s : Server) : Server :=
  { s.managed.foldl (fun s id => s.setSession id (s.sessions id).stop) s with managed := [] }

/-- The handler of `Server::AsyncAccept`. -/
def onAccept (s : Server) (result : Except NetError Unit) : ServerEvent × Server :=
  let s := { s with accepting := false }
  if s.acceptorOpen then
    match result with
    | .ok () =>
      let id := s.created
      let s := { s with created := id + 1 }.setSession id .create
      (.accepted id, { s.startSession id with accepting := true })
    -- the exception leaves the loop before `AsyncAccept` is called again
    | .error error => (.refused error, s)
  else (.ignored, s)

/-- What the handlers of a session do about an error. -/
def onError (s : Server) (id : ℕ) (error : NetError) : Server :=
  let s := s.setSession id { s.sessions id with operation := .idle }
  if error ≠ .operationAborted then s.stopSession id else s

/-- The handler of the operation that a session has asked for. -/
def handle (s : Server) (id : ℕ) : Option Server :=
  match (s.sessions id).operation with
  | .read (.error error) => some (s.onError id error)
  | .read (.ok bytes) => some (s.setSession id ((s.sessions id).asyncWrite bytes))
  | .written (.error error) => some (s.onError id error)
  | .written (.ok ()) => some (s.setSession id (s.sessions id).asyncRead)
  | _ => none

/-- What happens next. -/
inductive Action where
  | accept (result : Except NetError Unit)
  | arrive (id : ℕ) (bytes : Bytes)
  | transfer (id k : ℕ)
  | fail (id : ℕ) (error : NetError)
  | handle (id : ℕ)
  | stopAll

/-- One step of the loop, of a peer, or a call of `StopAll`. -/
def next (s : Server) : Action → Option (ServerEvent × Server)
  | .accept result => if s.accepting then some (s.onAccept result) else none
  | .arrive id bytes =>
    let session := s.sessions id
    if session.isOpen then
      some (.arrived id bytes, s.setSession id { session with inbox := session.inbox ++ bytes })
    else none
  | .transfer id k =>
    ((s.sessions id).transfer k).map fun result =>
      (.transferred id result.1, s.setSession id result.2)
  | .fail id error =>
    ((s.sessions id).fail error).map fun session => (.failed id error, s.setSession id session)
  | .handle id => (s.handle id).map fun s => (.handled id, s)
  | .stopAll => some (.stoppedAll, s.stopAll)

/-- The steps of the server, whatever happens next. -/
def Step : Server → ServerEvent → Server → Prop := Moves next

end Server

end Demos.Oak
