import KoScripts.Clients.Service
import KoScripts.Servers.EventMoves
import Mathlib.Logic.Relation

/-! # The clients and an event server

Any number of clients of `simple_client.py`, and a server that serves its connections in one loop.
The descriptors it uses are given out by the kernel, which takes the lowest one that is free, and
what `recv` returns has been sent. -/

namespace KoScripts.Clients
open Lib Servers

/-- A server as its clients and the kernel see it. -/
structure EventServer (σ α : Type) where
  machine : Machine σ α
  maxfds : Nat
  socks : σ → Nat → Option Event.Conn
  halted : σ → Option Event.Halt
  /-- The descriptor that `accept` returns in a step, and what its peer is to send. -/
  accepts : α → Option (Nat × List UInt8)
  /-- No call of the step fails. -/
  succeeds : α → Bool

/-- The socket of a client in the server. -/
inductive Sock
  | waiting
  | opened (fd : Nat)
  | closed
  deriving DecidableEq

structure EventClient extends Client where
  sock : Sock

structure EventService (σ : Type) where
  server : σ
  clients : List EventClient
  backlog : List Nat

inductive EventLabel (α : Type)
  | connect (i : Nat)
  | accept (a : α)
  | server (a : α)
  | main (i : Nat)
  | reader (i n : Nat)

namespace EventClient

def start : EventClient := { Conversation.start.toClient with sock := .waiting }

variable (c : EventClient) (socks socks' : Nat → Option Event.Conn)

def serverClosed : Bool := c.sock = .closed

/-- What `recv` has returned in a step has arrived: bytes, or the end of the stream. -/
def allows : Bool :=
  match c.sock with
  | .opened fd =>
    match socks fd, socks' fd with
    | some k, some k' => (k'.consumed.drop k.consumed.length).isPrefixOf c.upstream
    | some _, none => c.upstream = [] && c.main = .closed
    | none, _ => true
  | .waiting | .closed => true

/-- The bytes under way behind the step. -/
def follow : EventClient :=
  match c.sock with
  | .opened fd =>
    match socks fd, socks' fd with
    | some k, some k' => { c with
        upstream := c.upstream.drop (k'.consumed.drop k.consumed.length).length
        downstream := c.downstream ++ k'.sent.drop k.sent.length
        reset := k'.sent ≠ k.sent && c.main = .closed }
    | some _, none => { c with sock := .closed }
    | none, _ => c
  | .waiting | .closed => c

end EventClient

/-- The descriptor that the kernel gives out next. The process has those in `own` for itself. -/
def lowestFree (own : List Nat) (socks : Nat → Option Event.Conn) (fd : Nat) : Bool :=
  fd ∉ own ∧ (socks fd).isNone ∧ ∀ k < fd, k ∈ own ∨ (socks k).isSome

variable {σ α : Type}

/-- `n` clients. What a call on a connection that has been reset returns is left open. -/
def eventService (E : EventServer σ α) (own : List Nat) (n : Nat) :
    Machine (EventService σ) (EventLabel α) where
  init := { server := E.machine.init, clients := List.replicate n .start, backlog := [] }
  exec s
    | .connect i =>
      s.clients[i]?.bind fun c =>
        if c.main = .connect ∧ s.backlog.length < nBacklog then
          some { s with
            clients := s.clients.set i { c with main := .recvAck }
            backlog := s.backlog ++ [i] }
        else none
    | .accept a =>
      match s.backlog, E.accepts a with
      | i :: backlog, some (fd, stream) =>
        if E.succeeds a ∧ lowestFree own (E.socks s.server) fd ∧ stream = messages.flatten then
          (E.machine.exec s.server a).bind fun t =>
            -- `accept` is called in the step.
            if E.socks t fd = some ⟨stream, [], []⟩ then
              s.clients[i]?.map fun c => {
                server := t
                clients := s.clients.set i { c with sock := .opened fd }
                backlog }
            else none
        else none
      | _, _ => none
    | .server a =>
      if E.accepts a = none ∧ E.succeeds a ∧ s.clients.all (!·.reset) then
        (E.machine.exec s.server a).bind fun t =>
          if s.clients.all (·.allows (E.socks s.server) (E.socks t)) then
            some { s with
              server := t
              clients := s.clients.map (·.follow (E.socks s.server) (E.socks t)) }
          else none
      else none
    | .main i =>
      s.clients[i]?.bind fun c =>
        if c.reset then none
        else (c.toClient.execMain c.serverClosed).map fun toClient =>
          { s with clients := s.clients.set i { c with toClient } }
    | .reader i n =>
      s.clients[i]?.bind fun c =>
        if c.reset then none
        else (c.toClient.execReader c.serverClosed n).map fun toClient =>
          { s with clients := s.clients.set i { c with toClient } }

namespace EventServer
variable (E : EventServer σ α)

/-- A step that moves nothing. -/
def Stutter (s t : σ) : Prop :=
  ∃ a, E.machine.exec s a = some t ∧ E.succeeds a = true ∧ E.accepts a = none ∧
    E.socks t = E.socks s

/-- What the clients rely on, as long as the calls succeed. -/
structure Lawful (listenerFd : Nat) : Prop where
  start : E.halted E.machine.init = none
  empty : ∀ fd, E.socks E.machine.init fd = none
  served : ∀ {s fd c}, E.machine.Reach Machine.anyStep s → E.halted s = none →
    E.socks s fd = some c → c.consumed <+: c.stream ∧ c.sent <+: replies c.consumed
  step : ∀ {s t a}, E.machine.Reach Machine.anyStep s → E.halted s = none →
    E.machine.exec s a = some t → E.succeeds a = true → E.accepts a = none →
    E.halted t = none ∧ ∃ fd, Event.MovesAt (E.socks s) (E.socks t) fd
  accept : ∀ {s t a fd stream}, E.machine.Reach Machine.anyStep s → E.halted s = none →
    E.machine.exec s a = some t → E.succeeds a = true → E.accepts a = some (fd, stream) →
    fd < E.maxfds → E.socks s fd = none → E.socks t fd = some ⟨stream, [], []⟩ →
    E.halted t = none ∧ ∀ k, k ≠ fd → E.socks t k = E.socks s k
  /-- It can come to accept the next one. -/
  opens : ∀ {s fd}, E.machine.Reach Machine.anyStep s → E.halted s = none → fd ≠ listenerFd →
    fd < E.maxfds → E.socks s fd = none → ∀ stream, ∃ s' a t,
      Relation.ReflTransGen E.Stutter s s' ∧ E.machine.exec s' a = some t ∧ E.succeeds a = true ∧
        E.accepts a = some (fd, stream) ∧ E.socks t fd = some ⟨stream, [], []⟩
  /-- It can come to move an open connection. -/
  serves : ∀ {s fd c}, E.machine.Reach Machine.anyStep s → E.halted s = none →
    E.socks s fd = some c → ∃ s' a t,
      Relation.ReflTransGen E.Stutter s s' ∧ E.machine.exec s' a = some t ∧ E.succeeds a = true ∧
        E.accepts a = none ∧ E.socks t fd ≠ some c

end EventServer
end KoScripts.Clients
