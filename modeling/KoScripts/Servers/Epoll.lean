import KoScripts.Lib.Machine
import KoScripts.Servers.Event

/-! # epoll_server.c

The event loop as a machine. One label is one `epoll_wait`, or the processing of the first event of
the current batch, together with what the system calls made there return. A descriptor carries the
connection behind it: the peer's bytes still to be received, those `recv` has returned and those
sent; a closed connection is kept in `closed`, so that a reused descriptor does not hide it. -/

namespace KoScripts.Servers.Epoll
open Lib Event

/-- `#define MAXFDS 16 * 1024`. -/
def maxfds : Nat := 16 * 1024

def onPeerConnected (table : Table maxfds) (sockfd : Nat) : Except Halt (Reply maxfds) :=
  Event.onPeerConnected table sockfd

def onPeerReadyRecv (table : Table maxfds) (sockfd : Nat) (r : RecvResult) :
    Except Halt (Reply maxfds) := Event.onPeerReadyRecv table sockfd r

def onPeerReadySend (table : Table maxfds) (sockfd : Nat) (r : SendResult) :
    Except Halt (Reply maxfds) := Event.onPeerReadySend table sockfd r

/-- `struct epoll_event` as `epoll_wait` reports it, without `EPOLLERR`, for which a text is printed
and nothing else done. -/
structure EpollEvent where
  fd : Nat
  epollin : Bool
  epollout : Bool
  deriving DecidableEq

/-- The process and the kernel objects it uses: `global_state`, the interest list of the epoll
instance, the open connections and the closed ones, and the events of the current batch that are
still to be processed. -/
structure State where
  table : Table maxfds
  interest : Nat → Option FdStatus
  socks : Nat → Option Conn
  closed : List Conn
  events : List EpollEvent
  halted : Option Halt

namespace State
variable (s : State)

def halt (e : Halt) : State := { s with halted := some e }

/-- `epoll_ctl(epollfd, EPOLL_CTL_ADD, ..)`, which fails on a registered descriptor. -/
def epollCtlAdd (fd : Nat) (event : FdStatus) : Option State :=
  if (s.interest fd).isSome then none
  else some { s with interest := Function.update s.interest fd (some event) }

/-- `epoll_ctl(epollfd, EPOLL_CTL_MOD, ..)`, which fails on a descriptor that is not registered. -/
def epollCtlMod (fd : Nat) (event : FdStatus) : Option State :=
  if (s.interest fd).isSome then
    some { s with interest := Function.update s.interest fd (some event) }
  else none

/-- `epoll_ctl(epollfd, EPOLL_CTL_DEL, ..)`, which fails on a descriptor that is not registered. -/
def epollCtlDel (fd : Nat) : Option State :=
  if (s.interest fd).isSome then some { s with interest := Function.update s.interest fd none }
  else none

def close (fd : Nat) : State :=
  { s with
    socks := Function.update s.socks fd none
    closed := (s.socks fd).toList ++ s.closed }

/-- The `accept` branch of the loop. -/
def acceptPeer : AcceptResult → State
  | .again => s
  | .error => s.halt .exit
  | .fd newsockfd stream =>
    let s := { s with socks := Function.update s.socks newsockfd (some ⟨stream, [], []⟩) }
    if newsockfd > maxfds then s.halt .exit
    else match onPeerConnected s.table newsockfd with
      | .error e => s.halt e
      | .ok reply =>
        let s := { s with table := reply.table }
        (s.epollCtlAdd newsockfd reply.status).getD (s.halt .exit)

/-- What follows a handler of a peer: `event.events` is empty, or the descriptor is registered for
it. -/
def register (fd : Nat) (status : FdStatus) : State :=
  if !status.wantRead && !status.wantWrite then
    match s.epollCtlDel fd with
    | none => s.halt .exit
    | some s => s.close fd
  else (s.epollCtlMod fd status).getD (s.halt .exit)

/-- The `EPOLLIN` branch. -/
def recvPeer (fd : Nat) (r : RecvResult) : State :=
  match onPeerReadyRecv s.table fd r with
  | .error e => s.halt e
  | .ok reply =>
    let s := { s with
      table := reply.table
      socks := Function.update s.socks fd ((s.socks fd).map (Conn.received · reply.moved)) }
    s.register fd reply.status

/-- The `EPOLLOUT` branch. -/
def sendPeer (fd : Nat) (r : SendResult) : State :=
  match onPeerReadySend s.table fd r with
  | .error e => s.halt e
  | .ok reply =>
    let s := { s with
      table := reply.table
      socks := Function.update s.socks fd ((s.socks fd).map (Conn.wrote · reply.moved)) }
    s.register fd reply.status

/-- The branches for an event of a peer. -/
def servePeer (e : EpollEvent) (r : RecvResult) (r' : SendResult) : State :=
  if e.epollin then s.recvPeer e.fd r
  else if e.epollout then s.sendPeer e.fd r'
  else s

/-! ## What the system calls may return -/

/-- A batch of `epoll_wait`: registered descriptors, each once, with events of their masks. -/
def batchOk (events : List EpollEvent) : Bool :=
  (events.map (·.fd)).Nodup && events.all fun e =>
    (s.interest e.fd).any fun m => (!e.epollin || m.wantRead) && (!e.epollout || m.wantWrite)

/-- `accept` returns a descriptor that is not open. -/
def acceptOk (listenerFd : Nat) : AcceptResult → Bool
  | .fd newsockfd _ => newsockfd ≠ listenerFd && (s.socks newsockfd).isNone
  | .again | .error => true

/-- On a closed descriptor `recv` fails. -/
def recvOk (fd : Nat) (r : RecvResult) : Bool :=
  match s.socks fd with
  | some c => c.recvOk r
  | none => r = .error

/-- `send` accepts at most what it is given; on a closed descriptor it fails. -/
def sendOk (fd : Nat) : SendResult → Bool
  | .count nsent => (s.socks fd).isSome && if h : fd < maxfds then
      nsent ≤ (s.table ⟨fd, h⟩).sendbufEnd - (s.table ⟨fd, h⟩).sendptr
    else true
  | .again => (s.socks fd).isSome
  | .error => true

end State

/-- A step of the process. In `serve` the first result is used if `recv` is called, the second if
`send` is. -/
inductive Label
  | epollWait (events : List EpollEvent)
  | accept (r : AcceptResult)
  | serve (r : RecvResult) (r' : SendResult)

variable (listenerFd : Nat)

def exec (s : State) : Label → Option State
  | .epollWait events =>
    if s.halted = none ∧ s.events = [] ∧ s.batchOk events then some { s with events } else none
  | .accept r =>
    match s.events with
    | [] => none
    | e :: rest =>
      if s.halted = none ∧ e.fd = listenerFd ∧ s.acceptOk listenerFd r then
        some ({ s with events := rest }.acceptPeer r)
      else none
  | .serve r r' =>
    match s.events with
    | [] => none
    | e :: rest =>
      if s.halted = none ∧ e.fd ≠ listenerFd ∧ s.recvOk e.fd r ∧ s.sendOk e.fd r' then
        some ({ s with events := rest }.servePeer e r r')
      else none

/-- `main` up to the loop: the listener is registered for `EPOLLIN`, `global_state` is zero. -/
def init : State where
  table := fun _ => {
    state := .initialAck, sendbuf := Vector.replicate _ 0, sendbufEnd := 0, sendptr := 0 }
  interest := Function.update (fun _ => none) listenerFd (some fdStatusR)
  socks := fun _ => none
  closed := []
  events := []
  halted := none

def epollServer : Machine State Label := ⟨init listenerFd, exec listenerFd⟩

end KoScripts.Servers.Epoll
