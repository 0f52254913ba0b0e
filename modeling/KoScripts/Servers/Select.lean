import Mathlib.Data.Finset.Card
import KoScripts.Lib.Machine
import KoScripts.Servers.Event

/-! # select_server.c

The loop as a machine: a label is one return of `select`, which takes the snapshot of the ready
descriptors and starts a pass, or one run of the body of the `for` loop of the pass, together with
what the system calls made in it return. The handlers work on the live sets, the pass on its
snapshot. -/

namespace KoScripts.Servers.Select
open Lib Event

/-- `#define MAXFDS 1000`. -/
def maxfds : Nat := 1000

def fdSetsize : Nat := 1024

def onPeerConnected (table : Table maxfds) (sockfd : Nat) : Except Halt (Reply maxfds) :=
  Event.onPeerConnected table sockfd

def onPeerReadyRecv (table : Table maxfds) (sockfd : Nat) (r : RecvResult) :
    Except Halt (Reply maxfds) := Event.onPeerReadyRecv table sockfd r

def onPeerReadySend (table : Table maxfds) (sockfd : Nat) (r : SendResult) :
    Except Halt (Reply maxfds) := Event.onPeerReadySend table sockfd r

/-- A descriptor served in a pass, and whether it was open at that moment. -/
structure Served where
  fd : Nat
  isOpen : Bool
  deriving DecidableEq

/-- The process and its descriptors. `readfds`, `writefds`, `nready` and `fd` are the snapshot, the
count and the loop variable of the pass, `served` the descriptors it has served so far. -/
structure State where
  table : Table maxfds
  readfdSet : Finset Nat
  writefdSet : Finset Nat
  fdsetMax : Nat
  readfds : Finset Nat
  writefds : Finset Nat
  nready : Int
  fd : Nat
  served : List Served
  socks : Nat → Option Conn
  closed : List Conn
  halted : Option Halt

namespace State
variable (s : State)

def halt (e : Halt) : State := { s with halted := some e }

/-- `FD_SET` or `FD_CLR` of a descriptor in both live sets, as its status says. -/
def register (fd : Nat) (status : FdStatus) : State :=
  { s with
    readfdSet := if status.wantRead then insert fd s.readfdSet else s.readfdSet.erase fd
    writefdSet := if status.wantWrite then insert fd s.writefdSet else s.writefdSet.erase fd }

def close (fd : Nat) : State :=
  { s with
    socks := Function.update s.socks fd none
    closed := (s.socks fd).toList ++ s.closed }

/-- What follows a handler of a peer. -/
def registerOrClose (fd : Nat) (status : FdStatus) : State :=
  if !status.wantRead && !status.wantWrite then (s.register fd status).close fd
  else s.register fd status

/-- The `accept` branch of the loop. -/
def acceptPeer : AcceptResult → State
  | .again => s
  | .error => s.halt .exit
  | .fd newfd stream =>
    let s := { s with socks := Function.update s.socks newfd (some ⟨stream, [], []⟩) }
    if newfd > s.fdsetMax ∧ newfd ≥ fdSetsize then s.halt .exit
    else
      let s := { s with fdsetMax := if newfd > s.fdsetMax then newfd else s.fdsetMax }
      match onPeerConnected s.table newfd with
      | .error e => s.halt e
      | .ok reply => { s with table := reply.table }.register newfd reply.status

/-- `on_peer_ready_recv` and what follows it. -/
def recvPeer (fd : Nat) (r : RecvResult) : State :=
  match onPeerReadyRecv s.table fd r with
  | .error e => s.halt e
  | .ok reply =>
    let s := { s with
      table := reply.table
      socks := Function.update s.socks fd ((s.socks fd).map (Conn.received · reply.moved)) }
    s.registerOrClose fd reply.status

/-- `on_peer_ready_send` and what follows it. -/
def sendPeer (fd : Nat) (r : SendResult) : State :=
  match onPeerReadySend s.table fd r with
  | .error e => s.halt e
  | .ok reply =>
    let s := { s with
      table := reply.table
      socks := Function.update s.socks fd ((s.socks fd).map (Conn.wrote · reply.moved)) }
    s.registerOrClose fd reply.status

/-- `nready--` for a descriptor that is served. -/
def serve (isOpen : Bool) : State :=
  { s with nready := s.nready - 1, served := s.served ++ [⟨s.fd, isOpen⟩] }

/-- `if (FD_ISSET(fd, &readfds))`. -/
def readBranch (listenerFd : Nat) (a : AcceptResult) (r : RecvResult) : State :=
  if s.fd ∈ s.readfds then
    if s.fd = listenerFd then (s.serve true).acceptPeer a
    else (s.serve (s.socks s.fd).isSome).recvPeer s.fd r
  else s

/-- `if (FD_ISSET(fd, &writefds))`. -/
def writeBranch (r : SendResult) : State :=
  if s.fd ∈ s.writefds then (s.serve (s.socks s.fd).isSome).sendPeer s.fd r else s

/-- `fd++`, unless the process has ended. -/
def next : State := if s.halted = none then { s with fd := s.fd + 1 } else s

/-- The condition of the `for` loop. -/
def looping : Bool := s.fd ≤ s.fdsetMax && 0 < s.nready

/-! ## What the system calls may return -/

/-- `accept` returns a descriptor that is not open. -/
def acceptOk (listenerFd : Nat) : AcceptResult → Bool
  | .fd newfd _ => newfd ≠ listenerFd && (s.socks newfd).isNone
  | .again | .error => true

/-- On a closed descriptor `recv` fails. -/
def recvOk (fd : Nat) (r : RecvResult) : Bool :=
  match s.socks fd with
  | some c => c.recvOk r
  | none => r = .error

/-- `send` accepts at most what it is given; on a closed descriptor it fails. -/
def sendOk (fd : Nat) : SendResult → Bool
  | .count nsent => (s.socks fd).isSome && if h : fd < maxfds then
      nsent ≤ (s.table ⟨fd, h⟩).sendbufEnd - (s.table ⟨fd, h⟩).sendptr
    else true
  | .again => (s.socks fd).isSome
  | .error => true

end State

/-- A step of the process. In `body` each result is used if the call it is for is made. -/
inductive Label
  | select (readfds writefds : Finset Nat)
  | selectError
  | body (a : AcceptResult) (r : RecvResult) (r' : SendResult)

variable (listenerFd : Nat)

def exec (s : State) : Label → Option State
  | .select readfds writefds =>
    if s.halted = none ∧ s.looping = false ∧ readfds ⊆ s.readfdSet ∧ writefds ⊆ s.writefdSet then
      some { s with
        readfds, writefds
        nready := readfds.card + writefds.card
        fd := 0
        served := [] }
    else none
  | .selectError =>
    if s.halted = none ∧ s.looping = false then some (s.halt .exit) else none
  | .body a r r' =>
    if s.halted = none ∧ s.looping = true ∧
        (s.fd ∈ s.readfds → if s.fd = listenerFd then s.acceptOk listenerFd a else s.recvOk s.fd r) then
      let s₁ := s.readBranch listenerFd a r
      if s₁.halted ≠ none then some s₁
      else if s.fd ∈ s.writefds → s₁.sendOk s.fd r' then
        some (s₁.writeBranch r').next
      else none
    else none

/-- `main` up to the loop. -/
def init : State where
  table := fun _ => {
    state := .initialAck, sendbuf := Vector.replicate _ 0, sendbufEnd := 0, sendptr := 0 }
  readfdSet := {listenerFd}
  writefdSet := ∅
  fdsetMax := listenerFd
  readfds := ∅
  writefds := ∅
  nready := 0
  fd := 0
  served := []
  socks := fun _ => none
  closed := []
  halted := if listenerFd ≥ fdSetsize then some .exit else none

def selectServer : Machine State Label := ⟨init listenerFd, exec listenerFd⟩

end KoScripts.Servers.Select
