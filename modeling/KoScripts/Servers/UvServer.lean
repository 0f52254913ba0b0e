import KoScripts.Lib.Machine
import KoScripts.Servers.Event
import KoScripts.Servers.Uv

/-! # The libuv echo server

One connection of `uv_server.c`, from the `uv_write` of its acknowledgement on. A label is a
callback of the loop or a progress of the queued writes; which of them comes next is up to libuv
and the network. One buffer, `sendbuf`, serves all writes of the connection: a read appends to it
and queues a write of the whole of it, and a completion empties it. -/

namespace KoScripts.Servers.UvServer
open Lib Uv
open Event (InternalState sendbufSize sendbufSize_pos)

/-- `peer_state_t`. -/
structure PeerState where
  state : InternalState
  sendbuf : Vector UInt8 sendbufSize
  sendbufEnd : Nat

def PeerState.staged (p : PeerState) : List UInt8 := slice p.sendbuf 0 p.sendbufEnd

/-- The completion callbacks `on_wrote_init_ack` and `on_wrote_buf`. -/
inductive Callback
  | wroteInitAck
  | wroteBuf
  deriving DecidableEq

structure Conn where
  peer : PeerState
  stream : Stream Callback
  /-- `uv_read_start` has been called, and `uv_close` has not. -/
  reading : Bool
  closing : Bool
  /-- `uv_stop` has been called. -/
  stopped : Bool
  peerFreed : Bool
  clientFreed : Bool
  halted : Option Halt
  /-- The bytes handed to `on_peer_read`. -/
  received : List UInt8

/-- The connection behind `on_peer_connected`. -/
def onPeerConnected : Conn where
  peer := {
    state := .initialAck
    sendbuf := (Vector.replicate sendbufSize 0).set 0 '*'.toUInt8 sendbufSize_pos
    sendbufEnd := 1 }
  stream := Stream.new.write .wroteInitAck 1
  reading := false
  closing := false
  stopped := false
  peerFreed := false
  clientFreed := false
  halted := none
  received := []

/-- The message staged last ends in `XYZ`. -/
def peerEnd (p : PeerState) : Bool :=
  if p.sendbufEnd < 3 then false
  else
    p.sendbuf[p.sendbufEnd - 3]? == some 'X'.toUInt8 &&
    p.sendbuf[p.sendbufEnd - 2]? == some 'Y'.toUInt8 &&
    p.sendbuf[p.sendbufEnd - 1]? == some 'Z'.toUInt8

/-- The `switch` over one byte read. -/
def readByte (p : PeerState) (b : UInt8) : Except Halt PeerState :=
  match p.state with
  | .initialAck => .ok p
  | .waitForMsg => .ok (if b = '^'.toUInt8 then { p with state := .inMsg } else p)
  | .inMsg =>
    if b = '$'.toUInt8 then .ok { p with state := .waitForMsg }
    else if h : p.sendbufEnd < sendbufSize then
      .ok { p with sendbuf := p.sendbuf.set p.sendbufEnd (b + 1) h, sendbufEnd := p.sendbufEnd + 1 }
    else .error .abort

namespace Conn
variable (s : Conn)

def halt (e : Halt) : Conn := { s with halted := some e }

/-- `on_peer_read` with `nread > 0`, where its `uv_write`, if it comes to one, succeeds or not. -/
def onPeerRead (chunk : List UInt8) (writeOk : Bool) : Conn :=
  if s.peerFreed then s.halt .fault
  else if s.peer.state = .initialAck then { s with received := s.received ++ chunk }
  else
    match chunk.foldlM readByte s.peer with
    | .error e => s.halt e
    | .ok peer =>
      let s := { s with peer, received := s.received ++ chunk }
      if peer.sendbufEnd > 0 then
        if writeOk then { s with stream := s.stream.write .wroteBuf peer.sendbufEnd }
        else s.halt .exit
      else s

/-- `on_wrote_init_ack` with status 0, where its `uv_read_start` succeeds or not. -/
def onWroteInitAck (startOk : Bool) : Conn :=
  if s.peerFreed then s.halt .fault
  else if startOk then
    { s with peer := { s.peer with state := .waitForMsg, sendbufEnd := 0 }, reading := true }
  else s.halt .exit

/-- `on_wrote_buf` with status 0. -/
def onWroteBuf : Conn :=
  if s.peerFreed then s.halt .fault
  else if peerEnd s.peer then { s with peerFreed := true, stopped := true }
  else { s with peer := { s.peer with sendbufEnd := 0 } }

/-- `on_client_closed`, which releases the peer state and the handle. -/
def onClientClosed : Conn :=
  if s.peerFreed then s.halt .fault else { s with peerFreed := true, clientFreed := true }

end Conn

inductive Label
  /-- `on_peer_read` with data, of at most the size that libuv suggests to `on_alloc_buffer`. -/
  | read (chunk : List UInt8) (writeOk : Bool)
  /-- `on_peer_read` with `nread` 0. -/
  | readNone
  /-- `on_peer_read` with an error or the end of the stream: `uv_close`. -/
  | readEnd
  /-- Bytes of the queued writes go out. -/
  | drain (k : Nat)
  /-- The next completion callback, with status 0. -/
  | wrote (startOk : Bool)
  /-- A completion callback with an error: `UV_ECANCELED` after `uv_close`, or one of the socket. -/
  | writeFailed
  | closed

def suggestedSize : Nat := 65536

def exec (s : Conn) (a : Label) : Option Conn :=
  if s.halted.isSome then none
  else
    match a with
    | .read chunk writeOk =>
      if s.reading ∧ chunk ≠ [] ∧ chunk.length ≤ suggestedSize then
        some (s.onPeerRead chunk writeOk)
      else none
    | .readNone => if s.reading then some s else none
    | .readEnd => if s.reading then some { s with reading := false, closing := true } else none
    | .drain k =>
      if s.closing then none
      else (s.stream.drain s.peer.sendbuf k).map fun stream => { s with stream }
    | .wrote startOk =>
      match s.stream.done with
      | [] => none
      | .wroteInitAck :: done =>
        some ({ s with stream := { s.stream with done } }.onWroteInitAck startOk)
      | .wroteBuf :: done => some { s with stream := { s.stream with done } }.onWroteBuf
    | .writeFailed => if s.stream.queue = [] then none else some (s.halt .exit)
    | .closed => if s.closing ∧ ¬s.clientFreed ∧ s.stream.Idle then some s.onClientClosed else none

def uvServer : Machine Conn Label := ⟨onPeerConnected, exec⟩

end KoScripts.Servers.UvServer
