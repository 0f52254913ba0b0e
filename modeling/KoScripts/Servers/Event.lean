import Mathlib.Logic.Function.Basic
import KoScripts.Lib.Slice
import KoScripts.Servers.Echo

/-! # The handlers of the event servers

`select_server.c` and `epoll_server.c` share `peer_state_t` and the three handlers
`on_peer_connected`, `on_peer_ready_recv`, `on_peer_ready_send`; only the size `MAXFDS` of
`global_state` differs, so it is a parameter here. A handler returns the `fd_status_t` of the
source together with the new table and the bytes it moved over the socket, or the way the process
ended.

`PeerOk` is the representation invariant of one peer, `Echoes` its link to the protocol. Each
handler has one specification lemma, and the loops are verified from these. -/

namespace KoScripts.Servers.Event
open Lib

/-- `enum {INITIAL_ACK, WAIT_FOR_MSG, IN_MSG}`. -/
inductive InternalState
  | initialAck
  | waitForMsg
  | inMsg
  deriving DecidableEq, Repr

theorem InternalState.waitForMsg_ne : InternalState.waitForMsg ≠ .initialAck := nofun

theorem InternalState.inMsg_ne : InternalState.inMsg ≠ .initialAck := nofun

/-- How the process can end: `exit(1)`, or `SIGABRT` from a failed assertion. -/
inductive Halt
  | exit
  | abort
  deriving DecidableEq, Repr

def sendbufSize : Nat := 1024

theorem sendbufSize_pos : 0 < sendbufSize := by decide

/-- `peer_state_t`. -/
structure PeerState where
  state : InternalState
  sendbuf : Vector UInt8 sendbufSize
  sendbufEnd : Nat
  sendptr : Nat

/-- `fd_status_t`. -/
structure FdStatus where
  wantRead : Bool
  wantWrite : Bool
  deriving DecidableEq, Repr

def fdStatusR : FdStatus := { wantRead := true, wantWrite := false }
def fdStatusW : FdStatus := { wantRead := false, wantWrite := true }
def fdStatusRW : FdStatus := { wantRead := true, wantWrite := true }
def fdStatusNORW : FdStatus := { wantRead := false, wantWrite := false }

/-- What `recv` on a non-blocking socket returns; `error` is any errno but `EAGAIN`. -/
inductive RecvResult
  | data (bytes : List UInt8)
  | eof
  | again
  | error
  deriving DecidableEq, Repr

/-- What `send` on a non-blocking socket returns; `error` is any errno but `EAGAIN`. -/
inductive SendResult
  | count (nsent : Nat)
  | again
  | error
  deriving DecidableEq, Repr

/-- `global_state`. -/
abbrev Table (maxfds : Nat) := Fin maxfds → PeerState

/-- What a handler returns: its status, the table after it, and the bytes it took from the socket
(`on_peer_ready_recv`) or handed to it (`on_peer_ready_send`). -/
structure Reply (maxfds : Nat) where
  status : FdStatus
  table : Table maxfds
  moved : List UInt8

namespace PeerState

/-- The staged bytes `sendbuf[sendptr..sendbuf_end)`. -/
def staged (p : PeerState) : List UInt8 := slice p.sendbuf p.sendptr p.sendbufEnd

/-- The events a peer is to be registered for: writing while bytes are staged, reading when none
are. -/
def interest (p : PeerState) : FdStatus :=
  if p.sendptr < p.sendbufEnd then fdStatusW else fdStatusR

end PeerState

section
variable {maxfds : Nat}

def onPeerConnected (table : Table maxfds) (sockfd : Nat) : Except Halt (Reply maxfds) :=
  if h : sockfd < maxfds then
    let peerstate := table ⟨sockfd, h⟩
    .ok {
      status := fdStatusW
      table := Function.update table ⟨sockfd, h⟩ {
        state := .initialAck
        sendbuf := peerstate.sendbuf.set 0 '*'.toUInt8 sendbufSize_pos
        sendptr := 0
        sendbufEnd := 1 }
      moved := [] }
  else .error .abort

/-- The `switch` over one received byte, with the flag `ready_to_send`. -/
def recvByte : PeerState × Bool → UInt8 → Except Halt (PeerState × Bool)
  | (peerstate, readyToSend), b =>
    match peerstate.state with
    | .initialAck => .error .abort -- assert(0 && "cant reach here")
    | .waitForMsg =>
      .ok (if b = '^'.toUInt8 then { peerstate with state := .inMsg } else peerstate, readyToSend)
    | .inMsg =>
      if b = '$'.toUInt8 then .ok ({ peerstate with state := .waitForMsg }, readyToSend)
      else if h : peerstate.sendbufEnd < sendbufSize then
        .ok ({ peerstate with
          sendbuf := peerstate.sendbuf.set peerstate.sendbufEnd (b + 1) h
          sendbufEnd := peerstate.sendbufEnd + 1 }, true)
      else .error .abort

/-- `on_peer_ready_recv`, where `r` is what its `recv` returns if it is called. -/
def onPeerReadyRecv (table : Table maxfds) (sockfd : Nat) (r : RecvResult) :
    Except Halt (Reply maxfds) :=
  if h : sockfd < maxfds then
    let peerstate := table ⟨sockfd, h⟩
    if peerstate.state = .initialAck ∨ peerstate.sendptr < peerstate.sendbufEnd then
      .ok { status := fdStatusW, table, moved := [] }
    else match r with
      | .eof => .ok { status := fdStatusNORW, table, moved := [] }
      | .again => .ok { status := fdStatusR, table, moved := [] }
      | .error => .error .exit
      | .data buf =>
        match buf.foldlM recvByte (peerstate, false) with
        | .error e => .error e
        | .ok (peerstate, readyToSend) => .ok {
            status := { wantRead := !readyToSend, wantWrite := readyToSend }
            table := Function.update table ⟨sockfd, h⟩ peerstate
            moved := buf }
  else .error .abort

/-- `on_peer_ready_send`, where `r` is what its `send` returns if it is called. -/
def onPeerReadySend (table : Table maxfds) (sockfd : Nat) (r : SendResult) :
    Except Halt (Reply maxfds) :=
  if h : sockfd < maxfds then
    let peerState := table ⟨sockfd, h⟩
    if peerState.sendptr ≥ peerState.sendbufEnd then
      .ok { status := fdStatusRW, table, moved := [] }
    else
      let sendlen := peerState.sendbufEnd - peerState.sendptr
      match r with
      | .again => .ok { status := fdStatusW, table, moved := [] }
      | .error => .error .exit
      | .count nsent =>
        if nsent < sendlen then .ok {
          status := fdStatusW
          table := Function.update table ⟨sockfd, h⟩
            { peerState with sendptr := peerState.sendptr + nsent }
          moved := peerState.staged.take nsent }
        else .ok {
          status := fdStatusR
          table := Function.update table ⟨sockfd, h⟩ { peerState with
            sendptr := 0
            sendbufEnd := 0
            state := if peerState.state = .initialAck then .waitForMsg else peerState.state }
          moved := peerState.staged.take nsent }
  else .error .abort

end

/-! ## Connections -/

/-- A connection as the kernel holds it: all that the peer is to send, what `recv` has returned of
it, and what has been sent to the peer. -/
structure Conn where
  stream : List UInt8
  consumed : List UInt8
  sent : List UInt8
  deriving DecidableEq

/-- What `accept` returns: a descriptor, behind it a peer that is to send `stream`. -/
inductive AcceptResult
  | fd (newsockfd : Nat) (stream : List UInt8)
  | again
  | error
  deriving DecidableEq

namespace Conn

def unread (c : Conn) : List UInt8 := c.stream.drop c.consumed.length

/-- What `recv` may return on a connection: the next 1 to 1024 bytes, or 0 once the peer's stream
is exhausted, or an error. -/
def recvOk (c : Conn) : RecvResult → Bool
  | .data bytes => 1 ≤ bytes.length && bytes.length ≤ 1024 && bytes.isPrefixOf c.unread
  | .eof => c.unread.isEmpty
  | .again | .error => true

def received (c : Conn) (bytes : List UInt8) : Conn := { c with consumed := c.consumed ++ bytes }

def wrote (c : Conn) (bytes : List UInt8) : Conn := { c with sent := c.sent ++ bytes }

@[simp] theorem received_nil (c : Conn) : c.received [] = c := by simp [received]

@[simp] theorem wrote_nil (c : Conn) : c.wrote [] = c := by simp [wrote]

end Conn

/-! ## The representation of a peer -/

/-- The state of the protocol that the tag stands for: the initial `*` belongs to the output, not
to the frames. -/
def InternalState.frame : InternalState → Blocking.InternalState
  | .initialAck | .waitForMsg => .waitForMsg
  | .inMsg => .inMsg

/-- The representation invariant of an open peer: the acknowledgement is staged and untouched, or
it has gone out and the indices delimit a part of the buffer, both 0 when nothing is staged. -/
structure PeerOk (p : PeerState) : Prop where
  ack : p.state = .initialAck → p.sendptr = 0 ∧ p.sendbufEnd = 1
  bound : p.sendbufEnd ≤ sendbufSize
  empty : p.sendbufEnd ≤ p.sendptr → p.sendptr = 0 ∧ p.sendbufEnd = 0

/-- A peer whose connection has received `consumed` and sent `sent` is where the protocol is: what
has been sent and what is staged are together the replies to what has been received. -/
structure Echoes (p : PeerState) (consumed sent : List UInt8) : Prop where
  frame : p.state.frame = echo.state .waitForMsg consumed
  output : sent ++ p.staged = replies consumed

namespace PeerOk
variable {p : PeerState}

theorem ptr_le (h : PeerOk p) : p.sendptr ≤ p.sendbufEnd := by
  have := h.empty
  omega

theorem staged_eq_nil (h : PeerOk p) : p.staged = [] ↔ p.sendbufEnd ≤ p.sendptr := by
  rw [← List.length_eq_zero_iff, PeerState.staged, length_slice h.bound]
  omega

end PeerOk

/-- `q` is `p` after its byte loop has run over `bytes`: the replies to them are staged behind what
was staged before. -/
structure AfterRecv (p : PeerState) (bytes : List UInt8) (q : PeerState) : Prop where
  acked : q.state ≠ .initialAck
  frame : q.state.frame = echo.state p.state.frame bytes
  ptr : q.sendptr = p.sendptr
  fin : q.sendbufEnd = p.sendbufEnd + (echo.output p.state.frame bytes).length
  staged : q.staged = p.staged ++ echo.output p.state.frame bytes

namespace AfterRecv
variable {p q r : PeerState} {xs ys : List UInt8}

theorem nil (h : p.state ≠ .initialAck) : AfterRecv p [] p :=
  ⟨h, rfl, rfl, rfl, (List.append_nil _).symm⟩

theorem trans (H1 : AfterRecv p xs q) (H2 : AfterRecv q ys r) : AfterRecv p (xs ++ ys) r where
  acked := H2.acked
  frame := by rw [H2.frame, H1.frame, Mealy.state_append]
  ptr := H2.ptr.trans H1.ptr
  fin := by rw [H2.fin, H1.fin, H1.frame, Mealy.output_append, List.length_append, Nat.add_assoc]
  staged := by rw [H2.staged, H1.staged, H1.frame, Mealy.output_append, List.append_assoc]

end AfterRecv

/-! ## The events a peer asks for -/

theorem interest_wantRead {p : PeerState} :
    p.interest.wantRead = true ↔ p.sendbufEnd ≤ p.sendptr := by
  rw [PeerState.interest]
  split <;> simp [fdStatusR, fdStatusW] <;> omega

theorem interest_wantWrite {p : PeerState} :
    p.interest.wantWrite = true ↔ p.sendptr < p.sendbufEnd := by
  rw [PeerState.interest]
  split <;> simp [fdStatusR, fdStatusW] <;> omega

/-- A peer asks for one event or the other. -/
theorem interest_ne_norw (p : PeerState) :
    (!p.interest.wantRead && !p.interest.wantWrite) = false := by
  rw [PeerState.interest]
  split <;> rfl

/-! ## on_peer_connected -/

section
variable {maxfds : Nat} {table : Table maxfds} {fd : Fin maxfds}

theorem onPeerConnected_spec (table : Table maxfds) (fd : Fin maxfds) :
    ∃ p, onPeerConnected table fd =
        .ok { status := fdStatusW, table := Function.update table fd p, moved := [] } ∧
      p.state = .initialAck ∧ PeerOk p ∧ p.sendptr < p.sendbufEnd ∧ Echoes p [] [] := by
  refine ⟨_, dif_pos fd.isLt, rfl, ⟨fun _ => ⟨rfl, rfl⟩, ?_, ?_⟩, Nat.one_pos, rfl, ?_⟩
  · exact sendbufSize_pos
  · change 1 ≤ 0 → _
    omega
  · rw [List.nil_append, PeerState.staged, slice_succ sendbufSize_pos,
      Vector.getElem_set_self, replies_nil]

theorem onPeerConnected_of_ge (table : Table maxfds) {sockfd : Nat} (h : maxfds ≤ sockfd) :
    onPeerConnected table sockfd = .error .abort := dif_neg (Nat.not_lt.mpr h)

/-! ## on_peer_ready_recv -/

theorem recvByte_spec {p : PeerState} (ready : Bool) (b : UInt8) (hs : p.state ≠ .initialAck)
    (hp : p.sendptr ≤ p.sendbufEnd) (hb : p.sendbufEnd < sendbufSize) :
    ∃ q, recvByte (p, ready) b = .ok (q, ready || !(echo.output p.state.frame [b]).isEmpty) ∧
      AfterRecv p [b] q := by
  obtain ⟨state, buf, fin, ptr⟩ := p
  cases state with
  | initialAck => exact absurd rfl hs
  | waitForMsg =>
    have hready : (ready || !(echo.output .waitForMsg [b]).isEmpty) = ready := Bool.or_false ready
    rw [InternalState.frame, hready]
    obtain rfl | h := eq_or_ne b '^'.toUInt8
    · exact ⟨⟨.inMsg, buf, fin, ptr⟩, rfl,
        InternalState.inMsg_ne, rfl, rfl, rfl, (List.append_nil _).symm⟩
    · refine ⟨⟨.waitForMsg, buf, fin, ptr⟩, ?_,
        InternalState.waitForMsg_ne, (echo_next_noise h).symm, rfl, rfl, (List.append_nil _).symm⟩
      simp only [recvByte, if_neg h]
  | inMsg =>
    rw [InternalState.frame, Mealy.output_singleton]
    obtain rfl | h := eq_or_ne b '$'.toUInt8
    · refine ⟨⟨.waitForMsg, buf, fin, ptr⟩, ?_,
        InternalState.waitForMsg_ne, rfl, rfl, rfl, (List.append_nil _).symm⟩
      show _ = Except.ok (_, ready || false)
      rw [Bool.or_false]
      rfl
    · have hout : echo.output .inMsg [b] = [b + 1] :=
        Mealy.output_singleton.trans (echo_out_message h)
      refine ⟨⟨.inMsg, buf.set fin (b + 1) hb, fin + 1, ptr⟩, ?_,
        InternalState.inMsg_ne, (echo_next_message h).symm, rfl, ?_, ?_⟩
      · rw [echo_out_message h, recvByte]
        simp only [if_neg h, dif_pos (show fin < sendbufSize from hb), List.isEmpty_cons,
          Bool.not_false, Bool.or_true]
      · rw [InternalState.frame, hout]
        rfl
      · rw [InternalState.frame, hout]
        exact slice_set_end hp hb

/-- The byte loop: with room for a reply to every byte, no assertion fails and the replies are
staged. -/
theorem recvBytes_spec (bytes : List UInt8) {p : PeerState} (ready : Bool)
    (hs : p.state ≠ .initialAck) (hp : p.sendptr ≤ p.sendbufEnd)
    (hb : p.sendbufEnd + bytes.length ≤ sendbufSize) :
    ∃ q, bytes.foldlM recvByte (p, ready) =
        .ok (q, ready || !(echo.output p.state.frame bytes).isEmpty) ∧ AfterRecv p bytes q := by
  induction bytes generalizing p ready with
  | nil => exact ⟨p, by simp; rfl, .nil hs⟩
  | cons b bs ih =>
    rw [List.length_cons] at hb
    obtain ⟨q, hq, H1⟩ := recvByte_spec ready b hs hp (by omega)
    have hlen := length_echo_output_le p.state.frame [b]
    have hfin := H1.fin
    have hptr := H1.ptr
    rw [List.length_singleton] at hlen
    obtain ⟨r, hr, H2⟩ := ih (ready || !(echo.output p.state.frame [b]).isEmpty) H1.acked
      (by omega) (by omega)
    refine ⟨r, ?_, H1.trans H2⟩
    rw [List.foldlM_cons, hq]
    change bs.foldlM recvByte _ = _
    have hsplit : echo.output p.state.frame (b :: bs) =
        echo.output p.state.frame [b] ++ echo.output (echo.state p.state.frame [b]) bs :=
      (Mealy.output_append : echo.output p.state.frame ([b] ++ bs) = _)
    rw [hr, H1.frame, hsplit]
    cases echo.output p.state.frame [b] <;> simp

/-- What `on_peer_ready_recv` does on a well-formed peer. -/
inductive RecvOutcome (table : Table maxfds) (fd : Fin maxfds) :
    RecvResult → Except Halt (Reply maxfds) → Prop
  | staged : (table fd).sendptr < (table fd).sendbufEnd →
    RecvOutcome table fd r (.ok ⟨fdStatusW, table, []⟩)
  | eof : (table fd).sendbufEnd ≤ (table fd).sendptr →
    RecvOutcome table fd .eof (.ok ⟨fdStatusNORW, table, []⟩)
  | again : (table fd).sendbufEnd ≤ (table fd).sendptr →
    RecvOutcome table fd .again (.ok ⟨fdStatusR, table, []⟩)
  | error : RecvOutcome table fd .error (.error .exit)
  | data : AfterRecv (table fd) bytes q → PeerOk q →
    RecvOutcome table fd (.data bytes) (.ok ⟨q.interest, Function.update table fd q, bytes⟩)

theorem onPeerReadyRecv_spec (hok : PeerOk (table fd)) {r : RecvResult}
    (hr : ∀ bytes, r = .data bytes → bytes.length ≤ sendbufSize) :
    RecvOutcome table fd r (onPeerReadyRecv table fd r) := by
  rw [onPeerReadyRecv, dif_pos fd.isLt]
  by_cases hst : (table fd).sendptr < (table fd).sendbufEnd
  · simp only [if_pos (Or.inr hst)]
    exact .staged hst
  have hempty := hok.empty (Nat.le_of_not_lt hst)
  have hack : (table fd).state ≠ .initialAck := by
    intro h
    have := hok.ack h
    omega
  simp only [if_neg (not_or.mpr ⟨hack, hst⟩)]
  cases r with
  | eof => exact .eof (Nat.le_of_not_lt hst)
  | again => exact .again (Nat.le_of_not_lt hst)
  | error => exact .error
  | data bytes =>
    have hlen := hr bytes rfl
    obtain ⟨q, hq, H⟩ := recvBytes_spec bytes false hack hok.ptr_le (by omega)
    have hfin := H.fin
    have hptr := H.ptr
    have hout := length_echo_output_le (table fd).state.frame bytes
    have hqok : PeerOk q := ⟨fun h => absurd h H.acked, by omega, by omega⟩
    simp only [hq, Bool.false_or]
    convert RecvOutcome.data H hqok using 3
    rw [PeerState.interest]
    cases hn : echo.output (table fd).state.frame bytes with
    | nil => rw [hn, List.length_nil] at hfin; rw [if_neg (by omega)]; rfl
    | cons b bs => rw [hn, List.length_cons] at hfin; rw [if_pos (by omega)]; rfl

/-! ## on_peer_ready_send -/

/-- What `on_peer_ready_send` does on a well-formed peer. -/
inductive SendOutcome (table : Table maxfds) (fd : Fin maxfds) :
    SendResult → Except Halt (Reply maxfds) → Prop
  | idle : (table fd).sendbufEnd ≤ (table fd).sendptr →
    SendOutcome table fd r (.ok ⟨fdStatusRW, table, []⟩)
  | again : (table fd).sendptr < (table fd).sendbufEnd →
    SendOutcome table fd .again (.ok ⟨fdStatusW, table, []⟩)
  | error : SendOutcome table fd .error (.error .exit)
  | count : (table fd).sendptr < (table fd).sendbufEnd → PeerOk q →
    q.state.frame = (table fd).state.frame → q.staged = (table fd).staged.drop nsent →
    SendOutcome table fd (.count nsent)
      (.ok ⟨q.interest, Function.update table fd q, (table fd).staged.take nsent⟩)

theorem onPeerReadySend_spec (hok : PeerOk (table fd)) {r : SendResult}
    (hr : ∀ nsent, r = .count nsent → nsent ≤ (table fd).staged.length) :
    SendOutcome table fd r (onPeerReadySend table fd r) := by
  rw [onPeerReadySend, dif_pos fd.isLt]
  by_cases hst : (table fd).sendbufEnd ≤ (table fd).sendptr
  · simp only [ge_iff_le, if_pos hst]
    exact .idle hst
  have hlt := Nat.lt_of_not_le hst
  simp only [ge_iff_le, if_neg hst]
  cases r with
  | again => exact .again hlt
  | error => exact .error
  | count nsent =>
    have hn := hr nsent rfl
    rw [PeerState.staged, length_slice hok.bound] at hn
    by_cases hpart : nsent < (table fd).sendbufEnd - (table fd).sendptr
    · simp only [if_pos hpart]
      have hq : PeerOk { table fd with sendptr := (table fd).sendptr + nsent } :=
        ⟨fun h => by have := hok.ack h; simp only; omega, hok.bound, by simp only; omega⟩
      have hint : PeerState.interest { table fd with sendptr := (table fd).sendptr + nsent } =
          fdStatusW := if_pos (by simp only; omega)
      have H := SendOutcome.count hlt hq rfl drop_slice.symm
      rwa [hint] at H
    · simp only [if_neg hpart]
      have hn' : nsent = (table fd).sendbufEnd - (table fd).sendptr := by omega
      refine .count (q := { table fd with
        sendptr := 0, sendbufEnd := 0,
        state := if (table fd).state = .initialAck then .waitForMsg else (table fd).state })
        hlt ⟨?_, Nat.zero_le _, fun _ => ⟨rfl, rfl⟩⟩ ?_ ?_
      · intro h
        simp only at h
        split at h <;> simp_all
      · simp only
        split
        · rename_i h; rw [h]; rfl
        · rfl
      · rw [PeerState.staged, slice_self, PeerState.staged, drop_slice, slice_of_le (by omega)]

/-! ## A handler and the connection behind its descriptor -/

/-- An open peer and its connection belong together. -/
structure Tracks (p : PeerState) (c : Conn) : Prop where
  ok : PeerOk p
  echoes : Echoes p c.consumed c.sent
  within : c.consumed <+: c.stream

/-- The peer's stream has been read to its end and everything the protocol sends for it sent. -/
structure Conn.Done (c : Conn) : Prop where
  all : c.consumed = c.stream
  sent : c.sent = replies c.stream

theorem Echoes.recv {p q : PeerState} {consumed sent bytes : List UInt8}
    (E : Echoes p consumed sent) (H : AfterRecv p bytes q) : Echoes q (consumed ++ bytes) sent where
  frame := by rw [H.frame, E.frame, Mealy.state_append]
  output := by rw [H.staged, ← List.append_assoc, E.output, E.frame, replies_append]

theorem Echoes.send {p q : PeerState} {consumed sent : List UInt8} {n : Nat}
    (E : Echoes p consumed sent) (hf : q.state.frame = p.state.frame)
    (hq : q.staged = p.staged.drop n) : Echoes q consumed (sent ++ p.staged.take n) where
  frame := hf.trans E.frame
  output := by rw [hq, List.append_assoc, List.take_append_drop, E.output]

theorem Conn.within_received {c : Conn} {bytes : List UInt8} (hc : c.consumed <+: c.stream)
    (hr : c.recvOk (.data bytes) = true) :
    (c.received bytes).consumed <+: (c.received bytes).stream := by
  simp only [Conn.recvOk, Bool.and_eq_true, List.isPrefixOf_iff_prefix] at hr
  obtain ⟨rest, hrest⟩ := hr.2
  obtain ⟨tail, htail⟩ := hc
  rw [Conn.unread, ← htail, List.drop_left] at hrest
  exact ⟨rest, by rw [Conn.received, List.append_assoc, hrest, htail]⟩

/-- What a handler can do to an open peer: end the process with `exit(1)`, move the peer on and ask
for the events of its new state, or ask for none with the connection done. `move` says what the
bytes moved do to the connection. -/
inductive Turn (table : Table maxfds) (fd : Fin maxfds) (c : Conn)
    (move : Conn → List UInt8 → Conn) : Except Halt (Reply maxfds) → Prop
  | exit : Turn table fd c move (.error .exit)
  | moved {q : PeerState} {bytes : List UInt8} : Tracks q (move c bytes) →
    Turn table fd c move (.ok ⟨q.interest, Function.update table fd q, bytes⟩)
  | closed : c.Done → Turn table fd c move (.ok ⟨fdStatusNORW, table, []⟩)

/-- A handler that moves nothing and asks for the events of its peer. -/
theorem Turn.same {move : Conn → List UInt8 → Conn} {c : Conn} (T : Tracks (table fd) c)
    (hm : move c [] = c) : Turn table fd c move (.ok ⟨(table fd).interest, table, []⟩) := by
  have h : Turn table fd c move
      (.ok ⟨(table fd).interest, Function.update table fd (table fd), []⟩) :=
    .moved (by rw [hm]; exact T)
  rwa [Function.update_eq_self] at h

theorem onPeerConnected_turn (table : Table maxfds) (fd : Fin maxfds) (stream : List UInt8) :
    ∃ q, onPeerConnected table fd = .ok ⟨q.interest, Function.update table fd q, []⟩ ∧
      Tracks q ⟨stream, [], []⟩ := by
  obtain ⟨q, hq, -, hok, hst, hE⟩ := onPeerConnected_spec table fd
  have hint : q.interest = fdStatusW := if_pos hst
  exact ⟨q, by rw [hq, hint], hok, hE, List.nil_prefix⟩

theorem onPeerReadyRecv_turn {c : Conn} (T : Tracks (table fd) c) {r : RecvResult}
    (hr : c.recvOk r = true) : Turn table fd c Conn.received (onPeerReadyRecv table fd r) := by
  have spec := onPeerReadyRecv_spec T.ok (r := r) fun bytes h => by
    subst h
    simp only [Conn.recvOk, Bool.and_eq_true, decide_eq_true_eq] at hr
    exact hr.1.2
  generalize onPeerReadyRecv table fd r = out at spec ⊢
  cases spec with
  | staged hst =>
    have hq : (table fd).interest = fdStatusW := if_pos hst
    exact hq ▸ Turn.same T c.received_nil
  | again hst =>
    have hq : (table fd).interest = fdStatusR := if_neg (Nat.not_lt.mpr hst)
    exact hq ▸ Turn.same T c.received_nil
  | error => exact .exit
  | eof hst =>
    have hall : c.consumed = c.stream := by
      simp only [Conn.recvOk, Conn.unread, List.isEmpty_iff, List.drop_eq_nil_iff] at hr
      exact T.within.eq_of_length_le hr
    have hout := T.echoes.output
    rw [T.ok.staged_eq_nil.mpr hst, List.append_nil, hall] at hout
    exact .closed ⟨hall, hout⟩
  | data H hq => exact .moved ⟨hq, T.echoes.recv H, Conn.within_received T.within hr⟩

theorem onPeerReadySend_turn {c : Conn} (T : Tracks (table fd) c)
    (hst : (table fd).sendptr < (table fd).sendbufEnd) {r : SendResult}
    (hr : ∀ nsent, r = .count nsent → nsent ≤ (table fd).sendbufEnd - (table fd).sendptr) :
    Turn table fd c Conn.wrote (onPeerReadySend table fd r) := by
  have spec := onPeerReadySend_spec T.ok (r := r) fun nsent h => by
    rw [PeerState.staged, length_slice T.ok.bound]
    exact hr nsent h
  generalize onPeerReadySend table fd r = out at spec ⊢
  cases spec with
  | idle h => exact absurd h (Nat.not_le.mpr hst)
  | again _ =>
    have hq : (table fd).interest = fdStatusW := if_pos hst
    exact hq ▸ Turn.same T c.wrote_nil
  | error => exact .exit
  | count _ hq hframe hstaged => exact .moved ⟨hq, T.echoes.send hframe hstaged, T.within⟩

end

end KoScripts.Servers.Event
