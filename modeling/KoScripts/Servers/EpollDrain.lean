import KoScripts.Servers.EpollInvariant
import KoScripts.Servers.EventDrain
import KoScripts.Servers.EventMoves

/-! # epoll_server.c can serve every peer to its end

One event of one peer is a round of the loop. -/

namespace KoScripts.Servers.Epoll
open Lib Event

variable {listenerFd : Nat} {s t : State} {c c' : Conn} {q : PeerState}

def view : View State maxfds where
  halted := State.halted
  waits s := s.events = []
  table := State.table
  socks := State.socks
  closed := State.closed

/-- About to call `epoll_wait`. -/
abbrev Top : State → Prop := view.Top

/-- A batch of one event. -/
theorem run_event {e : EpollEvent} {r : RecvResult} {r' : SendResult} (ht : Top s)
    (hl : e.fd ≠ listenerFd) (hb : s.batchOk [e] = true) (hr : s.recvOk e.fd r = true)
    (hr' : s.sendOk e.fd r' = true) :
    (epollServer listenerFd).run s [.epollWait [e], .serve r r'] = some (s.servePeer e r r') := by
  have hs : { s with events := [] } = s := by rw [← ht.2]
  have hwait : (epollServer listenerFd).exec s (.epollWait [e]) = some { s with events := [e] } :=
    if_pos ⟨ht.1, ht.2, hb⟩
  have hserve : (epollServer listenerFd).exec { s with events := [e] } (.serve r r') =
      some ({ s with events := [] }.servePeer e r r') := if_pos ⟨ht.1, hl, hr, hr'⟩
  rw [Machine.run_cons_of_exec hwait, Machine.run_cons_of_exec hserve, hs]
  rfl

section
variable {fd : Fin maxfds} {bytes : List UInt8}

theorem recvPeer_moved {r : RecvResult} (hi : (s.interest fd).isSome) (hc : s.socks fd = some c)
    (hx : Event.onPeerReadyRecv s.table fd r =
      .ok ⟨q.interest, Function.update s.table fd q, bytes⟩) :
    s.recvPeer fd r = s.setPeer fd q (c.received bytes) := by
  rw [State.recvPeer, onPeerReadyRecv, hx]
  simp only [hc, Option.map_some]
  exact register_interest hi

theorem recvPeer_closed {r : RecvResult} (hi : (s.interest fd).isSome) (hc : s.socks fd = some c)
    (hx : Event.onPeerReadyRecv s.table fd r = .ok ⟨fdStatusNORW, s.table, []⟩) :
    s.recvPeer fd r = s.dropPeer fd c := by
  have hsame : Function.update s.socks fd (some c) = s.socks := by
    rw [← hc, Function.update_eq_self]
  rw [State.recvPeer, onPeerReadyRecv, hx]
  simp only [hc, Option.map_some, Conn.received_nil, hsame]
  exact register_norw hi hc

theorem sendPeer_moved {r : SendResult} (hi : (s.interest fd).isSome) (hc : s.socks fd = some c)
    (hx : Event.onPeerReadySend s.table fd r =
      .ok ⟨q.interest, Function.update s.table fd q, bytes⟩) :
    s.sendPeer fd r = s.setPeer fd q (c.wrote bytes) := by
  rw [State.sendPeer, onPeerReadySend, hx]
  simp only [hc, Option.map_some]
  exact register_interest hi

/-- An event that an open peer asks for, and results of the calls with which it brings the peer
on. -/
structure Brings (s : State) (fd : Fin maxfds) (c : Conn) (e : EpollEvent) (r : RecvResult)
    (r' : SendResult) (t : State) : Prop where
  fd_eq : e.fd = fd
  batch : s.batchOk [e] = true
  recv : s.recvOk e.fd r = true ∧ r ≠ .error
  send : s.sendOk e.fd r' = true ∧ r' ≠ .error
  eq : s.servePeer e r r' = t
  peer : (∃ q c', t = s.setPeer fd q c' ∧ c'.stream = c.stream ∧ c' ≠ c ∧
    work q c' < work (s.table fd) c) ∨ t = s.dropPeer fd c ∧ c.Done

theorem brings_on (I : Inv s) (L : Live listenerFd s) (hc : s.socks fd = some c) :
    ∃ e r r' t, Brings s fd c e r r' t := by
  obtain ⟨hlt, hint⟩ := L.opened hc
  have hi : (s.interest fd).isSome := by
    rw [hint]
    rfl
  have T := I.peer fd hc
  have hr : s.recvOk fd .again = true := by simp [State.recvOk, hc, Conn.recvOk]
  have hr' : s.sendOk fd .again = true := by simp [State.sendOk, hc]
  cases advance T with
  | @send q hst hx hwork =>
    refine ⟨⟨fd, false, true⟩, .again, .count _, _, rfl, ?_, ⟨hr, by simp⟩, ⟨?_, by simp⟩,
      sendPeer_moved hi hc hx, .inl ⟨q, _, rfl, rfl, wrote_ne T.ok hst, hwork⟩⟩
    · simp [State.batchOk, hint, interest_wantWrite, hst]
    · simp [State.sendOk, hc]
  | @recv q bytes hst hdata hx hwork =>
    refine ⟨⟨fd, true, false⟩, .data bytes, .again, _, rfl, ?_, ⟨?_, by simp⟩,
      ⟨hr', by simp⟩, recvPeer_moved hi hc hx,
      .inl ⟨q, _, rfl, rfl, received_ne hdata, hwork⟩⟩
    · simp [State.batchOk, hint, interest_wantRead, hst]
    · rw [State.recvOk, hc]
      exact hdata
  | eof hst heof hx hdone =>
    refine ⟨⟨fd, true, false⟩, .eof, .again, _, rfl, ?_, ⟨?_, by simp⟩, ⟨hr', by simp⟩,
      recvPeer_closed hi hc hx, .inr ⟨rfl, hdone⟩⟩
    · simp [State.batchOk, hint, interest_wantRead, hst]
    · rw [State.recvOk, hc]
      exact heof

theorem Live.fd_ne (L : Live listenerFd s) (hc : s.socks fd = some c) : (fd : Nat) ≠ listenerFd := by
  intro hl
  rw [hl, L.listener] at hc
  cases hc

theorem round_advance (I : Inv s) (L : Live listenerFd s) (ht : Top s) (hc : s.socks fd = some c) :
    ∃ ls t, (epollServer listenerFd).run s ls = some t ∧ Top t ∧
      view.Round fd c s t := by
  obtain ⟨e, r, r', t, B⟩ := brings_on I L hc
  have hl : e.fd ≠ listenerFd := B.fd_eq ▸ L.fd_ne hc
  have hrun := run_event ht hl B.batch B.recv.1 B.send.1
  rw [B.eq] at hrun
  refine ⟨_, t, hrun, ?_⟩
  rcases B.peer with ⟨q, c', rfl, hstream, -, hwork⟩ | ⟨rfl, hdone⟩
  · exact ⟨ht, .set hc rfl rfl rfl hstream hwork⟩
  · exact ⟨ht, .drop rfl rfl hdone⟩

end

theorem rounds : view.Rounds (epollServer listenerFd) where
  below hr ht hc := by
    obtain ⟨-, L⟩ := reach_inv hr
    exact ((L ht.1).opened hc).1
  round {s fd c} hr ht hc := by
    obtain ⟨I, L⟩ := reach_inv hr
    obtain ⟨hlt, -⟩ := (L ht.1).opened hc
    have hc' : s.socks (⟨fd, hlt⟩ : Fin maxfds) = some c := hc
    exact round_advance I (L ht.1) ht hc'

/-- From every state in which the process runs and is about to call `epoll_wait`, it can serve all
the open connections to the ends of their streams: none is left waiting for an event that its mask
does not ask for, whatever has been read of it and whatever a short `send` has left staged. -/
theorem epoll_drains (h : (epollServer listenerFd).Reach Machine.anyStep s)
    (hrun : s.halted = none) (hwait : s.events = []) :
    ∃ ls t, (epollServer listenerFd).run s ls = some t ∧ t.halted = none ∧
      (∀ fd, t.socks fd = none) ∧ ∀ fd c, s.socks fd = some c →
        ∃ c' ∈ t.closed, c'.stream = c.stream ∧ c'.consumed = c.stream ∧
          c'.sent = replies c.stream := by
  obtain ⟨ls, t, hls, ht, hnone, hended⟩ := rounds.drain h ⟨hrun, hwait⟩
  refine ⟨ls, t, hls, ht.1, hnone, fun fd c hc => ?_⟩
  obtain ⟨c', hc', hstream, hdone⟩ := hended fd c hc
  exact ⟨c', hc', hstream, hdone.all.trans hstream, hstream ▸ hdone.sent⟩

/-- A connection with a message half read. -/
def stagedRun : List Label := [
  .epollWait [⟨3, true, false⟩], .accept (.fd 5 [0x5e, 0x61, 0x24]),
  .epollWait [⟨5, false, true⟩], .serve .again (.count 1),
  .epollWait [⟨5, true, false⟩], .serve (.data [0x5e, 0x61]) .again]

theorem epoll_drains_stagedRun :
    ∃ s t ls, (epollServer 3).run (init 3) stagedRun = some s ∧ (s.socks 5).isSome = true ∧
      (epollServer 3).run s ls = some t ∧ ∀ fd, t.socks fd = none := by
  have hrun : ((epollServer 3).run (init 3) stagedRun).map (fun s =>
      (s.halted, s.events, (s.socks 5).isSome)) = some (none, [], true) := by decide +kernel
  obtain ⟨s, hs, h⟩ := Option.map_eq_some_iff.mp hrun
  obtain ⟨ls, t, ht, -, hnone, -⟩ := epoll_drains (Machine.Reach.init.run hs)
    (congrArg (·.1) h) (congrArg (·.2.1) h)
  exact ⟨s, t, ls, hs, congrArg (·.2.2) h, ht, hnone⟩

end KoScripts.Servers.Epoll
