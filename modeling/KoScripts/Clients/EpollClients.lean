import KoScripts.Clients.EventServiceRest
import KoScripts.Servers.EpollDrain

/-! # The clients of epoll_server.c are answered

As long as no system call fails, the server keeps to what its clients rely on. -/

namespace KoScripts.Servers.Epoll
open Lib Event Clients

def Label.accepts : Label → Option (Nat × List UInt8)
  | .accept (.fd newsockfd stream) => some (newsockfd, stream)
  | _ => none

def Label.succeeds : Label → Bool
  | .epollWait _ => true
  | .accept r => r ≠ .error
  | .serve r r' => r ≠ .error ∧ r' ≠ .error

/-- `epoll_server.c` to its clients. -/
def eventServer (listenerFd : Nat) : EventServer State Label where
  machine := epollServer listenerFd
  maxfds := maxfds
  socks := State.socks
  halted := State.halted
  accepts := Label.accepts
  succeeds := Label.succeeds

variable {listenerFd : Nat} {s t : State} {c : Conn} {e : EpollEvent} {rest : List EpollEvent}

/-! ## The branches of the loop, when the calls succeed -/

section
variable {fd : Fin maxfds} {q : PeerState}

theorem setPeer_socks : (s.setPeer fd q c).socks fd = some c := Function.update_self ..

theorem dropPeer_socks : (s.dropPeer fd c).socks fd = none := Function.update_self ..

end

/-- An event that is still to be processed is one that the staged bytes of its peer ask for. -/
structure Pending (s : State) (e : EpollEvent) (fd : Fin maxfds) (c : Conn) : Prop where
  fd_eq : e.fd = fd
  sock : s.socks fd = some c
  interest : (s.interest fd).isSome
  tracks : Tracks (s.table fd) c
  read : e.epollin = true → (s.table fd).sendbufEnd ≤ (s.table fd).sendptr
  write : e.epollout = true → (s.table fd).sendptr < (s.table fd).sendbufEnd

theorem pending (I : Inv s) (L : Live listenerFd s) (he : s.events = e :: rest)
    (hl : e.fd ≠ listenerFd) : ∃ fd c, Pending { s with events := rest } e fd c := by
  obtain ⟨m, hm, hin, hout⟩ := L.pending e (he ▸ List.mem_cons_self)
  cases hc : s.socks e.fd with
  | none =>
    rw [L.free hl hc] at hm
    cases hm
  | some c =>
    obtain ⟨hlt, hint⟩ := L.opened hc
    obtain rfl := Option.some.inj (hint.symm.trans hm)
    have hi : (s.interest e.fd).isSome := by
      rw [hint]
      rfl
    exact ⟨⟨e.fd, hlt⟩, c, rfl, hc, hi, I.peer ⟨e.fd, hlt⟩ hc,
      fun h => interest_wantRead.mp (hin h), fun h => interest_wantWrite.mp (hout h)⟩

theorem Pending.moves {fd : Fin maxfds} (P : Pending s e fd c) {r : RecvResult} {r' : SendResult}
    (hr : s.recvOk e.fd r = true) (hr' : s.sendOk e.fd r' = true) (hne : r ≠ .error)
    (hne' : r' ≠ .error) (hrun : s.halted = none) :
    (s.servePeer e r r').halted = none ∧
      MovesAt s.socks (s.servePeer e r r').socks fd := by
  rw [P.fd_eq, State.recvOk, P.sock] at hr
  rw [State.servePeer]
  split
  · next hin =>
    rw [P.fd_eq]
    rcases recv_moves P.tracks (P.read hin) hr hne with ⟨q, bytes, hx, hmoves⟩ | ⟨hx, hdone⟩
    · rw [recvPeer_moved P.interest P.sock hx]
      exact ⟨hrun, .update P.sock hmoves⟩
    · rw [recvPeer_closed P.interest P.sock hx]
      exact ⟨hrun, .update P.sock (.closed hdone)⟩
  split
  · next hout =>
    have hle : ∀ nsent, r' = .count nsent →
        nsent ≤ (s.table fd).sendbufEnd - (s.table fd).sendptr := by
      rintro nsent rfl
      simp only [State.sendOk, P.fd_eq, fd.isLt, dif_pos, Bool.and_eq_true,
        decide_eq_true_eq] at hr'
      exact hr'.2
    obtain ⟨q, bytes, hx⟩ := send_moves P.tracks.ok (P.write hout) hle hne'
    rw [P.fd_eq, sendPeer_moved P.interest P.sock hx]
    exact ⟨hrun, .update P.sock (.wrote bytes)⟩
  · exact ⟨hrun, .same _⟩

/-- Every call returns `EAGAIN`. -/
theorem Pending.again {fd : Fin maxfds} (P : Pending s e fd c) (hrun : s.halted = none) :
    (s.servePeer e .again .again).halted = none ∧
      (s.servePeer e .again .again).events = s.events ∧
      (s.servePeer e .again .again).socks = s.socks := by
  have hsame : Function.update s.socks fd (some c) = s.socks := by
    rw [← P.sock, Function.update_eq_self]
  rw [State.servePeer]
  split
  · next hin =>
    rw [P.fd_eq, recvPeer_moved P.interest P.sock (recv_again P.tracks.ok (P.read hin)),
      Conn.received_nil]
    exact ⟨hrun, rfl, hsame⟩
  split
  · next hout =>
    rw [P.fd_eq, sendPeer_moved P.interest P.sock (send_again P.tracks.ok (P.write hout)),
      Conn.wrote_nil]
    exact ⟨hrun, rfl, hsame⟩
  · exact ⟨hrun, rfl, rfl⟩

/-! ## Coming to the top of the loop -/

/-- What is left of a batch passes with nothing moved. -/
theorem settles (hr : (epollServer listenerFd).Reach Machine.anyStep s) (hrun : s.halted = none) :
    ∃ t, Relation.ReflTransGen (eventServer listenerFd).Stutter s t ∧
      (epollServer listenerFd).Reach Machine.anyStep t ∧ Top t ∧ t.socks = s.socks := by
  induction hev : s.events generalizing s with
  | nil => exact ⟨s, .refl, hr, ⟨hrun, hev⟩, rfl⟩
  | cons e rest ih =>
    -- The first event is dealt with.
    have hstep : ∃ a u, exec listenerFd s a = some u ∧ a.succeeds = true ∧ a.accepts = none ∧
        u.halted = none ∧ u.events = rest ∧ u.socks = s.socks := by
      by_cases hl : e.fd = listenerFd
      · refine ⟨.accept .again, { s with events := rest }, ?_, rfl, rfl, hrun, rfl, rfl⟩
        simp only [exec, hev]
        exact if_pos ⟨hrun, hl, rfl⟩
      · obtain ⟨I, L⟩ := reach_inv hr
        obtain ⟨fd, c, P⟩ := pending I (L hrun) hev hl
        refine ⟨.serve .again .again, _, ?_, rfl, rfl, P.again hrun⟩
        have hr : s.recvOk e.fd .again = true := by
          rw [P.fd_eq, State.recvOk, P.sock]
          rfl
        have hr' : s.sendOk e.fd .again = true := by
          rw [P.fd_eq, State.sendOk, P.sock]
          rfl
        simp only [exec, hev]
        exact if_pos ⟨hrun, hl, hr, hr'⟩
    obtain ⟨a, u, hx, hsucceeds, haccepts, hrun', hev', hsocks⟩ := hstep
    obtain ⟨t, hst, hreach, htop, hsocks'⟩ := ih (.step hr trivial hx) hrun' hev'
    exact ⟨t, .head ⟨a, hx, hsucceeds, haccepts, hsocks⟩ hst, hreach, htop, hsocks'.trans hsocks⟩

/-- `epoll_wait` reports one event. -/
theorem Top.wait (ht : Top s) (hb : s.batchOk [e] = true) :
    (eventServer listenerFd).Stutter s { s with events := [e] } :=
  ⟨.epollWait [e], if_pos ⟨ht.1, ht.2, hb⟩, rfl, rfl, rfl⟩

theorem Top.serves (ht : Top s) (I : Inv s) (L : Live listenerFd s) {fd : Fin maxfds}
    (hc : s.socks fd = some c) :
    ∃ e r r' t, s.batchOk [e] = true ∧
      exec listenerFd { s with events := [e] } (.serve r r') = some t ∧ r ≠ .error ∧
      r' ≠ .error ∧ t.socks fd ≠ some c := by
  obtain ⟨e, r, r', t, B⟩ := brings_on I L hc
  have hl : e.fd ≠ listenerFd := B.fd_eq ▸ L.fd_ne hc
  have hs : { s with events := [] } = s := by rw [← ht.2]
  refine ⟨e, r, r', _, B.batch, if_pos ⟨ht.1, hl, B.recv.1, B.send.1⟩, B.recv.2, B.send.2, ?_⟩
  rw [hs, B.eq]
  rcases B.peer with ⟨q, c', rfl, -, hne, -⟩ | ⟨rfl, -⟩
  · exact fun heq => hne (Option.some.inj (setPeer_socks.symm.trans heq))
  · intro heq
    cases dropPeer_socks.symm.trans heq

/-- The listener stays registered for `EPOLLIN`. -/
theorem listens (h : (epollServer listenerFd).Reach Machine.anyStep s) :
    s.halted = none → s.interest listenerFd = some fdStatusR := by
  refine h.invariant_with (J := fun s => Inv s ∧ (s.halted = none → Live listenerFd s))
    (I := fun s => s.halted = none → s.interest listenerFd = some fdStatusR) reach_inv
    (fun _ => by simp [epollServer, init]) ?_
  rintro s t a ⟨I, L⟩ ih - hx hrun'
  cases a with
  | epollWait events =>
    simp only [epollServer, exec, Option.ite_none_right_eq_some, Option.some.injEq] at hx
    obtain ⟨⟨hrun, -⟩, rfl⟩ := hx
    exact ih hrun
  | accept r =>
    cases hev : s.events with
    | nil => simp [epollServer, exec, hev] at hx
    | cons e rest =>
      simp only [epollServer, exec, hev, Option.ite_none_right_eq_some, Option.some.injEq] at hx
      obtain ⟨⟨hrun, -, hr⟩, rfl⟩ := hx
      obtain ⟨L', -⟩ := (L hrun).tail hev
      rcases acceptPeer_cases L' hr with heq | ⟨_, hh, -⟩ | ⟨fd, stream, q, -, hl, -, -, heq⟩
      · rw [heq]
        exact ih hrun
      · cases hh.symm.trans hrun'
      · rw [heq]
        exact (Function.update_of_ne hl.symm _ _).trans (ih hrun)
  | serve r r' =>
    cases hev : s.events with
    | nil => simp [epollServer, exec, hev] at hx
    | cons e rest =>
      simp only [epollServer, exec, hev, Option.ite_none_right_eq_some, Option.some.injEq] at hx
      obtain ⟨⟨hrun, hl, hr, hr'⟩, rfl⟩ := hx
      obtain ⟨L', -⟩ := (L hrun).tail hev
      have I' : Inv { s with events := rest } := I.frame rfl (fun _ => rfl) rfl
      have he := (L hrun).pending e (hev ▸ List.mem_cons_self)
      obtain ⟨fd, c, hfd, -, O⟩ := servePeer_outcome I' L' hl he hr hr'
      rw [hfd] at hl
      generalize State.servePeer _ _ _ _ = u at O hrun' ⊢
      cases O with
      | idle => exact ih hrun
      | exit => cases hrun'
      | moved => exact (Function.update_of_ne hl.symm _ _).trans (ih hrun)
      | closed => exact (Function.update_of_ne hl.symm _ _).trans (ih hrun)

theorem Top.accepts (ht : Top s) (L : Live listenerFd s)
    (hlistener : s.interest listenerFd = some fdStatusR) {fd : Nat} (hl : fd ≠ listenerFd)
    (hlt : fd < maxfds) (hfree : s.socks fd = none) (stream : List UInt8) :
    ∃ e t, s.batchOk [e] = true ∧
      exec listenerFd { s with events := [e] } (.accept (.fd fd stream)) = some t ∧
      t.socks fd = some ⟨stream, [], []⟩ := by
  have hb : s.batchOk [⟨listenerFd, true, false⟩] = true := by
    simp [State.batchOk, hlistener, fdStatusR]
  have hok : s.acceptOk listenerFd (.fd fd stream) = true := by
    simp [State.acceptOk, hl, hfree]
  have hs : { s with events := [] } = s := by rw [← ht.2]
  refine ⟨_, _, hb, if_pos ⟨ht.1, rfl, hok⟩, ?_⟩
  rw [hs]
  obtain ⟨q, hq, -⟩ := onPeerConnected_turn s.table ⟨fd, hlt⟩ stream
  simp only [State.acceptPeer, onPeerConnected, Nat.not_lt.mpr (Nat.le_of_lt hlt), if_false, hq,
    State.epollCtlAdd, L.free hl hfree, Option.isSome_none, Bool.false_eq_true, Option.getD_some]
  exact Function.update_self ..

/-! ## What the clients rely on -/

theorem exec_moves (hr : (epollServer listenerFd).Reach Machine.anyStep s) (hrun : s.halted = none)
    {a : Label} (hx : exec listenerFd s a = some t) (hsucceeds : a.succeeds = true)
    (haccepts : a.accepts = none) : t.halted = none ∧ ∃ fd, MovesAt s.socks t.socks fd := by
  obtain ⟨I, L⟩ := reach_inv hr
  cases a with
  | epollWait events =>
    simp only [exec, Option.ite_none_right_eq_some, Option.some.injEq] at hx
    obtain ⟨-, rfl⟩ := hx
    exact ⟨hrun, 0, .same 0⟩
  | accept r =>
    cases hev : s.events with
    | nil => simp [exec, hev] at hx
    | cons e rest =>
      simp only [exec, hev, Option.ite_none_right_eq_some, Option.some.injEq] at hx
      obtain ⟨-, rfl⟩ := hx
      cases r with
      | fd newsockfd stream => cases haccepts
      | again => exact ⟨hrun, 0, .same 0⟩
      | error => cases hsucceeds
  | serve r r' =>
    cases hev : s.events with
    | nil => simp [exec, hev] at hx
    | cons e rest =>
      simp only [exec, hev, Option.ite_none_right_eq_some, Option.some.injEq] at hx
      obtain ⟨⟨-, hl, hr, hr'⟩, rfl⟩ := hx
      obtain ⟨fd, c, P⟩ := pending I (L hrun) hev hl
      obtain ⟨hne, hne'⟩ := of_decide_eq_true hsucceeds
      obtain ⟨hrun', M⟩ := P.moves hr hr' hne hne' hrun
      exact ⟨hrun', fd, M⟩

theorem exec_accepts (hr : (epollServer listenerFd).Reach Machine.anyStep s)
    (hrun : s.halted = none) {n : Nat} {stream : List UInt8}
    (hx : exec listenerFd s (.accept (.fd n stream)) = some t) (hlt : n < maxfds)
    (hfree : s.socks n = none) (hopen : t.socks n = some ⟨stream, [], []⟩) :
    t.halted = none ∧ ∀ k, k ≠ n → t.socks k = s.socks k := by
  obtain ⟨-, L⟩ := reach_inv hr
  cases hev : s.events with
  | nil => simp [exec, hev] at hx
  | cons e rest =>
    simp only [exec, hev, Option.ite_none_right_eq_some, Option.some.injEq] at hx
    obtain ⟨⟨-, -, hok⟩, rfl⟩ := hx
    obtain ⟨L', -⟩ := (L hrun).tail hev
    have hok' : { s with events := rest }.acceptOk listenerFd (.fd n stream) = true := hok
    rcases acceptPeer_cases L' hok' with heq | ⟨_, -, -, hsame, -⟩ | ⟨fd, _, q, hr, -, -, -, heq⟩
    · rw [heq] at hopen
      cases hfree.symm.trans hopen
    · cases hfree.symm.trans ((hsame ⟨n, hlt⟩).symm.trans hopen)
    · obtain ⟨rfl, rfl⟩ := AcceptResult.fd.inj hr
      rw [heq]
      exact ⟨hrun, fun k hk => Function.update_of_ne hk _ _⟩

theorem lawful : (eventServer listenerFd).Lawful listenerFd where
  start := rfl
  empty _ := rfl
  served {s fd c} hr hrun hc := by
    obtain ⟨I, L⟩ := reach_inv hr
    obtain ⟨hlt, -⟩ := (L hrun).opened hc
    have T := I.peer ⟨fd, hlt⟩ hc
    exact ⟨T.within, _, T.echoes.output⟩
  step hr hrun hx hsucceeds haccepts := exec_moves hr hrun hx hsucceeds haccepts
  accept {s t a fd stream} hr hrun hx _ haccepts hlt hfree hopen := by
    obtain rfl : a = .accept (.fd fd stream) := by
      rcases a with _ | ⟨_ | _⟩ | _ <;> cases haccepts
      rfl
    exact exec_accepts hr hrun hx hlt hfree hopen
  opens {s fd} hr hrun hl hlt hfree stream := by
    obtain ⟨u, hst, hreach, htop, hsocks⟩ := settles hr hrun
    obtain ⟨-, L⟩ := reach_inv hreach
    obtain ⟨e, t, hb, hx, hopen⟩ := htop.accepts (L htop.1) (listens hreach htop.1) hl hlt
      ((congrFun hsocks fd).trans hfree) stream
    exact ⟨_, Label.accept (.fd fd stream), t, hst.tail (htop.wait hb), hx, rfl, rfl, hopen⟩
  serves {s fd c} hr hrun hc := by
    obtain ⟨u, hst, hreach, htop, hsocks⟩ := settles hr hrun
    obtain ⟨I, L⟩ := reach_inv hreach
    have hc' := (congrFun hsocks fd).trans hc
    obtain ⟨hlt, -⟩ := (L htop.1).opened hc'
    have hc' : u.socks (⟨fd, hlt⟩ : Fin maxfds) = some c := hc'
    obtain ⟨e, r, r', t, hb, hx, hne, hne', hmoved⟩ := htop.serves I (L htop.1) hc'
    exact ⟨_, Label.serve r r', t, hst.tail (htop.wait hb), hx, decide_eq_true ⟨hne, hne'⟩, rfl,
      hmoved⟩

/-- Any number of clients of `simple_client.py` and `epoll_server.c`, the process having the
descriptors in `own` for itself. However the clients, the listener's queue and the loop take turns
and however the bytes are cut, as long as no call fails: the server runs; no connection is reset, no
client finds a wrong acknowledgement, and what one has read is how the answer begins; the clients
are in a state that a run with `thread_server.c` can bring them to; and they can go on until
each has read the whole answer and been closed by the server. -/
theorem epoll_answers_clients {own : List Nat} {n : Nat} (hown : listenerFd ∈ own)
    (hfit : own.length + n ≤ maxfds) {ls : List (EventLabel Label)} {s : EventService State}
    (h : (eventService (eventServer listenerFd) own n).run
      (eventService (eventServer listenerFd) own n).init ls = some s) :
    Answered (eventServer listenerFd) own n s :=
  answered lawful hown hfit h

/-- Two clients; the listener is descriptor 3 and the epoll instance descriptor 4. -/
theorem epoll_answers_clients_two :
    ∃ ls s, (eventService (eventServer 3) [0, 1, 2, 3, 4] 2).run
      (eventService (eventServer 3) [0, 1, 2, 3, 4] 2).init ls = some s ∧
        ∀ c ∈ s.clients, c.main = .closed ∧ c.reader = .done (ascii "bcdbcuf23436bc1111") ∧
          c.sock = .closed := by
  have hrun : (eventService (eventServer 3) [0, 1, 2, 3, 4] 2).run
      (eventService (eventServer 3) [0, 1, 2, 3, 4] 2).init [] = some _ := rfl
  exact (epoll_answers_clients (by decide) (by decide) hrun).goesOn

end KoScripts.Servers.Epoll
