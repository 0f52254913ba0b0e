import KoScripts.Servers.Epoll

/-! # The invariant of the epoll loop

`Inv` is what holds of every connection, open or closed, in every state; `Live` is what holds while
the process runs: the mask of every open descriptor is the one its staged bytes ask for, and the
events still to be processed are events of these masks. The two make each handler run on a
well-formed peer, in a branch that its mask allows. -/

namespace KoScripts.Servers.Epoll
open Lib Event

structure Inv (s : State) : Prop where
  peer : ∀ (fd : Fin maxfds) {c}, s.socks fd = some c → Tracks (s.table fd) c
  done : ∀ c ∈ s.closed, c.Done

structure Live (listenerFd : Nat) (s : State) : Prop where
  listener : s.socks listenerFd = none
  opened : ∀ {fd c}, s.socks fd = some c →
    ∃ h : fd < maxfds, s.interest fd = some (s.table ⟨fd, h⟩).interest
  free : ∀ {fd}, fd ≠ listenerFd → s.socks fd = none → s.interest fd = none
  nodup : (s.events.map (·.fd)).Nodup
  pending : ∀ e ∈ s.events, ∃ m, s.interest e.fd = some m ∧
    (e.epollin = true → m.wantRead = true) ∧ (e.epollout = true → m.wantWrite = true)

section
variable {listenerFd : Nat} {s t : State} {fd : Fin maxfds} {c c' : Conn} {q : PeerState}

/-! ## Frames -/

theorem Inv.frame (H : Inv s) (ht : t.table = s.table)
    (hs : ∀ fd : Fin maxfds, t.socks fd = s.socks fd) (hc : t.closed = s.closed) : Inv t where
  peer fd c h := by
    rw [hs] at h
    rw [ht]
    exact H.peer fd h
  done c h := H.done c (hc ▸ h)

theorem Inv.halt (H : Inv s) (e : Halt) : Inv (s.halt e) := H.frame rfl (fun _ => rfl) rfl

theorem Live.tail (L : Live listenerFd s) {e : EpollEvent} {rest : List EpollEvent}
    (he : s.events = e :: rest) :
    Live listenerFd { s with events := rest } ∧ e.fd ∉ rest.map (·.fd) := by
  have hn := L.nodup
  rw [he, List.map_cons, List.nodup_cons] at hn
  exact ⟨⟨L.listener, L.opened, L.free, hn.2,
    fun e' h => L.pending e' (he ▸ List.mem_cons_of_mem _ h)⟩, hn.1⟩

/-! ## Updating one peer -/

/-- `s` with the entry, the connection and the mask of one peer replaced. -/
def State.setPeer (s : State) (fd : Fin maxfds) (q : PeerState) (c : Conn) : State :=
  { s with
    table := Function.update s.table fd q
    socks := Function.update s.socks fd (some c)
    interest := Function.update s.interest fd (some q.interest) }

theorem Inv.setPeer (H : Inv s) (T : Tracks q c) : Inv (s.setPeer fd q c) where
  peer fd' c' h := by
    by_cases hfd : fd' = fd
    · subst hfd
      simp only [State.setPeer, Function.update_self, Option.some.injEq] at h ⊢
      subst h
      exact T
    · have hne : (fd' : Nat) ≠ fd := fun h => hfd (Fin.ext h)
      simp only [State.setPeer, Function.update_of_ne hfd, Function.update_of_ne hne] at h ⊢
      exact H.peer fd' h
  done := H.done

theorem Live.setPeer (L : Live listenerFd s) (hl : (fd : Nat) ≠ listenerFd)
    (hp : (fd : Nat) ∉ s.events.map (·.fd)) : Live listenerFd (s.setPeer fd q c) where
  listener := by
    simp only [State.setPeer, Function.update_of_ne hl.symm]
    exact L.listener
  opened {fd' c'} h := by
    by_cases hfd : fd' = fd
    · subst hfd
      exact ⟨fd.isLt, by simp [State.setPeer]⟩
    · simp only [State.setPeer, Function.update_of_ne hfd] at h ⊢
      obtain ⟨hlt, hi⟩ := L.opened h
      have hne : (⟨fd', hlt⟩ : Fin maxfds) ≠ fd := fun h => hfd (congrArg Fin.val h)
      exact ⟨hlt, by rw [hi, Function.update_of_ne hne]⟩
  free {fd'} hne h := by
    by_cases hfd : fd' = fd
    · subst hfd; simp [State.setPeer] at h
    · simp only [State.setPeer, Function.update_of_ne hfd] at h ⊢
      exact L.free hne h
  nodup := L.nodup
  pending e he := by
    have hne : e.fd ≠ fd := fun h => hp (h ▸ List.mem_map_of_mem he)
    simp only [State.setPeer, Function.update_of_ne hne]
    exact L.pending e he

/-- After a handler that asks for the events of its peer, the peer is registered for them. -/
theorem register_interest (hi : (s.interest fd).isSome) :
    { s with
      table := Function.update s.table fd q
      socks := Function.update s.socks fd (some c) }.register fd q.interest = s.setPeer fd q c := by
  simp only [State.register, interest_ne_norw, State.epollCtlMod, hi, if_true, Option.getD_some]
  rfl

/-! ## Closing one peer -/

/-- `s` after the connection of one peer has been closed. -/
def State.dropPeer (s : State) (fd : Fin maxfds) (c : Conn) : State :=
  { s with
    interest := Function.update s.interest fd none
    socks := Function.update s.socks fd none
    closed := c :: s.closed }

theorem Inv.dropPeer (H : Inv s) (hc : c.Done) : Inv (s.dropPeer fd c) where
  peer fd' c' h := by
    by_cases hfd : (fd' : Nat) = fd
    · simp [State.dropPeer, hfd] at h
    · simp only [State.dropPeer, Function.update_of_ne hfd] at h ⊢
      exact H.peer fd' h
  done c' h := by
    rcases List.mem_cons.mp h with rfl | h
    · exact hc
    · exact H.done c' h

theorem Live.dropPeer (L : Live listenerFd s) (hp : (fd : Nat) ∉ s.events.map (·.fd)) :
    Live listenerFd (s.dropPeer fd c) where
  listener := by
    by_cases hl : listenerFd = fd
    · simp [State.dropPeer, hl]
    · simp only [State.dropPeer, Function.update_of_ne hl]
      exact L.listener
  opened {fd' c'} h := by
    by_cases hfd : fd' = fd
    · simp [State.dropPeer, hfd] at h
    · simp only [State.dropPeer, Function.update_of_ne hfd] at h ⊢
      exact L.opened h
  free {fd'} hne h := by
    by_cases hfd : fd' = fd
    · simp [State.dropPeer, hfd]
    · simp only [State.dropPeer, Function.update_of_ne hfd] at h ⊢
      exact L.free hne h
  nodup := L.nodup
  pending e he := by
    have hne : e.fd ≠ fd := fun h => hp (h ▸ List.mem_map_of_mem he)
    simp only [State.dropPeer, Function.update_of_ne hne]
    exact L.pending e he

/-- After a handler that asks for no event, the connection is closed. -/
theorem register_norw (hi : (s.interest fd).isSome) (hc : s.socks fd = some c) :
    s.register fd fdStatusNORW = s.dropPeer fd c := by
  simp [State.register, fdStatusNORW, State.epollCtlDel, hi, State.close, hc, State.dropPeer]

/-! ## accept -/

/-- What the `accept` branch can do: nothing, end the process, or set up a fresh peer. -/
theorem acceptPeer_cases (L : Live listenerFd s) {r : AcceptResult}
    (hr : s.acceptOk listenerFd r = true) :
    s.acceptPeer r = s ∨
    (∃ e, (s.acceptPeer r).halted = some e ∧ (s.acceptPeer r).table = s.table ∧
      (∀ fd : Fin maxfds, (s.acceptPeer r).socks fd = s.socks fd) ∧
      (s.acceptPeer r).closed = s.closed ∧
      (e = .abort → ∃ stream, r = .fd maxfds stream)) ∨
    ∃ (fd : Fin maxfds) (stream : List UInt8) (q : PeerState), r = .fd fd stream ∧
      (fd : Nat) ≠ listenerFd ∧ s.socks fd = none ∧ Tracks q ⟨stream, [], []⟩ ∧
      s.acceptPeer r = s.setPeer fd q ⟨stream, [], []⟩ := by
  cases r with
  | again => exact .inl rfl
  | error => exact .inr (.inl ⟨.exit, rfl, rfl, fun _ => rfl, rfl, nofun⟩)
  | fd n stream =>
    obtain ⟨hl, hn⟩ : n ≠ listenerFd ∧ s.socks n = none := by simpa [State.acceptOk] using hr
    have hsocks : ∀ fd : Fin maxfds, maxfds ≤ n →
        Function.update s.socks n (some ⟨stream, [], []⟩) fd = s.socks fd := fun fd h =>
      Function.update_of_ne (Nat.ne_of_lt (Nat.lt_of_lt_of_le fd.isLt h)) _ _
    rcases Nat.lt_trichotomy n maxfds with hlt | rfl | hgt
    · refine .inr (.inr ⟨⟨n, hlt⟩, stream, ?_⟩)
      obtain ⟨q, hq, T⟩ := onPeerConnected_turn s.table ⟨n, hlt⟩ stream
      refine ⟨q, rfl, hl, hn, T, ?_⟩
      simp only [State.acceptPeer, onPeerConnected, Nat.not_lt.mpr (Nat.le_of_lt hlt), if_false, hq,
        State.epollCtlAdd, L.free hl hn, Option.isSome_none, Bool.false_eq_true, Option.getD_some,
        State.setPeer]
    · refine .inr (.inl ⟨.abort, ?_⟩)
      have h := onPeerConnected_of_ge s.table (Nat.le_refl maxfds)
      simp only [State.acceptPeer, onPeerConnected, h, gt_iff_lt, Nat.lt_irrefl, if_false]
      exact ⟨rfl, rfl, fun fd => hsocks fd (Nat.le_refl _), rfl, fun _ => ⟨stream, rfl⟩⟩
    · refine .inr (.inl ⟨.exit, ?_⟩)
      simp only [State.acceptPeer, gt_iff_lt, hgt, if_true]
      exact ⟨rfl, rfl, fun fd => hsocks fd (Nat.le_of_lt hgt), rfl, nofun⟩

/-! ## The events of a peer -/

/-- What serving a peer can do: nothing, end the process with `exit(1)`, move the peer on, or close
it with its stream read to the end and everything staged sent. -/
inductive ServeOutcome (s : State) (fd : Fin maxfds) (c : Conn) : State → Prop
  | idle : ServeOutcome s fd c s
  | exit : ServeOutcome s fd c (s.halt .exit)
  | moved {q : PeerState} {c' : Conn} : Tracks q c' → ServeOutcome s fd c (s.setPeer fd q c')
  | closed : c.Done → ServeOutcome s fd c (s.dropPeer fd c)

theorem recvPeer_outcome (H : Inv s) (L : Live listenerFd s) (hc : s.socks fd = some c)
    {r : RecvResult} (hr : c.recvOk r = true) : ServeOutcome s fd c (s.recvPeer fd r) := by
  obtain ⟨_, hint⟩ := L.opened hc
  have hi : (s.interest fd).isSome := by rw [hint]; rfl
  have turn := onPeerReadyRecv_turn (H.peer fd hc) hr
  rw [State.recvPeer, onPeerReadyRecv]
  generalize Event.onPeerReadyRecv s.table fd r = out at turn ⊢
  cases turn with
  | exit => exact .exit
  | moved T =>
    simp only [hc, Option.map_some]
    rw [register_interest hi]
    exact .moved T
  | closed D =>
    have hsame : Function.update s.socks fd (some c) = s.socks := by
      rw [← hc, Function.update_eq_self]
    simp only [hc, Option.map_some, Conn.received_nil, hsame]
    rw [register_norw hi hc]
    exact .closed D

theorem sendPeer_outcome (H : Inv s) (L : Live listenerFd s) (hc : s.socks fd = some c)
    (hst : (s.table fd).sendptr < (s.table fd).sendbufEnd)
    {r : SendResult} (hr : s.sendOk fd r = true) : ServeOutcome s fd c (s.sendPeer fd r) := by
  obtain ⟨_, hint⟩ := L.opened hc
  have hi : (s.interest fd).isSome := by rw [hint]; rfl
  have turn := onPeerReadySend_turn (H.peer fd hc) hst (r := r) fun nsent h => by
    subst h
    simp only [State.sendOk, fd.isLt, dif_pos, Bool.and_eq_true, decide_eq_true_eq] at hr
    exact hr.2
  rw [State.sendPeer, onPeerReadySend]
  generalize Event.onPeerReadySend s.table fd r = out at turn ⊢
  cases turn with
  | exit => exact .exit
  | moved T =>
    simp only [hc, Option.map_some]
    rw [register_interest hi]
    exact .moved T
  | closed D =>
    have hsame : Function.update s.socks fd (some c) = s.socks := by
      rw [← hc, Function.update_eq_self]
    simp only [hc, Option.map_some, Conn.wrote_nil, hsame]
    rw [register_norw hi hc]
    exact .closed D

/-- Serving an event of the batch: the descriptor is open, and the branch taken is one its mask
allows. -/
theorem servePeer_outcome (H : Inv s) (L : Live listenerFd s) {e : EpollEvent}
    (hl : e.fd ≠ listenerFd)
    (he : ∃ m, s.interest e.fd = some m ∧ (e.epollin = true → m.wantRead = true) ∧
      (e.epollout = true → m.wantWrite = true))
    {r : RecvResult} {r' : SendResult} (hr : s.recvOk e.fd r = true)
    (hr' : s.sendOk e.fd r' = true) :
    ∃ (fd : Fin maxfds) (c : Conn), e.fd = fd ∧ s.socks fd = some c ∧
      ServeOutcome s fd c (s.servePeer e r r') := by
  obtain ⟨m, hm, _, hout⟩ := he
  cases hc : s.socks e.fd with
  | none => rw [L.free hl hc] at hm; cases hm
  | some c =>
    obtain ⟨hlt, hint⟩ := L.opened hc
    refine ⟨⟨e.fd, hlt⟩, c, rfl, hc, ?_⟩
    rw [State.servePeer]
    split
    · rw [State.recvOk, hc] at hr
      exact recvPeer_outcome H L hc hr
    split
    · rw [hint, Option.some.injEq] at hm
      refine sendPeer_outcome H L hc (interest_wantWrite.mp ?_) hr'
      rw [hm]
      exact hout ‹_›
    · exact .idle

end

/-! ## Every run keeps the invariant -/

section
variable {listenerFd : Nat} {s t : State}

theorem Inv.init : Inv (init listenerFd) := ⟨nofun, nofun⟩

theorem Live.init : Live listenerFd (init listenerFd) where
  listener := rfl
  opened := nofun
  free hne _ := by
    simp [Epoll.init, Function.update_of_ne hne]
  nodup := List.nodup_nil
  pending := nofun

theorem Live.batch (L : Live listenerFd s) {events : List EpollEvent}
    (hb : s.batchOk events = true) : Live listenerFd { s with events } := by
  simp only [State.batchOk, Bool.and_eq_true, decide_eq_true_eq, List.all_eq_true,
    Option.any_eq_true, Bool.or_eq_true, Bool.not_eq_true'] at hb
  refine ⟨L.listener, L.opened, L.free, hb.1, ?_⟩
  intro e he
  obtain ⟨m, hm, hin, hout⟩ := hb.2 e he
  exact ⟨m, hm, fun h => by simpa [h] using hin, fun h => by simpa [h] using hout⟩

theorem acceptPeer_preserves (H : Inv s) (L : Live listenerFd s) (hrun : s.halted = none)
    {r : AcceptResult} (hr : s.acceptOk listenerFd r = true) :
    Inv (s.acceptPeer r) ∧ ((s.acceptPeer r).halted = none → Live listenerFd (s.acceptPeer r)) ∧
      ((s.acceptPeer r).halted = some .abort → ∃ stream, r = .fd maxfds stream) := by
  rcases acceptPeer_cases L hr with heq | ⟨e, hh, ht, hs, hcl, hab⟩ |
    ⟨fd, stream, q, -, hl, hn, T, heq⟩
  · rw [heq]
    exact ⟨H, fun _ => L, fun h => by simp [hrun] at h⟩
  · refine ⟨H.frame ht hs hcl, fun h => by simp [hh] at h, ?_⟩
    intro h
    rw [hh, Option.some.injEq] at h
    exact hab h
  · rw [heq]
    refine ⟨H.setPeer T, fun _ => L.setPeer hl fun hmem => ?_,
      fun h => by simp [State.setPeer, hrun] at h⟩
    obtain ⟨e, he, hfd⟩ := List.mem_map.mp hmem
    obtain ⟨m, hm, -⟩ := L.pending e he
    rw [hfd, L.free hl hn] at hm
    cases hm

theorem ServeOutcome.preserves {fd : Fin maxfds} {c : Conn} (O : ServeOutcome s fd c t)
    (H : Inv s) (L : Live listenerFd s) (hrun : s.halted = none) (hl : (fd : Nat) ≠ listenerFd)
    (hfresh : (fd : Nat) ∉ s.events.map (·.fd)) :
    Inv t ∧ (t.halted = none → Live listenerFd t) ∧ t.halted ≠ some .abort := by
  cases O with
  | idle => exact ⟨H, fun _ => L, by simp [hrun]⟩
  | exit => exact ⟨H.halt _, nofun, nofun⟩
  | moved T => exact ⟨H.setPeer T, fun _ => L.setPeer hl hfresh, by simp [State.setPeer, hrun]⟩
  | closed D => exact ⟨H.dropPeer D, fun _ => L.dropPeer hfresh, by simp [State.dropPeer, hrun]⟩

/-- One step: the invariant is kept, and only accepting descriptor `MAXFDS` fails an assertion. -/
theorem exec_preserves (H : Inv s) (L : s.halted = none → Live listenerFd s) {a : Label}
    (h : exec listenerFd s a = some t) :
    Inv t ∧ (t.halted = none → Live listenerFd t) ∧
      (t.halted = some .abort → ∃ stream, a = .accept (.fd maxfds stream)) := by
  cases a with
  | epollWait events =>
    simp only [exec, Option.ite_none_right_eq_some, Option.some.injEq] at h
    obtain ⟨⟨hrun, -, hb⟩, rfl⟩ := h
    exact ⟨H.frame rfl (fun _ => rfl) rfl, fun _ => (L hrun).batch hb,
      fun hab => by simp [hrun] at hab⟩
  | accept r =>
    cases he : s.events with
    | nil => simp [exec, he] at h
    | cons e rest =>
      simp only [exec, he, Option.ite_none_right_eq_some, Option.some.injEq] at h
      obtain ⟨⟨hrun, -, hr⟩, rfl⟩ := h
      obtain ⟨L', -⟩ := (L hrun).tail he
      have H' : Inv { s with events := rest } := H.frame rfl (fun _ => rfl) rfl
      obtain ⟨hinv, hlive, hab⟩ := acceptPeer_preserves H' L' hrun hr
      refine ⟨hinv, hlive, ?_⟩
      intro h
      obtain ⟨stream, rfl⟩ := hab h
      exact ⟨stream, rfl⟩
  | serve r r' =>
    cases he : s.events with
    | nil => simp [exec, he] at h
    | cons e rest =>
      simp only [exec, he, Option.ite_none_right_eq_some, Option.some.injEq] at h
      obtain ⟨⟨hrun, hl, hr, hr'⟩, rfl⟩ := h
      obtain ⟨L', hfresh⟩ := (L hrun).tail he
      have H' : Inv { s with events := rest } := H.frame rfl (fun _ => rfl) rfl
      have hpend := (L hrun).pending e (he ▸ List.mem_cons_self)
      obtain ⟨fd, c, hfd, hc, O⟩ := servePeer_outcome H' L' hl hpend hr hr'
      rw [hfd] at hl hfresh
      obtain ⟨hinv, hlive, hab⟩ := O.preserves H' L' hrun hl hfresh
      exact ⟨hinv, hlive, fun h => absurd h hab⟩

theorem reach_inv {G : State → Label → Prop} (h : (epollServer listenerFd).Reach G s) :
    Inv s ∧ (s.halted = none → Live listenerFd s) :=
  h.invariant (I := fun s => Inv s ∧ (s.halted = none → Live listenerFd s))
    ⟨Inv.init, fun _ => Live.init⟩
    fun I _ hx => ⟨(exec_preserves I.1 I.2 hx).1, (exec_preserves I.1 I.2 hx).2.1⟩

/-! ## State and interest -/

/-- `accept` returns descriptors below `MAXFDS`. -/
def FdsBelow : State → Label → Prop
  | _, .accept (.fd newsockfd _) => newsockfd < maxfds
  | _, _ => True

theorem reach_not_abort (h : (epollServer listenerFd).Reach FdsBelow s) :
    s.halted ≠ some .abort := by
  induction h with
  | init => nofun
  | step hr hg hx _ =>
    intro hab
    obtain ⟨I, L⟩ := reach_inv hr
    obtain ⟨stream, rfl⟩ := (exec_preserves I L hx).2.2 hab
    exact Nat.lt_irrefl _ hg

theorem PeerOk.cases {p : PeerState} (h : PeerOk p) :
    (p.state = .initialAck ∧ p.sendptr = 0 ∧ p.sendbufEnd = 1) ∨
    (p.state ≠ .initialAck ∧ p.sendptr = 0 ∧ p.sendbufEnd = 0) ∨
    (p.state ≠ .initialAck ∧ p.sendptr < p.sendbufEnd ∧ p.sendbufEnd ≤ sendbufSize) := by
  by_cases hs : p.state = .initialAck
  · exact .inl ⟨hs, h.ack hs⟩
  rcases Nat.lt_or_ge p.sendptr p.sendbufEnd with hlt | hge
  · exact .inr (.inr ⟨hs, hlt, h.bound⟩)
  · exact .inr (.inl ⟨hs, h.empty hge⟩)

/-- With something staged, the peer is not asked for more before it has been sent. -/
theorem readySend_status {table : Table maxfds} {fd : Nat} {hfd : fd < maxfds} {r : SendResult}
    {reply : Reply maxfds} (hst : (table ⟨fd, hfd⟩).sendptr < (table ⟨fd, hfd⟩).sendbufEnd)
    (hx : onPeerReadySend table fd r = .ok reply) : reply.status ≠ fdStatusRW := by
  intro hst'
  rw [onPeerReadySend, Event.onPeerReadySend, dif_pos hfd] at hx
  simp only [ge_iff_le, Nat.not_le.mpr hst, if_false] at hx
  split at hx
  · cases hx
    cases hst'
  · cases hx
  · split at hx
    · cases hx
      cases hst'
    · cases hx
      cases hst'

/-- In every run over descriptors below `MAXFDS` no assertion fails; at the start of each
`epoll_wait` every open connection is waiting to send its acknowledgement, or has nothing staged,
or has a part of its buffer staged, and is registered for exactly `EPOLLOUT` or `EPOLLIN`
accordingly; and `on_peer_ready_send` never returns `fd_status_RW`. -/
theorem epoll_state_and_interest (h : (epollServer listenerFd).Reach FdsBelow s) :
    s.halted ≠ some .abort ∧
    (s.halted = none → s.events = [] → ∀ fd c, s.socks fd = some c →
      ∃ hfd : fd < maxfds,
        ((s.table ⟨fd, hfd⟩).state = .initialAck ∧ (s.table ⟨fd, hfd⟩).sendptr = 0 ∧
            (s.table ⟨fd, hfd⟩).sendbufEnd = 1 ∨
          (s.table ⟨fd, hfd⟩).state ≠ .initialAck ∧ (s.table ⟨fd, hfd⟩).sendptr = 0 ∧
            (s.table ⟨fd, hfd⟩).sendbufEnd = 0 ∨
          (s.table ⟨fd, hfd⟩).state ≠ .initialAck ∧
            (s.table ⟨fd, hfd⟩).sendptr < (s.table ⟨fd, hfd⟩).sendbufEnd ∧
            (s.table ⟨fd, hfd⟩).sendbufEnd ≤ sendbufSize) ∧
        s.interest fd = some (if (s.table ⟨fd, hfd⟩).staged = [] then fdStatusR else fdStatusW)) ∧
    (s.halted = none → ∀ e rest, s.events = e :: rest → e.fd ≠ listenerFd → e.epollin = false →
      e.epollout = true → ∀ r reply, onPeerReadySend s.table e.fd r = .ok reply →
        reply.status ≠ fdStatusRW) := by
  obtain ⟨I, L⟩ := reach_inv h
  refine ⟨reach_not_abort h, ?_, ?_⟩
  · intro hrun _ fd c hc
    obtain ⟨hfd, hint⟩ := (L hrun).opened hc
    have hok := (I.peer ⟨fd, hfd⟩ hc).ok
    refine ⟨hfd, PeerOk.cases hok, ?_⟩
    rw [hint, PeerState.interest]
    by_cases hst : (s.table ⟨fd, hfd⟩).staged = []
    · rw [if_neg (Nat.not_lt.mpr (hok.staged_eq_nil.mp hst)), if_pos hst]
    · rw [if_pos (Nat.lt_of_not_le fun h => hst (hok.staged_eq_nil.mpr h)), if_neg hst]
  · -- the mask asks for `EPOLLOUT`, so something is staged
    intro hrun e rest he hl _ hout r reply hx
    obtain ⟨m, hm, -, hw⟩ := (L hrun).pending e (he ▸ List.mem_cons_self)
    cases hc : s.socks e.fd with
    | none =>
      rw [(L hrun).free hl hc] at hm
      cases hm
    | some c =>
      obtain ⟨hfd, hint⟩ := (L hrun).opened hc
      rw [hint, Option.some.injEq] at hm
      exact readySend_status (interest_wantWrite.mp (hm ▸ hw hout)) hx

/-! ## Refinement of the sequential server -/

/-- In every reachable state, what has been sent on a connection and what is staged for it are
together what `handle_connection` of the sequential server sends for the bytes received so far,
however they were cut; and on a connection closed after `recv` returned 0, all that it sends for
the peer's whole stream has been sent. -/
theorem epoll_refines_sequential (h : (epollServer listenerFd).Reach Machine.anyStep s) :
    (∀ (fd : Fin maxfds) (c : Conn), s.socks fd = some c →
      ∀ chunks : List (List UInt8), chunks.flatten = c.consumed →
        (Sequential.handleConnection Blocking.allSent (chunks.map .data)).sent =
          c.sent ++ (s.table fd).staged) ∧
    (∀ c ∈ s.closed, c.consumed = c.stream ∧
      ∀ chunks : List (List UInt8), chunks.flatten = c.stream →
        Sequential.handleConnection Blocking.allSent (chunks.map .data ++ [.eof]) =
          ⟨c.sent, .returned⟩) := by
  obtain ⟨I, -⟩ := reach_inv h
  refine ⟨?_, fun c hc => ⟨(I.done c hc).all, ?_⟩⟩
  · intro fd c hc chunks hch
    rw [Sequential.handleConnection, Blocking.handleConnection_data, hch]
    exact (I.peer fd hc).echoes.output.symm
  · intro chunks hch
    rw [Sequential.handleConnection, Blocking.handleConnection_data_eof, hch, (I.done c hc).sent]

end

/-- One connection on descriptor 5 from its first byte to its end, with a send that accepts
nothing, and the descriptor handed out again. -/
def reuseRun : List Label := [
  .epollWait [⟨3, true, false⟩], .accept (.fd 5 [0x5e, 0x61, 0x24]),
  .epollWait [⟨5, false, true⟩], .serve .again (.count 1),
  .epollWait [⟨5, true, false⟩], .serve (.data [0x5e, 0x61]) .again,
  .epollWait [⟨5, false, true⟩], .serve .again (.count 0),
  .epollWait [⟨5, false, true⟩], .serve .again (.count 1),
  .epollWait [⟨5, true, false⟩], .serve (.data [0x24]) .again,
  .epollWait [⟨5, true, false⟩, ⟨3, true, false⟩], .serve .eof .again,
  .accept (.fd 5 [])]

theorem epoll_refines_sequential_reuseRun :
    ∃ s, (epollServer 3).run (init 3) reuseRun = some s ∧
      ∀ c ∈ s.closed, c.consumed = c.stream ∧
        ∀ chunks : List (List UInt8), chunks.flatten = c.stream →
          Sequential.handleConnection Blocking.allSent (chunks.map .data ++ [.eof]) =
            ⟨c.sent, .returned⟩ := by
  have hrun : ((epollServer 3).run (init 3) reuseRun).isSome := by decide +kernel
  obtain ⟨s, hs⟩ := Option.isSome_iff_exists.mp hrun
  exact ⟨s, hs, (epoll_refines_sequential (Machine.Reach.init.run hs)).2⟩

/-- A connection on descriptor 5 of which three bytes are received and one of the two replies to
them is sent; a `send` and a `recv` return `EAGAIN` on the way. -/
def shortRun : List Label := [
  .epollWait [⟨3, true, false⟩], .accept (.fd 5 [0x5e, 0x61, 0x62, 0x24]),
  .epollWait [⟨5, false, true⟩], .serve .again .again,
  .epollWait [⟨5, false, true⟩], .serve .again (.count 1),
  .epollWait [⟨5, true, false⟩], .serve .again .again,
  .epollWait [⟨5, true, false⟩], .serve (.data [0x5e, 0x61, 0x62]) .again,
  .epollWait [⟨5, false, true⟩], .serve .again (.count 1)]

theorem epoll_state_and_interest_shortRun :
    ∃ s, (epollServer 3).run (init 3) shortRun = some s ∧ s.halted ≠ some .abort ∧
      ∃ hfd : 5 < maxfds, (s.table ⟨5, hfd⟩).staged = [0x63] ∧
        s.interest 5 = some (if (s.table ⟨5, hfd⟩).staged = [] then fdStatusR else fdStatusW) := by
  have hrun : ((epollServer 3).run (init 3) shortRun).map (fun s =>
      (s.halted, s.events, (s.table ⟨5, by decide⟩).staged, (s.socks 5).isSome)) =
        some (none, [], [0x63], true) := by decide +kernel
  obtain ⟨s, hs, h⟩ := Option.map_eq_some_iff.mp hrun
  obtain ⟨hhalted, hevents, hstaged, hsock⟩ := by simpa only [Prod.mk.injEq] using h
  obtain ⟨c, hc⟩ := Option.isSome_iff_exists.mp hsock
  have hbelow : ∀ s, ∀ a ∈ shortRun, FdsBelow s a := by
    simp [shortRun, FdsBelow, maxfds]
  obtain ⟨habort, hpeer, -⟩ := epoll_state_and_interest (Machine.Reach.init.run_of hs hbelow)
  obtain ⟨hfd, -, hint⟩ := hpeer hhalted hevents 5 c hc
  exact ⟨s, hs, habort, hfd, hstaged, hint⟩

end KoScripts.Servers.Epoll
