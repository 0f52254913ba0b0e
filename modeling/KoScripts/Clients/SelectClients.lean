import KoScripts.Clients.EventServiceRest
import KoScripts.Servers.SelectDrain

/-! # The clients of select_server.c are answered

As long as no system call fails, the server keeps to what its clients rely on. -/

namespace KoScripts.Servers.Select
open Lib Event Clients

def Label.accepts : Label → Option (Nat × List UInt8)
  | .body (.fd newfd stream) _ _ => some (newfd, stream)
  | _ => none

def Label.succeeds : Label → Bool
  | .select _ _ => true
  | .selectError => false
  | .body a r r' => a ≠ .error ∧ r ≠ .error ∧ r' ≠ .error

/-- `select_server.c` to its clients. -/
def eventServer (listenerFd : Nat) : EventServer State Label where
  machine := selectServer listenerFd
  maxfds := maxfds
  socks := State.socks
  halted := State.halted
  accepts := Label.accepts
  succeeds := Label.succeeds

variable {listenerFd : Nat} {s t : State} {c : Conn}

/-! ## The branches of the body, when the calls succeed -/

/-- The descriptor that is served. -/
structure Ready (s : State) (fd : Fin maxfds) (c : Conn) : Prop where
  fd_eq : s.fd = fd
  sock : s.socks fd = some c
  tracks : Tracks (s.table fd) c
  read : s.fd ∈ s.readfds → (s.table fd).sendbufEnd ≤ (s.table fd).sendptr
  write : s.fd ∈ s.writefds → (s.table fd).sendptr < (s.table fd).sendbufEnd

theorem ready (I : Inv listenerFd s) (hrun : s.halted = none)
    (hrw : s.fd ∈ s.readfds ∧ s.fd ≠ listenerFd ∨ s.fd ∈ s.writefds) :
    ∃ fd c, Ready s fd c := by
  have R := I.rep hrun
  have P := I.pass hrun
  have hsome : ∃ c, s.socks s.fd = some c ∧ s.fd < maxfds := by
    rcases hrw with ⟨hr, hl⟩ | hw
    · exact I.readable hrun hr hl
    · exact (I.writable hrun hw).2.2
  obtain ⟨c, hc, -⟩ := hsome
  obtain ⟨hlt, T, -, hread, hwrite⟩ := R.opened hc
  exact ⟨⟨s.fd, hlt⟩, c, rfl, hc, T,
    fun h => interest_wantRead.mp (hread.mp (P.readable h (Nat.le_refl _))),
    fun h => interest_wantWrite.mp (hwrite.mp (P.writable h (Nat.le_refl _)))⟩

variable {fd : Fin maxfds}

theorem Ready.recv_moves (Y : Ready s fd c) (hrun : s.halted = none) (hr : s.fd ∈ s.readfds)
    (hl : s.fd ≠ listenerFd) {a : AcceptResult} {r : RecvResult} (hok : s.recvOk s.fd r = true)
    (hne : r ≠ .error) :
    (s.readBranch listenerFd a r).next.halted = none ∧
      MovesAt s.socks (s.readBranch listenerFd a r).next.socks fd := by
  rw [Y.fd_eq, State.recvOk, Y.sock] at hok
  rw [next_halted, next_socks, State.readBranch, if_pos hr, if_neg hl, Y.fd_eq]
  rcases Event.recv_moves Y.tracks (Y.read hr) hok hne with ⟨q, bytes, hx, hmoves⟩ | ⟨hx, hdone⟩
  · rw [recvPeer_moved (s := s.serve _) Y.sock hx]
    exact ⟨hrun, .update Y.sock hmoves⟩
  · rw [recvPeer_closed (s := s.serve _) Y.sock hx]
    exact ⟨hrun, .update Y.sock (.closed hdone)⟩

theorem Ready.send_moves (Y : Ready s fd c) (hrun : s.halted = none) (hw : s.fd ∈ s.writefds)
    {r : SendResult} (hok : s.sendOk s.fd r = true) (hne : r ≠ .error) :
    (s.writeBranch r).next.halted = none ∧
      MovesAt s.socks (s.writeBranch r).next.socks fd := by
  have hle : ∀ nsent, r = .count nsent →
      nsent ≤ (s.table fd).sendbufEnd - (s.table fd).sendptr := by
    rintro nsent rfl
    simp only [State.sendOk, Y.fd_eq, fd.isLt, dif_pos, Bool.and_eq_true,
      decide_eq_true_eq] at hok
    exact hok.2
  obtain ⟨q, bytes, hx⟩ := Event.send_moves Y.tracks.ok (Y.write hw) hle hne
  rw [next_halted, next_socks, State.writeBranch, if_pos hw, Y.fd_eq,
    sendPeer_moved (s := s.serve _) Y.sock hx]
  exact ⟨hrun, .update Y.sock (.wrote bytes)⟩

theorem exec_moves (hr : (selectServer listenerFd).Reach Machine.anyStep s) (hrun : s.halted = none)
    {a : Label} (hx : exec listenerFd s a = some t) (hsucceeds : a.succeeds = true)
    (haccepts : a.accepts = none) : t.halted = none ∧ ∃ fd, MovesAt s.socks t.socks fd := by
  have I := reach_inv hr
  cases a with
  | select readfds writefds =>
    simp only [exec, Option.ite_none_right_eq_some, Option.some.injEq] at hx
    obtain ⟨-, rfl⟩ := hx
    exact ⟨hrun, 0, .same 0⟩
  | selectError => cases hsucceeds
  | body a r r' =>
    obtain ⟨ha, hne, hne'⟩ := of_decide_eq_true hsucceeds
    obtain ⟨-, hround⟩ := round_of_exec I hx
    cases hround with
    | read hr hok =>
      by_cases hl : s.fd = listenerFd
      · cases a with
        | fd newfd stream => cases haccepts
        | error => exact absurd rfl ha
        | again =>
          rw [next_halted, next_socks, State.readBranch, if_pos hr, if_pos hl]
          exact ⟨hrun, 0, .same 0⟩
      · rw [if_neg hl] at hok
        obtain ⟨fd, c, Y⟩ := ready I hrun (.inl ⟨hr, hl⟩)
        obtain ⟨hrun', M⟩ := Y.recv_moves hrun hr hl hok hne
        exact ⟨hrun', fd, M⟩
    | write _ hw hok =>
      obtain ⟨fd, c, Y⟩ := ready I hrun (.inr hw)
      obtain ⟨hrun', M⟩ := Y.send_moves hrun hw hok hne'
      exact ⟨hrun', fd, M⟩
    | skip =>
      rw [next_halted, next_socks]
      exact ⟨hrun, 0, .same 0⟩

/-! ## Coming to the top of the loop -/

/-- Every call returns `EAGAIN`. -/
theorem Ready.recv_again (Y : Ready s fd c) (hr : s.fd ∈ s.readfds) (hl : s.fd ≠ listenerFd) :
    (s.readBranch listenerFd .again .again).socks = s.socks := by
  have hsame : Function.update s.socks fd (some c) = s.socks := by
    rw [← Y.sock, Function.update_eq_self]
  rw [State.readBranch, if_pos hr, if_neg hl, Y.fd_eq,
    recvPeer_moved (s := s.serve _) Y.sock (Event.recv_again Y.tracks.ok (Y.read hr)),
    Conn.received_nil]
  exact hsame

theorem Ready.send_again (Y : Ready s fd c) (hw : s.fd ∈ s.writefds) :
    (s.writeBranch .again).socks = s.socks := by
  have hsame : Function.update s.socks fd (some c) = s.socks := by
    rw [← Y.sock, Function.update_eq_self]
  rw [State.writeBranch, if_pos hw, Y.fd_eq,
    sendPeer_moved (s := s.serve _) Y.sock (Event.send_again Y.tracks.ok (Y.write hw)),
    Conn.wrote_nil]
  exact hsame

theorem idle_exec (I : Inv listenerFd s) (hrun : s.halted = none) (hloop : s.looping = true) :
    ∃ t, exec listenerFd s idle = some t := by
  have hok : s.fd ∈ s.readfds → if s.fd = listenerFd then s.acceptOk listenerFd .again = true
      else s.recvOk s.fd .again = true := by
    intro hr
    split
    · rfl
    · next hl =>
      obtain ⟨fd, c, Y⟩ := ready I hrun (.inl ⟨hr, hl⟩)
      rw [Y.fd_eq, State.recvOk, Y.sock]
      rfl
  simp only [exec, idle]
  rw [if_pos ⟨hrun, hloop, hok⟩]
  split
  · exact ⟨_, rfl⟩
  · refine ⟨_, if_pos fun hw => ?_⟩
    -- Then nothing is read.
    have hsame : s.readBranch listenerFd .again .again = s :=
      if_neg fun hr => (I.pass hrun).disjoint hr hw
    obtain ⟨fd, c, Y⟩ := ready I hrun (.inr hw)
    rw [hsame, Y.fd_eq, State.sendOk, Y.sock]
    rfl

theorem idle_spec (hr : (selectServer listenerFd).Reach Machine.anyStep s) (hrun : s.halted = none)
    (hloop : s.looping = true) :
    ∃ t, (selectServer listenerFd).exec s idle = some t ∧ t.halted = none ∧ t.fd = s.fd + 1 ∧
      t.socks = s.socks := by
  have I := reach_inv hr
  obtain ⟨t, hx⟩ := idle_exec I hrun hloop
  obtain ⟨hrun', -⟩ := exec_moves hr hrun hx rfl rfl
  refine ⟨t, hx, hrun', ?_⟩
  obtain ⟨-, hround⟩ := round_of_exec I hx
  have hnext : ∀ {u : State}, u.next.halted = none → u.next.fd = u.fd + 1 := by
    intro u hu
    rw [next_halted] at hu
    rw [State.next, if_pos hu]
  cases hround with
  | read hr hok =>
    have F := (readBranch_handled I hrun hr hok).frame (next_halted.symm.trans hrun')
    refine ⟨(hnext hrun').trans (congrArg (· + 1) F.loop), ?_⟩
    rw [next_socks]
    by_cases hl : s.fd = listenerFd
    · rw [State.readBranch, if_pos hr, if_pos hl]
      rfl
    · obtain ⟨fd, c, Y⟩ := ready I hrun (.inl ⟨hr, hl⟩)
      exact Y.recv_again hr hl
  | write _ hw hok =>
    have F := (writeBranch_handled I hrun hw hok).frame (next_halted.symm.trans hrun')
    refine ⟨(hnext hrun').trans (congrArg (· + 1) F.loop), ?_⟩
    rw [next_socks]
    obtain ⟨fd, c, Y⟩ := ready I hrun (.inr hw)
    exact Y.send_again hw
  | skip => exact ⟨hnext hrun', next_socks⟩

/-- What is left of a pass goes by with nothing moved. -/
theorem settles (hr : (selectServer listenerFd).Reach Machine.anyStep s) (hrun : s.halted = none) :
    ∃ t, Relation.ReflTransGen (eventServer listenerFd).Stutter s t ∧
      (selectServer listenerFd).Reach Machine.anyStep t ∧ Top t ∧ t.socks = s.socks := by
  induction hn : fdSetsize - s.fd generalizing s with
  | zero =>
    -- Behind the last descriptor the pass is over.
    have hbound := ((reach_inv hr).rep hrun).bound
    have hend : ¬s.fd ≤ s.fdsetMax := by omega
    have hloop : s.looping = false := by
      rw [State.looping, decide_eq_false hend, Bool.false_and]
    exact ⟨s, .refl, hr, ⟨hrun, hloop⟩, rfl⟩
  | succ n ih =>
    cases hloop : s.looping with
    | false => exact ⟨s, .refl, hr, ⟨hrun, hloop⟩, rfl⟩
    | true =>
      obtain ⟨t, hx, hrun', hfd, hsocks⟩ := idle_spec hr hrun hloop
      have hn' : fdSetsize - t.fd = n := by omega
      obtain ⟨u, hst, hreach, htop, hsocks'⟩ := ih (.step hr trivial hx) hrun' hn'
      exact ⟨u, .head ⟨idle, hx, rfl, rfl, hsocks⟩ hst, hreach, htop, hsocks'.trans hsocks⟩

/-- The pass comes to the one descriptor that `select` reports. -/
theorem Single.passes {readfds writefds : Finset Nat} {fd : Nat}
    (h : Single s fd readfds writefds) (ht : Top s) :
    Relation.ReflTransGen (eventServer listenerFd).Stutter s (s.at readfds writefds fd) := by
  have hidle : ∀ k ≤ fd, Relation.ReflTransGen (eventServer listenerFd).Stutter
      (s.at readfds writefds 0) (s.at readfds writefds k) := by
    intro k hk
    induction k with
    | zero => exact .refl
    | succ k ih =>
      exact (ih (Nat.le_of_succ_le hk)).tail ⟨idle, h.exec_idle ht hk, rfl, rfl, rfl⟩
  exact .head ⟨.select readfds writefds, h.exec_select ht, rfl, rfl, rfl⟩ (hidle fd (Nat.le_refl fd))

/-! ## Accepting and serving -/

/-- The listener hands out a descriptor that is an index of the table. -/
theorem acceptPeer_fresh {n : Nat} (hlt : n < maxfds) (stream : List UInt8) :
    ∃ q m, s.acceptPeer (.fd n stream) =
      State.setPeer { s with fdsetMax := m } ⟨n, hlt⟩ q ⟨stream, [], []⟩ := by
  obtain ⟨q, hq, -⟩ := onPeerConnected_turn s.table ⟨n, hlt⟩ stream
  have hsmall : ¬(n > s.fdsetMax ∧ n ≥ fdSetsize) := fun h =>
    absurd (Nat.lt_of_lt_of_le hlt (by decide : maxfds ≤ fdSetsize)) (Nat.not_lt.mpr h.2)
  refine ⟨q, if n > s.fdsetMax then n else s.fdsetMax, ?_⟩
  simp only [State.acceptPeer, if_neg hsmall, onPeerConnected, hq]
  rfl

theorem exec_accept {a : AcceptResult} (hrun : s.halted = none) (hloop : s.looping = true)
    (hl : s.fd = listenerFd) (hr : s.fd ∈ s.readfds) (hw : s.fd ∉ s.writefds)
    (hok : s.acceptOk listenerFd a = true) (hx : (s.serve true).acceptPeer a = t)
    (hrun' : t.halted = none) (hw' : t.fd ∉ t.writefds) :
    (selectServer listenerFd).exec s (.body a .again .again) = some t.next := by
  have hread : s.readBranch listenerFd a .again = t := by
    rw [State.readBranch, if_pos hr, if_pos hl]
    exact hx
  have hwrite : t.writeBranch .again = t := if_neg hw'
  have hguard : s.fd ∈ s.readfds →
      if s.fd = listenerFd then s.acceptOk listenerFd a = true
      else s.recvOk s.fd .again = true := by
    intro _
    rw [if_pos hl]
    exact hok
  simp only [selectServer, exec]
  rw [if_pos ⟨hrun, hloop, hguard⟩, hread, if_neg (not_not.mpr hrun'),
    if_pos fun h => absurd h hw, hwrite]

theorem setPeer_socks {q : PeerState} : (s.setPeer fd q c).socks fd = some c :=
  Function.update_self ..

theorem dropPeer_socks : (s.dropPeer fd c).socks fd = none := Function.update_self ..

theorem Top.accepts (ht : Top s) (R : Rep listenerFd s) {n : Nat} (hl : n ≠ listenerFd)
    (hlt : n < maxfds) (hfree : s.socks n = none) (stream : List UInt8) :
    ∃ u t, Relation.ReflTransGen (eventServer listenerFd).Stutter s u ∧
      (selectServer listenerFd).exec u (.body (.fd n stream) .again .again) = some t ∧
      t.socks n = some ⟨stream, [], []⟩ := by
  have h := single_read R.listener.1 R.listenerLe
  have hok : (s.at {listenerFd} ∅ listenerFd).acceptOk listenerFd (.fd n stream) = true := by
    simp [State.acceptOk, State.at, hl, hfree]
  obtain ⟨q, m, hq⟩ := acceptPeer_fresh
    (s := (s.at {listenerFd} ∅ listenerFd).serve true) hlt stream
  refine ⟨_, _, h.passes ht, exec_accept ht.1 (h.looping (Nat.le_refl _)) rfl
    (Finset.mem_singleton_self _) (Finset.notMem_empty _) hok hq ht.1 (Finset.notMem_empty _), ?_⟩
  rw [next_socks]
  exact setPeer_socks

theorem Top.serves (ht : Top s) (R : Rep listenerFd s) (hc : s.socks fd = some c) :
    ∃ u r r' t, Relation.ReflTransGen (eventServer listenerFd).Stutter s u ∧
      (selectServer listenerFd).exec u (.body .again r r') = some t ∧ r ≠ .error ∧ r' ≠ .error ∧
      t.socks fd ≠ some c := by
  obtain ⟨readfds, writefds, r, r', t, B⟩ := brings_on R ht hc
  refine ⟨_, r, r', _, B.single.passes ht, B.exec, B.recv, B.send, ?_⟩
  rw [next_socks]
  rcases B.peer with ⟨q, c', rfl, -, hne, -⟩ | ⟨rfl, -⟩
  · exact fun heq => hne (Option.some.inj (setPeer_socks.symm.trans heq))
  · intro heq
    cases dropPeer_socks.symm.trans heq

/-! ## What the clients rely on -/

theorem exec_accepts (hr : (selectServer listenerFd).Reach Machine.anyStep s)
    (hrun : s.halted = none) {n : Nat} {stream : List UInt8} {r : RecvResult} {r' : SendResult}
    (hx : exec listenerFd s (.body (.fd n stream) r r') = some t) (hne : r ≠ .error)
    (hne' : r' ≠ .error) (hlt : n < maxfds) (hfree : s.socks n = none)
    (hopen : t.socks n = some ⟨stream, [], []⟩) :
    t.halted = none ∧ ∀ k, k ≠ n → t.socks k = s.socks k := by
  have I := reach_inv hr
  -- A step that moves a connection opens none.
  have hmoves : ∀ {fd : Nat}, ¬MovesAt s.socks t.socks fd := by
    intro fd M
    by_cases hfd : n = fd
    · subst hfd
      cases (M.free hfree).symm.trans hopen
    · cases ((M.others n hfd).trans hfree).symm.trans hopen
  obtain ⟨-, hround⟩ := round_of_exec I hx
  cases hround with
  | read hr hok =>
    by_cases hl : s.fd = listenerFd
    · obtain ⟨q, m, hq⟩ := acceptPeer_fresh (s := s.serve true) hlt stream
      rw [next_halted, next_socks, State.readBranch, if_pos hr, if_pos hl, hq]
      exact ⟨hrun, fun k hk => Function.update_of_ne hk _ _⟩
    · rw [if_neg hl] at hok
      obtain ⟨fd, c, Y⟩ := ready I hrun (.inl ⟨hr, hl⟩)
      exact absurd (Y.recv_moves hrun hr hl hok hne).2 hmoves
  | write _ hw hok =>
    obtain ⟨fd, c, Y⟩ := ready I hrun (.inr hw)
    exact absurd (Y.send_moves hrun hw hok hne').2 hmoves
  | skip =>
    rw [next_socks, hfree] at hopen
    cases hopen

theorem lawful (hsize : listenerFd < fdSetsize) : (eventServer listenerFd).Lawful listenerFd where
  start := if_neg (Nat.not_le.mpr hsize)
  empty _ := rfl
  served hr hrun hc := by
    obtain ⟨_, T, -⟩ := ((reach_inv hr).rep hrun).opened hc
    exact ⟨T.within, _, T.echoes.output⟩
  step hr hrun hx hsucceeds haccepts := exec_moves hr hrun hx hsucceeds haccepts
  accept {s t a fd stream} hr hrun hx hsucceeds haccepts hlt hfree hopen := by
    obtain ⟨r, r', rfl⟩ : ∃ r r', a = .body (.fd fd stream) r r' := by
      rcases a with _ | _ | ⟨_ | _, r, r'⟩ <;> cases haccepts
      exact ⟨r, r', rfl⟩
    obtain ⟨-, hne, hne'⟩ := of_decide_eq_true hsucceeds
    exact exec_accepts hr hrun hx hne hne' hlt hfree hopen
  opens {s fd} hr hrun hl hlt hfree stream := by
    obtain ⟨u, hst, hreach, htop, hsocks⟩ := settles hr hrun
    have hfree' := (congrFun hsocks fd).trans hfree
    obtain ⟨v, t, hst', hx, hopen⟩ :=
      htop.accepts ((reach_inv hreach).rep htop.1) hl hlt hfree' stream
    exact ⟨v, Label.body (.fd fd stream) .again .again, t, hst.trans hst', hx, rfl, rfl, hopen⟩
  serves {s fd c} hr hrun hc := by
    obtain ⟨u, hst, hreach, htop, hsocks⟩ := settles hr hrun
    have R := (reach_inv hreach).rep htop.1
    have hc' := (congrFun hsocks fd).trans hc
    obtain ⟨hlt, -⟩ := R.opened hc'
    have hc' : u.socks (⟨fd, hlt⟩ : Fin maxfds) = some c := hc'
    obtain ⟨v, r, r', t, hst', hx, hne, hne', hmoved⟩ := htop.serves R hc'
    exact ⟨v, Label.body .again r r', t, hst.trans hst', hx,
      decide_eq_true ⟨by simp, hne, hne'⟩, rfl, hmoved⟩

/-- Any number of clients of `simple_client.py` and `select_server.c`, whose listener is on a
descriptor that `FD_SET` takes. However the clients, the listener's queue and the passes of the loop
take turns and however the bytes are cut, as long as no call fails: the server runs; no connection
is reset, no client finds a wrong acknowledgement, and what one has read is how the answer begins;
the clients are in a state that a run with `thread_server.c` can bring them to; and they can go
on until each has read the whole answer and been closed by the server. -/
theorem select_answers_clients (hsize : listenerFd < fdSetsize) {own : List Nat} {n : Nat}
    (hown : listenerFd ∈ own) (hfit : own.length + n ≤ maxfds) {ls : List (EventLabel Label)}
    {s : EventService State}
    (h : (eventService (eventServer listenerFd) own n).run
      (eventService (eventServer listenerFd) own n).init ls = some s) :
    Answered (eventServer listenerFd) own n s :=
  answered (lawful hsize) hown hfit h

/-- Two clients; the listener is descriptor 3. -/
theorem select_answers_clients_two :
    ∃ ls s, (eventService (eventServer 3) [0, 1, 2, 3] 2).run
      (eventService (eventServer 3) [0, 1, 2, 3] 2).init ls = some s ∧
        ∀ c ∈ s.clients, c.main = .closed ∧ c.reader = .done (ascii "bcdbcuf23436bc1111") ∧
          c.sock = .closed := by
  have hrun : (eventService (eventServer 3) [0, 1, 2, 3] 2).run
      (eventService (eventServer 3) [0, 1, 2, 3] 2).init [] = some _ := rfl
  exact (select_answers_clients (by decide) (by decide) (by decide) hrun).goesOn

end KoScripts.Servers.Select
