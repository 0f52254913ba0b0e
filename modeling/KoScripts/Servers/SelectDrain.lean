import KoScripts.Servers.EventDrain
import KoScripts.Servers.EventMoves
import KoScripts.Servers.SelectInvariant

/-! # select_server.c can serve every peer to its end

A pass over one ready descriptor is a round of the loop: the descriptors in front of it are not
ready, and behind it `nready` is 0. The peers are answered as by `sequential_server.c`. -/

namespace KoScripts.Servers.Select
open Lib Event

variable {listenerFd : Nat} {s t : State} {c c' : Conn} {q : PeerState}

/-- In every reachable state of the running process, what has been sent on a connection and what is
staged for it are together what `handle_connection` of the sequential server sends for the bytes
received so far, however they were cut; and on a connection closed after `recv` returned 0, all that
it sends for the peer's whole stream has been sent. -/
theorem select_refines_sequential (h : (selectServer listenerFd).Reach Machine.anyStep s)
    (hrun : s.halted = none) :
    (∀ fd c, s.socks fd = some c → ∃ hfd : fd < maxfds,
      ∀ chunks : List (List UInt8), chunks.flatten = c.consumed →
        (Sequential.handleConnection Blocking.allSent (chunks.map .data)).sent =
          c.sent ++ (s.table ⟨fd, hfd⟩).staged) ∧
    (∀ c ∈ s.closed, c.consumed = c.stream ∧
      ∀ chunks : List (List UInt8), chunks.flatten = c.stream →
        Sequential.handleConnection Blocking.allSent (chunks.map .data ++ [.eof]) =
          ⟨c.sent, .returned⟩) := by
  have R := (reach_inv h).rep hrun
  refine ⟨fun fd c hc => ?_, fun c hc => ⟨(R.done c hc).all, fun chunks hch => ?_⟩⟩
  · obtain ⟨hfd, T, -⟩ := R.opened hc
    refine ⟨hfd, fun chunks hch => ?_⟩
    rw [Sequential.handleConnection, Blocking.handleConnection_data, hch]
    exact T.echoes.output.symm
  · rw [Sequential.handleConnection, Blocking.handleConnection_data_eof, hch, (R.done c hc).sent]

/-! ## A pass over one descriptor -/

def view : View State maxfds where
  halted := State.halted
  waits s := s.looping = false
  table := State.table
  socks := State.socks
  closed := State.closed

/-- About to call `select`. -/
abbrev Top : State → Prop := view.Top

theorem exec_idle (hrun : s.halted = none) (hloop : s.looping = true) (hr : s.fd ∉ s.readfds)
    (hw : s.fd ∉ s.writefds) :
    (selectServer listenerFd).exec s idle = some { s with fd := s.fd + 1 } := by
  have hread : s.readBranch listenerFd .again .again = s := if_neg hr
  have hwrite : s.writeBranch .again = s := if_neg hw
  simp only [selectServer, exec, idle]
  rw [if_pos ⟨hrun, hloop, fun h => absurd h hr⟩, hread, if_neg (not_not.mpr hrun),
    if_pos fun h => absurd h hw, hwrite, State.next, if_pos hrun]

/-- The state in which the pass comes to `fd`, the only descriptor that is ready. -/
def State.at (s : State) (readfds writefds : Finset Nat) (fd : Nat) : State :=
  { s with readfds, writefds, nready := 1, fd, served := [] }

/-- `select` may report `fd`, and nothing else. -/
structure Single (s : State) (fd : Nat) (readfds writefds : Finset Nat) : Prop where
  card : (readfds.card : Int) + writefds.card = 1
  read : readfds ⊆ s.readfdSet
  write : writefds ⊆ s.writefdSet
  le : fd ≤ s.fdsetMax
  first : ∀ x, x ∈ readfds ∨ x ∈ writefds → fd ≤ x

theorem single_read {fd : Nat} (hr : fd ∈ s.readfdSet) (hle : fd ≤ s.fdsetMax) :
    Single s fd {fd} ∅ where
  card := by simp
  read := Finset.singleton_subset_iff.mpr hr
  write := Finset.empty_subset _
  le := hle
  first x hx := by
    rcases hx with hx | hx
    · exact (Finset.mem_singleton.mp hx).ge
    · exact absurd hx (Finset.notMem_empty x)

theorem single_write {fd : Nat} (hw : fd ∈ s.writefdSet) (hle : fd ≤ s.fdsetMax) :
    Single s fd ∅ {fd} where
  card := by simp
  read := Finset.empty_subset _
  write := Finset.singleton_subset_iff.mpr hw
  le := hle
  first x hx := by
    rcases hx with hx | hx
    · exact absurd hx (Finset.notMem_empty x)
    · exact (Finset.mem_singleton.mp hx).ge

section
variable {fd : Nat} {readfds writefds : Finset Nat}

theorem Single.looping (h : Single s fd readfds writefds) {k : Nat} (hk : k ≤ fd) :
    (s.at readfds writefds k).looping = true := by
  have hle : k ≤ s.fdsetMax := Nat.le_trans hk h.le
  simp [State.looping, State.at, hle]

theorem Single.exec_select (h : Single s fd readfds writefds) (ht : Top s) :
    (selectServer listenerFd).exec s (.select readfds writefds) =
      some (s.at readfds writefds 0) := by
  simp only [selectServer, exec, h.card]
  exact if_pos ⟨ht.1, ht.2, h.read, h.write⟩

theorem Single.exec_idle (h : Single s fd readfds writefds) (ht : Top s) {k : Nat} (hk : k < fd) :
    (selectServer listenerFd).exec (s.at readfds writefds k) idle =
      some (s.at readfds writefds (k + 1)) :=
  Select.exec_idle ht.1 (h.looping (Nat.le_of_lt hk))
    (fun hr => absurd (h.first k (.inl hr)) (Nat.not_le.mpr hk))
    fun hw => absurd (h.first k (.inr hw)) (Nat.not_le.mpr hk)

theorem Single.run (h : Single s fd readfds writefds) (ht : Top s) {l : Label}
    (hx : (selectServer listenerFd).exec (s.at readfds writefds fd) l = some t) :
    ∃ ls, (selectServer listenerFd).run s ls = some t := by
  have hidle : ∀ k ≤ fd, ∃ ls,
      (selectServer listenerFd).run (s.at readfds writefds 0) ls = some (s.at readfds writefds k) := by
    intro k hk
    induction k with
    | zero => exact ⟨[], rfl⟩
    | succ k ih =>
      obtain ⟨ls, hls⟩ := ih (Nat.le_of_succ_le hk)
      refine ⟨ls ++ [idle], ?_⟩
      rw [Machine.run_append hls, Machine.run_cons_of_exec (h.exec_idle ht hk)]
      rfl
  obtain ⟨ls, hls⟩ := hidle fd (Nat.le_refl fd)
  refine ⟨.select readfds writefds :: (ls ++ [l]), ?_⟩
  rw [Machine.run_cons_of_exec (h.exec_select ht), Machine.run_append hls,
    Machine.run_cons_of_exec hx]
  rfl

end

/-! ## A round for one peer -/

theorem exec_send {r : SendResult} (hrun : s.halted = none) (hloop : s.looping = true)
    (hr : s.fd ∉ s.readfds) (hw : s.fd ∈ s.writefds) (hc : s.socks s.fd = some c)
    (hok : s.sendOk s.fd r = true) (hx : (s.serve true).sendPeer s.fd r = t) :
    (selectServer listenerFd).exec s (.body .again .again r) = some t.next := by
  have hread : s.readBranch listenerFd .again .again = s := if_neg hr
  have hwrite : s.writeBranch r = t := by
    rw [State.writeBranch, if_pos hw, hc]
    exact hx
  simp only [selectServer, exec]
  rw [if_pos ⟨hrun, hloop, fun h => absurd h hr⟩, hread, if_neg (not_not.mpr hrun),
    if_pos fun _ => hok, hwrite]

theorem exec_recv {r : RecvResult} (hrun : s.halted = none) (hloop : s.looping = true)
    (hl : s.fd ≠ listenerFd) (hr : s.fd ∈ s.readfds) (hw : s.fd ∉ s.writefds)
    (hc : s.socks s.fd = some c) (hok : c.recvOk r = true)
    (hx : (s.serve true).recvPeer s.fd r = t) (hrun' : t.halted = none) (hw' : t.fd ∉ t.writefds) :
    (selectServer listenerFd).exec s (.body .again r .again) = some t.next := by
  have hread : s.readBranch listenerFd .again r = t := by
    rw [State.readBranch, if_pos hr, if_neg hl, hc]
    exact hx
  have hwrite : t.writeBranch .again = t := if_neg hw'
  have hok' : s.recvOk s.fd r = true := by
    rw [State.recvOk, hc]
    exact hok
  have hguard : s.fd ∈ s.readfds →
      if s.fd = listenerFd then s.acceptOk listenerFd .again = true
      else s.recvOk s.fd r = true := by
    intro _
    rw [if_neg hl]
    exact hok'
  simp only [selectServer, exec]
  rw [if_pos ⟨hrun, hloop, hguard⟩, hread, if_neg (not_not.mpr hrun'),
    if_pos fun h => absurd h hw, hwrite]

section
variable {fd : Fin maxfds}

theorem sendPeer_moved {r : SendResult} {bytes : List UInt8} (hc : s.socks fd = some c)
    (hx : Event.onPeerReadySend s.table fd r =
      .ok ⟨q.interest, Function.update s.table fd q, bytes⟩) :
    s.sendPeer fd r = s.setPeer fd q (c.wrote bytes) := by
  rw [State.sendPeer, onPeerReadySend, hx]
  simp only [hc, Option.map_some]
  exact registerOrClose_interest

theorem recvPeer_moved {r : RecvResult} {bytes : List UInt8} (hc : s.socks fd = some c)
    (hx : Event.onPeerReadyRecv s.table fd r =
      .ok ⟨q.interest, Function.update s.table fd q, bytes⟩) :
    s.recvPeer fd r = s.setPeer fd q (c.received bytes) := by
  rw [State.recvPeer, onPeerReadyRecv, hx]
  simp only [hc, Option.map_some]
  exact registerOrClose_interest

theorem recvPeer_closed {r : RecvResult} (hc : s.socks fd = some c)
    (hx : Event.onPeerReadyRecv s.table fd r = .ok ⟨fdStatusNORW, s.table, []⟩) :
    s.recvPeer fd r = s.dropPeer fd c := by
  have hsame : Function.update s.socks fd (some c) = s.socks := by
    rw [← hc, Function.update_eq_self]
  rw [State.recvPeer, onPeerReadyRecv, hx]
  simp only [hc, Option.map_some, Conn.received_nil, hsame]
  exact registerOrClose_norw hc

/-- The end of a pass that has moved a peer on. -/
theorem round_setPeer {readfds writefds : Finset Nat} (hrun : s.halted = none)
    (hc : s.socks fd = some c) (hstream : c'.stream = c.stream)
    (hwork : work q c' < work (s.table fd) c) :
    Top (((s.at readfds writefds fd).serve true).setPeer fd q c').next ∧
      view.Round fd c s (((s.at readfds writefds fd).serve true).setPeer fd q c').next := by
  have hnext : (((s.at readfds writefds fd).serve true).setPeer fd q c').next =
      { ((s.at readfds writefds fd).serve true).setPeer fd q c' with fd := fd + 1 } := if_pos hrun
  rw [hnext]
  exact ⟨⟨hrun, Bool.and_false _⟩, .set hc rfl rfl rfl hstream hwork⟩

/-- The end of a pass that has closed a peer. -/
theorem round_dropPeer {readfds writefds : Finset Nat} (hrun : s.halted = none)
    (hdone : c.Done) :
    Top (((s.at readfds writefds fd).serve true).dropPeer fd c).next ∧
      view.Round fd c s (((s.at readfds writefds fd).serve true).dropPeer fd c).next := by
  have hnext : (((s.at readfds writefds fd).serve true).dropPeer fd c).next =
      { ((s.at readfds writefds fd).serve true).dropPeer fd c with fd := fd + 1 } := if_pos hrun
  rw [hnext]
  exact ⟨⟨hrun, Bool.and_false _⟩, .drop rfl rfl hdone⟩

/-- A pass over an open peer alone, and the results of the calls with which it brings the peer
on. -/
structure Brings (listenerFd : Nat) (s : State) (fd : Fin maxfds) (c : Conn)
    (readfds writefds : Finset Nat) (r : RecvResult) (r' : SendResult) (t : State) : Prop where
  single : Single s fd readfds writefds
  exec : (selectServer listenerFd).exec (s.at readfds writefds fd) (.body .again r r') = some t.next
  recv : r ≠ .error
  send : r' ≠ .error
  peer : (∃ q c', t = ((s.at readfds writefds fd).serve true).setPeer fd q c' ∧
      c'.stream = c.stream ∧ c' ≠ c ∧ work q c' < work (s.table fd) c) ∨
    t = ((s.at readfds writefds fd).serve true).dropPeer fd c ∧ c.Done

theorem brings_on (R : Rep listenerFd s) (ht : Top s) (hc : s.socks fd = some c) :
    ∃ readfds writefds r r' t, Brings listenerFd s fd c readfds writefds r r' t := by
  obtain ⟨hlt, T, hle, hread, hwrite⟩ := R.opened hc
  have T : Tracks (s.table fd) c := T
  have hl : (fd : Nat) ≠ listenerFd := by
    intro hl
    rw [hl, R.listener.2.2] at hc
    cases hc
  have hmem : (fd : Nat) ∈ ({(fd : Nat)} : Finset Nat) := Finset.mem_singleton_self _
  have hnot : (fd : Nat) ∉ (∅ : Finset Nat) := Finset.notMem_empty _
  have hloop {readfds writefds : Finset Nat} (h : Single s fd readfds writefds) :=
    h.looping (Nat.le_refl fd)
  cases advance T with
  | @send q hst hx hwork =>
    have h := single_write (hwrite.mpr (interest_wantWrite.mpr hst)) hle
    have hok : (s.at ∅ {(fd : Nat)} fd).sendOk fd
        (.count ((s.table fd).sendbufEnd - (s.table fd).sendptr)) = true := by
      simp [State.sendOk, State.at, hc]
    exact ⟨_, _, _, _, _, h, exec_send ht.1 (hloop h) hnot hmem hc hok (sendPeer_moved hc hx),
      by simp, by simp, .inl ⟨q, _, rfl, rfl, wrote_ne T.ok hst, hwork⟩⟩
  | @recv q bytes hst hdata hx hwork =>
    have h := single_read (hread.mpr (interest_wantRead.mpr hst)) hle
    exact ⟨_, _, _, _, _, h,
      exec_recv ht.1 (hloop h) hl hmem hnot hc hdata (recvPeer_moved hc hx) ht.1 hnot,
      by simp, by simp, .inl ⟨q, _, rfl, rfl, received_ne hdata, hwork⟩⟩
  | eof hst heof hx hdone =>
    have h := single_read (hread.mpr (interest_wantRead.mpr hst)) hle
    exact ⟨_, _, _, _, _, h,
      exec_recv ht.1 (hloop h) hl hmem hnot hc heof (recvPeer_closed hc hx) ht.1 hnot,
      by simp, by simp, .inr ⟨rfl, hdone⟩⟩

theorem round_advance (R : Rep listenerFd s) (ht : Top s) (hc : s.socks fd = some c) :
    ∃ ls t, (selectServer listenerFd).run s ls = some t ∧ Top t ∧
      view.Round fd c s t := by
  obtain ⟨readfds, writefds, r, r', t, B⟩ := brings_on R ht hc
  obtain ⟨ls, hls⟩ := B.single.run ht B.exec
  refine ⟨ls, t.next, hls, ?_⟩
  rcases B.peer with ⟨q, c', rfl, hstream, -, hwork⟩ | ⟨rfl, hdone⟩
  · exact round_setPeer ht.1 hc hstream hwork
  · exact round_dropPeer ht.1 hdone

end

theorem rounds : view.Rounds (selectServer listenerFd) where
  below hr ht hc := by
    obtain ⟨hlt, -⟩ := ((reach_inv hr).rep ht.1).opened hc
    exact hlt
  round {s fd c} hr ht hc := by
    have R := (reach_inv hr).rep ht.1
    obtain ⟨hlt, -⟩ := R.opened hc
    have hc' : s.socks (⟨fd, hlt⟩ : Fin maxfds) = some c := hc
    exact round_advance R ht hc'

/-- From every state in which the process runs and is about to call `select`, it can serve all the
open connections to the ends of their streams: none is left out of the set in which its next event
would be seen. -/
theorem select_drains (h : (selectServer listenerFd).Reach Machine.anyStep s)
    (hrun : s.halted = none) (hselect : s.looping = false) :
    ∃ ls t, (selectServer listenerFd).run s ls = some t ∧ t.halted = none ∧
      (∀ fd, t.socks fd = none) ∧ ∀ fd c, s.socks fd = some c →
        ∃ c' ∈ t.closed, c'.stream = c.stream ∧ c'.consumed = c.stream ∧
          c'.sent = replies c.stream := by
  obtain ⟨ls, t, hls, ht, hnone, hended⟩ := rounds.drain h ⟨hrun, hselect⟩
  refine ⟨ls, t, hls, ht.1, hnone, fun fd c hc => ?_⟩
  obtain ⟨c', hc', hstream, hdone⟩ := hended fd c hc
  exact ⟨c', hc', hstream, hdone.all.trans hstream, hstream ▸ hdone.sent⟩

/-- Two connections are open, one of them with a short `send` behind it, and the pass is over. -/
def stagedRun : List Label := [
  .select {3} ∅, idle, idle, idle, .body (.fd 4 [0x5e, 0x61, 0x24]) .again .again,
  .select {3} ∅, idle, idle, idle, .body (.fd 5 []) .again .again,
  .select ∅ {4}, idle, idle, idle, idle, .body .again .again (.count 0)]

theorem select_drains_stagedRun :
    ∃ s t ls, (selectServer 3).run (init 3) stagedRun = some s ∧ (s.socks 4).isSome = true ∧
      (selectServer 3).run s ls = some t ∧ ∀ fd, t.socks fd = none := by
  have hrun : ((selectServer 3).run (init 3) stagedRun).map (fun s =>
      (s.halted, s.looping, (s.socks 4).isSome)) = some (none, false, true) := by decide +kernel
  obtain ⟨s, hs, h⟩ := Option.map_eq_some_iff.mp hrun
  obtain ⟨ls, t, ht, -, hnone, -⟩ := select_drains (Machine.Reach.init.run hs)
    (congrArg (·.1) h) (congrArg (·.2.1) h)
  exact ⟨s, t, ls, hs, congrArg (·.2.2) h, ht, hnone⟩

theorem select_refines_sequential_stagedRun :
    ∃ s, (selectServer 3).run (init 3) stagedRun = some s ∧ ∀ fd c, s.socks fd = some c →
      ∃ hfd : fd < maxfds, ∀ chunks : List (List UInt8), chunks.flatten = c.consumed →
        (Sequential.handleConnection Blocking.allSent (chunks.map .data)).sent =
          c.sent ++ (s.table ⟨fd, hfd⟩).staged := by
  have hrun : ((selectServer 3).run (init 3) stagedRun).map (·.halted) = some none := by
    decide +kernel
  obtain ⟨s, hs, h⟩ := Option.map_eq_some_iff.mp hrun
  exact ⟨s, hs, (select_refines_sequential (Machine.Reach.init.run hs) h).1⟩

end KoScripts.Servers.Select
