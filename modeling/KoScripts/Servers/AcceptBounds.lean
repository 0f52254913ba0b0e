import KoScripts.Servers.EpollInvariant
import KoScripts.Servers.SelectInvariant

/-! # The descriptors that the event servers admit

`main` checks a descriptor from `accept` before the peer is recorded, with `> MAXFDS` in
`epoll_server.c` and against `FD_SETSIZE` in `select_server.c`; the handlers assert that it is below
`MAXFDS`. Between the two checks there is one descriptor in the first server and there are 24 in the
second. -/

namespace KoScripts.Servers
open Lib Event

/-! ## epoll_server.c -/

namespace Epoll
variable {listenerFd : Nat} {s t : State} {a : Label} {n : Nat} {stream : List UInt8}

/-- `accept` does not return `MAXFDS`. -/
def Admissible : State → Label → Prop
  | _, .accept (.fd newsockfd _) => newsockfd ≠ maxfds
  | _, _ => True

theorem acceptPeer_maxfds : (s.acceptPeer (.fd maxfds stream)).halted = some .abort := by
  have h := onPeerConnected_of_ge s.table (Nat.le_refl maxfds)
  simp only [State.acceptPeer, onPeerConnected, h, gt_iff_lt, Nat.lt_irrefl, if_false]
  rfl

/-- A descriptor is recorded only if it is an index of the table. -/
theorem acceptPeer_refuses (hn : n ≠ maxfds) : n < maxfds ∨
    (s.acceptPeer (.fd n stream)).halted = some .exit ∧
      (s.acceptPeer (.fd n stream)).table = s.table := by
  rcases Nat.lt_or_gt_of_ne hn with h | h
  · exact .inl h
  · refine .inr ?_
    simp only [State.acceptPeer, gt_iff_lt, h, if_true]
    exact ⟨rfl, rfl⟩

theorem exec_abort_iff (h : (epollServer listenerFd).Reach Machine.anyStep s)
    (hx : exec listenerFd s a = some t) : t.halted = some .abort ↔ ¬Admissible s a := by
  obtain ⟨I, L⟩ := reach_inv h
  constructor
  · intro hab hadm
    obtain ⟨stream, rfl⟩ := (exec_preserves I L hx).2.2 hab
    exact hadm rfl
  · intro hadm
    cases a with
    | accept r =>
      cases r with
      | fd n stream =>
        obtain rfl : n = maxfds := not_not.mp hadm
        simp only [exec] at hx
        split at hx
        · cases hx
        · obtain ⟨-, hx⟩ := Option.ite_none_right_eq_some.mp hx
          cases hx
          exact acceptPeer_maxfds
      | again | error => exact absurd trivial hadm
    | epollWait | serve => exact absurd trivial hadm

end Epoll

/-! ## select_server.c -/

namespace Select
variable {listenerFd : Nat} {s t : State} {a : Label} {n : Nat} {stream : List UInt8}

/-- Where the listener is served, `accept` does not return a descriptor from `MAXFDS` to
`FD_SETSIZE`. -/
def Admissible (listenerFd : Nat) (s : State) : Label → Prop
  | .body (.fd newfd _) _ _ =>
    s.fd ∈ s.readfds → s.fd = listenerFd → newfd < maxfds ∨ fdSetsize ≤ newfd
  | _ => True

/-- Where the listener is not served, it does not matter what `accept` would return. -/
theorem admissible_body {r : AcceptResult} {r' : RecvResult} {r'' : SendResult}
    (h : s.fd ∈ s.readfds → s.fd ≠ listenerFd) : Admissible listenerFd s (.body r r' r'') := by
  cases r with
  | fd => exact fun hr hl => absurd hl (h hr)
  | again | error => trivial

/-- The two checks of `main` are together one against `FD_SETSIZE`, because `fdset_max` is below
it. -/
theorem range_check_iff (h : s.fdsetMax < fdSetsize) :
    n > s.fdsetMax ∧ n ≥ fdSetsize ↔ fdSetsize ≤ n := by
  omega

theorem acceptPeer_abort_iff (hb : s.fdsetMax < fdSetsize) (hrun : s.halted = none) :
    (s.acceptPeer (.fd n stream)).halted = some .abort ↔ ¬(n < maxfds ∨ fdSetsize ≤ n) := by
  rcases Nat.lt_or_ge n fdSetsize with hlt | hge
  · have hcheck : ¬(n > s.fdsetMax ∧ n ≥ fdSetsize) := fun hc => Nat.not_lt.mpr hc.2 hlt
    rcases Nat.lt_or_ge n maxfds with hfd | hfd
    · obtain ⟨q, hq, -⟩ := onPeerConnected_turn s.table ⟨n, hfd⟩ stream
      simp only [State.acceptPeer, if_neg hcheck, onPeerConnected, hq, State.register, hrun]
      exact iff_of_false (fun h => by cases h) (not_not.mpr (.inl hfd))
    · have hq := onPeerConnected_of_ge s.table hfd
      simp only [State.acceptPeer, if_neg hcheck, onPeerConnected, hq]
      refine iff_of_true rfl ?_
      omega
  · simp only [State.acceptPeer, if_pos ((range_check_iff hb).mpr hge)]
    exact iff_of_false (fun h => by cases h) (not_not.mpr (.inr hge))

/-- A descriptor is recorded only if it is an index of the table. -/
theorem acceptPeer_refuses (hb : s.fdsetMax < fdSetsize) (hn : n < maxfds ∨ fdSetsize ≤ n) :
    n < maxfds ∨ (s.acceptPeer (.fd n stream)).halted = some .exit ∧
      (s.acceptPeer (.fd n stream)).table = s.table := by
  rcases hn with h | h
  · exact .inl h
  · refine .inr ?_
    simp only [State.acceptPeer, if_pos ((range_check_iff hb).mpr h)]
    exact ⟨rfl, rfl⟩

@[simp] theorem registerOrClose_halted {fd : Nat} {status : FdStatus} :
    (s.registerOrClose fd status).halted = s.halted := by
  unfold State.registerOrClose
  split <;> rfl

theorem recvPeer_not_abort {c : Conn} (fd : Fin maxfds) (R : Rep listenerFd s)
    (hrun : s.halted = none) (hc : s.socks fd = some c) {r : RecvResult} (hr : c.recvOk r = true) :
    (s.recvPeer fd r).halted ≠ some .abort := by
  obtain ⟨_, T, -⟩ := R.opened hc
  have turn := onPeerReadyRecv_turn T hr
  rw [State.recvPeer, onPeerReadyRecv]
  generalize Event.onPeerReadyRecv s.table fd r = out at turn ⊢
  intro h
  cases turn with
  | exit => cases h
  | moved | closed =>
    simp only [registerOrClose_halted, hrun] at h
    cases h

theorem sendPeer_not_abort {c : Conn} (fd : Fin maxfds) (R : Rep listenerFd s)
    (hrun : s.halted = none) (hc : s.socks fd = some c) (hw : (fd : Nat) ∈ s.writefdSet)
    {r : SendResult} (hr : s.sendOk fd r = true) : (s.sendPeer fd r).halted ≠ some .abort := by
  obtain ⟨_, T, -, -, hwr⟩ := R.opened hc
  have turn := onPeerReadySend_turn T (interest_wantWrite.mp (hwr.mp hw)) (r := r)
    fun nsent h => by
      subst h
      simp only [State.sendOk, fd.isLt, dif_pos, Bool.and_eq_true, decide_eq_true_eq] at hr
      exact hr.2
  rw [State.sendPeer, onPeerReadySend]
  generalize Event.onPeerReadySend s.table fd r = out at turn ⊢
  intro h
  cases turn with
  | exit => cases h
  | moved | closed =>
    simp only [registerOrClose_halted, hrun] at h
    cases h

/-- The read branch fails an assertion only in serving the listener. -/
theorem readBranch_abort_iff (I : Inv listenerFd s) (hrun : s.halted = none) {r : AcceptResult}
    {r' : RecvResult} (r'' : SendResult) (hr : s.fd ∈ s.readfds)
    (hok : if s.fd = listenerFd then s.acceptOk listenerFd r = true else s.recvOk s.fd r' = true) :
    (s.readBranch listenerFd r r').halted = some .abort ↔
      ¬Admissible listenerFd s (.body r r' r'') := by
  rw [State.readBranch, if_pos hr]
  by_cases hl : s.fd = listenerFd
  · rw [if_pos hl]
    cases r with
    | fd n stream =>
      rw [acceptPeer_abort_iff (s := s.serve true) (I.rep hrun).bound hrun]
      exact not_congr ⟨fun h _ _ => h, fun h => h hr hl⟩
    | again =>
      refine iff_of_false ?_ (not_not.mpr trivial)
      rw [State.acceptPeer, State.serve, hrun]
      intro h
      cases h
    | error => exact iff_of_false (fun h => by cases h) (not_not.mpr trivial)
  · rw [if_neg hl] at hok ⊢
    obtain ⟨c, hc, hlt⟩ := I.readable hrun hr hl
    rw [State.recvOk, hc] at hok
    refine iff_of_false (recvPeer_not_abort ⟨s.fd, hlt⟩ (I.rep hrun).serve hrun hc hok) ?_
    exact not_not.mpr (admissible_body fun _ => hl)

theorem writeBranch_not_abort (I : Inv listenerFd s) (hrun : s.halted = none) {r : SendResult}
    (hw : s.fd ∈ s.writefds) (hok : s.sendOk s.fd r = true) :
    (s.writeBranch r).halted ≠ some .abort := by
  obtain ⟨-, hset, c, hc, hlt⟩ := I.writable hrun hw
  rw [State.writeBranch, if_pos hw]
  exact sendPeer_not_abort ⟨s.fd, hlt⟩ (I.rep hrun).serve hrun hc hset hok

theorem exec_abort_iff (h : (selectServer listenerFd).Reach Machine.anyStep s)
    (hx : exec listenerFd s a = some t) :
    t.halted = some .abort ↔ ¬Admissible listenerFd s a := by
  have I := reach_inv h
  cases a with
  | select readfds writefds =>
    obtain ⟨⟨hrun, -⟩, hx⟩ := Option.ite_none_right_eq_some.mp hx
    cases hx
    refine iff_of_false ?_ (not_not.mpr trivial)
    simp only [hrun]
    nofun
  | selectError =>
    obtain ⟨-, hx⟩ := Option.ite_none_right_eq_some.mp hx
    cases hx
    exact iff_of_false nofun (not_not.mpr trivial)
  | body r r' r'' =>
    obtain ⟨hrun, hround⟩ := round_of_exec I hx
    cases hround with
    | read hr hok =>
      rw [next_halted]
      exact readBranch_abort_iff I hrun r'' hr hok
    | write hr hw hok =>
      rw [next_halted]
      refine iff_of_false (writeBranch_not_abort I hrun hw hok) ?_
      exact not_not.mpr (admissible_body fun hc => absurd hc hr)
    | skip hr hw =>
      rw [next_halted, hrun]
      exact iff_of_false nofun (not_not.mpr (admissible_body fun hc => absurd hc hr))

end Select

/-! ## Both servers -/

/-- In the runs in which `accept` returns no descriptor between the two checks, no assertion fails,
and every descriptor is an index of the table or is refused before the peer is recorded. In any
state, a descriptor between the checks fails the assertion. -/
theorem accept_in_bounds (listenerFd : Nat) :
    ((∀ s, (Epoll.epollServer listenerFd).Reach Epoll.Admissible s → s.halted ≠ some .abort) ∧
      (∀ s a t, (Epoll.epollServer listenerFd).Reach Machine.anyStep s →
        Epoll.exec listenerFd s a = some t →
          (t.halted = some .abort ↔ ¬Epoll.Admissible s a)) ∧
      (∀ (s : Epoll.State) n stream, n ≠ Epoll.maxfds → n < Epoll.maxfds ∨
        (s.acceptPeer (.fd n stream)).halted = some .exit ∧
          (s.acceptPeer (.fd n stream)).table = s.table)) ∧
    ((∀ s, (Select.selectServer listenerFd).Reach (Select.Admissible listenerFd) s →
        s.halted ≠ some .abort) ∧
      (∀ s a t, (Select.selectServer listenerFd).Reach Machine.anyStep s →
        Select.exec listenerFd s a = some t →
          (t.halted = some .abort ↔ ¬Select.Admissible listenerFd s a)) ∧
      (∀ s n stream, (Select.selectServer listenerFd).Reach Machine.anyStep s → s.halted = none →
        n < Select.maxfds ∨ Select.fdSetsize ≤ n → n < Select.maxfds ∨
          (s.acceptPeer (.fd n stream)).halted = some .exit ∧
            (s.acceptPeer (.fd n stream)).table = s.table)) := by
  refine ⟨⟨?_, fun s a t => Epoll.exec_abort_iff, fun s n stream => Epoll.acceptPeer_refuses⟩, ?_,
    fun s a t => Select.exec_abort_iff, ?_⟩
  · intro s h
    cases h with
    | init => nofun
    | step hr hg hx => exact fun hab => (Epoll.exec_abort_iff hr.any hx).mp hab hg
  · intro s h
    cases h with
    | init =>
      show (if _ then some _ else none) ≠ _
      split <;> nofun
    | step hr hg hx => exact fun hab => (Select.exec_abort_iff hr.any hx).mp hab hg
  · intro s n stream h hrun
    exact Select.acceptPeer_refuses ((Select.reach_inv h).rep hrun).bound

/-- The listener of `epoll_server.c` is readable and `accept` returns `MAXFDS`. -/
def epollMaxfdsRun : List Epoll.Label := [
  .epollWait [⟨3, true, false⟩], .accept (.fd 16384 [])]

/-- The listener of `select_server.c` is readable and `accept` returns `MAXFDS`. -/
def selectMaxfdsRun : List Select.Label := [
  .select {3} ∅, .body .again .again .again, .body .again .again .again,
  .body .again .again .again, .body (.fd 1000 []) .again .again]

/-- Neither server refuses `MAXFDS`, and both abort. -/
theorem accept_maxfds_aborts :
    (∃ s, (Epoll.epollServer 3).Reach Machine.anyStep s ∧ s.halted = some .abort) ∧
    (∃ s, (Select.selectServer 3).Reach Machine.anyStep s ∧ s.halted = some .abort) := by
  have hepoll : ((Epoll.epollServer 3).run (Epoll.init 3) epollMaxfdsRun).map (·.halted) =
      some (some .abort) := by decide +kernel
  have hselect : ((Select.selectServer 3).run (Select.init 3) selectMaxfdsRun).map (·.halted) =
      some (some .abort) := by decide +kernel
  exact ⟨Machine.reach_of_run hepoll, Machine.reach_of_run hselect⟩

end KoScripts.Servers
