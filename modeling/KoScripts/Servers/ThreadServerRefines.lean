import KoScripts.Servers.ThreadServer

/-! # thread_server.c against sequential_server.c

A thread stands at any time where one call of `handle_connection` would stand, on what its own calls
of `recv` and `send` have returned. So the threads together, in any interleaving, do what the
sequential server does with the same peers one after the other, and all that it can do. -/

namespace KoScripts.Servers
open Lib Blocking

/-- What the calls of `send` and `recv` on one accepted socket return. -/
structure Visit where
  sendOk : Nat → Bool
  recvs : List RecvResult

/-- The loop of `main` in `sequential_server.c` over the sockets that `accept` returns: the next one
is accepted when `handle_connection` has returned. -/
def Sequential.main : List Visit → List Served
  | [] => []
  | v :: vs =>
    let served := handleConnection v.sendOk v.recvs
    match served.outcome with
    | .returned => served :: main vs
    | .waiting | .exited => [served]

namespace ThreadServer

variable {s t : Conn} {a : Call} {sendOk : Nat → Bool} {state : InternalState} {bytes : List UInt8}
  {cs : List Conn} {v : Served}

namespace Conn

/-- What the calls of a thread have returned so far, a further `send` failing. -/
def visit (s : Conn) : Visit := ⟨fun k => decide (k < s.sent.length), s.recvs⟩

/-- A thread that is blocked in `recv` or has ended; `none` with bytes of `buf` left, or a `send` to
make or that has not come back from its signal. -/
def served (s : Conn) : Option Served :=
  match s.pc with
  | .recv _ => some ⟨s.sent, .waiting⟩
  | .returned => some ⟨s.sent, .returned⟩
  | .exited => some ⟨s.sent, .exited⟩
  | .ack | .loop .. | .killed => none

end Conn

/-! ## A thread does what a call does -/

theorem resume_served (hv : s.served = some v) : resume sendOk s [] = v := by
  unfold Conn.served at hv
  unfold resume
  split at hv
  · next state hpc =>
    rw [hpc]
    exact Option.some.inj hv
  · next hpc =>
    rw [hpc]
    exact Option.some.inj hv
  · next hpc =>
    rw [hpc]
    exact Option.some.inj hv
  · cases hv
  · cases hv
  · cases hv

/-- What `sendOk` has to say for the steps of a thread to agree with it. -/
structure Fits (sendOk : Nat → Bool) (s : Conn) : Prop where
  before : ∀ k < s.sent.length, sendOk k = true
  ended : s.pc = .returned ∨ s.pc = .exited → sendOk s.sent.length = false
  alive : s.pc ≠ .killed

theorem fits_visit (hs : s.pc ≠ .killed) : Fits s.visit.sendOk s where
  before _ hk := decide_eq_true hk
  ended _ := decide_eq_false (Nat.lt_irrefl _)
  alive := hs

theorem Step.running (h : Step s a t) : s.pc ≠ .returned ∧ ¬s.EndsProcess := by
  unfold Conn.EndsProcess
  cases h with
  | ackSent hpc | ackFailed hpc | ackKilled hpc | recv hpc | done hpc | skip hpc | endMsg hpc
  | sent hpc | sendFailed hpc | sendKilled hpc =>
    rw [hpc]
    exact ⟨Pc.noConfusion, not_or.mpr ⟨Pc.noConfusion, Pc.noConfusion⟩⟩

theorem Fits.of_step (H : Fits sendOk t) (h : Step s a t) : Fits sendOk s where
  before k hk := H.before k (Nat.lt_of_lt_of_le hk h.sent_grows.length_le)
  ended hs := (hs.elim h.running.1 fun hc => h.running.2 (.inl hc)).elim
  alive hc := h.running.2 (.inr hc)

theorem Step.agrees (h : Step s a t) (H : Fits sendOk t) : Agrees sendOk s a := by
  have sentOne {b : UInt8} (hb : t.sent = s.sent ++ [b]) : sendOk s.sent.length = true := by
    apply H.before
    rw [hb, List.length_append]
    exact Nat.lt_succ_self _
  cases h with
  | ackSent => exact sentOne rfl
  | sent => exact sentOne rfl
  | ackFailed => exact H.ended (.inr rfl)
  | sendFailed => exact H.ended (.inl rfl)
  | ackKilled | sendKilled => exact H.alive rfl
  | recv | done | skip | endMsg => trivial

theorem reach_agrees (h : thread.Reach Machine.anyStep s) (H : Fits sendOk s) :
    thread.Reach (Agrees sendOk) s := by
  induction h with
  | init => exact .init
  | step _ _ hx ih =>
    have hstep := step_of_exec hx
    exact .step (ih (H.of_step hstep)) (hstep.agrees H) hx

theorem handleConnection_visit (h : thread.Reach Machine.anyStep s) (hv : s.served = some v) :
    Sequential.handleConnection s.visit.sendOk s.visit.recvs = v := by
  have halive : s.pc ≠ .killed := by
    intro hc
    rw [Conn.served, hc] at hv
    cases hv
  have heq := handleConnection_eq (reach_agrees h (fits_visit halive)) []
  rw [List.append_nil] at heq
  exact heq.trans (resume_served hv)

/-! ## A call is done by a thread -/

/-- A byte is handled as the protocol has it, or the `send` of its reply fails. -/
theorem handleByte_cases (sendOk : Nat → Bool) (q : InternalState) (sent : List UInt8) (b : UInt8) :
    handleByte sendOk (q, sent) b = .ok (echo.next q b, sent ++ echo.out q b) ∨
      q = .inMsg ∧ b ≠ '$'.toUInt8 ∧ handleByte sendOk (q, sent) b = .error sent := by
  cases q with
  | waitForMsg => exact .inl (congrArg (fun s => Except.ok (_, s)) (List.append_nil sent).symm)
  | inMsg =>
    by_cases hb : b = '$'.toUInt8
    · refine .inl ?_
      simp only [handleByte, echo, if_pos hb, List.append_nil]
    · have hbyte : handleByte sendOk (.inMsg, sent) b =
          (send sendOk sent (b + 1)).map (.inMsg, ·) := if_neg hb
      rw [hbyte, echo_next_message hb, echo_out_message hb]
      rcases send_cases sendOk sent (b + 1) with ⟨-, hsend⟩ | ⟨-, hsend⟩
      · rw [hsend]
        exact .inl rfl
      · rw [hsend]
        exact .inr ⟨rfl, hb, rfl⟩

/-- The byte loop, up to the next `recv` or to a `send` that fails. -/
theorem run_handleBytes (sendOk : Nat → Bool) (hpc : s.pc = .loop state bytes) :
    ∃ as t, thread.run s as = some t ∧
      match bytes.foldlM (handleByte sendOk) (state, s.sent) with
      | .ok (q, sent) => t.pc = .recv q ∧ t.sent = sent
      | .error sent => t.pc = .returned ∧ t.sent = sent := by
  induction bytes generalizing s state with
  | nil => exact ⟨[.local], _, Machine.run_cons_of_exec (exec_done hpc), rfl, rfl⟩
  | cons b bs ih =>
    rw [List.foldlM_cons]
    rcases handleByte_cases sendOk state s.sent b with hok | ⟨rfl, hb, hfail⟩
    · have hx := exec_call hpc
      obtain ⟨as, t, hrun, ht⟩ := ih (s := { s with
        pc := .loop (echo.next state b) bs, sent := s.sent ++ echo.out state b }) rfl
      refine ⟨call state b :: as, t, (Machine.run_cons_of_exec hx).trans hrun, ?_⟩
      rw [hok]
      exact ht
    · have hx : thread.exec s (.send false) = some s.close := by
        simp only [thread, exec, hpc, if_neg hb, Bool.false_eq_true, if_false]
      refine ⟨[.send false], s.close, Machine.run_cons_of_exec hx, ?_⟩
      rw [hfail]
      show s.close.pc = .returned ∧ s.close.sent = s.sent
      exact ⟨rfl, rfl⟩

theorem run_handleLoop (sendOk : Nat → Bool) {recvs : List RecvResult} (hpc : s.pc = .recv state)
    (hrecvs : ∀ r ∈ recvs, recvOk r = true) :
    ∃ as t, thread.run s as = some t ∧
      t.served = some (handleLoop sendOk (state, s.sent) recvs) := by
  induction recvs generalizing s state with
  | nil => exact ⟨[], s, rfl, by rw [Conn.served, hpc]; rfl⟩
  | cons r rs ih =>
    obtain ⟨hr, hrs⟩ := List.forall_mem_cons.mp hrecvs
    have hx : thread.exec s (.recv r) = some (s.onRecv state r) := by
      simp only [thread, exec, hpc, if_pos hr]
    cases r with
    | eof => exact ⟨[.recv .eof], _, Machine.run_cons_of_exec hx, rfl⟩
    | error => exact ⟨[.recv .error], _, Machine.run_cons_of_exec hx, rfl⟩
    | data bytes =>
      obtain ⟨as, t, hrun, ht⟩ := run_handleBytes sendOk (s := s.onRecv state (.data bytes)) rfl
      have hsent : (s.onRecv state (.data bytes)).sent = s.sent := rfl
      rw [hsent] at ht
      rw [handleLoop]
      cases hbytes : bytes.foldlM (handleByte sendOk) (state, s.sent) with
      | error sent =>
        rw [hbytes] at ht
        refine ⟨.recv (.data bytes) :: as, t, (Machine.run_cons_of_exec hx).trans hrun, ?_⟩
        simp only [Conn.served, ht.1, ht.2]
      | ok st =>
        obtain ⟨q, sent⟩ := st
        rw [hbytes] at ht
        obtain ⟨bs, u, hrun', hu⟩ := ih ht.1 hrs
        refine ⟨.recv (.data bytes) :: (as ++ bs), u, ?_, ?_⟩
        · rw [Machine.run_cons_of_exec hx, Machine.run_append hrun, hrun']
        · rw [hu, ht.2]

theorem run_handleConnection (sendOk : Nat → Bool) {recvs : List RecvResult}
    (hrecvs : ∀ r ∈ recvs, recvOk r = true) :
    ∃ as t, thread.run thread.init as = some t ∧
      t.served = some (Sequential.handleConnection sendOk recvs) := by
  rw [Sequential.handleConnection, Blocking.handleConnection, send, List.length_nil]
  cases hok : sendOk 0 with
  | true =>
    have hx : thread.exec thread.init (.send true) = some
        { thread.init with pc := .recv .waitForMsg, sent := ['*'.toUInt8] } := rfl
    obtain ⟨as, t, hrun, ht⟩ := run_handleLoop sendOk
      (s := { thread.init with pc := .recv .waitForMsg, sent := ['*'.toUInt8] }) rfl hrecvs
    refine ⟨.send true :: as, t, (Machine.run_cons_of_exec hx).trans hrun, ?_⟩
    exact ht
  | false =>
    have hx : thread.exec thread.init (.send false) = some thread.init.exit := rfl
    refine ⟨[.send false], _, Machine.run_cons_of_exec hx, ?_⟩
    rfl

/-! ## The two servers -/

theorem returned_of_served (hv : s.served = some v) (hret : v.outcome = .returned) :
    s.pc = .returned := by
  unfold Conn.served at hv
  split at hv
  · cases hv
    cases hret
  · next hpc => exact hpc
  · cases hv
    cases hret
  · cases hv
  · cases hv
  · cases hv

theorem main_of_returned (h : ∀ c ∈ cs,
    Sequential.handleConnection c.visit.sendOk c.visit.recvs = ⟨c.sent, .returned⟩) :
    Sequential.main (cs.map Conn.visit) = cs.map fun c => ⟨c.sent, .returned⟩ := by
  induction cs with
  | nil => rfl
  | cons c cs ih =>
    obtain ⟨hc, hcs⟩ := List.forall_mem_cons.mp h
    simp only [List.map_cons, Sequential.main, hc, ih hcs]

/-- One thread more, that serves a visit. -/
theorem run_visit (hcs : cs.any (fun c => c.EndsProcess) = false) {v : Visit}
    (hrecvs : ∀ r ∈ v.recvs, recvOk r = true) :
    ∃ ls c, threadServer.run cs ls = some (cs ++ [c]) ∧
      c.served = some (Sequential.handleConnection v.sendOk v.recvs) := by
  obtain ⟨as, c, hrun, hc⟩ := run_handleConnection v.sendOk hrecvs
  have hstart : threadServer.exec cs .start = some (cs ++ [thread.init]) :=
    if_neg (Bool.eq_false_iff.mp hcs)
  have hcs' : (cs ++ [thread.init]).any (fun c => c.EndsProcess) = false := by
    rw [List.any_append, hcs]
    rfl
  have hnew : (cs ++ [thread.init])[cs.length]? = some thread.init := List.getElem?_concat_length
  have hlast : (cs ++ [thread.init]).set cs.length c = cs ++ [c] := by
    rw [List.set_append_right _ _ (Nat.le_refl _), Nat.sub_self]
    rfl
  have hpool := Machine.pool_run_step running_of_exec hcs' hnew hrun
  exact ⟨.start :: as.map (.step cs.length), c,
    (Machine.run_cons_of_exec hstart).trans (hlast ▸ hpool), hc⟩

/-- Serving one visit after the other, as `sequential_server.c` does. -/
theorem run_main {vs : List Visit} (hvs : ∀ v ∈ vs, ∀ r ∈ v.recvs, recvOk r = true)
    (hcs : cs.any (fun c => c.EndsProcess) = false) :
    ∃ ls ds, threadServer.run cs ls = some (cs ++ ds) ∧
      ds.map Conn.served = (Sequential.main vs).map some := by
  induction vs generalizing cs with
  | nil => exact ⟨[], [], congrArg some (List.append_nil cs).symm, rfl⟩
  | cons v vs ih =>
    obtain ⟨hv, hrest⟩ := List.forall_mem_cons.mp hvs
    obtain ⟨ls, c, hrun, hc⟩ := run_visit hcs hv
    simp only [Sequential.main]
    cases hout : (Sequential.handleConnection v.sendOk v.recvs).outcome with
    | waiting | exited => exact ⟨ls, [c], hrun, by simp only [List.map_cons, List.map_nil, hc]⟩
    | returned =>
      have hcs' : (cs ++ [c]).any (fun c => c.EndsProcess) = false := by
        have hruns := running_of_returned (returned_of_served hc hout)
        rw [List.any_append, hcs, List.any_cons, hruns]
        rfl
      obtain ⟨ls', ds, hrun', hds⟩ := ih hrest hcs'
      refine ⟨ls ++ ls', c :: ds, ?_, ?_⟩
      · rw [Machine.run_append hrun, hrun', List.append_assoc]
        rfl
      · rw [List.map_cons, List.map_cons, hc, hds]

/-- In every reachable state a thread that is in `recv`, or has ended, has sent what
`handle_connection` of `sequential_server.c` sends, and stands where it stands, on the same results
of `recv` and `send`; once all threads have returned, the server has served its peers as
`sequential_server.c` would have, in the order in which they were accepted; and for any results of
`recv` and `send` there is a run in which the threads do what `sequential_server.c` does on them. -/
theorem threads_refine_sequential :
    (∀ cs, threadServer.Reach Machine.anyStep cs →
      (∀ c ∈ cs, ∀ v, c.served = some v →
        Sequential.handleConnection c.visit.sendOk c.visit.recvs = v) ∧
      ((∀ c ∈ cs, c.pc = .returned) →
        Sequential.main (cs.map Conn.visit) = cs.map fun c => ⟨c.sent, .returned⟩)) ∧
    ∀ vs : List Visit, (∀ v ∈ vs, ∀ r ∈ v.recvs, recvOk r = true) →
      ∃ cs, threadServer.Reach Machine.anyStep cs ∧
        cs.map Conn.served = (Sequential.main vs).map some := by
  refine ⟨fun cs h => ?_, fun vs hvs => ?_⟩
  · have hthreads : ∀ c ∈ cs, thread.Reach Machine.anyStep c := by
      apply Machine.Reach.of_pool
      apply h.mono
      rintro cs (_ | ⟨i, a⟩) _
      · trivial
      · exact fun _ _ => trivial
    refine ⟨fun c hc v hv => handleConnection_visit (hthreads c hc) hv, fun hret => ?_⟩
    have hserved : ∀ c ∈ cs, Sequential.handleConnection c.visit.sendOk c.visit.recvs =
        ⟨c.sent, .returned⟩ := by
      intro c hc
      apply handleConnection_visit (hthreads c hc)
      simp only [Conn.served, hret c hc]
    exact main_of_returned hserved
  · have hinit : threadServer.init.any (fun c => c.EndsProcess) = false := rfl
    obtain ⟨ls, cs, hrun, hcs⟩ := run_main hvs hinit
    exact ⟨cs, Machine.Reach.init.run hrun, hcs⟩

end ThreadServer

end KoScripts.Servers
