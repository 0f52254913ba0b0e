import KoScripts.Lib.Pool
import KoScripts.Servers.Echo

/-! # The threads of thread_server.c

One thread in `handle_connection`, a call of `send` or `recv` at a time, and the threads of one
process. An error of `recv` or of the first `send` ends the process with `exit(1)`; an error of a
later `send` closes the socket and returns, but for `EPIPE`, whose signal ends the process. -/

namespace KoScripts.Servers.ThreadServer
open Lib Blocking

/-- Where a thread stands in `handle_connection`. -/
inductive Pc
  /-- At the `send` of the initial `*`. -/
  | ack
  | recv (state : InternalState)
  /-- In the `for` loop, with the bytes of `buf` that are left. -/
  | loop (state : InternalState) (rest : List UInt8)
  | returned
  | exited
  /-- By `SIGPIPE`. -/
  | killed
  deriving DecidableEq

structure Conn where
  pc : Pc
  sent : List UInt8
  /-- How often `close(sockfd)` has been called. -/
  closed : Nat
  /-- What the calls of `recv` have returned. -/
  recvs : List RecvResult

inductive Call
  /-- A `send` that returns 1, or fails with another error than `EPIPE`. -/
  | send (ok : Bool)
  /-- A `send` that fails with `EPIPE`: its flags are 0, so that it raises `SIGPIPE`, which has no
  handler. -/
  | sigpipe
  | recv (r : RecvResult)
  /-- A step of the loops without a call. -/
  | local

/-- `sizeof(buf)`. -/
def bufSize : Nat := 1024

namespace Conn
variable (s : Conn)

/-- `close(sockfd)` at the end of the function. -/
def close : Conn := { s with pc := .returned, closed := s.closed + 1 }

def exit : Conn := { s with pc := .exited }

def kill : Conn := { s with pc := .killed }

def onRecv (state : InternalState) (r : RecvResult) : Conn :=
  let s := { s with recvs := s.recvs ++ [r] }
  match r with
  | .data bytes => { s with pc := .loop state bytes }
  | .eof => s.close
  | .error => s.exit

end Conn

/-- `recv` returns between one byte and all of `buf`. -/
def recvOk : RecvResult → Bool
  | .data bytes => bytes ≠ [] && bytes.length ≤ bufSize
  | .eof | .error => true

def exec (s : Conn) (a : Call) : Option Conn :=
  match s.pc, a with
  | .ack, .send ok =>
    some (if ok then { s with pc := .recv .waitForMsg, sent := s.sent ++ ['*'.toUInt8] } else s.exit)
  | .ack, .sigpipe => some s.kill
  | .recv state, .recv r => if recvOk r then some (s.onRecv state r) else none
  | .loop state [], .local => some { s with pc := .recv state }
  | .loop .waitForMsg (b :: rest), .local =>
    some { s with pc := .loop (if b = '^'.toUInt8 then .inMsg else .waitForMsg) rest }
  | .loop .inMsg (b :: rest), .local =>
    if b = '$'.toUInt8 then some { s with pc := .loop .waitForMsg rest } else none
  | .loop .inMsg (b :: rest), .send ok =>
    if b = '$'.toUInt8 then none
    else some (if ok then { s with pc := .loop .inMsg rest, sent := s.sent ++ [b + 1] } else s.close)
  | .loop .inMsg (b :: _), .sigpipe => if b = '$'.toUInt8 then none else some s.kill
  | _, _ => none

def thread : Machine Conn Call where
  init := ⟨.ack, [], 0, []⟩
  exec := exec

/-- `exit` and `SIGPIPE` end the process with all its threads. -/
def Conn.EndsProcess (s : Conn) : Prop := s.pc = .exited ∨ s.pc = .killed

instance : DecidablePred Conn.EndsProcess := fun s =>
  inferInstanceAs (Decidable (s.pc = .exited ∨ s.pc = .killed))

def threadServer : Machine (List Conn) (PoolLabel Call) := thread.pool fun c => c.EndsProcess

variable {s t : Conn} {a : Call} {sendOk : Nat → Bool} {state : InternalState} {bytes : List UInt8}
  {rest : List UInt8} {cs ds : List Conn} {i : Nat}

/-! ## What a step does -/

inductive Step (s : Conn) : Call → Conn → Prop
  | ackSent : s.pc = .ack →
    Step s (.send true) { s with pc := .recv .waitForMsg, sent := s.sent ++ ['*'.toUInt8] }
  | ackFailed : s.pc = .ack → Step s (.send false) s.exit
  | ackKilled : s.pc = .ack → Step s .sigpipe s.kill
  | recv {state : InternalState} {r : RecvResult} : s.pc = .recv state → recvOk r = true →
    Step s (.recv r) (s.onRecv state r)
  | done {state : InternalState} : s.pc = .loop state [] → Step s .local { s with pc := .recv state }
  | skip {b : UInt8} {rest : List UInt8} : s.pc = .loop .waitForMsg (b :: rest) →
    Step s .local { s with pc := .loop (if b = '^'.toUInt8 then .inMsg else .waitForMsg) rest }
  | endMsg {rest : List UInt8} : s.pc = .loop .inMsg ('$'.toUInt8 :: rest) →
    Step s .local { s with pc := .loop .waitForMsg rest }
  | sent {b : UInt8} {rest : List UInt8} : s.pc = .loop .inMsg (b :: rest) → b ≠ '$'.toUInt8 →
    Step s (.send true) { s with pc := .loop .inMsg rest, sent := s.sent ++ [b + 1] }
  | sendFailed {b : UInt8} {rest : List UInt8} : s.pc = .loop .inMsg (b :: rest) →
    b ≠ '$'.toUInt8 → Step s (.send false) s.close
  | sendKilled {b : UInt8} {rest : List UInt8} : s.pc = .loop .inMsg (b :: rest) →
    b ≠ '$'.toUInt8 → Step s .sigpipe s.kill

theorem step_of_exec (h : exec s a = some t) : Step s a t := by
  unfold exec at h
  split at h
  · next ok hpc =>
    cases h
    cases ok with
    | true => exact .ackSent hpc
    | false => exact .ackFailed hpc
  · next hpc => cases h; exact .ackKilled hpc
  · next state r hpc =>
    obtain ⟨hr, h⟩ := Option.ite_none_right_eq_some.mp h
    cases h
    exact .recv hpc hr
  · next state hpc => cases h; exact .done hpc
  · next b rest hpc => cases h; exact .skip hpc
  · next b rest hpc =>
    obtain ⟨hb, h⟩ := Option.ite_none_right_eq_some.mp h
    cases h
    subst hb
    exact .endMsg hpc
  · next b rest ok hpc =>
    obtain ⟨hb, h⟩ := Option.ite_none_left_eq_some.mp h
    cases h
    cases ok with
    | true => exact .sent hpc hb
    | false => exact .sendFailed hpc hb
  · next b rest hpc =>
    obtain ⟨hb, h⟩ := Option.ite_none_left_eq_some.mp h
    cases h
    exact .sendKilled hpc hb
  · cases h

/-- What has been sent stays sent. -/
theorem Step.sent_grows (h : Step s a t) : s.sent <+: t.sent := by
  cases h with
  | ackSent | sent => exact List.prefix_append _ _
  | ackFailed | ackKilled | done | skip | endMsg | sendFailed | sendKilled =>
    exact List.prefix_refl _
  | @recv state r => cases r <;> exact List.prefix_refl _

/-! ## The whole of a call -/

/-- `sendOk` says what the calls of `send` return; a call that does not return is none of them. -/
def Agrees (sendOk : Nat → Bool) (s : Conn) : Call → Prop
  | .send ok => sendOk s.sent.length = ok
  | .sigpipe => False
  | _ => True

/-- The rest of the call of `handle_connection`, on the results of the further calls of `recv`. -/
def resume (sendOk : Nat → Bool) (s : Conn) (recvs : List RecvResult) : Served :=
  match s.pc with
  | .ack =>
    match send sendOk s.sent '*'.toUInt8 with
    | .ok sent => handleLoop sendOk (.waitForMsg, sent) recvs
    | .error sent => ⟨sent, .exited⟩
  | .recv state => handleLoop sendOk (state, s.sent) recvs
  | .loop state bytes =>
    match bytes.foldlM (handleByte sendOk) (state, s.sent) with
    | .ok st => handleLoop sendOk st recvs
    | .error sent => ⟨sent, .returned⟩
  | .returned => ⟨s.sent, .returned⟩
  | .exited | .killed => ⟨s.sent, .exited⟩

/-- A step leaves the call as a whole as it is. -/
theorem Step.resume_eq (h : Step s a t) (hg : Agrees sendOk s a) {called : List RecvResult}
    (hs : s.recvs = called) : ∃ more, t.recvs = called ++ more ∧
      ∀ recvs, resume sendOk s (more ++ recvs) = resume sendOk t recvs := by
  subst hs
  cases h with
  | ackSent hpc =>
    have hok : sendOk s.sent.length = true := hg
    refine ⟨[], (List.append_nil _).symm, fun recvs => ?_⟩
    simp only [resume, hpc, send, hok, if_true, List.nil_append]
  | ackFailed hpc =>
    have hok : sendOk s.sent.length = false := hg
    refine ⟨[], (List.append_nil _).symm, fun recvs => ?_⟩
    simp only [resume, hpc, send, hok, Conn.exit, Bool.false_eq_true, if_false]
  | ackKilled | sendKilled => cases hg
  | @recv state r hpc _ =>
    refine ⟨[r], ?_, fun recvs => ?_⟩
    · cases r <;> rfl
    · cases r with
      | data bytes =>
        have hloop : resume sendOk s (.data bytes :: recvs) =
            handleLoop sendOk (state, s.sent) (.data bytes :: recvs) := by simp only [resume, hpc]
        exact hloop
      | eof => simp only [resume, hpc, Conn.onRecv, Conn.close, handleLoop, List.singleton_append]
      | error => simp only [resume, hpc, Conn.onRecv, Conn.exit, handleLoop, List.singleton_append]
  | done hpc =>
    refine ⟨[], (List.append_nil _).symm, fun recvs => ?_⟩
    simp only [resume, hpc, List.foldlM_nil, List.nil_append]
    rfl
  | skip hpc =>
    refine ⟨[], (List.append_nil _).symm, fun recvs => ?_⟩
    simp only [resume, hpc, List.foldlM_cons, handleByte, List.nil_append]
    rfl
  | endMsg hpc =>
    refine ⟨[], (List.append_nil _).symm, fun recvs => ?_⟩
    simp only [resume, hpc, List.foldlM_cons, handleByte, if_true, List.nil_append]
    rfl
  | sent hpc hb =>
    have hok : sendOk s.sent.length = true := hg
    refine ⟨[], (List.append_nil _).symm, fun recvs => ?_⟩
    simp only [resume, hpc, List.foldlM_cons, handleByte, if_neg hb, send, hok, if_true,
      List.nil_append]
    rfl
  | sendFailed hpc hb =>
    have hok : sendOk s.sent.length = false := hg
    refine ⟨[], (List.append_nil _).symm, fun recvs => ?_⟩
    simp only [resume, hpc, List.foldlM_cons, handleByte, if_neg hb, send, hok, Bool.false_eq_true,
      if_false, Conn.close, List.nil_append]
    rfl

/-- The steps of a thread are those of a call of `handle_connection`. -/
theorem handleConnection_eq (h : thread.Reach (Agrees sendOk) s) (recvs : List RecvResult) :
    handleConnection sendOk (s.recvs ++ recvs) = resume sendOk s recvs := by
  induction h generalizing recvs with
  | init => rfl
  | step _ hg hx ih =>
    obtain ⟨more, hmore, hresume⟩ := (step_of_exec hx).resume_eq hg rfl
    rw [hmore, List.append_assoc, ih, hresume]

/-! ## Faults -/

/-- No call of `recv` fails, nor the `send` of the initial `*`, and no `send` with `EPIPE`. -/
def Survivable (s : Conn) : Call → Prop
  | .send ok => s.pc = .ack → ok = true
  | .sigpipe => False
  | .recv r => r ≠ .error
  | .local => True

instance {s : Conn} {a : Call} : Decidable (Survivable s a) :=
  match a with
  | .send ok => inferInstanceAs (Decidable (s.pc = .ack → ok = true))
  | .sigpipe => .isFalse id
  | .recv r => inferInstanceAs (Decidable (r ≠ .error))
  | .local => .isTrue trivial

/-- A step ends the process if and only if it is one of the others. -/
theorem Step.endsProcess_iff (h : Step s a t) : t.EndsProcess ↔ ¬Survivable s a := by
  have of_runs (hne : t.pc ≠ .exited) (hne' : t.pc ≠ .killed) (hg : Survivable s a) :
      t.EndsProcess ↔ ¬Survivable s a :=
    iff_of_false (not_or.mpr ⟨hne, hne'⟩) (not_not.mpr hg)
  cases h with
  | ackSent | sent => exact of_runs Pc.noConfusion Pc.noConfusion fun _ => rfl
  | ackFailed hpc => exact iff_of_true (.inl rfl) fun h => Bool.false_ne_true (h hpc)
  | ackKilled | sendKilled => exact iff_of_true (.inr rfl) id
  | @recv state r =>
    cases r with
    | data | eof => exact of_runs Pc.noConfusion Pc.noConfusion RecvResult.noConfusion
    | error => exact iff_of_true (.inl rfl) fun h => h rfl
  | done | skip | endMsg => exact of_runs Pc.noConfusion Pc.noConfusion trivial
  | sendFailed hpc =>
    exact of_runs Pc.noConfusion Pc.noConfusion fun h => Pc.noConfusion (hpc.symm.trans h)

/-- The socket is closed once, when the thread returns. -/
def ClosedOnce (s : Conn) : Prop := s.closed = if s.pc = .returned then 1 else 0

theorem Step.closedOnce (h : Step s a t) (hs : ClosedOnce s) : ClosedOnce t := by
  have of_running (hpc : s.pc ≠ .returned) : s.closed = 0 := hs.trans (if_neg hpc)
  cases h with
  | ackSent hpc | ackFailed hpc | ackKilled hpc | done hpc | skip hpc | endMsg hpc | sent hpc
  | sendKilled hpc => exact of_running fun hc => nomatch hpc.symm.trans hc
  | @recv state r hpc =>
    have hzero := of_running fun hc => nomatch hpc.symm.trans hc
    cases r with
    | data | error => exact hzero
    | eof => exact congrArg (· + 1) hzero
  | sendFailed hpc => exact congrArg (· + 1) (of_running fun hc => nomatch hpc.symm.trans hc)

theorem thread_isolated (h : thread.Reach Survivable s) : ¬s.EndsProcess ∧ ClosedOnce s := by
  induction h with
  | init => exact ⟨not_or.mpr ⟨Pc.noConfusion, Pc.noConfusion⟩, rfl⟩
  | step _ hg hx ih =>
    have hstep := step_of_exec hx
    exact ⟨fun hc => hstep.endsProcess_iff.mp hc hg, hstep.closedOnce ih.2⟩

theorem exec_returned (h : s.pc = .returned) (a : Call) : exec s a = none := by
  unfold exec
  rw [h]

theorem running_of_exec (h : exec s a = some t) : decide s.EndsProcess = false := by
  apply decide_eq_false
  unfold exec at h
  rintro (hc | hc)
  · rw [hc] at h
    cases h
  · rw [hc] at h
    cases h

theorem running_of_returned (h : s.pc = .returned) : decide s.EndsProcess = false := by
  apply decide_eq_false
  rw [Conn.EndsProcess, h]
  exact not_or.mpr ⟨Pc.noConfusion, Pc.noConfusion⟩

/-! ## A peer that closes normally -/

/-- The step for the next byte of `buf`, if a `send` succeeds. -/
def call : InternalState → UInt8 → Call
  | .waitForMsg, _ => .local
  | .inMsg, b => if b = '$'.toUInt8 then .local else .send true

/-- The steps for these bytes of `buf`. -/
def handle : InternalState → List UInt8 → List Call
  | _, [] => []
  | state, b :: bs => call state b :: handle (echo.next state b) bs

theorem exec_call {b : UInt8} (hpc : s.pc = .loop state (b :: rest)) :
    thread.exec s (call state b) = some { s with
      pc := .loop (echo.next state b) rest
      sent := s.sent ++ echo.out state b } := by
  cases state with
  | waitForMsg =>
    have hout : echo.out .waitForMsg b = [] := rfl
    simp only [call, thread, exec, hpc, hout, List.append_nil]
    rfl
  | inMsg =>
    by_cases hb : b = '$'.toUInt8
    · simp only [call, thread, exec, hpc, echo, if_pos hb, List.append_nil]
    · simp only [call, thread, exec, hpc, echo, if_neg hb, if_true]

theorem run_handle (hpc : s.pc = .loop state (bytes ++ rest)) :
    thread.run s (handle state bytes) = some { s with
      pc := .loop (echo.state state bytes) rest
      sent := s.sent ++ echo.output state bytes } := by
  induction bytes generalizing s state with
  | nil =>
    rw [List.nil_append] at hpc
    rw [Mealy.state_nil, Mealy.output_nil, List.append_nil, ← hpc]
    rfl
  | cons b bs ih =>
    rw [handle, Machine.run_cons_of_exec (exec_call hpc), ih rfl, Mealy.state_cons,
      Mealy.output_cons, List.append_assoc]

theorem exec_done (hpc : s.pc = .loop state []) :
    thread.exec s .local = some { s with pc := .recv state } := by
  simp only [thread, exec, hpc]

/-- The bytes left in `buf` are handled, with all their sends, and then `recv` returns 0. -/
def closeNormally (state : InternalState) (bytes : List UInt8) : List Call :=
  handle state bytes ++ [.local, .recv .eof]

/-- Closing normally, a peer ends its thread as well. -/
theorem run_closeNormally (hpc : s.pc = .loop state bytes) :
    ∃ t, thread.run s (closeNormally state bytes) = some t ∧ t.pc = .returned := by
  rw [← List.append_nil bytes] at hpc
  rw [closeNormally, Machine.run_append (run_handle hpc), Machine.run_cons_of_exec (exec_done rfl)]
  exact ⟨_, rfl, rfl⟩

/-- As long as no `recv` and no first `send` fails, and no later one with `EPIPE`, the process runs,
and every socket is closed once when its thread returns. If a later `send` fails, its thread
returns, and the others do the same from then on as if the peer had closed normally at that point.
And a `recv` or a first `send` that fails ends the process, and so does a `send` with `EPIPE`. -/
theorem fault_isolated (h : threadServer.Reach (Machine.Each Survivable) cs) :
    (∀ c ∈ cs, c.pc ≠ .exited ∧ c.pc ≠ .killed ∧ c.closed = if c.pc = .returned then 1 else 0) ∧
    (∀ i c ds, cs[i]? = some c → Survivable c (.send false) →
      threadServer.exec cs (.step i (.send false)) = some ds →
        ds = cs.set i c.close ∧ ∃ state bytes d, c.pc = .loop state bytes ∧ d.pc = .returned ∧
          threadServer.run cs ((closeNormally state bytes).map (.step i)) = some (cs.set i d) ∧
          ∀ ls es, threadServer.run ds ls = some es →
            ∃ es', threadServer.run (cs.set i d) ls = some es' ∧ ∀ j, j ≠ i → es'[j]? = es[j]?) ∧
    (∀ i c a ds, cs[i]? = some c → ¬Survivable c a →
      threadServer.exec cs (.step i a) = some ds →
        (∃ d ∈ ds, d.pc = .exited ∨ d.pc = .killed) ∧ ∀ l, threadServer.exec ds l = none) := by
  refine ⟨fun c hc => ?_, ?_, ?_⟩
  · obtain ⟨hruns, hclosed⟩ := thread_isolated (h.of_pool c hc)
    obtain ⟨hexited, hkilled⟩ := not_or.mp hruns
    exact ⟨hexited, hkilled, hclosed⟩
  · intro i c ds hc hg hx
    have hended := Machine.not_ended_of_exec hx
    obtain ⟨b, d, hb, hd, rfl⟩ := Machine.pool_step hx
    obtain rfl := Option.some.inj (hb.symm.trans hc)
    cases step_of_exec hd with
    | ackFailed hpc => exact absurd (hg hpc) Bool.false_ne_true
    | @sendFailed x rest hpc hx' =>
      obtain ⟨d, hrun, hret⟩ := run_closeNormally hpc
      have hi : i < cs.length := (List.getElem?_eq_some_iff.mp hb).1
      refine ⟨rfl, _, _, d, hpc, hret, Machine.pool_run_step running_of_exec hended hb hrun, ?_⟩
      intro ls es hes
      have hclose : b.close.pc = .returned := rfl
      have hset := Machine.run_set (List.getElem?_set_self hi) (exec_returned hclose)
        (running_of_returned hret) hes
      rw [List.set_set] at hset
      exact ⟨_, hset, fun j hj => List.getElem?_set_ne hj.symm⟩
  · intro i c a ds hc hg hx
    obtain ⟨b, d, hb, hd, rfl⟩ := Machine.pool_step hx
    obtain rfl := Option.some.inj (hb.symm.trans hc)
    have hi : i < cs.length := (List.getElem?_eq_some_iff.mp hb).1
    have hd' : d ∈ cs.set i d := List.mem_of_getElem? (List.getElem?_set_self hi)
    have hends : d.EndsProcess := (step_of_exec hd).endsProcess_iff.mpr hg
    refine ⟨⟨d, hd', hends⟩, fun l => if_pos ?_⟩
    exact List.any_eq_true.mpr ⟨d, hd', decide_eq_true hends⟩

/-- Two clients; the first is reset when its `b` is sent. -/
def resetRun : List (PoolLabel Call) := [
  .start, .start, .step 0 (.send true), .step 1 (.send true), .step 0 (.recv (.data [0x5e, 0x61])),
  .step 0 .local, .step 0 (.send false), .step 1 (.recv (.data [0x5e, 0x63])), .step 1 .local,
  .step 1 (.send true)]

theorem fault_isolated_resetRun : ∃ cs, threadServer.Reach (Machine.Each Survivable) cs ∧
    cs.map Conn.sent = [[0x2a], [0x2a, 0x64]] ∧ cs.map Conn.closed = [1, 0] ∧
    ∀ c ∈ cs, c.pc ≠ .exited ∧ c.pc ≠ .killed := by
  have hrun : ((threadServer.restrict (Machine.Each Survivable)).run threadServer.init resetRun).map
      (fun cs => (cs.map Conn.sent, cs.map Conn.closed)) =
      some ([[0x2a], [0x2a, 0x64]], [1, 0]) := by decide +kernel
  obtain ⟨cs, hcs, hp⟩ := Machine.reach_of_run hrun
  obtain ⟨hsent, hclosed⟩ := Prod.mk.inj hp
  have hreach : threadServer.Reach (Machine.Each Survivable) cs := hcs.of_restrict
  refine ⟨cs, hreach, hsent, hclosed, fun c hc => ?_⟩
  obtain ⟨hexited, hkilled, -⟩ := (fault_isolated hreach).1 c hc
  exact ⟨hexited, hkilled⟩

/-- Two clients; the first is reset while its thread is in `recv`. -/
def resetInRecvRun : List (PoolLabel Call) := [
  .start, .start, .step 0 (.send true), .step 1 (.send true), .step 1 (.recv (.data [0x5e])),
  .step 0 (.recv .error)]

/-- Two clients; the first has closed behind its `^ab` and answers the reply to `a` with a reset, so
that the `send` for `b` fails with `EPIPE`. -/
def brokenPipeRun : List (PoolLabel Call) := [
  .start, .start, .step 0 (.send true), .step 1 (.send true), .step 1 (.recv (.data [0x5e])),
  .step 0 (.recv (.data [0x5e, 0x61, 0x62])), .step 0 .local, .step 0 (.send true),
  .step 0 .sigpipe]

theorem reach_ended (ls : List (PoolLabel Call)) {pcs : List Pc} {closed : List Nat}
    (h : (threadServer.run threadServer.init ls).map
      (fun cs => (cs.map Conn.pc, cs.map Conn.closed, cs.any fun c => c.EndsProcess)) =
      some (pcs, closed, true)) :
    ∃ cs, threadServer.Reach Machine.anyStep cs ∧ cs.map Conn.pc = pcs ∧
      cs.map Conn.closed = closed ∧ ∀ l, threadServer.exec cs l = none := by
  obtain ⟨cs, hcs, hp⟩ := Machine.reach_of_run h
  simp only [Prod.mk.injEq] at hp
  obtain ⟨hpc, hclosed, hended⟩ := hp
  exact ⟨cs, hcs, hpc, hclosed, fun l => if_pos hended⟩

/-- In both runs the process ends, with the frame of the second client half read and its socket
open. -/
theorem fault_isolated_resetInRecvRun :
    (∃ cs, threadServer.Reach Machine.anyStep cs ∧
      cs.map Conn.pc = [.exited, .loop .waitForMsg [0x5e]] ∧ cs.map Conn.closed = [0, 0] ∧
      ∀ l, threadServer.exec cs l = none) ∧
    ∃ cs, threadServer.Reach Machine.anyStep cs ∧
      cs.map Conn.pc = [.killed, .loop .waitForMsg [0x5e]] ∧ cs.map Conn.closed = [0, 0] ∧
      ∀ l, threadServer.exec cs l = none := by
  constructor
  · exact reach_ended resetInRecvRun (by decide +kernel)
  · exact reach_ended brokenPipeRun (by decide +kernel)

end KoScripts.Servers.ThreadServer
