import KoScripts.Clients.ConversationRest

/-! # What a thread can be brought to do

Whatever a server of the protocol has read of a connection and sent on it, in pieces of any size, a
thread of `thread_server.c` can be brought to by its calls: to the end of any part of its replies,
to a `recv` of whatever has arrived once all the replies are sent, and to the end of the stream. -/

namespace KoScripts.Servers.ThreadServer
open Lib Blocking

variable {c d : Conn} {a : Call} {as : List Call} {state : InternalState}
  {xs bytes rest out : List UInt8}

theorem handle_quiet : ∀ a ∈ handle state bytes, a.Quiet := by
  induction bytes generalizing state with
  | nil => exact List.forall_mem_nil _
  | cons b bs ih => exact List.forall_mem_cons.mpr ⟨call_quiet state b, ih⟩

/-- What is sent next, in whatever pieces, a thread can send. -/
theorem run_send (h : Echoes c.pc xs c.sent) (hpc : c.pc ≠ .returned)
    (hout : c.sent ++ out <+: replies xs) :
    ∃ as d, thread.run c as = some d ∧ (∀ a ∈ as, a.Quiet) ∧ d.sent = c.sent ++ out ∧
      Echoes d.pc xs d.sent ∧ d.pc ≠ .returned := by
  have hnone (hall : c.sent = replies xs) : out = [] := by
    rw [← hall] at hout
    exact List.append_right_eq_self.mp (hout.eq_of_length_le (by simp))
  by_cases hnil : out = []
  · subst hnil
    exact ⟨[], c, rfl, List.forall_mem_nil _, (List.append_nil _).symm, h, hpc⟩
  cases hc : c.pc with
  | ack =>
    rw [hc] at h
    obtain ⟨rfl, hsent⟩ := h
    rw [hsent, List.nil_append] at hout ⊢
    have hx : thread.exec c (.send true) = some { c with
        pc := .recv .waitForMsg, sent := c.sent ++ ['*'.toUInt8] } := by
      simp only [thread, exec, hc, if_true]
    have hall : out = ['*'.toUInt8] :=
      hout.eq_of_length_le (List.length_pos_iff.mpr hnil)
    refine ⟨[.send true], _, Machine.run_cons_of_exec hx, ?_, ?_, ⟨rfl, ?_⟩, Pc.noConfusion⟩
    · exact List.forall_mem_singleton.mpr (.inr rfl)
    · rw [hsent, hall]
      rfl
    · rw [hsent]
      rfl
  | recv state =>
    rw [hc] at h
    exact absurd (hnone h.2) hnil
  | loop state rest =>
    rw [hc] at h
    obtain ⟨pre, rfl, rfl, hsent⟩ := h
    rw [hsent, replies_append, List.prefix_append_right_inj] at hout
    obtain ⟨bytes, rest, rfl, rfl⟩ := Mealy.exists_of_prefix_output echo_out_length hout
    refine ⟨_, _, run_handle hc, handle_quiet, rfl, ?_, Pc.noConfusion⟩
    refine ⟨pre ++ bytes, (List.append_assoc ..).symm, Mealy.state_append.symm, ?_⟩
    rw [hsent, replies_append]
  | returned => exact absurd hc hpc
  | exited | killed =>
    rw [hc] at h
    cases h

/-- With all the replies sent, a thread can go on to `recv`. -/
theorem run_recv (h : Echoes c.pc xs c.sent) (hpc : c.pc ≠ .returned)
    (hall : c.sent = replies xs) :
    ∃ as, (∀ a ∈ as, a.Quiet) ∧
      thread.run c as = some { c with pc := .recv (echo.state .waitForMsg xs) } := by
  cases hc : c.pc with
  | ack =>
    rw [hc] at h
    obtain ⟨rfl, hsent⟩ := h
    cases hsent.symm.trans hall
  | recv state =>
    rw [hc] at h
    refine ⟨[], List.forall_mem_nil _, ?_⟩
    rw [← h.1, ← hc]
    rfl
  | loop state rest =>
    rw [hc] at h
    obtain ⟨pre, rfl, rfl, hsent⟩ := h
    have hnil : echo.output (echo.state .waitForMsg pre) rest = [] := by
      rw [hsent, replies_append] at hall
      exact List.append_right_eq_self.mp hall.symm
    have hx : thread.exec { c with
        pc := .loop (echo.state (echo.state .waitForMsg pre) rest) []
        sent := c.sent ++ echo.output (echo.state .waitForMsg pre) rest } .local = some { c with
          pc := .recv (echo.state (echo.state .waitForMsg pre) rest)
          sent := c.sent ++ echo.output (echo.state .waitForMsg pre) rest } := rfl
    refine ⟨handle (echo.state .waitForMsg pre) rest ++ [.local], fun a ha => ?_, ?_⟩
    · rcases List.mem_append.mp ha with ha | ha
      · exact handle_quiet a ha
      · exact .inl (List.mem_singleton.mp ha)
    · have hpc' : c.pc = .loop (echo.state .waitForMsg pre) (rest ++ []) := by
        rw [List.append_nil, hc]
      rw [Machine.run_append (run_handle hpc'), Machine.run_cons_of_exec hx, hnil, List.append_nil,
        Mealy.state_append]
      rfl
  | returned => exact absurd hc hpc
  | exited | killed =>
    rw [hc] at h
    cases h

theorem run_sent_grows (h : thread.run c as = some d) : c.sent <+: d.sent := by
  induction as generalizing c with
  | nil =>
    cases h
    exact List.prefix_refl _
  | cons a as ih =>
    obtain ⟨e, he, h⟩ := Option.bind_eq_some_iff.mp h
    exact (step_of_exec he).sent_grows.trans (ih h)

end KoScripts.Servers.ThreadServer

namespace KoScripts.Clients.Conversation
open Lib Servers ThreadServer

variable {s t : Conversation} {c d : Conn} {as : List Call} {xs bytes out : List UInt8}

/-- The server's calls, one after the other. -/
def calls (s : Conversation) (as : List Call) : Option Conversation :=
  as.foldlM (fun s a => s.exec (.server a)) s

theorem calls_append {bs : List Call} (h : s.calls as = some t) :
    s.calls (as ++ bs) = t.calls bs := by
  rw [calls, List.foldlM_append]
  exact (congrArg (· >>= fun s => s.calls bs) h).trans rfl

theorem calls_singleton {a : Call} : s.calls [a] = s.exec (.server a) := bind_pure _

theorem exec_quiet {a : Call} (hs : s.reset = false) (hserver : s.server = some c)
    (ha : a.Quiet) (hx : thread.exec c a = some d) (hclosed : s.main = .closed → d.sent = c.sent) :
    s.exec (.server a) = some { s with
      server := some d
      downstream := s.downstream ++ d.sent.drop c.sent.length } := by
  have hreturns : s.returns a = true := returns_quiet ha
  have hbytes : a.bytes = [] := by rcases ha with rfl | rfl <;> rfl
  have hreset : (decide (d.sent ≠ c.sent) && decide (s.main = .closed)) = false := by
    rw [Bool.and_eq_false_iff, decide_eq_false_iff_not, decide_eq_false_iff_not, ne_eq, not_not]
    by_cases hm : s.main = .closed
    · exact .inl (hclosed hm)
    · exact .inr hm
  have hx : ThreadServer.exec c a = some d := hx
  rw [exec, hs, if_neg Bool.false_ne_true, execServer, hserver, Option.bind_some, if_pos hreturns,
    hx, Option.map_some, hbytes, hreset, ← hs]
  rfl

/-- The calls of a thread that take nothing from the stream are calls of the conversation. -/
theorem calls_quiet (hs : s.reset = false) (hserver : s.server = some c)
    (hr : thread.run c as = some d) (hq : ∀ a ∈ as, a.Quiet)
    (hclosed : s.main = .closed → d.sent = c.sent) :
    s.calls as = some { s with
      server := some d
      downstream := s.downstream ++ d.sent.drop c.sent.length } := by
  induction as generalizing s c with
  | nil =>
    cases hr
    rw [List.drop_length, List.append_nil, ← hserver]
    rfl
  | cons a as ih =>
    obtain ⟨e, he, hr⟩ := Option.bind_eq_some_iff.mp hr
    obtain ⟨ha, hq⟩ := List.forall_mem_cons.mp hq
    obtain ⟨out, hout⟩ := (step_of_exec he).sent_grows
    obtain ⟨out', hout'⟩ := run_sent_grows hr
    have hsent : d.sent = c.sent ++ (out ++ out') := by
      rw [← hout', ← hout, List.append_assoc]
    have hnil (hm : s.main = .closed) : out = [] ∧ out' = [] := by
      have hall := hclosed hm
      rw [hsent] at hall
      exact List.append_eq_nil_iff.mp (List.append_right_eq_self.mp hall)
    have hfirst := exec_quiet hs hserver ha he fun hm => by
      rw [← hout, (hnil hm).1, List.append_nil]
    have hrest := ih (s := { s with
        server := some e
        downstream := s.downstream ++ e.sent.drop c.sent.length }) hs rfl hr hq fun hm => by
      rw [← hout', (hnil hm).2, List.append_nil]
    have hdown : s.downstream ++ e.sent.drop c.sent.length ++ d.sent.drop e.sent.length =
        s.downstream ++ d.sent.drop c.sent.length := by
      rw [hsent, ← hout, List.drop_left, List.drop_left, ← List.append_assoc c.sent,
        List.drop_left, List.append_assoc]
    rw [calls, List.foldlM_cons, hfirst, ← hdown]
    exact hrest

/-- A part of what is to be sent. -/
theorem calls_send (hs : s.reset = false) (hserver : s.server = some c)
    (h : Echoes c.pc xs c.sent) (hpc : c.pc ≠ .returned) (hout : c.sent ++ out <+: replies xs)
    (hclosed : s.main = .closed → out = []) :
    ∃ as d, s.calls as = some { s with server := some d, downstream := s.downstream ++ out } ∧
      d.sent = c.sent ++ out ∧ Echoes d.pc xs d.sent ∧ d.pc ≠ .returned := by
  obtain ⟨as, d, hr, hq, hsent, hechoes, hpc'⟩ := run_send h hpc hout
  refine ⟨as, d, ?_, hsent, hechoes, hpc'⟩
  rw [calls_quiet hs hserver hr hq fun hm => by rw [hsent, hclosed hm, List.append_nil], hsent,
    List.drop_left]

theorem exec_recv {state : Blocking.InternalState} {r : Blocking.RecvResult}
    (hs : s.reset = false) (hserver : s.server = some c) (hpc : c.pc = .recv state)
    (hr : recvOk r = true) (hreturns : s.returns (.recv r) = true) :
    s.exec (.server (.recv r)) = some { s with
      server := some (c.onRecv state r)
      upstream := s.upstream.drop (Call.recv r).bytes.length } := by
  have hx : ThreadServer.exec c (.recv r) = some (c.onRecv state r) := by
    simp only [ThreadServer.exec, hpc, hr, if_true]
  have hsent : (c.onRecv state r).sent = c.sent := by cases r <;> rfl
  rw [exec, hs, if_neg Bool.false_ne_true, execServer, hserver, Option.bind_some, if_pos hreturns,
    hx, Option.map_some, hsent, List.drop_length, List.append_nil, ← hs]
  simp [hs]

/-- With all the replies sent the server can go on to a `recv`, which returns `r`. -/
theorem calls_recv {r : Blocking.RecvResult} (hs : s.reset = false) (hserver : s.server = some c)
    (h : Echoes c.pc xs c.sent) (hpc : c.pc ≠ .returned) (hall : c.sent = replies xs)
    (hr : recvOk r = true) (hreturns : s.returns (.recv r) = true) :
    ∃ as, s.calls as = some { s with
      server := some (c.onRecv (echo.state .waitForMsg xs) r)
      upstream := s.upstream.drop (Call.recv r).bytes.length } := by
  obtain ⟨as, hq, hrun⟩ := run_recv h hpc hall
  have hquiet := calls_quiet hs hserver hrun hq fun _ => rfl
  rw [List.drop_length, List.append_nil] at hquiet
  have hlast := exec_recv (s := { s with
    server := some { c with pc := .recv (echo.state .waitForMsg xs) } }) hs rfl rfl hr hreturns
  refine ⟨as ++ [.recv r], (calls_append hquiet).trans (calls_singleton.trans (hlast.trans ?_))⟩
  cases r <;> rfl

/-- What has arrived is read with all the replies sent, and some of what is to be sent then is. -/
theorem calls_serve (hs : s.reset = false) (hserver : s.server = some c)
    (h : Echoes c.pc xs c.sent) (hpc : c.pc ≠ .returned) (hup : bytes <+: s.upstream)
    (hread : bytes ≠ [] → c.sent = replies xs ∧ bytes.length ≤ bufSize)
    (hout : c.sent ++ out <+: replies (xs ++ bytes)) (hclosed : s.main = .closed → out = []) :
    ∃ as d, s.calls as = some { s with
        server := some d
        upstream := s.upstream.drop bytes.length
        downstream := s.downstream ++ out } ∧
      d.sent = c.sent ++ out ∧ Echoes d.pc (xs ++ bytes) d.sent ∧ d.pc ≠ .returned := by
  by_cases hnil : bytes = []
  · subst hnil
    rw [List.append_nil] at hout ⊢
    exact calls_send hs hserver h hpc hout hclosed
  obtain ⟨hall, hlen⟩ := hread hnil
  have hrecv : recvOk (.data bytes) = true := by simp [recvOk, hnil, hlen]
  obtain ⟨as, has⟩ := calls_recv (r := .data bytes) hs hserver h hpc hall hrecv
    (List.isPrefixOf_iff_prefix.mpr hup)
  have hechoes : Echoes (.loop (echo.state .waitForMsg xs) bytes) (xs ++ bytes) c.sent :=
    ⟨xs, rfl, rfl, hall⟩
  obtain ⟨as', d, has', hsent, hechoes', hpc'⟩ :=
    calls_send (s := { s with
      server := some (c.onRecv (echo.state .waitForMsg xs) (.data bytes))
      upstream := s.upstream.drop (Call.recv (.data bytes)).bytes.length })
      hs rfl hechoes Pc.noConfusion hout hclosed
  exact ⟨as ++ as', d, (calls_append has).trans has', hsent, hechoes', hpc'⟩

/-- Behind the client the server comes to the end of the stream. -/
theorem calls_close (hs : s.reset = false) (hserver : s.server = some c)
    (h : Echoes c.pc xs c.sent) (hpc : c.pc ≠ .returned) (hall : c.sent = replies xs)
    (hup : s.upstream = []) (hmain : s.main = .closed) :
    ∃ as d, s.calls as = some { s with server := some d } ∧ d.pc = .returned := by
  have hreturns : s.returns (.recv .eof) = true := by
    rw [returns, hup, hmain]
    rfl
  obtain ⟨as, has⟩ := calls_recv (r := .eof) hs hserver h hpc hall rfl hreturns
  exact ⟨as, _, has, rfl⟩

end KoScripts.Clients.Conversation
