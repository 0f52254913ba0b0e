import KoScripts.Clients.SimpleClientEcho
import KoScripts.Servers.ThreadServer

/-! # A conversation with a blocking server

One connection of `simple_client.py`, with its main thread, its `ReadThread`, the bytes under way in
both directions, and the call of `handle_connection` that serves it, once it has been accepted. The
network loses nothing and cuts the streams where it likes. -/

namespace KoScripts.Servers.ThreadServer
open Lib

/-- The bytes that a call takes from the client's stream. -/
def Call.bytes : Call → List UInt8
  | .recv (.data bytes) => bytes
  | _ => []

/-- The calls that succeed. -/
def Call.Succeeds : Call → Prop
  | .send ok => ok = true
  | .sigpipe => False
  | .recv r => r ≠ .error
  | .local => True

/-- The calls that succeed and take nothing from the client's stream. -/
def Call.Quiet (a : Call) : Prop := a = .local ∨ a = .send true

theorem call_quiet (state : Blocking.InternalState) (b : UInt8) : (call state b).Quiet := by
  cases state with
  | waitForMsg => exact .inl rfl
  | inMsg =>
    by_cases hb : b = '$'.toUInt8
    · exact .inl (if_pos hb)
    · exact .inr (if_neg hb)

/-- At a point of `handle_connection`, what has been received and what has been sent. -/
def Echoes : Pc → List UInt8 → List UInt8 → Prop
  | .ack, xs, sent => xs = [] ∧ sent = []
  | .recv state, xs, sent => state = echo.state .waitForMsg xs ∧ sent = replies xs
  | .loop state rest, xs, sent =>
    ∃ pre, xs = pre ++ rest ∧ state = echo.state .waitForMsg pre ∧ sent = replies pre
  | .returned, xs, sent => sent = replies xs
  | .exited, _, _ | .killed, _, _ => False

variable {c d : Conn} {a : Call} {pc : Pc} {xs sent : List UInt8}

theorem Echoes.prefix_replies (h : Echoes pc xs sent) : sent <+: replies xs := by
  cases pc with
  | ack => rw [h.2]; exact List.nil_prefix
  | recv => rw [h.2]
  | loop =>
    obtain ⟨pre, rfl, -, rfl⟩ := h
    exact replies_mono (List.prefix_append _ _)
  | returned => rw [h]
  | exited | killed => cases h

theorem Echoes.next {pre rest : List UInt8} {state : Blocking.InternalState} {b : UInt8}
    (hxs : xs = pre ++ b :: rest) (hstate : state = echo.state .waitForMsg pre) :
    Echoes (.loop (echo.next state b) rest) (xs ++ []) (replies pre ++ echo.out state b) := by
  refine ⟨pre ++ [b], ?_, ?_, ?_⟩
  · rw [hxs, List.append_nil, List.append_assoc, List.singleton_append]
  · rw [Mealy.state_append, ← hstate]
    rfl
  · rw [replies_append, ← hstate, Mealy.output_singleton]

theorem Echoes.step (h : Echoes c.pc xs c.sent) (hst : Step c a d) (ha : a.Succeeds) :
    Echoes d.pc (xs ++ a.bytes) d.sent ∧ c.sent <+: d.sent := by
  cases hst with
  | ackSent hpc =>
    rw [hpc] at h
    obtain ⟨rfl, hsent⟩ := h
    refine ⟨⟨rfl, ?_⟩, List.prefix_append _ _⟩
    rw [hsent]
    rfl
  | ackFailed | ackKilled | sendFailed | sendKilled => cases ha
  | @recv state r hpc =>
    rw [hpc] at h
    obtain ⟨hstate, hsent⟩ := h
    cases r with
    | data bytes => exact ⟨⟨xs, rfl, hstate, hsent⟩, List.prefix_refl _⟩
    | eof => exact ⟨(List.append_nil xs).symm ▸ hsent, List.prefix_refl _⟩
    | error => exact absurd rfl ha
  | done hpc =>
    rw [hpc] at h
    obtain ⟨pre, rfl, hstate, hsent⟩ := h
    have hxs : pre ++ [] ++ Call.local.bytes = pre := by simp [Call.bytes]
    rw [hxs]
    exact ⟨⟨hstate, hsent⟩, List.prefix_refl _⟩
  | skip hpc =>
    rw [hpc] at h
    obtain ⟨pre, hxs, hstate, hsent⟩ := h
    have hnext := Echoes.next hxs hstate
    rw [← hsent] at hnext
    exact ⟨(List.append_nil c.sent) ▸ hnext, List.prefix_refl _⟩
  | endMsg hpc =>
    rw [hpc] at h
    obtain ⟨pre, hxs, hstate, hsent⟩ := h
    have hnext := Echoes.next hxs hstate
    rw [← hsent] at hnext
    exact ⟨(List.append_nil c.sent) ▸ hnext, List.prefix_refl _⟩
  | sent hpc hb =>
    rw [hpc] at h
    obtain ⟨pre, hxs, hstate, hsent⟩ := h
    have hnext := Echoes.next hxs hstate
    rw [← hsent, echo_next_message hb, echo_out_message hb] at hnext
    exact ⟨hnext, List.prefix_append _ _⟩

/-- A call that succeeds ends the thread only at the end of the stream. -/
theorem Step.returned (hst : Step c a d) (ha : a.Succeeds) (hret : d.pc = .returned) :
    a = .recv .eof := by
  cases hst with
  | ackKilled | sendFailed | sendKilled => cases ha
  | @recv state r =>
    cases r with
    | eof => rfl
    | data | error => cases hret
  | ackSent | ackFailed | done | skip | endMsg | sent => cases hret

end KoScripts.Servers.ThreadServer

namespace KoScripts.Clients
open Lib Servers ThreadServer

/-- Where `make_new_connection` is. -/
inductive Main
  | connect
  /-- At `recv(1)`. -/
  | recvAck
  /-- At the `send` of the first of these messages, and behind the last at `rthread.join()`. -/
  | sending (rest : List (List UInt8))
  | closed
  deriving DecidableEq

inductive Reader
  | unstarted
  | reading (fullbuf : List UInt8)
  | done (fullbuf : List UInt8)

/-- A client, with the bytes under way in both directions. -/
structure Client where
  main : Main
  reader : Reader
  /-- 'Something is wrong! Did not receive *' -/
  wrong : Bool
  /-- Sent by the client and not yet received. -/
  upstream : List UInt8
  /-- Sent by the server and not yet received. -/
  downstream : List UInt8
  /-- One end has sent to the other, or left bytes of it unread, when one of them was closed. -/
  reset : Bool

namespace Client
variable (s : Client) (serverClosed : Bool)

def execMain : Option Client :=
  match s.main with
  | .connect => none
  | .recvAck =>
    let started := { s with main := .sending messages, reader := .reading [] }
    match s.downstream with
    | b :: downstream => some { started with downstream, wrong := [b] ≠ ascii "*" }
    | [] => if serverClosed then some { started with wrong := true } else none
  | .sending (m :: rest) =>
    some { s with
      main := .sending rest
      upstream := s.upstream ++ m
      reset := serverClosed }
  | .sending [] =>
    match s.reader with
    | .done _ => some { s with main := .closed, reset := s.downstream ≠ [] }
    | _ => none
  | .closed => none

def execReader (n : Nat) : Option Client :=
  match s.reader with
  | .reading fullbuf =>
    if s.downstream = [] then
      -- `b''`, from the end of the stream on
      if serverClosed then some s else none
    else if 1 ≤ n ∧ n ≤ s.downstream.length ∧ n ≤ ReadThread.bufsize then
      let fullbuf := fullbuf ++ s.downstream.take n
      some { s with
        downstream := s.downstream.drop n
        reader := if ReadThread.sentinel <:+: fullbuf then .done fullbuf else .reading fullbuf }
    else none
  | .unstarted | .done _ => none

variable {s t : Client} {serverClosed : Bool}

theorem execMain_connected (hx : s.execMain serverClosed = some t) :
    s.main ≠ .connect ∧ t.main ≠ .connect := by
  unfold execMain at hx
  split at hx
  · cases hx
  · next hmain =>
    simp only at hx
    rw [hmain]
    split at hx
    · cases hx
      exact ⟨Main.noConfusion, Main.noConfusion⟩
    · obtain ⟨-, hx⟩ := Option.ite_none_right_eq_some.mp hx
      cases hx
      exact ⟨Main.noConfusion, Main.noConfusion⟩
  · next hmain =>
    cases hx
    rw [hmain]
    exact ⟨Main.noConfusion, Main.noConfusion⟩
  · next hmain =>
    rw [hmain]
    split at hx
    · cases hx
      exact ⟨Main.noConfusion, Main.noConfusion⟩
    · cases hx
  · cases hx

theorem execReader_main {n : Nat} (hx : s.execReader serverClosed n = some t) :
    t.main = s.main := by
  unfold execReader at hx
  split at hx
  · split at hx
    · obtain ⟨-, hx⟩ := Option.ite_none_right_eq_some.mp hx
      cases hx
      rfl
    · obtain ⟨-, hx⟩ := Option.ite_none_right_eq_some.mp hx
      cases hx
      rfl
  · cases hx
  · cases hx

end Client

/-- A client, and the call of `handle_connection` for it. -/
structure Conversation extends Client where
  server : Option Conn

namespace Conversation

inductive Label
  | main
  /-- `recv` of the reader, which returns `n` bytes. -/
  | reader (n : Nat)
  | server (a : Call)

variable (s : Conversation)

/-- The server has closed its socket. -/
def serverClosed : Bool := s.server.any fun c => c.pc = .returned

def execMain : Option Conversation :=
  (s.toClient.execMain s.serverClosed).map fun toClient => { s with toClient }

def execReader (n : Nat) : Option Conversation :=
  (s.toClient.execReader s.serverClosed n).map fun toClient => { s with toClient }

/-- What a call of the server may return, as long as there is no reset. -/
def returns : Call → Bool
  | .send ok => ok
  | .sigpipe => false
  | .recv (.data bytes) => bytes.isPrefixOf s.upstream
  | .recv .eof => s.upstream = [] && s.main = .closed
  | .recv .error => false
  | .local => true

def execServer (a : Call) : Option Conversation :=
  s.server.bind fun c =>
    if s.returns a then
      (ThreadServer.exec c a).map fun d => { s with
        server := some d
        upstream := s.upstream.drop a.bytes.length
        downstream := s.downstream ++ d.sent.drop c.sent.length
        reset := d.sent ≠ c.sent && s.main = .closed }
    else none

/-- What a call on a connection that has been reset returns is left open. -/
def exec : Label → Option Conversation
  | .main => if s.reset then none else s.execMain
  | .reader n => if s.reset then none else s.execReader n
  | .server a => if s.reset then none else s.execServer a

/-! ## What holds of a conversation -/

end Conversation

def Main.unsent : Main → List (List UInt8)
  | .connect | .recvAck => messages
  | .sending rest => rest
  | .closed => []

/-- The reader runs from the first `recv` on, and the client closes behind it. -/
def Main.Fits : Main → Reader → Prop
  | .connect, .unstarted | .recvAck, .unstarted => True
  | .sending _, .reading _ | .sending _, .done _ | .closed, .done _ => True
  | _, _ => False

theorem Main.Fits.unstarted {m : Main} {r : Reader} (h : m.Fits r)
    (hm : m = .connect ∨ m = .recvAck) : r = .unstarted := by
  cases r with
  | unstarted => rfl
  | reading | done => rcases hm with rfl | rfl <;> cases h

theorem Main.Fits.done {r : Reader} (h : Main.closed.Fits r) : ∃ fullbuf, r = .done fullbuf := by
  cases r with
  | done fullbuf => exact ⟨fullbuf, rfl⟩
  | unstarted | reading => cases h

/-- What the reader has read has the sentinel from its last `recv` on. -/
def Reader.Stops : Reader → Prop
  | .unstarted => True
  | .reading fullbuf => ¬ReadThread.sentinel <:+: fullbuf
  | .done fullbuf => ReadThread.sentinel <:+: fullbuf

/-- All that the client has received. -/
def Reader.received : Reader → List UInt8
  | .unstarted => []
  | .reading fullbuf | .done fullbuf => '*'.toUInt8 :: fullbuf

namespace Conversation

/-- The bytes on both sides, those of the client's messages that have been handled among them. -/
structure Streams (s : Conversation) (c : Conn) : Prop where
  exchange : ∃ consumed, Echoes c.pc consumed c.sent ∧
    consumed ++ (s.upstream ++ s.main.unsent.flatten) = messages.flatten
  downstream : c.sent = s.reader.received ++ s.downstream

structure Served (s : Conversation) (c : Conn) : Prop where
  connected : s.main ≠ .connect
  closed : c.pc = .returned → s.main = .closed
  closedOnce : ClosedOnce c
  streams : s.Streams c

structure Inv (s : Conversation) : Prop where
  safe : s.reset = false
  ack : s.wrong = false
  fits : s.main.Fits s.reader
  stops : s.reader.Stops
  waiting : s.server = none →
    s.upstream = [] ∧ s.downstream = [] ∧ (s.main = .connect ∨ s.main = .recvAck)
  served : ∀ c, s.server = some c → s.Served c

variable {s t : Conversation} {c d : Conn} {l : Label}

theorem Streams.prefix_replies (h : s.Streams c) : c.sent <+: replies messages.flatten := by
  obtain ⟨consumed, hechoes, hall⟩ := h.exchange
  refine hechoes.prefix_replies.trans (replies_mono ?_)
  rw [← hall]
  exact List.prefix_append _ _

/-- A reader that has stopped has received all there is. -/
theorem Streams.complete {fullbuf : List UInt8} (h : s.Streams c) (hstops : s.reader.Stops)
    (hr : s.reader = .done fullbuf) :
    c.sent = replies messages.flatten ∧ s.downstream = [] ∧
      '*'.toUInt8 :: fullbuf = replies messages.flatten := by
  rw [hr] at hstops
  have hsent : c.sent = '*'.toUInt8 :: fullbuf ++ s.downstream := by rw [h.downstream, hr]; rfl
  have hpre : '*'.toUInt8 :: fullbuf <+: replies messages.flatten := by
    refine List.IsPrefix.trans ?_ h.prefix_replies
    rw [hsent]
    exact List.prefix_append _ _
  have hall : '*'.toUInt8 :: fullbuf = replies messages.flatten :=
    (sentinel_iff_complete hpre).mp hstops
  have hnil : s.downstream = [] := by
    have hle := h.prefix_replies
    rw [hsent, hall] at hle
    exact List.append_right_eq_self.mp (hle.eq_of_length_le (by simp))
  refine ⟨?_, hnil, hall⟩
  rw [hsent, hnil, List.append_nil, hall]

/-- The client has received a part of the replies, in their order. -/
theorem Inv.received_prefix (h : s.Inv) : s.reader.received <+: replies messages.flatten := by
  cases hserver : s.server with
  | some c =>
    have hstreams := (h.served c hserver).streams
    refine List.IsPrefix.trans ?_ hstreams.prefix_replies
    rw [hstreams.downstream]
    exact List.prefix_append _ _
  | none =>
    rw [h.fits.unstarted (h.waiting hserver).2.2]
    exact List.nil_prefix

/-! ## The steps keep it -/

theorem Inv.served_of (h : s.Inv) (hmain : s.main ≠ .connect) (hack : s.main ≠ .recvAck) :
    ∃ c, s.server = some c ∧ s.Served c := by
  cases hserver : s.server with
  | none =>
    obtain ⟨-, -, hm | hm⟩ := h.waiting hserver
    · exact absurd hm hmain
    · exact absurd hm hack
  | some c => exact ⟨c, rfl, h.served c hserver⟩

/-- The server closes behind the client. -/
theorem Inv.serverOpen (h : s.Inv) (hmain : s.main ≠ .closed) : s.serverClosed = false := by
  rw [serverClosed, Bool.eq_false_iff]
  intro hc
  obtain ⟨c, hserver, hret⟩ := (Option.any_eq_true _ _).mp hc
  exact hmain ((h.served c hserver).closed (of_decide_eq_true hret))

/-- A step of the client: a message goes upstream, or a reply comes out of the stream. -/
theorem Served.client (h : s.Served c) (hmain : t.main ≠ .connect)
    (hclosed : s.main = .closed → t.main = .closed)
    (hup : t.upstream ++ t.main.unsent.flatten = s.upstream ++ s.main.unsent.flatten)
    (hdown : t.reader.received ++ t.downstream = s.reader.received ++ s.downstream) :
    t.Served c where
  connected := hmain
  closed hret := hclosed (h.closed hret)
  closedOnce := h.closedOnce
  streams := by
    obtain ⟨consumed, hechoes, hall⟩ := h.streams.exchange
    exact ⟨⟨consumed, hechoes, hup ▸ hall⟩, hdown ▸ h.streams.downstream⟩

theorem Inv.execMain (h : s.Inv) (hx : s.execMain = some t) : t.Inv := by
  obtain ⟨e, he, rfl⟩ := Option.map_eq_some_iff.mp hx
  unfold Client.execMain at he
  split at he
  · cases he
  · next hmain =>
    have hunstarted : s.reader = .unstarted := h.fits.unstarted (.inr hmain)
    have hopen : s.serverClosed = false := h.serverOpen (by rw [hmain]; nofun)
    simp only at he
    split at he
    · next b downstream hdown =>
      cases he
      obtain ⟨c, hserver⟩ : ∃ c, s.server = some c := by
        cases hserver : s.server with
        | none =>
          have hnil := (h.waiting hserver).2.1
          rw [hdown] at hnil
          cases hnil
        | some c => exact ⟨c, rfl⟩
      have hserved := h.served c hserver
      have hsent := hserved.streams.downstream
      rw [hunstarted, hdown] at hsent
      have hb : b = '*'.toUInt8 := by
        have hpre := hserved.streams.prefix_replies
        rw [hsent] at hpre
        exact (List.cons_prefix_cons.mp hpre).1
      subst hb
      refine ⟨h.safe, rfl, trivial, ?_, fun hnone => ?_, fun c' hc' => ?_⟩
      · exact fun hc => by cases List.infix_nil.mp hc
      · cases hserver.symm.trans hnone
      · obtain rfl := Option.some.inj (hserver.symm.trans hc')
        refine hserved.client Main.noConfusion (fun hc => ?_) ?_ ?_
        · cases hmain.symm.trans hc
        · rw [hmain]
          rfl
        · rw [hunstarted, hdown]
          rfl
    · rw [hopen] at he
      cases he
  · next m rest hmain =>
    cases he
    obtain ⟨c, hserver, -⟩ := h.served_of (by rw [hmain]; nofun) (by rw [hmain]; nofun)
    have hfits := h.fits
    rw [hmain] at hfits
    refine ⟨h.serverOpen (by rw [hmain]; nofun), h.ack, ?_, h.stops, fun hnone => ?_,
      fun c' hc' => ?_⟩
    · cases hr : s.reader with
      | unstarted => rw [hr] at hfits; cases hfits
      | reading | done => trivial
    · cases hserver.symm.trans hnone
    · refine (h.served c' hc').client Main.noConfusion (fun hc => ?_) ?_ rfl
      · cases hmain.symm.trans hc
      · rw [hmain, List.append_assoc]
        rfl
  · next hmain =>
    split at he
    · next fullbuf hr =>
      cases he
      obtain ⟨c, hserver, hserved⟩ := h.served_of (by rw [hmain]; nofun) (by rw [hmain]; nofun)
      obtain ⟨-, hnil, -⟩ := hserved.streams.complete h.stops hr
      refine ⟨decide_eq_false (not_not.mpr hnil), h.ack, ?_, h.stops, fun hnone => ?_,
        fun c' hc' => ?_⟩
      · rw [hr]
        trivial
      · cases hserver.symm.trans hnone
      · refine (h.served c' hc').client Main.noConfusion (fun _ => rfl) ?_ rfl
        rw [hmain]
        rfl
    · cases he
  · cases he

theorem Inv.execReader {n : Nat} (h : s.Inv) (hx : s.execReader n = some t) :
    t.Inv ∧ t.main = s.main := by
  obtain ⟨e, he, rfl⟩ := Option.map_eq_some_iff.mp hx
  unfold Client.execReader at he
  split at he
  · next fullbuf hr =>
    have hfits := h.fits
    have hsending : ∃ rest, s.main = .sending rest := by
      rw [hr] at hfits
      cases hmain : s.main with
      | sending rest => exact ⟨rest, rfl⟩
      | connect | recvAck | closed => rw [hmain] at hfits; cases hfits
    obtain ⟨rest, hmain⟩ := hsending
    split at he
    · rw [h.serverOpen (by rw [hmain]; nofun)] at he
      cases he
    · obtain ⟨-, he⟩ := Option.ite_none_right_eq_some.mp he
      cases he
      obtain ⟨c, hserver, -⟩ := h.served_of (by rw [hmain]; nofun) (by rw [hmain]; nofun)
      refine ⟨⟨h.safe, h.ack, ?_, ?_, fun hnone => ?_, fun c' hc' => ?_⟩, rfl⟩
      · rw [hmain]
        split
        · trivial
        · trivial
      · split
        · next hdone => exact hdone
        · next hnot => exact hnot
      · cases hserver.symm.trans hnone
      · refine (h.served c' hc').client ?_ (fun hc => hc) rfl ?_
        · rw [hmain]
          exact Main.noConfusion
        · have hreceived : ∀ fullbuf', (if ReadThread.sentinel <:+: fullbuf' then
              Reader.done fullbuf' else Reader.reading fullbuf').received =
              '*'.toUInt8 :: fullbuf' := by
            intro fullbuf'
            split
            · rfl
            · rfl
          rw [hreceived, hr, ← List.cons_append, List.append_assoc, List.take_append_drop]
          rfl
  · cases he
  · cases he

theorem returns_succeeds {a : Call} (h : s.returns a = true) : a.Succeeds := by
  cases a with
  | send ok => exact h
  | recv r =>
    cases r with
    | data | eof => exact Blocking.RecvResult.noConfusion
    | error => cases h
  | _ => trivial

theorem Inv.execServer {a : Call} (h : s.Inv) (hx : s.execServer a = some t) :
    t.Inv ∧ t.main = s.main := by
  obtain ⟨c, hserver, hx⟩ := Option.bind_eq_some_iff.mp hx
  obtain ⟨hreturns, hx⟩ := Option.ite_none_right_eq_some.mp hx
  obtain ⟨d, hd, rfl⟩ := Option.map_eq_some_iff.mp hx
  have hsucceeds := returns_succeeds hreturns
  have hst := step_of_exec hd
  have hserved := h.served c hserver
  obtain ⟨consumed, hechoes, hall⟩ := hserved.streams.exchange
  obtain ⟨hechoes', hpre⟩ := hechoes.step hst hsucceeds
  have hup : a.bytes ++ s.upstream.drop a.bytes.length = s.upstream := by
    cases a with
    | recv r =>
      cases r with
      | eof | error => rfl
      | data bytes =>
        obtain ⟨rest, hrest⟩ := List.isPrefixOf_iff_prefix.mp hreturns
        rw [← hrest]
        simp [Call.bytes]
    | _ => rfl
  have hstreams : Streams { s with
      server := some d
      upstream := s.upstream.drop a.bytes.length
      downstream := s.downstream ++ d.sent.drop c.sent.length
      reset := d.sent ≠ c.sent && s.main = .closed } d := by
    refine ⟨⟨consumed ++ a.bytes, hechoes', ?_⟩, ?_⟩
    · rw [List.append_assoc, ← List.append_assoc a.bytes, hup]
      exact hall
    · obtain ⟨out, hout⟩ := hpre
      rw [← hout, List.drop_left, hserved.streams.downstream, List.append_assoc]
  refine ⟨⟨?_, h.ack, h.fits, h.stops, fun hnone => ?_, fun d' hd' => ?_⟩, rfl⟩
  · -- With the client gone all the replies have been sent.
    by_cases hmain : s.main = .closed
    · have hfits := h.fits
      rw [hmain] at hfits
      obtain ⟨fullbuf, hr⟩ := hfits.done
      obtain ⟨hsent, -, -⟩ := hserved.streams.complete h.stops hr
      have hle := hstreams.prefix_replies
      rw [← hsent] at hle
      have heq : d.sent = c.sent := hle.eq_of_length_le hpre.length_le
      simp [heq]
    · simp [hmain]
  · cases hnone
  · cases hd'
    refine ⟨hserved.connected, fun hret => ?_, hst.closedOnce hserved.closedOnce, hstreams⟩
    obtain rfl := hst.returned hsucceeds hret
    exact of_decide_eq_true (Bool.and_eq_true _ _ ▸ hreturns).2

end Conversation
end KoScripts.Clients
