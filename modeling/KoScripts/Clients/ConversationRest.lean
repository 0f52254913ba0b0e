import KoScripts.Clients.Conversation
import Mathlib.Algebra.Order.BigOperators.Group.List
import Mathlib.Algebra.Order.Ring.Int

/-! # A conversation comes to its end

Every step takes from what the client and the server have left to do, with what the bytes under way
still need. Between two steps there is always one that can be taken, until both ends are closed. -/

namespace KoScripts.Clients
open Lib Servers ThreadServer

/-- What the sends of these messages still need, with the bytes in them. -/
def sendWeight (ms : List (List UInt8)) : Int := (ms.map fun m => 1 + 4 * (m.length : Int)).sum

theorem sendWeight_nonneg (ms : List (List UInt8)) : 0 ≤ sendWeight ms := by
  refine List.sum_nonneg fun x hx => ?_
  obtain ⟨m, -, rfl⟩ := List.mem_map.mp hx
  omega

theorem sendWeight_cons (m : List UInt8) (ms : List (List UInt8)) :
    sendWeight (m :: ms) = 1 + 4 * m.length + sendWeight ms := List.sum_cons

/-- What the client's main thread has left to do. -/
def Main.weight : Main → Int
  | .connect => sendWeight messages + 3
  | .recvAck => sendWeight messages + 2
  | .sending rest => sendWeight rest + 1
  | .closed => 0

/-- What the server has left to do, from the `accept` on, with the replies that are received. -/
def serverWeight : Option Conn → Int
  | none => 4
  | some c =>
    match c.pc with
    | .ack => 3
    | .recv _ => 1
    | .loop _ rest => 2 * rest.length + 2
    | .returned | .exited | .killed => 0

namespace Conversation
variable {s t : Conversation} {c d : Conn} {l : Label}

/-- The server is in `handle_connection` for this client. -/
def handled (s : Conversation) : Bool := s.server.any fun c => c.pc ≠ .returned

def rank (s : Conversation) : Int :=
  s.main.weight + serverWeight s.server + 4 * s.upstream.length + s.downstream.length

theorem rank_nonneg (s : Conversation) : 0 ≤ s.rank := by
  have hmain : 0 ≤ s.main.weight := by
    cases s.main with
    | connect | recvAck | sending => exact Int.add_nonneg (sendWeight_nonneg _) (by decide)
    | closed => exact Int.le_refl 0
  have hserver : 0 ≤ serverWeight s.server := by
    unfold serverWeight
    split
    · omega
    · split <;> omega
  rw [rank]
  omega

theorem Inv.rank_execMain (h : s.Inv) (hx : s.execMain = some t) : t.rank + 1 ≤ s.rank := by
  obtain ⟨e, he, rfl⟩ := Option.map_eq_some_iff.mp hx
  unfold Client.execMain at he
  split at he
  · cases he
  · next hmain =>
    have hopen : s.serverClosed = false := h.serverOpen (by rw [hmain]; nofun)
    simp only at he
    split at he
    · next b downstream hdown =>
      cases he
      simp only [rank, hmain, hdown, Main.weight, List.length_cons]
      omega
    · rw [hopen] at he
      cases he
  · next m rest hmain =>
    cases he
    simp only [rank, hmain, Main.weight, sendWeight_cons, List.length_append]
    omega
  · next hmain =>
    split at he
    · cases he
      simp only [rank, hmain, Main.weight, sendWeight, List.map_nil, List.sum_nil]
      omega
    · cases he
  · cases he

theorem Inv.rank_execReader {n : Nat} (h : s.Inv) (hx : s.execReader n = some t) :
    t.rank + 1 ≤ s.rank := by
  have hopen : s.main ≠ .closed → s.serverClosed = false := h.serverOpen
  have hfits := h.fits
  obtain ⟨e, he, rfl⟩ := Option.map_eq_some_iff.mp hx
  unfold Client.execReader at he
  split at he
  · next fullbuf hr =>
    rw [hr] at hfits
    split at he
    · have hmain : s.main ≠ .closed := fun hc => by rw [hc] at hfits; cases hfits
      rw [hopen hmain] at he
      cases he
    · obtain ⟨hn, he⟩ := Option.ite_none_right_eq_some.mp he
      cases he
      simp only [rank, List.length_drop]
      omega
  · cases he
  · cases he

theorem rank_execServer {a : Call} (hx : s.execServer a = some t) : t.rank + 1 ≤ s.rank := by
  obtain ⟨c, hserver, hx⟩ := Option.bind_eq_some_iff.mp hx
  obtain ⟨hreturns, hx⟩ := Option.ite_none_right_eq_some.mp hx
  obtain ⟨d, hd, rfl⟩ := Option.map_eq_some_iff.mp hx
  simp only [rank, hserver, serverWeight, List.length_append, List.length_drop]
  cases step_of_exec hd with
  | ackSent hpc =>
    simp only [hpc, Call.bytes, List.length_append, List.length_cons, List.length_nil]
    omega
  | ackFailed | ackKilled => cases hreturns
  | @recv state r hpc hr =>
    cases r with
    | data bytes =>
      have hle : bytes.length ≤ s.upstream.length :=
        (List.isPrefixOf_iff_prefix.mp hreturns).length_le
      have hpos : 0 < bytes.length :=
        List.length_pos_iff.mpr (of_decide_eq_true (Bool.and_eq_true _ _ ▸ hr).1)
      simp only [hpc, Call.bytes, Conn.onRecv]
      omega
    | eof =>
      simp only [hpc, Call.bytes, Conn.onRecv, Conn.close, List.length_nil]
      omega
    | error => cases hreturns
  | done hpc =>
    simp only [hpc, Call.bytes, List.length_nil]
    omega
  | skip hpc =>
    simp only [hpc, Call.bytes, List.length_cons, List.length_nil]
    omega
  | endMsg hpc =>
    simp only [hpc, Call.bytes, List.length_cons, List.length_nil]
    omega
  | sent hpc =>
    simp only [hpc, Call.bytes, List.length_append, List.length_cons, List.length_nil]
    omega
  | sendFailed | sendKilled => cases hreturns

theorem Inv.exec (h : s.Inv) (hx : s.exec l = some t) : t.Inv ∧ t.rank + 1 ≤ s.rank := by
  cases l with
  | main =>
    obtain ⟨-, hx⟩ := Option.ite_none_left_eq_some.mp hx
    exact ⟨h.execMain hx, h.rank_execMain hx⟩
  | reader n =>
    obtain ⟨-, hx⟩ := Option.ite_none_left_eq_some.mp hx
    exact ⟨(h.execReader hx).1, h.rank_execReader hx⟩
  | server a =>
    obtain ⟨-, hx⟩ := Option.ite_none_left_eq_some.mp hx
    exact ⟨(h.execServer hx).1, rank_execServer hx⟩

theorem Inv.connect (h : s.Inv) (hmain : s.main = .connect) (hserver : s.server = none) :
    Inv { s with main := .recvAck } := by
  refine ⟨h.safe, h.ack, ?_, h.stops, fun _ => ?_, fun c hc => ?_⟩
  · rw [h.fits.unstarted (.inl hmain)]
    trivial
  · obtain ⟨hup, hdown, -⟩ := h.waiting hserver
    exact ⟨hup, hdown, .inr rfl⟩
  · cases hserver.symm.trans hc

theorem Inv.accept (h : s.Inv) (hmain : s.main ≠ .connect) (hserver : s.server = none) :
    Inv { s with server := some thread.init } := by
  obtain ⟨hup, hdown, hm⟩ := h.waiting hserver
  have hack := hm.resolve_left hmain
  refine ⟨h.safe, h.ack, h.fits, h.stops, fun hc => ?_, fun c hc => ?_⟩
  · cases hc
  · cases hc
    refine ⟨hmain, fun hret => ?_, rfl, ⟨[], ⟨rfl, rfl⟩, ?_⟩, ?_⟩
    · cases hret
    · rw [hup, hack]
      rfl
    · rw [h.fits.unstarted hm, hdown]
      rfl

/-- A step does not connect the client, nor have it accepted. -/
theorem exec_frame (hx : s.exec l = some t) :
    (t.main = .connect ↔ s.main = .connect) ∧ (t.server = none ↔ s.server = none) ∧
      (t.handled = true → s.handled = true) := by
  cases l with
  | main =>
    obtain ⟨-, hx⟩ := Option.ite_none_left_eq_some.mp hx
    obtain ⟨e, he, rfl⟩ := Option.map_eq_some_iff.mp hx
    obtain ⟨hs, ht⟩ := Client.execMain_connected he
    exact ⟨iff_of_false ht hs, Iff.rfl, id⟩
  | reader n =>
    obtain ⟨-, hx⟩ := Option.ite_none_left_eq_some.mp hx
    obtain ⟨e, he, rfl⟩ := Option.map_eq_some_iff.mp hx
    have hmain : e.main = s.main := Client.execReader_main he
    exact ⟨by rw [hmain], Iff.rfl, id⟩
  | server a =>
    obtain ⟨-, hx⟩ := Option.ite_none_left_eq_some.mp hx
    obtain ⟨c, hserver, hx⟩ := Option.bind_eq_some_iff.mp hx
    obtain ⟨-, hx⟩ := Option.ite_none_right_eq_some.mp hx
    obtain ⟨d, hd, rfl⟩ := Option.map_eq_some_iff.mp hx
    rw [hserver]
    refine ⟨Iff.rfl, iff_of_false (Option.some_ne_none d) (Option.some_ne_none c), fun _ => ?_⟩
    rw [handled, hserver]
    refine decide_eq_true fun hret => ?_
    cases (exec_returned hret a).symm.trans hd

/-! ## A conversation that cannot go on -/

/-- The client has closed behind all the replies, and the server behind the client. -/
structure Finished (s : Conversation) : Prop where
  main : s.main = .closed
  reader : ∃ fullbuf, s.reader = .done fullbuf ∧ '*'.toUInt8 :: fullbuf = replies messages.flatten
  server : ∃ c, s.server = some c ∧ c.pc = .returned ∧ c.closed = 1

theorem returns_quiet {a : Call} (ha : a.Quiet) : s.returns a = true := by
  rcases ha with rfl | rfl <;> rfl

theorem exec_loop {state : Blocking.InternalState} {rest : List UInt8}
    (hpc : c.pc = .loop state rest) :
    ∃ a, s.returns a = true ∧ ThreadServer.exec c a ≠ none := by
  cases rest with
  | nil =>
    have hx : ThreadServer.exec c .local = _ := exec_done hpc
    exact ⟨.local, rfl, hx ▸ Option.some_ne_none _⟩
  | cons b rest =>
    have hx : ThreadServer.exec c (call state b) = _ := exec_call hpc
    exact ⟨call state b, returns_quiet (call_quiet state b), hx ▸ Option.some_ne_none _⟩

/-- A server that waits for the client leaves it something to do. -/
theorem Inv.client_moves {state : Blocking.InternalState} (h : s.Inv)
    (hserver : s.server = some c) (hpc : c.pc = .recv state) (hup : s.upstream = [])
    (hmain : s.main ≠ .closed) : s.execMain ≠ none ∨ s.execReader 1 ≠ none := by
  have hserved := h.served c hserver
  obtain ⟨consumed, hechoes, hall⟩ := hserved.streams.exchange
  rw [hpc] at hechoes
  have hdown := hserved.streams.downstream
  have hfits := h.fits
  rw [hechoes.2] at hdown
  cases hm : s.main with
  | connect => exact absurd hm hserved.connected
  | closed => exact absurd hm hmain
  | recvAck =>
    rw [h.fits.unstarted (.inr hm), Reader.received, List.nil_append, replies] at hdown
    refine .inl ?_
    rw [Conversation.execMain, Client.execMain, hm, ← hdown]
    exact Option.some_ne_none _
  | sending rest =>
    cases rest with
    | cons m rest =>
      refine .inl ?_
      rw [Conversation.execMain, Client.execMain, hm]
      exact Option.some_ne_none _
    | nil =>
      rw [hm] at hfits
      cases hr : s.reader with
      | unstarted => rw [hr] at hfits; cases hfits
      | done fullbuf =>
        refine .inl ?_
        rw [Conversation.execMain, Client.execMain, hm, hr]
        exact Option.some_ne_none _
      | reading fullbuf =>
        refine .inr ?_
        have hne : s.downstream ≠ [] := by
          intro hnil
          have hstops := h.stops
          rw [hm, hup] at hall
          have hconsumed : consumed = messages.flatten := by simpa [Main.unsent] using hall
          rw [hnil, List.append_nil, hr, hconsumed] at hdown
          rw [hr] at hstops
          have hall : '*'.toUInt8 :: fullbuf = replies messages.flatten := hdown.symm
          exact hstops ((sentinel_iff_complete (hall ▸ List.prefix_refl _)).mpr hall)
        have hlen : 1 ≤ s.downstream.length := List.length_pos_iff.mpr hne
        rw [Conversation.execReader, Client.execReader, hr]
        simp only [if_neg hne]
        rw [if_pos ⟨Nat.le_refl 1, hlen, by decide⟩]
        exact Option.some_ne_none _

theorem Inv.finished (h : s.Inv) (hserver : s.server = some c) (hrest : ∀ l, s.exec l = none) :
    s.Finished := by
  have hserved := h.served c hserver
  obtain ⟨consumed, hechoes, -⟩ := hserved.streams.exchange
  have hstuck : ∀ a, s.returns a = true → ThreadServer.exec c a = none := by
    intro a ha
    have hnone := hrest (.server a)
    rw [Conversation.exec, h.safe, if_neg Bool.false_ne_true, Conversation.execServer, hserver,
      Option.bind_some, if_pos ha] at hnone
    exact Option.map_eq_none_iff.mp hnone
  cases hpc : c.pc with
  | ack =>
    have hnone := hstuck (.send true) rfl
    simp only [ThreadServer.exec, hpc] at hnone
    cases hnone
  | loop state rest =>
    obtain ⟨a, ha, hsome⟩ := exec_loop (s := s) hpc
    exact absurd (hstuck a ha) hsome
  | exited | killed =>
    rw [hpc] at hechoes
    cases hechoes
  | recv state =>
    have hup : s.upstream = [] := by
      cases hup : s.upstream with
      | nil => rfl
      | cons b bs =>
        have ha : s.returns (.recv (.data [b])) = true := by
          rw [returns, hup]
          simp
        have hnone := hstuck _ ha
        simp only [ThreadServer.exec, hpc] at hnone
        cases hnone
    have hmain : s.main ≠ .closed := by
      intro hmain
      have ha : s.returns (.recv .eof) = true := by
        rw [returns, hup, hmain]
        rfl
      have hnone := hstuck _ ha
      simp only [ThreadServer.exec, hpc] at hnone
      cases hnone
    have hmainNone := hrest .main
    have hreaderNone := hrest (.reader 1)
    rw [Conversation.exec, h.safe, if_neg Bool.false_ne_true] at hmainNone
    rw [Conversation.exec, h.safe, if_neg Bool.false_ne_true] at hreaderNone
    rcases h.client_moves hserver hpc hup hmain with hmove | hmove
    · exact absurd hmainNone hmove
    · exact absurd hreaderNone hmove
  | returned =>
    have hmain := hserved.closed hpc
    have hfits := h.fits
    rw [hmain] at hfits
    obtain ⟨fullbuf, hr⟩ := hfits.done
    obtain ⟨-, -, hall⟩ := hserved.streams.complete h.stops hr
    exact ⟨hmain, ⟨fullbuf, hr, hall⟩, c, hserver, hpc, hserved.closedOnce.trans (if_pos hpc)⟩

end Conversation
end KoScripts.Clients
