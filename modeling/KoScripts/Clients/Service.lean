import KoScripts.Clients.ConversationRest
import KoScripts.Lib.Termination
import KoScripts.Lib.Threads
import Mathlib.Data.List.Nodup

/-! # The clients and the blocking servers

Any number of clients of `simple_client.py` and `sequential_server.c` or `thread_server.c`, which
differ in when they accept the next one. -/

namespace KoScripts.Clients
open Lib Servers ThreadServer

/-- `N_BACKLOG` -/
def nBacklog : Nat := 64

/-- `backlog` holds the clients that have connected and wait for an `accept`, `accepted` those that
have been accepted. -/
structure Service where
  clients : List Conversation
  backlog : List Nat
  accepted : List Nat

inductive ServiceLabel
  | connect (i : Nat)
  | accept
  | client (i : Nat) (l : Conversation.Label)

def Conversation.start : Conversation where
  main := .connect
  reader := .unstarted
  wrong := false
  upstream := []
  downstream := []
  server := none
  reset := false

/-- `n` clients. A server that is not `threaded` accepts the next one when `handle_connection` has
returned. -/
def service (threaded : Bool) (n : Nat) : Machine Service ServiceLabel where
  init := { clients := List.replicate n .start, backlog := [], accepted := [] }
  exec s
    | .connect i =>
      match s.clients[i]? with
      | some c =>
        if c.main = .connect ∧ s.backlog.length < nBacklog then
          some { s with
            clients := s.clients.set i { c with main := .recvAck }
            backlog := s.backlog ++ [i] }
        else none
      | none => none
    | .accept =>
      match s.backlog with
      | i :: backlog =>
        if threaded ∨ ∀ c ∈ s.clients, c.handled = false then
          s.clients[i]?.map fun c => { s with
            clients := s.clients.set i { c with server := some thread.init }
            backlog
            accepted := s.accepted ++ [i] }
        else none
      | [] => none
    | .client i l =>
      s.clients[i]?.bind fun c => (c.exec l).map fun d => { s with clients := s.clients.set i d }

namespace Service
variable {s t : Service} {threaded : Bool} {n i j : Nat} {l : ServiceLabel}
  {ls : List ServiceLabel}

def rank (s : Service) : Int := (s.clients.map Conversation.rank).sum

structure Inv (threaded : Bool) (n : Nat) (s : Service) : Prop where
  length : s.clients.length = n
  clients : ∀ c ∈ s.clients, c.Inv
  /-- A client is in the backlog from its `connect` to its `accept`. -/
  backlog : ∀ i c, s.clients[i]? = some c → (i ∈ s.backlog ↔ c.main ≠ .connect ∧ c.server = none)
  inRange : ∀ i ∈ s.backlog, i < s.clients.length
  nodup : s.backlog.Nodup
  alone : threaded = false → ∀ (i j : Nat) (c d : Conversation), s.clients[i]? = some c →
    s.clients[j]? = some d → c.handled = true → d.handled = true → i = j

theorem inv_start : Conversation.start.Inv where
  safe := rfl
  ack := rfl
  fits := trivial
  stops := trivial
  waiting _ := ⟨rfl, rfl, .inl rfl⟩
  served c hc := by cases hc

theorem inv_init : Inv threaded n (service threaded n).init where
  length := List.length_replicate
  clients c hc := by
    rw [List.eq_of_mem_replicate hc]
    exact inv_start
  backlog i c hc := by
    rw [List.eq_of_mem_replicate (List.mem_of_getElem? hc)]
    exact iff_of_false List.not_mem_nil fun h => h.1 rfl
  inRange i hi := by cases hi
  nodup := List.nodup_nil
  alone _ i j c d hc _ hhandled := by
    rw [List.eq_of_mem_replicate (List.mem_of_getElem? hc)] at hhandled
    cases hhandled

/-- A step of one client: `c` becomes `d`, and the backlog changes for this one only. -/
theorem Inv.set {c d : Conversation} {backlog accepted : List Nat} (h : s.Inv threaded n)
    (hc : s.clients[i]? = some c) (hd : d.Inv) (hrank : d.rank + 1 ≤ c.rank)
    (hin : i ∈ backlog ↔ d.main ≠ .connect ∧ d.server = none)
    (hother : ∀ j, j ≠ i → (j ∈ backlog ↔ j ∈ s.backlog)) (hnodup : backlog.Nodup)
    (halone : threaded = false → d.handled = true → c.handled = true ∨
      ∀ e ∈ s.clients, e.handled = false) :
    Inv threaded n { s with clients := s.clients.set i d, backlog, accepted } ∧
      rank { s with clients := s.clients.set i d, backlog, accepted } + 1 ≤ s.rank := by
  refine ⟨⟨List.length_set.trans h.length, fun e he => ?_, fun j e hj => ?_, fun j hj => ?_, hnodup,
    fun hthreaded j k e f hj hk he hf => ?_⟩, ?_⟩
  · rcases List.mem_or_eq_of_mem_set he with he | rfl
    · exact h.clients e he
    · exact hd
  · rcases getElem?_set_self_or hj with ⟨rfl, rfl⟩ | ⟨hne, hj⟩
    · exact hin
    · rw [hother j hne]
      exact h.backlog j e hj
  · rw [List.length_set]
    by_cases hji : j = i
    · rw [hji]
      exact (List.getElem?_eq_some_iff.mp hc).1
    · exact h.inRange j ((hother j hji).mp hj)
  · have hbefore : ∀ j e, (s.clients.set i d)[j]? = some e → e.handled = true →
        (∀ e ∈ s.clients, e.handled = false) ∧ j = i ∨
          ∃ e', s.clients[j]? = some e' ∧ e'.handled = true := by
      intro j e hj he
      rcases getElem?_set_self_or hj with ⟨rfl, rfl⟩ | ⟨-, hj⟩
      · rcases halone hthreaded he with hch | hnone
        · exact .inr ⟨c, hc, hch⟩
        · exact .inl ⟨hnone, rfl⟩
      · exact .inr ⟨e, hj, he⟩
    rcases hbefore j e hj he with ⟨hnone, rfl⟩ | ⟨e', hj', he'⟩
    · rcases hbefore k f hk hf with ⟨-, rfl⟩ | ⟨f', hk', hf'⟩
      · rfl
      · rw [hnone f' (List.mem_of_getElem? hk')] at hf'
        cases hf'
    · rcases hbefore k f hk hf with ⟨hnone, -⟩ | ⟨f', hk', hf'⟩
      · rw [hnone e' (List.mem_of_getElem? hj')] at he'
        cases he'
      · exact h.alone hthreaded j k e' f' hj' hk' he' hf'
  · have hset := sum_map_set (b := d) (f := Conversation.rank) hc
    simp only [rank]
    omega

theorem Inv.exec (h : s.Inv threaded n) (hx : (service threaded n).exec s l = some t) :
    t.Inv threaded n ∧ t.rank + 1 ≤ s.rank := by
  cases l with
  | connect i =>
    simp only [service] at hx
    split at hx
    · next c hc =>
      obtain ⟨⟨hmain, -⟩, hx⟩ := Option.ite_none_right_eq_some.mp hx
      cases hx
      have hci := h.clients c (List.mem_of_getElem? hc)
      have hserver : c.server = none := by
        cases hserver : c.server with
        | none => rfl
        | some d => exact absurd hmain (hci.served d hserver).connected
      have hout : i ∉ s.backlog := fun hi => ((h.backlog i c hc).mp hi).1 hmain
      refine h.set hc (hci.connect hmain hserver) ?_ ?_ (fun j hj => ?_) ?_ fun _ hh => .inl hh
      · simp only [Conversation.rank, hmain, Main.weight]
        omega
      · exact iff_of_true (List.mem_append_right _ List.mem_cons_self)
          ⟨Main.noConfusion, hserver⟩
      · rw [List.mem_append, List.mem_singleton, or_iff_left hj]
      · exact List.nodup_append.mpr ⟨h.nodup, List.nodup_singleton i, fun j hj k hk hjk => by
          rw [hjk, List.mem_singleton.mp hk] at hj
          exact hout hj⟩
    · cases hx
  | accept =>
    simp only [service] at hx
    split at hx
    · next i backlog hback =>
      obtain ⟨hfree, hx⟩ := Option.ite_none_right_eq_some.mp hx
      obtain ⟨c, hc, rfl⟩ := Option.map_eq_some_iff.mp hx
      have hci := h.clients c (List.mem_of_getElem? hc)
      have hnodup := h.nodup
      rw [hback] at hnodup
      obtain ⟨hi, hnodup⟩ := List.nodup_cons.mp hnodup
      obtain ⟨hmain, hserver⟩ := (h.backlog i c hc).mp (hback ▸ List.mem_cons_self)
      refine h.set hc (hci.accept hmain hserver) ?_ ?_ (fun j hj => ?_) hnodup fun hthreaded _ => ?_
      · simp only [Conversation.rank, hserver, serverWeight, thread]
        omega
      · exact iff_of_false hi fun hc => Option.some_ne_none _ hc.2
      · rw [hback, List.mem_cons, or_iff_right hj]
      · rw [hthreaded] at hfree
        exact .inr (hfree.resolve_left Bool.false_ne_true)
    · cases hx
  | client i l =>
    obtain ⟨c, hc, hx⟩ := Option.bind_eq_some_iff.mp hx
    obtain ⟨d, hd, rfl⟩ := Option.map_eq_some_iff.mp hx
    obtain ⟨hinv, hrank⟩ := (h.clients c (List.mem_of_getElem? hc)).exec hd
    obtain ⟨hmain, hserver, hhandled⟩ := Conversation.exec_frame hd
    refine h.set hc hinv hrank ?_ (fun _ _ => Iff.rfl) h.nodup fun _ hh => .inl (hhandled hh)
    rw [h.backlog i c hc, ne_eq, ne_eq, hmain, hserver]

theorem ranked : (service threaded n).Ranked (Inv threaded n) rank fun _ => 0 where
  nonneg {s} _ := by
    refine List.sum_nonneg fun x hx => ?_
    obtain ⟨c, -, rfl⟩ := List.mem_map.mp hx
    exact c.rank_nonneg
  keeps h hx := (h.exec hx).1
  step h hx := Int.le_trans (h.exec hx).2 (Int.le_add_of_nonneg_right (Int.le_refl 0))

theorem rank_init : (service threaded n).init.rank = 154 * n := by
  have hstart : Conversation.start.rank = 154 := by decide +kernel
  simp only [rank, service, List.map_replicate, List.sum_replicate, hstart, nsmul_eq_mul]
  omega

/-- Where nothing can go on, nobody waits in the backlog and nobody has to connect. -/
theorem Inv.finished (h : s.Inv threaded n)
    (hrest : ∀ l, (service threaded n).exec s l = none) : ∀ c ∈ s.clients, c.Finished := by
  have hstuck : ∀ c ∈ s.clients, ∀ l, c.exec l = none := by
    intro c hc l
    obtain ⟨i, hi⟩ := List.mem_iff_getElem?.mp hc
    have hnone : (s.clients[i]?.bind fun c =>
        (c.exec l).map fun d => { s with clients := s.clients.set i d }) = none :=
      hrest (.client i l)
    rw [hi, Option.bind_some, Option.map_eq_none_iff] at hnone
    exact hnone
  have hserved : ∀ c ∈ s.clients, c.server ≠ none → c.Finished := by
    intro c hc hserver
    obtain ⟨d, hd⟩ := Option.ne_none_iff_exists'.mp hserver
    exact (h.clients c hc).finished hd (hstuck c hc)
  have hidle : ∀ c ∈ s.clients, c.handled = false := by
    intro c hc
    rw [Conversation.handled]
    cases hserver : c.server with
    | none => rfl
    | some d =>
      have hsome : c.server ≠ none := hserver ▸ Option.some_ne_none d
      obtain ⟨d', hd', hret, -⟩ := (hserved c hc hsome).server
      cases hserver.symm.trans hd'
      exact decide_eq_false (not_not.mpr hret)
  have hback : s.backlog = [] := by
    cases hback : s.backlog with
    | nil => rfl
    | cons i backlog =>
      have hi : i < s.clients.length := h.inRange i (hback ▸ List.mem_cons_self)
      have hnone := hrest .accept
      simp only [service, hback] at hnone
      rw [if_pos (.inr hidle), Option.map_eq_none_iff, List.getElem?_eq_none_iff] at hnone
      exact absurd hi (Nat.not_lt.mpr hnone)
  intro c hc
  obtain ⟨i, hi⟩ := List.mem_iff_getElem?.mp hc
  refine hserved c hc fun hserver => ?_
  by_cases hmain : c.main = .connect
  · have hnone := hrest (.connect i)
    simp only [service, hi] at hnone
    rw [if_pos ⟨hmain, by rw [hback]; decide⟩] at hnone
    cases hnone
  · have hmem := (h.backlog i c hi).mpr ⟨hmain, hserver⟩
    rw [hback] at hmem
    cases hmem

end Service

variable {threaded : Bool} {n : Nat} {s : Service} {ls : List ServiceLabel}

/-- However the network cuts the streams and the threads of the clients and of the server
interleave, no end of a connection is reset, a client reads nothing but the replies in their order,
and the sequential server handles one client at a time. No run has more than 154 steps for each
client, and where none can be taken every client has all the replies and both ends are closed. -/
theorem clients_served (hrun : (service threaded n).run (service threaded n).init ls = some s) :
    ls.length ≤ 154 * n ∧
    (∀ c ∈ s.clients, c.reset = false ∧ c.wrong = false ∧
      c.reader.received <+: ascii "*bcdbcuf23436bc1111") ∧
    (threaded = false → ∀ (i j : Nat) (c d : Conversation), s.clients[i]? = some c →
      s.clients[j]? = some d → c.handled = true → d.handled = true → i = j) ∧
    ((∀ l, (service threaded n).exec s l = none) → ∀ c ∈ s.clients, c.main = .closed ∧
      c.reader = .done (ascii "bcdbcuf23436bc1111") ∧
      ∃ d, c.server = some d ∧ d.pc = .returned ∧ d.closed = 1) ∧
    ∃ ls' t, (service threaded n).run s ls' = some t ∧
      ∀ l, (service threaded n).exec t l = none := by
  have hranked : (service threaded n).Ranked (Service.Inv threaded n) Service.rank fun _ => 0 :=
    Service.ranked
  obtain ⟨hi, -⟩ := hranked.run Service.inv_init hrun
  have hlength := hranked.length_le Service.inv_init hrun
  rw [Service.rank_init] at hlength
  have hzero : (ls.map fun _ => 0).sum = 0 := by simp
  rw [hzero] at hlength
  refine ⟨by omega, fun c hc => ?_, hi.alone, fun hrest c hc => ?_, ?_⟩
  · have hci := hi.clients c hc
    exact ⟨hci.safe, hci.ack, replies_messages ▸ hci.received_prefix⟩
  · obtain ⟨hmain, ⟨fullbuf, hreader, hall⟩, hserver⟩ := hi.finished hrest c hc
    refine ⟨hmain, ?_, hserver⟩
    rw [replies_messages] at hall
    rw [hreader]
    exact congrArg Reader.done (List.cons.inj hall).2
  · obtain ⟨ls', t, -, hrun', hrest⟩ := hranked.exists_rest hi
    exact ⟨ls', t, hrun', fun l => hrest l rfl⟩

/-- Two clients of the sequential server: both are served in the end. -/
theorem clients_served_two : ∃ ls s, (service false 2).run (service false 2).init ls = some s ∧
    ∀ c ∈ s.clients, c.main = .closed ∧ c.reader = .done (ascii "bcdbcuf23436bc1111") ∧
      ∃ d, c.server = some d ∧ d.pc = .returned ∧ d.closed = 1 := by
  have hrun : (service false 2).run (service false 2).init [] = some _ := rfl
  obtain ⟨ls, s, hls, hrest⟩ := (clients_served hrun).2.2.2.2
  exact ⟨ls, s, hls, (clients_served hls).2.2.2.1 hrest⟩

end KoScripts.Clients
