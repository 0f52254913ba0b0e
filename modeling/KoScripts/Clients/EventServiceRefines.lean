import KoScripts.Clients.ConversationServe
import KoScripts.Clients.EventService
import KoScripts.Lib.Simulation

/-! # An event server against thread_server.c

To its clients an event server is like the thread server: each of its connections is matched by a
thread that has sent the same, and that has read the same or has still to send for what it has read. -/

namespace KoScripts.Clients
open Lib Servers

namespace Client
variable {s t : Client} {serverClosed : Bool}

/-- A message goes upstream when it is sent. -/
theorem execMain_unsent (hx : s.execMain serverClosed = some t) :
    t.upstream ++ t.main.unsent.flatten = s.upstream ++ s.main.unsent.flatten := by
  unfold execMain at hx
  split at hx
  · cases hx
  · next hmain =>
    simp only at hx
    rw [hmain]
    split at hx
    · cases hx
      rfl
    · obtain ⟨-, hx⟩ := Option.ite_none_right_eq_some.mp hx
      cases hx
      rfl
  · next hmain =>
    cases hx
    rw [hmain, List.append_assoc]
    rfl
  · next hmain =>
    rw [hmain]
    split at hx
    · cases hx
      rfl
    · cases hx
  · cases hx

theorem execReader_upstream {n : Nat} (hx : s.execReader serverClosed n = some t) :
    t.upstream = s.upstream := by
  unfold execReader at hx
  split at hx
  · split at hx
    · obtain ⟨-, hx⟩ := Option.ite_none_right_eq_some.mp hx
      cases hx
      rfl
    · obtain ⟨-, hx⟩ := Option.ite_none_right_eq_some.mp hx
      cases hx
      rfl
  · cases hx
  · cases hx

end Client

variable {σ α : Type} {E : EventServer σ α} {own : List Nat} {n listenerFd i : Nat}
  {s t : EventService σ} {u v : Service} {c c' : EventClient} {d d' : Conversation}
  {socks socks' : Nat → Option Event.Conn}

/-- An open connection and the thread that stands for it. -/
structure Threaded (c : EventClient) (k : Event.Conn) (th : ThreadServer.Conn) : Prop where
  stream : k.stream = messages.flatten
  sent : th.sent = k.sent
  echoes : ThreadServer.Echoes th.pc k.consumed th.sent
  running : th.pc ≠ .returned
  exchange : k.consumed ++ (c.upstream ++ c.main.unsent.flatten) = messages.flatten

/-- A client of an event server and the same client of the thread server. -/
structure Matches (socks : Nat → Option Event.Conn) (c : EventClient) (d : Conversation) :
    Prop where
  client : d.toClient = c.toClient
  waiting : c.sock = .waiting → d.server = none
  opened : ∀ fd, c.sock = .opened fd →
    ∃ k th, socks fd = some k ∧ d.server = some th ∧ Threaded c k th
  closed : c.sock = .closed → ∃ th, d.server = some th ∧ th.pc = .returned

theorem Matches.serverClosed (h : Matches socks c d) : c.serverClosed = d.serverClosed := by
  rw [EventClient.serverClosed, Conversation.serverClosed]
  cases hsock : c.sock with
  | waiting =>
    rw [h.waiting hsock]
    rfl
  | opened fd =>
    obtain ⟨k, th, -, hserver, hth⟩ := h.opened fd hsock
    rw [hserver]
    simpa using hth.running
  | closed =>
    obtain ⟨th, hserver, hret⟩ := h.closed hsock
    rw [hserver]
    simpa using hret

/-- A step of the client itself. -/
theorem Matches.client_step {e : Client} (h : Matches socks c d)
    (hup : e.upstream ++ e.main.unsent.flatten = c.upstream ++ c.main.unsent.flatten) :
    Matches socks { c with toClient := e } { d with toClient := e } where
  client := rfl
  waiting := h.waiting
  opened fd hsock := by
    obtain ⟨k, th, hk, hserver, hth⟩ := h.opened fd hsock
    exact ⟨k, th, hk, hserver, ⟨hth.stream, hth.sent, hth.echoes, hth.running,
      hup ▸ hth.exchange⟩⟩
  closed := h.closed

/-- The connections of the other clients do not matter. -/
theorem Matches.congr (h : Matches socks c d)
    (hsame : ∀ fd, c.sock = .opened fd → socks' fd = socks fd) : Matches socks' c d where
  client := h.client
  waiting := h.waiting
  opened fd hsock := by
    rw [hsame fd hsock]
    exact h.opened fd hsock
  closed := h.closed

structure Rel (E : EventServer σ α) (n : Nat) (s : EventService σ) (u : Service) : Prop where
  inv : u.Inv true n
  reach : E.machine.Reach Machine.anyStep s.server
  running : E.halted s.server = none
  length : s.clients.length = u.clients.length
  backlog : s.backlog = u.backlog
  clients : ∀ (i : Nat) (c : EventClient) (d : Conversation), s.clients[i]? = some c →
    u.clients[i]? = some d → Matches (E.socks s.server) c d
  unique : ∀ (i j : Nat) (c c' : EventClient) (fd : Nat), s.clients[i]? = some c →
    s.clients[j]? = some c' → c.sock = .opened fd → c'.sock = .opened fd → i = j
  /-- Every open connection is a client's. -/
  owned : ∀ fd, E.socks s.server fd ≠ none →
    ∃ (i : Nat) (c : EventClient), s.clients[i]? = some c ∧ c.sock = .opened fd

theorem Rel.get (h : Rel E n s u) (hc : s.clients[i]? = some c) :
    ∃ d, u.clients[i]? = some d ∧ Matches (E.socks s.server) c d ∧ d.Inv := by
  have hi : i < u.clients.length := h.length ▸ (List.getElem?_eq_some_iff.mp hc).1
  have hd : u.clients[i]? = some u.clients[i] := List.getElem?_eq_getElem hi
  exact ⟨_, hd, h.clients i c _ hc hd, h.inv.clients _ (List.mem_of_getElem? hd)⟩

theorem Rel.get' (h : Rel E n s u) (hd : u.clients[i]? = some d) :
    ∃ c, s.clients[i]? = some c ∧ Matches (E.socks s.server) c d ∧ d.Inv := by
  have hi : i < s.clients.length := h.length ▸ (List.getElem?_eq_some_iff.mp hd).1
  have hc : s.clients[i]? = some s.clients[i] := List.getElem?_eq_getElem hi
  exact ⟨_, hc, h.clients i _ d hc hd, h.inv.clients _ (List.mem_of_getElem? hd)⟩

/-- No connection of a related state has been reset. -/
theorem Rel.reset (h : Rel E n s u) (hc : s.clients[i]? = some c) : c.reset = false := by
  obtain ⟨d, -, hm, hinv⟩ := h.get hc
  rw [← hm.client]
  exact hinv.safe

/-- One client on both sides is replaced, and only its connection is touched. -/
theorem Rel.set {σt : σ} {backlog backlog' accepted : List Nat} (h : Rel E n s u)
    (hc : s.clients[i]? = some c) (hd : u.clients[i]? = some d)
    (hback : backlog' = backlog)
    (hinv : Service.Inv true n { u with clients := u.clients.set i d', backlog, accepted })
    (hreach : E.machine.Reach Machine.anyStep σt) (hrun : E.halted σt = none)
    (hm : Matches (E.socks σt) c' d')
    (hothers : ∀ fd k, c.sock ≠ .opened fd → E.socks s.server fd = some k →
      E.socks σt fd = some k)
    (hfresh : ∀ fd, c'.sock = .opened fd → c.sock = .opened fd ∨ E.socks s.server fd = none)
    (howned : ∀ fd, E.socks σt fd ≠ none → c'.sock = .opened fd ∨
      c.sock ≠ .opened fd ∧ E.socks s.server fd ≠ none) :
    Rel E n { server := σt, clients := s.clients.set i c', backlog := backlog' }
      { u with clients := u.clients.set i d', backlog, accepted } where
  inv := hinv
  reach := hreach
  running := hrun
  length := by rw [List.length_set, List.length_set, h.length]
  backlog := hback
  clients j e f hj hf := by
    rcases getElem?_set_self_or hj with ⟨rfl, rfl⟩ | ⟨hne, hj⟩
    · rw [List.getElem?_set_self (List.getElem?_eq_some_iff.mp hd).1] at hf
      cases hf
      exact hm
    · rw [List.getElem?_set_ne hne.symm] at hf
      have hmatch := h.clients j e f hj hf
      refine hmatch.congr fun fd hsock => ?_
      obtain ⟨k, -, hk, -⟩ := hmatch.opened fd hsock
      rw [hk]
      refine hothers fd k (fun hsock' => ?_) hk
      exact hne (h.unique j i e c fd hj hc hsock hsock')
  unique j k e f fd hj hk he hf := by
    have hclash : ∀ j e, j ≠ i → s.clients[j]? = some e → e.sock = .opened fd →
        c'.sock = .opened fd → False := by
      intro j e hne hj he hsock
      rcases hfresh fd hsock with hsock' | hnone
      · exact hne (h.unique j i e c fd hj hc he hsock')
      · obtain ⟨f, -, hmatch, -⟩ := h.get hj
        obtain ⟨k, -, hk, -⟩ := hmatch.opened fd he
        cases hnone.symm.trans hk
    rcases getElem?_set_self_or hj with ⟨hji, hee⟩ | ⟨hne, hje⟩
    · rcases getElem?_set_self_or hk with ⟨hki, -⟩ | ⟨hne', hkf⟩
      · rw [hji, hki]
      · exact (hclash k f hne' hkf hf (hee ▸ he)).elim
    · rcases getElem?_set_self_or hk with ⟨-, hff⟩ | ⟨-, hkf⟩
      · exact (hclash j e hne hje he (hff ▸ hf)).elim
      · exact h.unique j k e f fd hje hkf he hf
  owned fd hfd := by
    have hi : i < s.clients.length := (List.getElem?_eq_some_iff.mp hc).1
    rcases howned fd hfd with hsock | ⟨hne, hopen⟩
    · exact ⟨i, c', List.getElem?_set_self hi, hsock⟩
    · obtain ⟨j, e, hj, he⟩ := h.owned fd hopen
      refine ⟨j, e, ?_, he⟩
      rw [List.getElem?_set_ne]
      · exact hj
      · rintro rfl
        obtain rfl := Option.some.inj (hc.symm.trans hj)
        exact hne he

/-! ## The steps of the clients -/

theorem inv_of_exec {l : ServiceLabel} (h : Rel E n s u)
    (hx : (service true n).exec u l = some v) : v.Inv true n := (h.inv.exec hx).1

/-- A step of the client at `i` by itself, on both sides. -/
theorem Rel.client {e : Client} {l : Conversation.Label} (h : Rel E n s u)
    (hc : s.clients[i]? = some c) (hd : u.clients[i]? = some d)
    (hx : d.exec l = some { d with toClient := e })
    (hup : e.upstream ++ e.main.unsent.flatten = c.upstream ++ c.main.unsent.flatten) :
    (service true n).run u [.client i l] =
        some { u with clients := u.clients.set i { d with toClient := e } } ∧
      Rel E n { s with clients := s.clients.set i { c with toClient := e } }
        { u with clients := u.clients.set i { d with toClient := e } } := by
  have hstep : (service true n).exec u (.client i l) =
      some { u with clients := u.clients.set i { d with toClient := e } } := by
    simp only [service, hd, Option.bind_some, hx, Option.map_some]
  refine ⟨Machine.run_cons_of_exec hstep, ?_⟩
  refine h.set hc hd h.backlog (inv_of_exec h hstep) h.reach h.running
    ((h.clients i c d hc hd).client_step hup) (fun _ _ _ hk => hk) (fun fd hsock => .inl hsock)
    fun fd hfd => ?_
  exact (em (c.sock = .opened fd)).imp id fun hne => ⟨hne, hfd⟩

theorem Rel.main {e : Client} (h : Rel E n s u) (hc : s.clients[i]? = some c)
    (hd : u.clients[i]? = some d) (he : c.toClient.execMain c.serverClosed = some e) :
    (service true n).run u [.client i .main] =
        some { u with clients := u.clients.set i { d with toClient := e } } ∧
      Rel E n { s with clients := s.clients.set i { c with toClient := e } }
        { u with clients := u.clients.set i { d with toClient := e } } := by
  have hmatch := h.clients i c d hc hd
  have hinv := h.inv.clients d (List.mem_of_getElem? hd)
  refine h.client hc hd ?_ (Client.execMain_unsent he)
  rw [Conversation.exec, hinv.safe, if_neg Bool.false_ne_true, Conversation.execMain,
    ← hmatch.serverClosed, hmatch.client, he, Option.map_some]

theorem Rel.reader {e : Client} {m : Nat} (h : Rel E n s u) (hc : s.clients[i]? = some c)
    (hd : u.clients[i]? = some d) (he : c.toClient.execReader c.serverClosed m = some e) :
    (service true n).run u [.client i (.reader m)] =
        some { u with clients := u.clients.set i { d with toClient := e } } ∧
      Rel E n { s with clients := s.clients.set i { c with toClient := e } }
        { u with clients := u.clients.set i { d with toClient := e } } := by
  have hmatch := h.clients i c d hc hd
  have hinv := h.inv.clients d (List.mem_of_getElem? hd)
  refine h.client hc hd ?_ ?_
  · rw [Conversation.exec, hinv.safe, if_neg Bool.false_ne_true, Conversation.execReader,
      ← hmatch.serverClosed, hmatch.client, he, Option.map_some]
  · rw [Client.execReader_upstream he, Client.execReader_main he]

/-! ## connect and accept -/

theorem Rel.connect (h : Rel E n s u) (hc : s.clients[i]? = some c) (hmain : c.main = .connect)
    (hback : s.backlog.length < nBacklog) :
    ∃ v, (service true n).run u [.connect i] = some v ∧ Rel E n { s with
      clients := s.clients.set i { c with main := .recvAck }
      backlog := s.backlog ++ [i] } v := by
  obtain ⟨d, hd, hmatch, -⟩ := h.get hc
  have hmain' : d.main = .connect := (congrArg Client.main hmatch.client).trans hmain
  have hclient : ({ d with main := .recvAck } : Conversation) =
      { d with toClient := { c.toClient with main := .recvAck } } := by rw [← hmatch.client]
  have hstep : (service true n).exec u (.connect i) = some { u with
      clients := u.clients.set i { d with main := .recvAck }
      backlog := s.backlog ++ [i] } := by
    simp only [service, hd, h.backlog] at hback ⊢
    exact if_pos ⟨hmain', hback⟩
  have hunsent : { c.toClient with main := .recvAck }.upstream ++
      { c.toClient with main := .recvAck }.main.unsent.flatten =
      c.upstream ++ c.main.unsent.flatten := by
    rw [hmain]
    rfl
  have hinv := inv_of_exec h hstep
  rw [hclient] at hstep hinv
  refine ⟨_, Machine.run_cons_of_exec hstep, ?_⟩
  exact h.set hc hd rfl hinv h.reach h.running (hmatch.client_step hunsent) (fun _ _ _ hk => hk)
    (fun fd hsock => .inl hsock) fun fd hfd => (em (c.sock = .opened fd)).imp id fun hne =>
      ⟨hne, hfd⟩

/-- A client that waits for its `accept`. -/
theorem Rel.waits {backlog : List Nat} (h : Rel E n s u) (hback : s.backlog = i :: backlog)
    (hc : s.clients[i]? = some c) (hd : u.clients[i]? = some d) :
    c.sock = .waiting ∧ d.server = none ∧ d.upstream = [] ∧ d.main = .recvAck := by
  have hmem : i ∈ u.backlog := by
    rw [← h.backlog, hback]
    exact List.mem_cons_self
  obtain ⟨hmain, hserver⟩ := (h.inv.backlog i d hd).mp hmem
  have hmatch := h.clients i c d hc hd
  obtain ⟨hup, -, hack⟩ := (h.inv.clients d (List.mem_of_getElem? hd)).waiting hserver
  refine ⟨?_, hserver, hup, hack.resolve_left hmain⟩
  cases hsock : c.sock with
  | waiting => rfl
  | opened fd =>
    obtain ⟨k, th, -, hsome, -⟩ := hmatch.opened fd hsock
    cases hserver.symm.trans hsome
  | closed =>
    obtain ⟨th, hsome, -⟩ := hmatch.closed hsock
    cases hserver.symm.trans hsome

/-- The descriptor of an open connection. -/
def EventClient.fd (c : EventClient) : Option Nat :=
  match c.sock with
  | .opened fd => some fd
  | .waiting | .closed => none

theorem Rel.mem_fds {fd : Nat} (h : Rel E n s u) (hfd : E.socks s.server fd ≠ none) :
    fd ∈ s.clients.filterMap EventClient.fd := by
  obtain ⟨j, e, hj, he⟩ := h.owned fd hfd
  refine List.mem_filterMap.mpr ⟨e, List.mem_of_getElem? hj, ?_⟩
  rw [EventClient.fd, he]

/-- With one client still waiting, the kernel has no more descriptors in use than all the others and
the process itself need. -/
theorem Rel.lowestFree_lt {fd : Nat} (h : Rel E n s u) (hc : s.clients[i]? = some c)
    (hwait : c.sock = .waiting) (hfree : lowestFree own (E.socks s.server) fd = true)
    (hfit : own.length + n ≤ E.maxfds) : fd < E.maxfds := by
  obtain ⟨-, -, hbelow⟩ := of_decide_eq_true hfree
  have hsub : List.range fd ⊆ own ++ s.clients.filterMap EventClient.fd := by
    intro k hk
    rcases hbelow k (List.mem_range.mp hk) with hown | hopen
    · exact List.mem_append_left _ hown
    · refine List.mem_append_right _ (h.mem_fds fun hnone => ?_)
      rw [hnone] at hopen
      cases hopen
  have hle := (List.subperm_of_subset List.nodup_range hsub).length_le
  have hlt : (s.clients.filterMap EventClient.fd).length < s.clients.length := by
    refine List.length_filterMap_lt_length_iff_exists.mpr ⟨c, List.mem_of_getElem? hc, ?_⟩
    rw [EventClient.fd, hwait]
  have hn : s.clients.length = n := h.length.trans h.inv.length
  rw [List.length_range, List.length_append] at hle
  omega

theorem Rel.accept {fd : Nat} {σt : σ} {a : α} {backlog : List Nat} (h : Rel E n s u)
    (hE : E.Lawful listenerFd) (hfit : own.length + n ≤ E.maxfds)
    (hback : s.backlog = i :: backlog) (hc : s.clients[i]? = some c)
    (hx : E.machine.exec s.server a = some σt) (hsucceeds : E.succeeds a = true)
    (haccepts : E.accepts a = some (fd, messages.flatten))
    (hfree : lowestFree own (E.socks s.server) fd = true)
    (hopen : E.socks σt fd = some ⟨messages.flatten, [], []⟩) :
    ∃ v, (service true n).run u [.accept] = some v ∧ Rel E n
      { server := σt, clients := s.clients.set i { c with sock := .opened fd }, backlog } v := by
  obtain ⟨d, hd, hmatch, -⟩ := h.get hc
  obtain ⟨hwait, hserver, hup, hmain⟩ := h.waits hback hc hd
  have hnone : E.socks s.server fd = none := Option.isNone_iff_eq_none.mp (of_decide_eq_true hfree).2.1
  obtain ⟨hrun, hothers⟩ := hE.accept h.reach h.running hx hsucceeds haccepts
    (h.lowestFree_lt hc hwait hfree hfit) hnone hopen
  have hstep : (service true n).exec u .accept = some {
      clients := u.clients.set i { d with server := some ThreadServer.thread.init }
      backlog
      accepted := u.accepted ++ [i] } := by
    simp only [service, ← h.backlog, hback, hd, true_or, if_true, Option.map_some]
  have hexchange : [] ++ (c.upstream ++ c.main.unsent.flatten) = messages.flatten := by
    rw [← hmatch.client, hup, hmain]
    rfl
  have hmatch' : Matches (E.socks σt) { c with sock := .opened fd }
      { d with server := some ThreadServer.thread.init } := by
    refine ⟨hmatch.client, Sock.noConfusion, fun fd' hsock => ?_, Sock.noConfusion⟩
    cases hsock
    exact ⟨_, _, hopen, rfl, ⟨rfl, rfl, ⟨rfl, rfl⟩, ThreadServer.Pc.noConfusion, hexchange⟩⟩
  refine ⟨_, Machine.run_cons_of_exec hstep, ?_⟩
  refine h.set hc hd rfl (inv_of_exec h hstep) (.step h.reach trivial hx) hrun hmatch' ?_ ?_ ?_
  · intro fd' k _ hk
    rw [hothers, hk]
    rintro rfl
    cases hnone.symm.trans hk
  · intro fd' hsock
    cases hsock
    exact .inr hnone
  · intro fd' hfd'
    by_cases heq : fd' = fd
    · exact .inl (congrArg Sock.opened heq.symm)
    · refine .inr ⟨?_, hothers fd' heq ▸ hfd'⟩
      rw [hwait]
      exact Sock.noConfusion

/-! ## The steps of the server -/

namespace EventClient
variable {k : Event.Conn} {fd : Nat} {bytes out : List UInt8}

theorem follow_same (hreset : c.reset = false)
    (hsame : ∀ fd, c.sock = .opened fd → socks' fd = socks fd) : c.follow socks socks' = c := by
  obtain ⟨⟨main, reader, wrong, upstream, downstream, reset⟩, sock⟩ := c
  cases sock with
  | waiting | closed => rfl
  | opened fd =>
    obtain rfl : reset = false := hreset
    simp only [follow, hsame fd rfl]
    cases socks fd with
    | none => rfl
    | some k => simp

theorem follow_moved (hreset : c.reset = false) (hsock : c.sock = .opened fd)
    (hk : socks fd = some k)
    (hk' : socks' fd = some ⟨k.stream, k.consumed ++ bytes, k.sent ++ out⟩)
    (hclosed : c.main = .closed → out = []) :
    c.follow socks socks' = { c with
      upstream := c.upstream.drop bytes.length
      downstream := c.downstream ++ out } := by
  have hsafe : (decide (k.sent ++ out ≠ k.sent) && decide (c.main = .closed)) = false := by
    rw [Bool.and_eq_false_iff, decide_eq_false_iff_not, decide_eq_false_iff_not, ne_eq, not_not]
    by_cases hm : c.main = .closed
    · exact .inl (by rw [hclosed hm, List.append_nil])
    · exact .inr hm
  simp only [follow, hsock, hk, hk', List.drop_left, hsafe, ← hreset]

theorem follow_closed (hsock : c.sock = .opened fd) (hk : socks fd = some k)
    (hk' : socks' fd = none) : c.follow socks socks' = { c with sock := .closed } := by
  simp only [follow, hsock, hk, hk']

theorem prefix_of_allows (hsock : c.sock = .opened fd) (hk : socks fd = some k)
    (hk' : socks' fd = some ⟨k.stream, k.consumed ++ bytes, k.sent ++ out⟩)
    (h : c.allows socks socks' = true) : bytes <+: c.upstream := by
  simp only [allows, hsock, hk, hk', List.drop_left] at h
  exact List.isPrefixOf_iff_prefix.mp h

theorem ended_of_allows (hsock : c.sock = .opened fd) (hk : socks fd = some k)
    (hk' : socks' fd = none) (h : c.allows socks socks' = true) :
    c.upstream = [] ∧ c.main = .closed := by
  simpa [allows, hsock, hk, hk'] using h

end EventClient

/-- What the thread of one client does, it does among the others. -/
theorem run_conversation {as : List ThreadServer.Call} (hd : u.clients[i]? = some d)
    (hr : d.calls as = some d') :
    (service true n).run u (as.map fun a => .client i (.server a)) =
      some { u with clients := u.clients.set i d' } := by
  have hi : i < u.clients.length := (List.getElem?_eq_some_iff.mp hd).1
  have hself : { u with clients := u.clients.set i d } = u := by
    obtain rfl : u.clients[i] = d := (List.getElem?_eq_some_iff.mp hd).2
    rw [List.set_getElem_self]
  have hstep : ∀ {x : Conversation} {a : ThreadServer.Call} {y : Conversation},
      x.exec (.server a) = some y →
      (service true n).exec { u with clients := u.clients.set i x } (.client i (.server a)) =
        some { u with clients := u.clients.set i y } := by
    intro x a y hx
    simp only [service, List.getElem?_set_self hi, Option.bind_some, hx, Option.map_some,
      List.set_set]
  have hrun := Machine.run_map (M := service true n)
    (f := fun x => { u with clients := u.clients.set i x }) (g := fun a => .client i (.server a))
    hstep hr
  rw [← hself]
  simpa only [List.set_set] using hrun

theorem Rel.stutter {σt : σ} (h : Rel E n s u) (hreach : E.machine.Reach Machine.anyStep σt)
    (hrun : E.halted σt = none) (hsame : E.socks σt = E.socks s.server) :
    Rel E n { s with server := σt } u where
  inv := h.inv
  reach := hreach
  running := hrun
  length := h.length
  backlog := h.backlog
  clients := hsame ▸ h.clients
  unique := h.unique
  owned := hsame ▸ h.owned

/-- Behind its client a thread has nothing to send. -/
theorem nothing_left {th : ThreadServer.Conn} {out : List UInt8} (hinv : d.Inv)
    (hserver : d.server = some th) (hmain : d.main = .closed)
    (hout : th.sent ++ out <+: replies messages.flatten) : out = [] := by
  have hfits := hinv.fits
  rw [hmain] at hfits
  obtain ⟨fullbuf, hr⟩ := hfits.done
  obtain ⟨hsent, -, -⟩ := (hinv.served th hserver).streams.complete hinv.stops hr
  rw [← hsent] at hout
  exact List.append_right_eq_self.mp (hout.eq_of_length_le (by simp))

theorem Rel.map_follow_same (h : Rel E n s u) (hsame : socks' = E.socks s.server) :
    s.clients.map (·.follow (E.socks s.server) socks') = s.clients := by
  refine (List.map_congr_left fun c hc => ?_).trans (List.map_id _)
  obtain ⟨j, hj⟩ := List.mem_iff_getElem?.mp hc
  exact EventClient.follow_same (h.reset hj) fun fd _ => congrFun hsame fd

/-- Only the client on `fd` sees that the connection on `fd` moves. -/
theorem Rel.map_follow {fd : Nat} (h : Rel E n s u) (hc : s.clients[i]? = some c)
    (hsock : c.sock = .opened fd) (hothers : ∀ k, k ≠ fd → socks' k = E.socks s.server k) :
    s.clients.map (·.follow (E.socks s.server) socks') =
      s.clients.set i (c.follow (E.socks s.server) socks') := by
  refine map_eq_set (f := (·.follow (E.socks s.server) socks')) hc fun j e hji hj => ?_
  refine EventClient.follow_same (h.reset hj) fun fd' hsock' => hothers fd' ?_
  rintro rfl
  exact hji (h.unique j i e c fd' hj hc hsock' hsock)

section
variable {σt : σ} {fd : Nat} {k : Event.Conn} {th : ThreadServer.Conn}

/-- The thread reads what the server has read and sends what it has sent. -/
theorem Rel.moved {bytes out : List UInt8} (h : Rel E n s u) (hc : s.clients[i]? = some c)
    (hd : u.clients[i]? = some ⟨c.toClient, some th⟩) (hsock : c.sock = .opened fd)
    (hk : E.socks s.server fd = some k) (hth : Threaded c k th)
    (hreach : E.machine.Reach Machine.anyStep σt) (hrun : E.halted σt = none)
    (hothers : ∀ k, k ≠ fd → E.socks σt k = E.socks s.server k)
    (hk' : E.socks σt fd = some ⟨k.stream, k.consumed ++ bytes, k.sent ++ out⟩)
    (hread : bytes ≠ [] → k.sent = replies k.consumed ∧ bytes.length ≤ 1024)
    (hin : k.consumed ++ bytes <+: k.stream)
    (hout : k.sent ++ out <+: replies (k.consumed ++ bytes))
    (hallow : c.allows (E.socks s.server) (E.socks σt) = true) :
    ∃ bs v, (service true n).run u bs = some v ∧ Rel E n { s with
        server := σt
        clients := s.clients.set i (c.follow (E.socks s.server) (E.socks σt)) } v ∧
      (bs = [] → E.socks σt fd = E.socks s.server fd) := by
  have hinv := h.inv.clients _ (List.mem_of_getElem? hd)
  have hup := EventClient.prefix_of_allows hsock hk hk' hallow
  rw [hth.stream] at hin
  rw [← hth.sent] at hread hout
  have hclosed (hmain : c.main = .closed) : out = [] :=
    nothing_left hinv rfl hmain (hout.trans (replies_mono hin))
  obtain ⟨as, th', has, hsent', hechoes', hpc'⟩ := Conversation.calls_serve hinv.safe rfl
    hth.echoes hth.running hup hread hout hclosed
  have hbs := run_conversation (n := n) hd has
  refine ⟨_, _, hbs, ?_, fun hnil => ?_⟩
  · rw [EventClient.follow_moved (h.reset hc) hsock hk hk' hclosed]
    have hexchange : k.consumed ++ bytes ++
        (c.upstream.drop bytes.length ++ c.main.unsent.flatten) = messages.flatten := by
      obtain ⟨rest, hrest⟩ := hup
      have hall := hth.exchange
      rw [← hrest, List.append_assoc, ← List.append_assoc] at hall
      rw [← hrest, List.drop_left]
      exact hall
    refine h.set hc hd h.backlog (Service.ranked.run h.inv hbs).1 hreach hrun
      ⟨rfl, fun hw => ?_, fun fd' hfd' => ?_, fun hw => ?_⟩ (fun fd' k' hne hk' => ?_)
      (fun _ hs => .inl hs) fun fd' hfd' => ?_
    · cases hsock.symm.trans hw
    · obtain rfl : fd = fd' := Sock.opened.inj (hsock.symm.trans hfd')
      have hsent : th'.sent = k.sent ++ out := by rw [hsent', hth.sent]
      exact ⟨_, th', hk', rfl, hth.stream, hsent, hechoes', hpc', hexchange⟩
    · cases hsock.symm.trans hw
    · rw [hothers fd' fun heq => hne (heq ▸ hsock)]
      exact hk'
    · by_cases heq : fd' = fd
      · exact .inl (heq ▸ hsock)
      · refine .inr ⟨fun hs => heq (Sock.opened.inj (hs.symm.trans hsock)), ?_⟩
        exact hothers fd' heq ▸ hfd'
  · -- Without a call the streams are as they were.
    obtain rfl := List.map_eq_nil_iff.mp hnil
    have heq := congrArg Conversation.toClient (Option.some.inj has)
    have hdown : c.downstream = c.downstream ++ out := congrArg Client.downstream heq
    have hlen : c.upstream = c.upstream.drop bytes.length := congrArg Client.upstream heq
    have hlen := congrArg List.length hlen
    have hle := hup.length_le
    rw [List.length_drop] at hlen
    obtain rfl := List.append_right_eq_self.mp hdown.symm
    obtain rfl : bytes = [] := List.eq_nil_of_length_eq_zero (by omega)
    rw [hk', hk, List.append_nil, List.append_nil]

/-- The thread reads the end of the stream and returns. -/
theorem Rel.ended (h : Rel E n s u) (hc : s.clients[i]? = some c)
    (hd : u.clients[i]? = some ⟨c.toClient, some th⟩) (hsock : c.sock = .opened fd)
    (hk : E.socks s.server fd = some k) (hth : Threaded c k th)
    (hreach : E.machine.Reach Machine.anyStep σt) (hrun : E.halted σt = none)
    (hothers : ∀ k, k ≠ fd → E.socks σt k = E.socks s.server k)
    (hk' : E.socks σt fd = none) (hdone : k.Done)
    (hallow : c.allows (E.socks s.server) (E.socks σt) = true) :
    ∃ bs v, (service true n).run u bs = some v ∧ Rel E n { s with
        server := σt
        clients := s.clients.set i (c.follow (E.socks s.server) (E.socks σt)) } v ∧ bs ≠ [] := by
  have hinv := h.inv.clients _ (List.mem_of_getElem? hd)
  obtain ⟨hup, hmain⟩ := EventClient.ended_of_allows hsock hk hk' hallow
  have hall : th.sent = replies k.consumed := by rw [hth.sent, hdone.sent, hdone.all]
  obtain ⟨as, th', has, hret⟩ := Conversation.calls_close hinv.safe rfl hth.echoes hth.running
    hall hup hmain
  have hbs := run_conversation (n := n) hd has
  refine ⟨_, _, hbs, ?_, fun hnil => ?_⟩
  · rw [EventClient.follow_closed hsock hk hk']
    refine h.set hc hd h.backlog (Service.ranked.run h.inv hbs).1 hreach hrun
      ⟨rfl, Sock.noConfusion, fun _ => Sock.noConfusion, fun _ => ⟨th', rfl, hret⟩⟩
      (fun fd' k' hne hk' => ?_) (fun _ => Sock.noConfusion) fun fd' hfd' => .inr ?_
    · rw [hothers fd' fun heq => hne (heq ▸ hsock)]
      exact hk'
    · have hne : fd' ≠ fd := by
        rintro rfl
        exact hfd' hk'
      exact ⟨fun hs => hne (Sock.opened.inj (hs.symm.trans hsock)), hothers fd' hne ▸ hfd'⟩
  · obtain rfl := List.map_eq_nil_iff.mp hnil
    have heq := congrArg Conversation.server (Option.some.inj has)
    obtain rfl : th = th' := Option.some.inj heq
    exact absurd hret hth.running

/-- A step of the server is matched by calls of the thread of the client that it serves. -/
theorem Rel.server {a : α} (h : Rel E n s u) (hE : E.Lawful listenerFd)
    (hx : E.machine.exec s.server a = some σt) (hsucceeds : E.succeeds a = true)
    (haccepts : E.accepts a = none)
    (hallows : ∀ c ∈ s.clients, c.allows (E.socks s.server) (E.socks σt) = true) :
    ∃ bs v, (service true n).run u bs = some v ∧ Rel E n { s with
        server := σt
        clients := s.clients.map (·.follow (E.socks s.server) (E.socks σt)) } v ∧
      (bs = [] → E.socks σt = E.socks s.server) := by
  obtain ⟨hrun, fd, M⟩ := hE.step h.reach h.running hx hsucceeds haccepts
  have hreach : E.machine.Reach Machine.anyStep σt := .step h.reach trivial hx
  have hsame_of (hfd : E.socks σt fd = E.socks s.server fd) : E.socks σt = E.socks s.server := by
    funext k
    by_cases hk : k = fd
    · rw [hk, hfd]
    · exact M.others k hk
  by_cases hopen : E.socks s.server fd = none
  · have hsame := hsame_of ((M.free hopen).trans hopen.symm)
    rw [h.map_follow_same hsame]
    exact ⟨[], u, rfl, h.stutter hreach hrun hsame, fun _ => hsame⟩
  obtain ⟨i, c, hc, hsock⟩ := h.owned fd hopen
  obtain ⟨⟨client, server⟩, hd, hmatch, -⟩ := h.get hc
  obtain rfl : client = c.toClient := hmatch.client
  obtain ⟨k, th, hk, hserver, hth⟩ := hmatch.opened fd hsock
  obtain rfl : server = some th := hserver
  have hallow := hallows c (List.mem_of_getElem? hc)
  rw [h.map_follow hc hsock M.others]
  have hmoves := M.moves k hk
  generalize hk' : E.socks σt fd = o at hmoves
  cases hmoves with
  | @moved bytes out hread =>
    obtain ⟨hin, hout⟩ := hE.served hreach hrun hk'
    obtain ⟨bs, v, hbs, hrel, hnil⟩ :=
      h.moved hc hd hsock hk hth hreach hrun M.others hk' hread hin hout hallow
    exact ⟨bs, v, hbs, hrel, fun hb => hsame_of (hnil hb)⟩
  | closed hdone =>
    obtain ⟨bs, v, hbs, hrel, hne⟩ :=
      h.ended hc hd hsock hk hth hreach hrun M.others hk' hdone hallow
    exact ⟨bs, v, hbs, hrel, fun hb => absurd hb hne⟩

end

end KoScripts.Clients
