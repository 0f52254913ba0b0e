import Mathlib.Data.Fintype.EquivFin
import Mathlib.Data.Nat.Find
import KoScripts.Clients.EventServiceRefines

/-! # The clients of an event server are served

Every step of the clients and an event server is matched by steps of the clients and the thread
server; and as long as the latter can go on, the former can bring them on. -/

namespace KoScripts.Clients
open Lib Servers ThreadServer

variable {σ α : Type} {E : EventServer σ α} {own : List Nat} {n listenerFd i fd : Nat}
  {s t : EventService σ} {u v : Service} {c : EventClient} {d : Conversation} {σt : σ} {a : α}
  {k : Event.Conn} {th th' : ThreadServer.Conn}

/-! ## Simulation -/

theorem rel_init (hE : E.Lawful listenerFd) :
    Rel E n (eventService E own n).init (service true n).init where
  inv := Service.inv_init
  reach := .init
  running := hE.start
  length := List.length_replicate.trans List.length_replicate.symm
  backlog := rfl
  clients i c d hc hd := by
    obtain rfl := List.eq_of_mem_replicate (List.mem_of_getElem? hc)
    obtain rfl := List.eq_of_mem_replicate (List.mem_of_getElem? hd)
    exact ⟨rfl, fun _ => rfl, fun _ => Sock.noConfusion, Sock.noConfusion⟩
  unique i j c c' fd hc _ hsock := by
    obtain rfl := List.eq_of_mem_replicate (List.mem_of_getElem? hc)
    cases hsock
  owned fd hfd := absurd (hE.empty fd) hfd

theorem simulates (hE : E.Lawful listenerFd) (hfit : own.length + n ≤ E.maxfds) :
    Machine.Simulates (eventService E own n) (service true n) (Rel E n) where
  init := rel_init hE
  step {s t u l} h hx := by
    cases l with
    | connect i =>
      obtain ⟨c, hc, hx⟩ := Option.bind_eq_some_iff.mp hx
      obtain ⟨⟨hmain, hback⟩, hx⟩ := Option.ite_none_right_eq_some.mp hx
      cases hx
      obtain ⟨v, hv, hrel⟩ := h.connect hc hmain hback
      exact ⟨_, v, hv, hrel⟩
    | accept a =>
      simp only [eventService] at hx
      split at hx
      · next i backlog fd stream hback haccepts =>
        obtain ⟨⟨hsucceeds, hfree, rfl⟩, hx⟩ := Option.ite_none_right_eq_some.mp hx
        obtain ⟨σt, hσt, hx⟩ := Option.bind_eq_some_iff.mp hx
        obtain ⟨hopen, hx⟩ := Option.ite_none_right_eq_some.mp hx
        obtain ⟨c, hc, rfl⟩ := Option.map_eq_some_iff.mp hx
        obtain ⟨v, hv, hrel⟩ := h.accept hE hfit hback hc hσt hsucceeds haccepts hfree hopen
        exact ⟨_, v, hv, hrel⟩
      · cases hx
    | server a =>
      obtain ⟨⟨haccepts, hsucceeds, -⟩, hx⟩ := Option.ite_none_right_eq_some.mp hx
      obtain ⟨σt, hσt, hx⟩ := Option.bind_eq_some_iff.mp hx
      obtain ⟨hallows, hx⟩ := Option.ite_none_right_eq_some.mp hx
      cases hx
      obtain ⟨bs, v, hv, hrel, -⟩ := h.server hE hσt hsucceeds haccepts (List.all_eq_true.mp hallows)
      exact ⟨bs, v, hv, hrel⟩
    | main i =>
      obtain ⟨c, hc, hx⟩ := Option.bind_eq_some_iff.mp hx
      obtain ⟨-, hx⟩ := Option.ite_none_left_eq_some.mp hx
      obtain ⟨e, he, rfl⟩ := Option.map_eq_some_iff.mp hx
      obtain ⟨d, hd, -⟩ := h.get hc
      exact ⟨_, _, h.main hc hd he⟩
    | reader i m =>
      obtain ⟨c, hc, hx⟩ := Option.bind_eq_some_iff.mp hx
      obtain ⟨-, hx⟩ := Option.ite_none_left_eq_some.mp hx
      obtain ⟨e, he, rfl⟩ := Option.map_eq_some_iff.mp hx
      obtain ⟨d, hd, -⟩ := h.get hc
      exact ⟨_, _, h.reader hc hd he⟩

/-! ## The server goes on -/

theorem Rel.exec_server (h : Rel E n s u) (own : List Nat)
    (hx : E.machine.exec s.server a = some σt) (hsucceeds : E.succeeds a = true)
    (haccepts : E.accepts a = none)
    (hallows : ∀ c ∈ s.clients, c.allows (E.socks s.server) (E.socks σt) = true) :
    (eventService E own n).exec s (.server a) = some { s with
      server := σt
      clients := s.clients.map (·.follow (E.socks s.server) (E.socks σt)) } := by
  have hreset : s.clients.all (!·.reset) = true := by
    refine List.all_eq_true.mpr fun c hc => ?_
    obtain ⟨j, hj⟩ := List.mem_iff_getElem?.mp hc
    rw [h.reset hj]
    rfl
  simp only [eventService]
  rw [if_pos ⟨haccepts, hsucceeds, hreset⟩, hx, Option.bind_some,
    if_pos (List.all_eq_true.mpr hallows)]

theorem EventClient.allows_same {socks socks' : Nat → Option Event.Conn}
    (h : ∀ fd, c.sock = .opened fd → socks' fd = socks fd) : c.allows socks socks' = true := by
  unfold allows
  split
  · next fd hsock =>
    rw [h fd hsock]
    cases socks fd with
    | none => rfl
    | some k => simp
  · rfl
  · rfl

/-- Steps that move nothing. -/
theorem Rel.run_stutters (h : Rel E n s u) (own : List Nat) (hE : E.Lawful listenerFd)
    (hst : Relation.ReflTransGen E.Stutter s.server σt) :
    E.socks σt = E.socks s.server ∧ Rel E n { s with server := σt } u ∧
      ∃ as, (eventService E own n).run s as = some { s with server := σt } := by
  induction hst with
  | refl => exact ⟨rfl, h, [], rfl⟩
  | @tail σs σt _ hstep ih =>
    obtain ⟨hsocks, hrel, as, has⟩ := ih
    obtain ⟨a, hx, hsucceeds, haccepts, hsame⟩ := hstep
    obtain ⟨hrun, -⟩ := hE.step hrel.reach hrel.running hx hsucceeds haccepts
    have hexec := hrel.exec_server own hx hsucceeds haccepts
      fun c _ => EventClient.allows_same fun fd _ => congrFun hsame fd
    have hmap : s.clients.map (·.follow (E.socks σs) (E.socks σt)) = s.clients :=
      hrel.map_follow_same hsame
    refine ⟨hsame.trans hsocks, hrel.stutter (.step hrel.reach trivial hx) hrun hsame,
      as ++ [.server a], ?_⟩
    rw [Machine.run_append has, Machine.run_cons_of_exec hexec, hmap]
    rfl

/-- A step that reads nothing but what the client has sent, or the end of its stream once it has
closed. -/
theorem Threaded.allows (hth : Threaded c k th) (hsock : c.sock = .opened fd)
    {socks socks' : Nat → Option Event.Conn} (hk : socks fd = some k) (hmoves : k.Moves (socks' fd))
    (hin : ∀ k', socks' fd = some k' → k'.consumed <+: k'.stream)
    (hsent : k.sent = replies k.consumed →
      c.main.unsent.flatten = [] ∧ (c.upstream = [] → c.main = .closed)) :
    c.allows socks socks' = true := by
  have hall := hth.exchange
  generalize hk' : socks' fd = o at hmoves
  cases hmoves with
  | @moved bytes out hread =>
    simp only [EventClient.allows, hsock, hk, hk', List.drop_left]
    by_cases hnil : bytes = []
    · rw [hnil]
      rfl
    · have hpre : k.consumed ++ bytes <+: messages.flatten := hth.stream ▸ hin _ hk'
      rw [(hsent (hread hnil).1).1, List.append_nil] at hall
      rw [← hall, List.prefix_append_right_inj] at hpre
      exact List.isPrefixOf_iff_prefix.mpr hpre
  | closed hdone =>
    rw [hdone.all, hth.stream, List.append_right_eq_self, List.append_eq_nil_iff] at hall
    have hreplied : k.sent = replies k.consumed := by rw [hdone.sent, hdone.all]
    have hclosed := (hsent hreplied).2 hall.1
    simp [EventClient.allows, hsock, hk, hk', hall.1, hclosed]

/-- The server moves the connection of a client whose bytes, if they are to be read, have all been
sent. -/
theorem Rel.serve (h : Rel E n s u) (hE : E.Lawful listenerFd) (hc : s.clients[i]? = some c)
    (hsock : c.sock = .opened fd) (hk : E.socks s.server fd = some k) (hth : Threaded c k th)
    (hsent : k.sent = replies k.consumed →
      c.main.unsent.flatten = [] ∧ (c.upstream = [] → c.main = .closed)) :
    Machine.BringsOn (eventService E own n) (service true n) (Rel E n) s u := by
  obtain ⟨σs, a, σt, hst, hx, hsucceeds, haccepts, hne⟩ := hE.serves h.reach h.running hk
  obtain ⟨hsocks, hrel, as, has⟩ := h.run_stutters own hE hst
  obtain ⟨hrun, fd', M⟩ := hE.step hrel.reach hrel.running hx hsucceeds haccepts
  have hreach : E.machine.Reach Machine.anyStep σt := .step hrel.reach trivial hx
  rw [hsocks] at M
  obtain rfl : fd' = fd := by
    by_contra hfd
    exact hne ((M.others fd fun heq => hfd heq.symm).trans hk)
  have hallows : ∀ c ∈ s.clients, c.allows (E.socks σs) (E.socks σt) = true := by
    intro e he
    obtain ⟨j, hj⟩ := List.mem_iff_getElem?.mp he
    rw [hsocks]
    by_cases hji : j = i
    · subst hji
      obtain rfl := Option.some.inj (hc.symm.trans hj)
      exact hth.allows hsock hk (M.moves k hk) (fun k' hk' => (hE.served hreach hrun hk').1) hsent
    · refine EventClient.allows_same fun fd hsock' => M.others fd ?_
      rintro rfl
      exact hji (h.unique j i e c fd hj hc hsock' hsock)
  have hexec := hrel.exec_server own hx hsucceeds haccepts hallows
  obtain ⟨bs, v, hbs, hrel', hnil⟩ := hrel.server hE hx hsucceeds haccepts hallows
  refine ⟨as ++ [.server a], _, bs, v, ?_, hbs, fun hb => hne ?_, hrel'⟩
  · rw [Machine.run_append has, Machine.run_cons_of_exec hexec]
    rfl
  · rw [hnil hb]
    exact (congrFun hsocks fd').trans hk

/-! ## The thread goes on -/

/-- A thread that can send has something to send. -/
theorem unsent_of_exec {ok : Bool} {xs : List UInt8} (h : Echoes th.pc xs th.sent)
    (hx : ThreadServer.exec th (.send ok) = some th') (hok : ok = true) : th.sent ≠ replies xs := by
  subst hok
  have hst := step_of_exec hx
  have hpre := (h.step hst rfl).1.prefix_replies
  have hbytes : xs ++ (Call.send true).bytes = xs := List.append_nil xs
  rw [hbytes] at hpre
  intro hall
  rw [← hall] at hpre
  have hle := hpre.length_le
  cases hst with
  | ackSent | sent =>
    rw [List.length_append, List.length_singleton] at hle
    omega

/-- A step of a thread that moves nothing. -/
theorem Rel.local (h : Rel E n s u) (hc : s.clients[i]? = some c) (hd : u.clients[i]? = some d)
    (hsock : c.sock = .opened fd) (hk : E.socks s.server fd = some k) (hserver : d.server = some th)
    (hth : Threaded c k th) (hx : ThreadServer.exec th .local = some th') :
    ∃ v, (service true n).run u [.client i (.server .local)] = some v ∧ Rel E n s v := by
  have hmatch := h.clients i c d hc hd
  have hinv := h.inv.clients d (List.mem_of_getElem? hd)
  have hst := step_of_exec hx
  have hsent : th'.sent = th.sent := by cases hst <;> rfl
  obtain ⟨hechoes, -⟩ := hth.echoes.step hst trivial
  have hbytes : k.consumed ++ Call.local.bytes = k.consumed := List.append_nil _
  rw [hbytes] at hechoes
  have hpc : th'.pc ≠ .returned := fun hret => nomatch hst.returned trivial hret
  have hexec := Conversation.exec_quiet hinv.safe hserver (.inl rfl) hx fun _ => hsent
  rw [hsent, List.drop_length, List.append_nil] at hexec
  have hstep : (service true n).exec u (.client i (.server .local)) = some { u with
      clients := u.clients.set i { d with server := some th' } } := by
    simp only [service, hd, Option.bind_some, hexec, Option.map_some]
  refine ⟨_, Machine.run_cons_of_exec hstep, ?_⟩
  have hrel := h.set hc hd h.backlog (inv_of_exec h hstep) h.reach h.running
    (show Matches _ c _ from ⟨hmatch.client, fun hw => ?_, fun fd' hfd' => ?_, fun hw => ?_⟩)
    (fun _ _ _ hk => hk)
    (fun _ hs => .inl hs) fun fd' hfd' => (em (c.sock = .opened fd')).imp id fun hne => ⟨hne, hfd'⟩
  · obtain ⟨hi, rfl⟩ := List.getElem?_eq_some_iff.mp hc
    rw [List.set_getElem_self] at hrel
    exact hrel
  · cases hsock.symm.trans hw
  · obtain rfl : fd = fd' := Sock.opened.inj (hsock.symm.trans hfd')
    exact ⟨k, th', hk, rfl, hth.stream, hsent.trans hth.sent, hechoes, hpc, hth.exchange⟩
  · cases hsock.symm.trans hw

theorem Rel.exists_lowestFree (h : Rel E n s u) (own : List Nat) :
    ∃ fd, lowestFree own (E.socks s.server) fd = true := by
  classical
  have hsome : ∃ fd, fd ∉ own ∧ E.socks s.server fd = none := by
    obtain ⟨fd, hfd⟩ :=
      Infinite.exists_notMem_finset (own ++ s.clients.filterMap EventClient.fd).toFinset
    rw [List.mem_toFinset, List.mem_append, not_or] at hfd
    exact ⟨fd, hfd.1, not_not.mp fun hopen => hfd.2 (h.mem_fds hopen)⟩
  obtain ⟨hown, hnone⟩ := Nat.find_spec hsome
  refine ⟨Nat.find hsome, decide_eq_true ⟨hown, Option.isNone_iff_eq_none.mpr hnone, ?_⟩⟩
  intro k hk
  have hmin := Nat.find_min hsome hk
  rw [not_and_or, not_not] at hmin
  exact hmin.imp id Option.ne_none_iff_isSome.mp

/-- The server accepts the client that has waited longest. -/
theorem Rel.accepts {backlog : List Nat} (h : Rel E n s u) (hE : E.Lawful listenerFd)
    (hown : listenerFd ∈ own) (hfit : own.length + n ≤ E.maxfds)
    (hback : s.backlog = i :: backlog) (hc : s.clients[i]? = some c) :
    Machine.BringsOn (eventService E own n) (service true n) (Rel E n) s u := by
  obtain ⟨d, hd, -⟩ := h.get hc
  obtain ⟨hwait, -⟩ := h.waits hback hc hd
  obtain ⟨fd, hfree⟩ := h.exists_lowestFree own
  have hlt := h.lowestFree_lt hc hwait hfree hfit
  obtain ⟨hout, hnone, -⟩ := of_decide_eq_true hfree
  have hl : fd ≠ listenerFd := by
    rintro rfl
    exact hout hown
  obtain ⟨σs, a, σt, hst, hx, hsucceeds, haccepts, hopen⟩ := hE.opens h.reach h.running hl hlt
    (Option.isNone_iff_eq_none.mp hnone) messages.flatten
  obtain ⟨hsocks, hrel, as, has⟩ := h.run_stutters own hE hst
  rw [← hsocks] at hfree
  obtain ⟨v, hv, hrel'⟩ := hrel.accept hE hfit hback hc hx hsucceeds haccepts hfree hopen
  have hexec : (eventService E own n).exec { s with server := σs } (.accept a) = some {
      server := σt, clients := s.clients.set i { c with sock := .opened fd }, backlog } := by
    simp only [eventService, hback, haccepts]
    rw [if_pos ⟨hsucceeds, hfree, trivial⟩, hx, Option.bind_some, if_pos hopen, hc, Option.map_some]
  refine ⟨as ++ [.accept a], _, _, v, ?_, hv, List.cons_ne_nil _ _, hrel'⟩
  rw [Machine.run_append has, Machine.run_cons_of_exec hexec]
  rfl

theorem Rel.goes_main {e : Client} (h : Rel E n s u) (hc : s.clients[i]? = some c)
    (hd : u.clients[i]? = some d) (he : c.toClient.execMain c.serverClosed = some e) :
    Machine.BringsOn (eventService E own n) (service true n) (Rel E n) s u := by
  obtain ⟨hv, hrel⟩ := h.main hc hd he
  have hexec : (eventService E own n).exec s (.main i) =
      some { s with clients := s.clients.set i { c with toClient := e } } := by
    simp only [eventService, hc, Option.bind_some, h.reset hc, Bool.false_eq_true, if_false, he,
      Option.map_some]
  exact ⟨[.main i], _, _, _, Machine.run_cons_of_exec hexec, hv, List.cons_ne_nil _ _, hrel⟩

theorem Rel.goes_reader {e : Client} {m : Nat} (h : Rel E n s u) (hc : s.clients[i]? = some c)
    (hd : u.clients[i]? = some d) (he : c.toClient.execReader c.serverClosed m = some e) :
    Machine.BringsOn (eventService E own n) (service true n) (Rel E n) s u := by
  obtain ⟨hv, hrel⟩ := h.reader hc hd he
  have hexec : (eventService E own n).exec s (.reader i m) =
      some { s with clients := s.clients.set i { c with toClient := e } } := by
    simp only [eventService, hc, Option.bind_some, h.reset hc, Bool.false_eq_true, if_false, he,
      Option.map_some]
  exact ⟨[.reader i m], _, _, _, Machine.run_cons_of_exec hexec, hv, List.cons_ne_nil _ _, hrel⟩

theorem Rel.goes_connect (h : Rel E n s u) (hc : s.clients[i]? = some c) (hmain : c.main = .connect)
    (hback : s.backlog.length < nBacklog) :
    Machine.BringsOn (eventService E own n) (service true n) (Rel E n) s u := by
  obtain ⟨v, hv, hrel⟩ := h.connect hc hmain hback
  have hexec : (eventService E own n).exec s (.connect i) = some { s with
      clients := s.clients.set i { c with main := .recvAck }
      backlog := s.backlog ++ [i] } := by
    simp only [eventService, hc, Option.bind_some]
    exact if_pos ⟨hmain, hback⟩
  exact ⟨[.connect i], _, _, v, Machine.run_cons_of_exec hexec, hv, List.cons_ne_nil _ _, hrel⟩

/-- The bytes that a thread reads are there for the server, once the client has sent the others. -/
theorem Rel.goes_data (h : Rel E n s u) (hE : E.Lawful listenerFd) (hc : s.clients[i]? = some c)
    (hd : u.clients[i]? = some d) (hsock : c.sock = .opened fd)
    (hk : E.socks s.server fd = some k) (hserver : d.server = some th) (hth : Threaded c k th)
    (hne : c.upstream ≠ []) :
    Machine.BringsOn (eventService E own n) (service true n) (Rel E n) s u := by
  cases hm : c.main with
  | connect =>
    have hmain : d.main = c.main := congrArg Client.main (h.clients i c d hc hd).client
    have hconnected := (h.inv.clients d (List.mem_of_getElem? hd)).served th hserver
    exact absurd (hmain.trans hm) hconnected.connected
  | recvAck =>
    -- Nothing has been sent so far.
    have hall := hth.exchange
    rw [hm, Main.unsent, ← List.append_assoc, List.append_left_eq_self,
      List.append_eq_nil_iff] at hall
    exact absurd hall.2 hne
  | sending rest =>
    cases rest with
    | cons m rest =>
      refine h.goes_main hc hd (e := { c.toClient with
        main := .sending rest
        upstream := c.upstream ++ m
        reset := c.serverClosed }) ?_
      rw [Client.execMain, hm]
    | nil =>
      refine h.serve hE hc hsock hk hth fun _ => ⟨?_, fun hnil => absurd hnil hne⟩
      rw [hm]
      rfl
  | closed =>
    refine h.serve hE hc hsock hk hth fun _ => ⟨?_, fun hnil => absurd hnil hne⟩
    rw [hm]
    rfl

/-- A thread that goes on has an open connection in the server. -/
theorem Matches.exists_opened {socks : Nat → Option Event.Conn} {a : Call} (h : Matches socks c d)
    (hserver : d.server = some th) (hx : ThreadServer.exec th a = some th') :
    ∃ fd k, c.sock = .opened fd ∧ socks fd = some k ∧ Threaded c k th := by
  cases hsock : c.sock with
  | waiting => cases (h.waiting hsock).symm.trans hserver
  | closed =>
    obtain ⟨th₀, hsome, hret⟩ := h.closed hsock
    obtain rfl := Option.some.inj (hsome.symm.trans hserver)
    cases (exec_returned hret a).symm.trans hx
  | opened fd =>
    obtain ⟨k, th₀, hk, hsome, hth⟩ := h.opened fd hsock
    obtain rfl : th = th₀ := Option.some.inj (hserver.symm.trans hsome)
    exact ⟨fd, k, rfl, hk, hth⟩

/-- A step of the thread of a client. -/
theorem Rel.goes_server {e : Conversation} {a : Call} (h : Rel E n s u) (hE : E.Lawful listenerFd)
    (hc : s.clients[i]? = some c) (hd : u.clients[i]? = some d)
    (hx : d.exec (.server a) = some e) :
    Machine.BringsOn (eventService E own n) (service true n) (Rel E n) s u := by
  have hmatch := h.clients i c d hc hd
  obtain ⟨-, hx⟩ := Option.ite_none_left_eq_some.mp hx
  obtain ⟨th, hserver, hx⟩ := Option.bind_eq_some_iff.mp hx
  obtain ⟨hreturns, hx⟩ := Option.ite_none_right_eq_some.mp hx
  obtain ⟨th', hth', -⟩ := Option.map_eq_some_iff.mp hx
  obtain ⟨fd, k, hsock, hk, hth⟩ := hmatch.exists_opened hserver hth'
  cases a with
  | «local» =>
    obtain ⟨v, hv, hrel⟩ := h.local hc hd hsock hk hserver hth hth'
    exact ⟨[], s, _, v, rfl, hv, List.cons_ne_nil _ _, hrel⟩
  | sigpipe => cases hreturns
  | send ok =>
    refine h.serve hE hc hsock hk hth fun hall => ?_
    exact absurd (hth.sent.trans hall) (unsent_of_exec hth.echoes hth' hreturns)
  | recv r =>
    cases r with
    | error => cases hreturns
    | eof =>
      have hmain : d.main = c.main := congrArg Client.main hmatch.client
      have hclosed : c.main = .closed :=
        hmain ▸ of_decide_eq_true (Bool.and_eq_true _ _ ▸ hreturns).2
      refine h.serve hE hc hsock hk hth fun _ => ⟨?_, fun _ => hclosed⟩
      rw [hclosed]
      rfl
    | data bytes =>
      refine h.goes_data hE hc hd hsock hk hserver hth fun hnil => ?_
      have hup : d.upstream = c.upstream := congrArg Client.upstream hmatch.client
      have hpre : bytes <+: d.upstream := List.isPrefixOf_iff_prefix.mp hreturns
      rw [hup, hnil, List.prefix_nil] at hpre
      have hok : recvOk (.data bytes) = true := by
        cases step_of_exec hth' with
        | recv _ hok => exact hok
      rw [hpre] at hok
      cases hok

theorem follows (hE : E.Lawful listenerFd) (hown : listenerFd ∈ own)
    (hfit : own.length + n ≤ E.maxfds) :
    Machine.Follows (eventService E own n) (service true n) (Rel E n) := by
  rintro s u h ⟨l, hl⟩
  obtain ⟨v, hl⟩ := Option.ne_none_iff_exists'.mp hl
  cases l with
  | connect i =>
    simp only [service] at hl
    split at hl
    · next d hd =>
      obtain ⟨⟨hmain, hback⟩, -⟩ := Option.ite_none_right_eq_some.mp hl
      obtain ⟨c, hc, hmatch, -⟩ := h.get' hd
      have hmain' : c.main = .connect := (congrArg Client.main hmatch.client).symm.trans hmain
      rw [← h.backlog] at hback
      exact h.goes_connect hc hmain' hback
    · cases hl
  | accept =>
    simp only [service] at hl
    split at hl
    · next i backlog hback =>
      rw [← h.backlog] at hback
      obtain ⟨-, hl⟩ := Option.ite_none_right_eq_some.mp hl
      obtain ⟨d, hd, -⟩ := Option.map_eq_some_iff.mp hl
      obtain ⟨c, hc, -⟩ := h.get' hd
      exact h.accepts hE hown hfit hback hc
    · cases hl
  | client i l =>
    obtain ⟨d, hd, hl⟩ := Option.bind_eq_some_iff.mp hl
    obtain ⟨e, he, -⟩ := Option.map_eq_some_iff.mp hl
    obtain ⟨c, hc, hmatch, -⟩ := h.get' hd
    cases l with
    | main =>
      obtain ⟨-, he⟩ := Option.ite_none_left_eq_some.mp he
      obtain ⟨e', he', -⟩ := Option.map_eq_some_iff.mp he
      rw [← hmatch.serverClosed, hmatch.client] at he'
      exact h.goes_main hc hd he'
    | reader m =>
      obtain ⟨-, he⟩ := Option.ite_none_left_eq_some.mp he
      obtain ⟨e', he', -⟩ := Option.map_eq_some_iff.mp he
      rw [← hmatch.serverClosed, hmatch.client] at he'
      exact h.goes_reader hc hd he'
    | server a => exact h.goes_server hE hc hd he

/-! ## The whole of a run -/

/-- What a run of the clients and an event server has come to. -/
structure Answered (E : EventServer σ α) (own : List Nat) (n : Nat) (s : EventService σ) : Prop where
  running : E.halted s.server = none
  clients : ∀ c ∈ s.clients, c.reset = false ∧ c.wrong = false ∧
    c.reader.received <+: ascii "*bcdbcuf23436bc1111"
  /-- The same clients are in a state of a run with the thread server. -/
  threads : ∃ ls u, (service true n).run (service true n).init ls = some u ∧
    u.clients.map (·.toClient) = s.clients.map (·.toClient)
  /-- It can go on until all of them are served. -/
  goesOn : ∃ ls t, (eventService E own n).run s ls = some t ∧ ∀ c ∈ t.clients,
    c.main = .closed ∧ c.reader = .done (ascii "bcdbcuf23436bc1111") ∧ c.sock = .closed

theorem Rel.toClient_eq (h : Rel E n s u) :
    u.clients.map (·.toClient) = s.clients.map (·.toClient) := by
  apply List.ext_getElem?
  intro j
  rw [List.getElem?_map, List.getElem?_map]
  cases hc : s.clients[j]? with
  | none =>
    rw [List.getElem?_eq_none_iff, h.length] at hc
    rw [List.getElem?_eq_none hc]
    rfl
  | some c =>
    obtain ⟨d, hd, hmatch, -⟩ := h.get hc
    rw [hd, Option.map_some, Option.map_some, hmatch.client]

theorem answered (hE : E.Lawful listenerFd) (hown : listenerFd ∈ own)
    (hfit : own.length + n ≤ E.maxfds) {ls : List (EventLabel α)}
    (hrun : (eventService E own n).run (eventService E own n).init ls = some s) :
    Answered E own n s := by
  obtain ⟨bs, u, hu, h⟩ := (simulates hE hfit).run (rel_init hE) hrun
  refine ⟨h.running, fun c hc => ?_, ⟨bs, u, hu, h.toClient_eq⟩, ?_⟩
  · obtain ⟨j, hj⟩ := List.mem_iff_getElem?.mp hc
    obtain ⟨d, -, hmatch, hinv⟩ := h.get hj
    have hpre := replies_messages ▸ hinv.received_prefix
    rw [← hmatch.client]
    exact ⟨hinv.safe, hinv.ack, hpre⟩
  · obtain ⟨as, t, v, has, h', hinv, hrest⟩ :=
      (follows hE hown hfit).exists_rest Service.ranked h.inv h
    refine ⟨as, t, has, fun c hc => ?_⟩
    obtain ⟨j, hj⟩ := List.mem_iff_getElem?.mp hc
    obtain ⟨d, hd, hmatch, -⟩ := h'.get hj
    obtain ⟨hmain, ⟨fullbuf, hreader, hall⟩, th, hserver, hret, -⟩ :=
      hinv.finished hrest d (List.mem_of_getElem? hd)
    rw [replies_messages] at hall
    refine ⟨?_, ?_, ?_⟩
    · rw [← hmatch.client]
      exact hmain
    · rw [← hmatch.client, hreader]
      exact congrArg Reader.done (List.cons.inj hall).2
    · cases hsock : c.sock with
      | closed => rfl
      | waiting => cases (hmatch.waiting hsock).symm.trans hserver
      | opened fd =>
        obtain ⟨k, th', -, hsome, hth⟩ := hmatch.opened fd hsock
        obtain rfl := Option.some.inj (hsome.symm.trans hserver)
        exact absurd hret hth.running

end KoScripts.Clients
