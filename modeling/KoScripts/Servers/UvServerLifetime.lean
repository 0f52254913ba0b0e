import KoScripts.Servers.UvServerInvariant

/-! # The lifetime of a peer in the libuv echo server

Two callbacks release the peer state: `on_client_closed`, after which no callback of the connection
comes, and the kill switch of `on_wrote_buf`, after which the loop goes on to its polling and its
closing phase. The state is safe from the second as long as the connection is left alone from
`uv_stop` on. -/

namespace KoScripts.Servers.UvServer
open Lib Uv
open Event (InternalState sendbufSize)

variable {p q : PeerState} {s t : Conn} {a : Label} {b : UInt8} {chunk : List UInt8} {ok : Bool}

/-! ## What a callback does, if the process goes on -/

theorem onPeerRead_running (ht : (s.onPeerRead chunk ok).halted = none) :
    s.peerFreed = false ∧
      (s.peer.state = .initialAck ∧
          s.onPeerRead chunk ok = { s with received := s.received ++ chunk } ∨
        s.peer.state ≠ .initialAck ∧ ∃ q, chunk.foldlM readByte s.peer = .ok q ∧
          s.onPeerRead chunk ok = { s with
            peer := q
            received := s.received ++ chunk
            stream := if q.sendbufEnd = 0 then s.stream
              else s.stream.write .wroteBuf q.sendbufEnd }) := by
  unfold Conn.onPeerRead at ht ⊢
  split at ht
  · cases ht
  next hfreed =>
  refine ⟨Bool.eq_false_iff.mpr hfreed, ?_⟩
  rw [if_neg hfreed]
  split at ht
  · next hack =>
    rw [if_pos hack]
    exact .inl ⟨hack, rfl⟩
  next hack =>
  rw [if_neg hack]
  refine .inr ⟨hack, ?_⟩
  split at ht
  · cases ht
  next q hq =>
  simp only [hq] at ht ⊢
  refine ⟨q, rfl, ?_⟩
  split at ht
  · next hpos =>
    split at ht
    · next hok => rw [if_pos hpos, if_pos hok, if_neg (Nat.ne_of_gt hpos)]
    · cases ht
  · next hpos => rw [if_neg hpos, if_pos (Nat.eq_zero_of_not_pos hpos)]

theorem onWroteInitAck_running (ht : (s.onWroteInitAck ok).halted = none) :
    s.peerFreed = false ∧ s.onWroteInitAck ok = { s with
      peer := { s.peer with state := .waitForMsg, sendbufEnd := 0 }
      reading := true } := by
  unfold Conn.onWroteInitAck at ht ⊢
  split at ht
  · cases ht
  next hfreed =>
  rw [if_neg hfreed]
  split at ht
  · next hok => exact ⟨Bool.eq_false_iff.mpr hfreed, if_pos hok⟩
  · cases ht

theorem onWroteBuf_running (ht : s.onWroteBuf.halted = none) :
    s.peerFreed = false ∧ s.onWroteBuf =
      if peerEnd s.peer then { s with peerFreed := true, stopped := true }
      else { s with peer := { s.peer with sendbufEnd := 0 } } := by
  unfold Conn.onWroteBuf at ht ⊢
  split at ht
  · cases ht
  · next hfreed => exact ⟨Bool.eq_false_iff.mpr hfreed, if_neg hfreed⟩

theorem onClientClosed_running (ht : s.onClientClosed.halted = none) :
    s.peerFreed = false ∧
      s.onClientClosed = { s with peerFreed := true, clientFreed := true } := by
  unfold Conn.onClientClosed at ht ⊢
  split at ht
  · cases ht
  · next hfreed => exact ⟨Bool.eq_false_iff.mpr hfreed, if_neg hfreed⟩

/-! ## The invariant -/

/-- What holds of a connection as long as the process runs, whatever the order of the callbacks. -/
structure Alive (s : Conn) : Prop where
  freed : s.peerFreed = true ↔ s.stopped = true ∨ s.clientFreed = true
  client : s.clientFreed = true → s.closing = true ∧ s.stream.outstanding = []
  closing : s.closing = true → s.reading = false
  acked : s.reading = true → s.peer.state ≠ .initialAck
  bound : s.peer.sendbufEnd ≤ sendbufSize
  /-- The acknowledgement is the first write, and nothing is read before it is complete. -/
  starting : .wroteInitAck ∈ s.stream.outstanding →
    s.stream.outstanding = [.wroteInitAck] ∧ s.reading = false ∧ s.closing = false
  /-- Every completion but that of the kill switch empties the buffer. -/
  emptied : s.stream.outstanding = [] → s.stopped = false → s.peer.sendbufEnd = 0

theorem alive_init : Alive onPeerConnected where
  freed := by decide
  client := nofun
  closing := nofun
  acked := nofun
  bound := by decide
  starting _ := ⟨rfl, rfl, rfl⟩
  emptied := nofun

theorem Alive.not_started (h : Alive s) (hr : s.reading = true) :
    .wroteInitAck ∉ s.stream.outstanding := by
  intro hmem
  exact Bool.eq_false_iff.mp (h.starting hmem).2.1 hr

theorem Alive.not_closed (h : Alive s) (hr : s.reading = true) : s.clientFreed = false :=
  Bool.eq_false_iff.mpr fun hc => Bool.eq_false_iff.mp (h.closing (h.client hc).1) hr

/-- A connection of which a completion callback is due has not been released. -/
theorem Alive.client_of_done {cb : Callback} {done : List Callback} (h : Alive s)
    (hd : s.stream.done = cb :: done) : ¬s.clientFreed = true := by
  intro hc
  have hnil := (List.append_eq_nil_iff.mp (h.client hc).2).1
  exact nomatch hd.symm.trans hnil

theorem Alive.read (h : Alive s) (hr : s.reading = true)
    (ht : (s.onPeerRead chunk ok).halted = none) : Alive (s.onPeerRead chunk ok) := by
  have hclient := h.not_closed hr
  have hstart := h.not_started hr
  have hacked := h.acked hr
  obtain ⟨-, hcases⟩ := onPeerRead_running ht
  rcases hcases with ⟨hack, -⟩ | ⟨-, q, hq, heq⟩
  · exact absurd hack hacked
  have hafter := readBytes_spec hacked h.bound hq
  rw [heq]
  by_cases hzero : q.sendbufEnd = 0
  · simp only [if_pos hzero]
    exact ⟨h.freed, h.client, h.closing, fun _ => hafter.acked, hafter.bound, h.starting,
      fun _ _ => hzero⟩
  · simp only [if_neg hzero]
    refine ⟨h.freed, fun hc => absurd hc (Bool.eq_false_iff.mp hclient), h.closing,
      fun _ => hafter.acked, hafter.bound, ?_, ?_⟩
    · intro hmem
      rw [Stream.write_outstanding, List.mem_append] at hmem
      exact absurd (hmem.resolve_right (by decide)) hstart
    · intro hnil
      rw [Stream.write_outstanding] at hnil
      exact absurd hnil (List.append_ne_nil_of_right_ne_nil _ (List.cons_ne_nil _ _))

theorem Alive.wroteInitAck {done : List Callback} (h : Alive s)
    (hd : s.stream.done = .wroteInitAck :: done)
    (ht : ({ s with stream := { s.stream with done } }.onWroteInitAck ok).halted = none) :
    Alive ({ s with stream := { s.stream with done } }.onWroteInitAck ok) := by
  have hout : s.stream.outstanding = .wroteInitAck :: (done ++ s.stream.queue.map WriteReq.cb) := by
    rw [Stream.outstanding, hd, List.cons_append]
  obtain ⟨honly, -, hclosing⟩ := h.starting (hout ▸ List.mem_cons_self)
  obtain ⟨-, hrest⟩ := List.cons.inj (hout.symm.trans honly)
  have hstart : .wroteInitAck ∉ done ++ s.stream.queue.map WriteReq.cb := by
    rw [hrest]
    exact List.not_mem_nil
  have hclient := h.client_of_done hd
  obtain ⟨-, heq⟩ := onWroteInitAck_running ht
  rw [heq]
  exact ⟨h.freed, fun hc => absurd hc hclient, fun hc => absurd hc (Bool.eq_false_iff.mp hclosing),
    fun _ => InternalState.waitForMsg_ne, Nat.zero_le _, fun hmem => absurd hmem hstart,
    fun _ _ => rfl⟩

theorem Alive.wroteBuf {done : List Callback} (h : Alive s)
    (hd : s.stream.done = .wroteBuf :: done)
    (ht : { s with stream := { s.stream with done } }.onWroteBuf.halted = none) :
    Alive { s with stream := { s.stream with done } }.onWroteBuf := by
  have hout : s.stream.outstanding = .wroteBuf :: (done ++ s.stream.queue.map WriteReq.cb) := by
    rw [Stream.outstanding, hd, List.cons_append]
  have hstart : .wroteInitAck ∉ done ++ s.stream.queue.map WriteReq.cb := fun hmem => by
    have honly := (h.starting (hout ▸ List.mem_cons_of_mem _ hmem)).1
    rw [hout] at honly
    cases honly
  have hclient := h.client_of_done hd
  obtain ⟨-, heq⟩ := onWroteBuf_running ht
  rw [heq]
  split
  · exact ⟨iff_of_true rfl (.inl rfl), fun hc => absurd hc hclient, h.closing, h.acked, h.bound,
      fun hmem => absurd hmem hstart, fun _ hc => by cases hc⟩
  · exact ⟨h.freed, fun hc => absurd hc hclient, h.closing, h.acked, Nat.zero_le _,
      fun hmem => absurd hmem hstart, fun _ _ => rfl⟩

/-- One case for each kind of step. -/
theorem Alive.exec (h : Alive s) (hx : exec s a = some t) (ht : t.halted = none) : Alive t := by
  cases step_of_exec hx with
  | read hr => exact h.read hr ht
  | readNone => exact h
  | readEnd hr =>
    exact ⟨h.freed, fun hc => absurd hc (Bool.eq_false_iff.mp (h.not_closed hr)), fun _ => rfl,
      nofun, h.bound, fun hmem => absurd hmem (h.not_started hr), h.emptied⟩
  | drain hc hd =>
    have hout := Stream.drain_outstanding hd
    exact ⟨h.freed, fun hf => absurd (h.client hf).1 hc, h.closing, h.acked, h.bound,
      fun hmem => hout ▸ h.starting (hout ▸ hmem), fun hnil => h.emptied (hout ▸ hnil)⟩
  | wroteInitAck hd => exact h.wroteInitAck hd ht
  | wroteBuf hd => exact h.wroteBuf hd ht
  | writeFailed => cases ht
  | closed hclosing _ hidle =>
    obtain ⟨-, heq⟩ := onClientClosed_running ht
    rw [heq]
    exact ⟨iff_of_true rfl (.inr rfl), fun _ => ⟨hclosing, Stream.idle_iff.mp hidle⟩, h.closing,
      h.acked, h.bound, h.starting, h.emptied⟩

theorem alive_of_reach {G : Conn → Label → Prop} (h : uvServer.Reach G s) (hrun : s.halted = none) :
    Alive s := by
  induction h with
  | init => exact alive_init
  | step _ _ hx ih => exact (ih (not_halted_of_exec hx)).exec hx hrun

/-! ## Left alone from `uv_stop` on -/

/-- After `uv_stop`, which the kill switch calls, no data is read from the connection, no write of
it completes, and its close callback is not called. -/
def LeftAlone (s : Conn) : Label → Prop
  | .read _ _ | .wrote _ | .closed => s.stopped = false
  | _ => True

theorem readByte_error {e : Halt} (h : readByte p b = .error e) : e = .abort := by
  unfold readByte at h
  split at h
  · cases h
  · cases h
  · split at h
    · cases h
    · split at h
      · cases h
      · cases h
        rfl

theorem readBytes_error {e : Halt} {bytes : List UInt8} (h : bytes.foldlM readByte p = .error e) :
    e = .abort := by
  induction bytes generalizing p with
  | nil => cases h
  | cons b bs ih =>
    rw [List.foldlM_cons] at h
    cases hp : readByte p b with
    | error e' =>
      rw [hp] at h
      cases h
      exact readByte_error hp
    | ok p' =>
      rw [hp] at h
      exact ih h

/-- The first thing a callback does is to look at the peer state. -/
theorem onPeerRead_fault (hrun : s.halted = none) :
    (s.onPeerRead chunk ok).halted = some .fault ↔ s.peerFreed = true := by
  unfold Conn.onPeerRead
  split
  · next hfreed => exact iff_of_true rfl hfreed
  next hfreed =>
  refine iff_of_false ?_ hfreed
  split
  · rw [hrun]
    nofun
  split
  · next e he =>
    rw [readBytes_error he]
    nofun
  · simp only
    split
    · split
      · rw [hrun]
        nofun
      · nofun
    · rw [hrun]
      nofun

theorem onWroteInitAck_fault (hrun : s.halted = none) :
    (s.onWroteInitAck ok).halted = some .fault ↔ s.peerFreed = true := by
  unfold Conn.onWroteInitAck
  split
  · next hfreed => exact iff_of_true rfl hfreed
  next hfreed =>
  refine iff_of_false ?_ hfreed
  split
  · rw [hrun]
    nofun
  · nofun

theorem onWroteBuf_fault (hrun : s.halted = none) :
    s.onWroteBuf.halted = some .fault ↔ s.peerFreed = true := by
  unfold Conn.onWroteBuf
  split
  · next hfreed => exact iff_of_true rfl hfreed
  next hfreed =>
  refine iff_of_false ?_ hfreed
  split
  all_goals
    rw [hrun]
    nofun

theorem onClientClosed_fault (hrun : s.halted = none) :
    s.onClientClosed.halted = some .fault ↔ s.peerFreed = true := by
  unfold Conn.onClientClosed
  split
  · next hfreed => exact iff_of_true rfl hfreed
  · next hfreed =>
    rw [hrun]
    exact iff_of_false nofun hfreed

/-- As long as a callback of a connection can come, only the kill switch can have released it. -/
theorem Alive.freed_iff (h : Alive s) (hclient : ¬s.clientFreed = true) :
    s.peerFreed = true ↔ ¬s.stopped = false := by
  rw [h.freed, Bool.not_eq_false]
  exact or_iff_left hclient

/-- A step uses or releases a released peer state if and only if it does not leave the connection
alone. -/
theorem Alive.fault_iff (h : Alive s) (hx : UvServer.exec s a = some t) :
    t.halted = some .fault ↔ ¬LeftAlone s a := by
  have hrun := not_halted_of_exec hx
  have of_running {u : Conn} (hu : u.halted = none) (hl : LeftAlone s a) :
      u.halted = some .fault ↔ ¬LeftAlone s a := by
    rw [hu]
    exact iff_of_false nofun (not_not.mpr hl)
  cases step_of_exec hx with
  | read hr =>
    exact (onPeerRead_fault hrun).trans (h.freed_iff (Bool.eq_false_iff.mp (h.not_closed hr)))
  | readNone | readEnd | drain => exact of_running hrun trivial
  | @wroteInitAck _ done hd =>
    exact (onWroteInitAck_fault (s := { s with stream := { s.stream with done } }) hrun).trans
      (h.freed_iff (h.client_of_done hd))
  | @wroteBuf _ done hd =>
    exact (onWroteBuf_fault (s := { s with stream := { s.stream with done } }) hrun).trans
      (h.freed_iff (h.client_of_done hd))
  | writeFailed => exact iff_of_false nofun (not_not.mpr trivial)
  | closed _ hclient => exact (onClientClosed_fault hrun).trans (h.freed_iff hclient)

/-- If the connection is left alone from `uv_stop` on, its peer state is never used or released
after it has been released. And in any state, a step that does not leave it alone does. -/
theorem peer_released_once (s : Conn) :
    (uvServer.Reach LeftAlone s → s.halted ≠ some .fault) ∧
    (uvServer.Reach Machine.anyStep s → ∀ a t, exec s a = some t →
      (t.halted = some .fault ↔ ¬LeftAlone s a)) := by
  constructor
  · intro h
    cases h with
    | init => nofun
    | step hr hg hx =>
      intro hfault
      exact ((alive_of_reach hr (not_halted_of_exec hx)).fault_iff hx).mp hfault hg
  · intro h a t hx
    exact (alive_of_reach h (not_halted_of_exec hx)).fault_iff hx

/-- The client sends `^WXY`, and the completion of the write of `XYZ` calls `uv_stop`. -/
def killRun : List Label := [
  .drain 1, .wrote true, .read [0x5e, 0x57, 0x58, 0x59] true, .drain 3, .wrote true]

/-- In the rest of the iteration more of what the client has sent is read, or the client has closed
and the close callback releases the peer state again. -/
theorem peer_released_once_killRun :
    ∃ s t u v, uvServer.Reach Machine.anyStep s ∧ s.stopped = true ∧ s.peerFreed = true ∧
      exec s (.read [0x24] true) = some t ∧ t.halted = some .fault ∧
      exec s .readEnd = some u ∧ exec u .closed = some v ∧ v.halted = some .fault := by
  have hrun : (uvServer.run uvServer.init killRun).map (fun s => (s.stopped, s.peerFreed,
      (exec s (.read [0x24] true)).map Conn.halted,
      ((exec s .readEnd).bind fun u => exec u .closed).map Conn.halted)) =
      some (true, true, some (some .fault), some (some .fault)) := by decide +kernel
  obtain ⟨s, hs, hp⟩ := Machine.reach_of_run hrun
  simp only [Prod.mk.injEq] at hp
  obtain ⟨hstopped, hfreed, hread, hclosed⟩ := hp
  obtain ⟨t, ht, hfault⟩ := Option.map_eq_some_iff.mp hread
  obtain ⟨v, hv, hfault'⟩ := Option.map_eq_some_iff.mp hclosed
  obtain ⟨u, hu, hv⟩ := Option.bind_eq_some_iff.mp hv
  exact ⟨s, t, u, v, hs, hstopped, hfreed, ht, hfault, hu, hv, hfault'⟩

end KoScripts.Servers.UvServer
