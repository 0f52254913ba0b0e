import KoScripts.Servers.UvServer

/-! # The libuv echo server with one write at a time

As long as no read is delivered while a write is outstanding, the buffer is empty when a read
starts and holds exactly the outstanding write when it ends: what has gone out and what is still
to go out are together the replies to the bytes read. A read during a write queues the staged
bytes a second time, and they go out twice. -/

namespace KoScripts.Servers.UvServer
open Lib Uv
open Event (InternalState sendbufSize)

variable {p q : PeerState} {s t : Conn} {b : UInt8} {bytes chunk : List UInt8}

/-! ## What a step does -/

theorem not_halted_of_exec {a : Label} (h : exec s a = some t) : s.halted = none := by
  simpa using (Option.ite_none_left_eq_some.mp h).1

inductive Step (s : Conn) : Label → Conn → Prop
  | read {chunk : List UInt8} {ok : Bool} : s.reading = true → chunk ≠ [] →
    chunk.length ≤ suggestedSize → Step s (.read chunk ok) (s.onPeerRead chunk ok)
  | readNone : s.reading = true → Step s .readNone s
  | readEnd : s.reading = true → Step s .readEnd { s with reading := false, closing := true }
  | drain {k : Nat} {stream : Stream Callback} : ¬s.closing = true →
    s.stream.drain s.peer.sendbuf k = some stream → Step s (.drain k) { s with stream }
  | wroteInitAck {ok : Bool} {done : List Callback} : s.stream.done = .wroteInitAck :: done →
    Step s (.wrote ok) ({ s with stream := { s.stream with done } }.onWroteInitAck ok)
  | wroteBuf {ok : Bool} {done : List Callback} : s.stream.done = .wroteBuf :: done →
    Step s (.wrote ok) { s with stream := { s.stream with done } }.onWroteBuf
  | writeFailed : s.stream.queue ≠ [] → Step s .writeFailed (s.halt .exit)
  | closed : s.closing = true → ¬s.clientFreed = true → s.stream.Idle →
    Step s .closed s.onClientClosed

theorem step_of_exec {a : Label} (h : exec s a = some t) : Step s a t := by
  obtain ⟨-, h⟩ := Option.ite_none_left_eq_some.mp h
  cases a with
  | read chunk ok =>
    obtain ⟨⟨hr, hne, hlen⟩, h⟩ := Option.ite_none_right_eq_some.mp h
    cases h
    exact .read hr hne hlen
  | readNone =>
    obtain ⟨hr, h⟩ := Option.ite_none_right_eq_some.mp h
    cases h
    exact .readNone hr
  | readEnd =>
    obtain ⟨hr, h⟩ := Option.ite_none_right_eq_some.mp h
    cases h
    exact .readEnd hr
  | drain k =>
    obtain ⟨hc, h⟩ := Option.ite_none_left_eq_some.mp h
    obtain ⟨stream, hd, rfl⟩ := Option.map_eq_some_iff.mp h
    exact .drain hc hd
  | wrote ok =>
    simp only at h
    split at h
    · cases h
    · next done hd => cases h; exact .wroteInitAck hd
    · next done hd => cases h; exact .wroteBuf hd
  | writeFailed =>
    obtain ⟨hq, h⟩ := Option.ite_none_left_eq_some.mp h
    cases h
    exact .writeFailed hq
  | closed =>
    obtain ⟨⟨hc, hclient, hidle⟩, h⟩ := Option.ite_none_right_eq_some.mp h
    cases h
    exact .closed hc hclient hidle

/-! ## The byte loop -/

/-- What the bytes of a read do to a peer, if no assertion fails. -/
structure AfterRead (p : PeerState) (bytes : List UInt8) (q : PeerState) : Prop where
  acked : q.state ≠ .initialAck
  frame : q.state.frame = echo.state p.state.frame bytes
  staged : q.staged = p.staged ++ echo.output p.state.frame bytes
  fin : q.sendbufEnd = p.sendbufEnd + (echo.output p.state.frame bytes).length
  bound : q.sendbufEnd ≤ sendbufSize

theorem readByte_spec (hs : p.state ≠ .initialAck) (hb : p.sendbufEnd ≤ sendbufSize)
    (h : readByte p b = .ok q) : AfterRead p [b] q := by
  obtain ⟨state, buf, fin⟩ := p
  cases state with
  | initialAck => exact absurd rfl hs
  | waitForMsg =>
    obtain rfl | hc := eq_or_ne b '^'.toUInt8
    · cases h
      exact ⟨InternalState.inMsg_ne, rfl, (List.append_nil _).symm, rfl, hb⟩
    · simp only [readByte, if_neg hc] at h
      cases h
      exact ⟨InternalState.waitForMsg_ne, (echo_next_noise hc).symm, (List.append_nil _).symm,
        rfl, hb⟩
  | inMsg =>
    obtain rfl | hd := eq_or_ne b '$'.toUInt8
    · cases h
      exact ⟨InternalState.waitForMsg_ne, rfl, (List.append_nil _).symm, rfl, hb⟩
    · have hout : echo.output InternalState.inMsg.frame [b] = [b + 1] :=
        Mealy.output_singleton.trans (echo_out_message hd)
      simp only [readByte, if_neg hd] at h
      split at h
      · next hfin =>
        cases h
        refine ⟨InternalState.inMsg_ne, (echo_next_message hd).symm, ?_, ?_, hfin⟩
        · rw [hout]; exact slice_set_end (Nat.zero_le _) hfin
        · rw [hout]; rfl
      · cases h

theorem AfterRead.trans {r : PeerState} {bytes' : List UInt8} (h : AfterRead p bytes q)
    (h' : AfterRead q bytes' r) : AfterRead p (bytes ++ bytes') r where
  acked := h'.acked
  frame := by rw [h'.frame, h.frame, Mealy.state_append]
  staged := by rw [h'.staged, h.staged, h.frame, Mealy.output_append, List.append_assoc]
  fin := by rw [h'.fin, h.fin, h.frame, Mealy.output_append, List.length_append, Nat.add_assoc]
  bound := h'.bound

theorem readBytes_spec (hs : p.state ≠ .initialAck) (hb : p.sendbufEnd ≤ sendbufSize)
    (h : bytes.foldlM readByte p = .ok q) : AfterRead p bytes q := by
  induction bytes generalizing p with
  | nil => cases h; exact ⟨hs, rfl, (List.append_nil _).symm, rfl, hb⟩
  | cons b bs ih =>
    rw [List.foldlM_cons] at h
    cases hp : readByte p b with
    | error e => rw [hp] at h; cases h
    | ok p' =>
      rw [hp] at h
      have hstep := readByte_spec hs hb hp
      exact hstep.trans (ih hstep.acked hstep.bound h)

/-! ## The invariant -/

/-- At most one write is outstanding, and it is of all that is staged. -/
inductive Pending (p : PeerState) : Stream Callback → Prop
  | idle {sent : List UInt8} : p.sendbufEnd = 0 → Pending p ⟨[], [], sent⟩
  | queued {w : WriteReq Callback} {sent : List UInt8} : w.off < w.len → w.len = p.sendbufEnd →
    (w.cb = .wroteInitAck → p.state = .initialAck) → Pending p ⟨[w], [], sent⟩
  | done {cb : Callback} {sent : List UInt8} : 1 ≤ p.sendbufEnd →
    (cb = .wroteInitAck → p.state = .initialAck) → Pending p ⟨[], [cb], sent⟩

structure Inv (s : Conn) : Prop where
  sent : s.stream.sent ++ unsent s.peer.sendbuf s.stream.queue = replies s.received
  frame : s.peer.state.frame = echo.state .waitForMsg s.received
  bound : s.peer.sendbufEnd ≤ sendbufSize
  pending : Pending s.peer s.stream
  reading : s.reading = true → s.peer.state ≠ .initialAck
  closing : s.closing = true → s.reading = false ∧ s.peer.state ≠ .initialAck

/-- What holds also when the process has ended. -/
structure Sound (s : Conn) : Prop where
  isPrefix : s.stream.sent <+: replies s.received
  inv : s.halted = none → Inv s

theorem Inv.sound (h : Inv s) : Sound s := ⟨⟨_, h.sent⟩, fun _ => h⟩

theorem Inv.halt {e : Halt} (h : Inv s) (hsent : t.stream.sent = s.stream.sent)
    (hreceived : s.received <+: t.received) (ht : t.halted = some e) : Sound t where
  isPrefix := hsent ▸ h.sound.isPrefix.trans (replies_mono hreceived)
  inv hc := by rw [ht] at hc; cases hc

theorem Pending.of_idle {stream : Stream Callback} (h : Pending p stream) (hidle : stream.Idle) :
    p.sendbufEnd = 0 := by
  cases h with
  | idle h => exact h
  | queued => cases hidle.1
  | done => cases hidle.2

/-- A read with no write outstanding. -/
theorem Inv.read {writeOk : Bool} (h : Inv s) (hr : s.reading = true) (hidle : s.stream.Idle) :
    Sound (s.onPeerRead chunk writeOk) := by
  have hs := h.reading hr
  have hfin : s.peer.sendbufEnd = 0 := h.pending.of_idle hidle
  have hempty : s.peer.staged = [] := by rw [PeerState.staged, hfin, slice_self]
  have hsent : s.stream.sent = replies s.received := by
    have hsent := h.sent
    rwa [hidle.1, unsent_nil, List.append_nil] at hsent
  rw [Conn.onPeerRead]
  split
  · exact h.halt rfl (List.prefix_refl _) rfl
  split
  · exact h.halt rfl (List.prefix_refl _) rfl
  · next q hq =>
    have hafter := readBytes_spec hs h.bound hq
    have hstaged : s.stream.sent ++ q.staged = replies (s.received ++ chunk) := by
      rw [hafter.staged, hempty, h.frame, replies_append, hsent]
      rfl
    have hframe : q.state.frame = echo.state .waitForMsg (s.received ++ chunk) := by
      rw [hafter.frame, h.frame, Mealy.state_append]
    have hclosing := fun hc => ((h.closing hc).imp_right fun _ => hafter.acked)
    split
    · next hpos =>
      split
      · refine Inv.sound ⟨?_, hframe, hafter.bound, ?_, fun _ => hafter.acked, hclosing⟩
        · simp only [Stream.write, hidle.1, List.nil_append, unsent_singleton]
          exact hstaged
        · rw [hidle.eq]
          exact .queued hpos rfl fun hc => by cases hc
      · exact h.halt rfl (List.prefix_append ..) rfl
    · next hpos =>
      have hzero : q.sendbufEnd = 0 := Nat.eq_zero_of_not_pos hpos
      have hp : Pending q s.stream := by
        rw [hidle.eq]
        exact .idle hzero
      refine Inv.sound ⟨?_, hframe, hafter.bound, hp, fun _ => hafter.acked, hclosing⟩
      rw [PeerState.staged, hzero, slice_self, List.append_nil] at hstaged
      rw [hidle.1, unsent_nil, List.append_nil]
      exact hstaged

theorem Inv.drain {k : Nat} {stream : Stream Callback} (h : Inv s)
    (hd : s.stream.drain s.peer.sendbuf k = some stream) : Inv { s with stream } where
  sent := (Stream.drain_sent hd).trans h.sent
  frame := h.frame
  bound := h.bound
  pending := by
    obtain ⟨w, ws, hq, hk, hcases⟩ := Stream.drain_cases hd
    have hp := h.pending
    generalize s.stream = stream' at hp hq hcases
    cases hp with
    | idle | done => cases hq
    | queued hlt hlen hcb =>
      cases hq
      rcases hcases with ⟨-, rfl⟩ | ⟨hlt', rfl⟩
      · exact .done (Nat.zero_lt_of_lt (hlen ▸ hlt)) hcb
      · exact .queued hlt' hlen hcb
  reading := h.reading
  closing := h.closing

/-- The only callback due, and what it finds. -/
theorem Inv.due {cb : Callback} {done : List Callback} (h : Inv s)
    (hd : s.stream.done = cb :: done) : s.stream.queue = [] ∧ done = [] ∧
      (cb = .wroteInitAck → s.peer.state = .initialAck) := by
  have hp := h.pending
  generalize s.stream = stream at hp hd
  cases hp with
  | idle | queued => cases hd
  | done _ hcb => cases hd; exact ⟨rfl, rfl, hcb⟩

/-- After its callback a write leaves nothing staged. -/
theorem Inv.emptied (state : InternalState) (reading : Bool) (h : Inv s)
    (hq : s.stream.queue = []) (hframe : state.frame = s.peer.state.frame)
    (hreading : reading = true → state ≠ .initialAck)
    (hclosing : s.closing = true → reading = false ∧ state ≠ .initialAck) :
    Inv { s with
      stream := { s.stream with done := [] }
      peer := { s.peer with state, sendbufEnd := 0 }
      reading } where
  sent := by
    have hsent := h.sent
    rw [hq] at hsent ⊢
    exact hsent
  frame := hframe.trans h.frame
  bound := Nat.zero_le _
  pending := by simp only [hq]; exact .idle rfl
  reading := hreading
  closing := hclosing

theorem Inv.wroteInitAck {done : List Callback} {startOk : Bool} (h : Inv s)
    (hd : s.stream.done = .wroteInitAck :: done) :
    Sound ({ s with stream := { s.stream with done } }.onWroteInitAck startOk) := by
  obtain ⟨hq, rfl, hack⟩ := h.due hd
  have hstate := hack rfl
  unfold Conn.onWroteInitAck
  split
  · exact h.halt rfl (List.prefix_refl _) rfl
  split
  · have hframe : InternalState.waitForMsg.frame = s.peer.state.frame := by rw [hstate]; rfl
    exact (h.emptied .waitForMsg true hq hframe (fun _ => nofun)
      fun hc => absurd hstate (h.closing hc).2).sound
  · exact h.halt rfl (List.prefix_refl _) rfl

theorem Inv.wroteBuf {done : List Callback} (h : Inv s) (hd : s.stream.done = .wroteBuf :: done)
    (ht : { s with stream := { s.stream with done } }.onWroteBuf.stopped = false) :
    Sound { s with stream := { s.stream with done } }.onWroteBuf := by
  obtain ⟨hq, rfl, -⟩ := h.due hd
  unfold Conn.onWroteBuf at ht ⊢
  split
  · exact h.halt rfl (List.prefix_refl _) rfl
  · next hfreed =>
    rw [if_neg hfreed] at ht
    split
    · next hend => rw [if_pos hend] at ht; cases ht
    · exact (h.emptied _ _ hq rfl h.reading h.closing).sound

/-- No read is delivered while a write is outstanding. -/
def OneAtATime (s : Conn) : Label → Prop
  | .read _ _ => s.stream.Idle
  | _ => True

instance {s : Conn} {a : Label} : Decidable (OneAtATime s a) :=
  match a with
  | .read _ _ => inferInstanceAs (Decidable s.stream.Idle)
  | .readNone | .readEnd | .drain _ | .wrote _ | .writeFailed | .closed => .isTrue trivial

theorem inv_init : Inv onPeerConnected where
  sent := rfl
  frame := rfl
  bound := by decide
  pending := .queued Nat.one_pos rfl fun _ => rfl
  reading := nofun
  closing := nofun

theorem onPeerRead_stopped {writeOk : Bool} :
    (s.onPeerRead chunk writeOk).stopped = s.stopped := by
  unfold Conn.onPeerRead
  split
  · rfl
  split
  · rfl
  split
  · rfl
  · simp only
    split
    · split <;> rfl
    · rfl

theorem onWroteInitAck_stopped {startOk : Bool} :
    (s.onWroteInitAck startOk).stopped = s.stopped := by
  unfold Conn.onWroteInitAck
  split
  · rfl
  · split <;> rfl

/-- `uv_stop` is not undone. -/
theorem stopped_of_exec {a : Label} (h : exec s a = some t) (hs : s.stopped = true) :
    t.stopped = true := by
  cases step_of_exec h with
  | read => exact onPeerRead_stopped.trans hs
  | readNone | readEnd | drain | writeFailed => exact hs
  | wroteInitAck => exact onWroteInitAck_stopped.trans hs
  | wroteBuf =>
    unfold Conn.onWroteBuf
    split
    · exact hs
    · split
      · rfl
      · exact hs
  | closed =>
    unfold Conn.onClientClosed
    split <;> exact hs

theorem exec_preserves {a : Label} (h : Sound s) (hg : OneAtATime s a) (hx : exec s a = some t)
    (ht : t.stopped = false) : Sound t := by
  have hi := h.inv (not_halted_of_exec hx)
  cases step_of_exec hx with
  | read hr => exact hi.read hr hg
  | readNone => exact h
  | readEnd hr =>
    exact Inv.sound ⟨hi.sent, hi.frame, hi.bound, hi.pending, nofun, fun _ => ⟨rfl, hi.reading hr⟩⟩
  | drain _ hd => exact (hi.drain hd).sound
  | wroteInitAck hd => exact hi.wroteInitAck hd
  | wroteBuf hd => exact hi.wroteBuf hd ht
  | writeFailed => exact hi.halt rfl (List.prefix_refl _) rfl
  | closed =>
    unfold Conn.onClientClosed
    split
    · exact hi.halt rfl (List.prefix_refl _) rfl
    · exact Inv.sound ⟨hi.sent, hi.frame, hi.bound, hi.pending, hi.reading, hi.closing⟩

theorem sound_of_reach (h : uvServer.Reach OneAtATime s) (hs : s.stopped = false) : Sound s := by
  induction h with
  | init => exact inv_init.sound
  | step _ hg hx ih =>
    have hbefore := Bool.eq_false_iff.mpr fun hc =>
      absurd (stopped_of_exec hx hc) (Bool.eq_false_iff.mp hs)
    exact exec_preserves (ih hbefore) hg hx hs

/-! ## A read during a write -/

/-- Left alone, an open connection sends all that is queued. -/
theorem flush (hrun : s.halted = none) (hopen : s.closing = false)
    (hoff : ∀ w ∈ s.stream.queue, w.off < w.len) :
    ∃ as done, uvServer.run s as = some { s with
      stream := ⟨[], done, s.stream.sent ++ unsent s.peer.sendbuf s.stream.queue⟩ } := by
  obtain ⟨ks, hks⟩ := Stream.flush s.peer.sendbuf hoff
  have hdrain : ∀ {stream k stream'}, Stream.drain s.peer.sendbuf k stream = some stream' →
      uvServer.exec { s with stream } (.drain k) = some { s with stream := stream' } := by
    intro stream k stream' hd
    show exec { s with stream } (.drain k) = some { s with stream := stream' }
    simp only [exec, hrun, hopen, hd, Option.isSome_none, Bool.false_eq_true, if_false,
      Option.map_some]
  exact ⟨_, _, Machine.run_map hdrain hks⟩

theorem Pending.unsent_length {stream : Stream Callback} (h : Pending p stream)
    (hb : p.sendbufEnd ≤ sendbufSize) (buf buf' : Vector UInt8 sendbufSize) :
    (unsent buf stream.queue).length = (unsent buf' stream.queue).length := by
  cases h with
  | idle | done => rfl
  | queued hlt hlen =>
    rw [unsent_singleton, unsent_singleton, length_slice (hlen ▸ hb), length_slice (hlen ▸ hb)]

theorem Pending.busy {stream : Stream Callback} (h : Pending p stream) (hbusy : ¬stream.Idle) :
    1 ≤ p.sendbufEnd ∧ ∀ w ∈ stream.queue, w.off < w.len := by
  cases h with
  | idle => exact absurd ⟨rfl, rfl⟩ hbusy
  | queued hlt hlen =>
    refine ⟨Nat.zero_lt_of_lt (hlen ▸ hlt), ?_⟩
    intro w hw
    rw [List.mem_singleton.mp hw]
    exact hlt
  | done hpos => exact ⟨hpos, nofun⟩

/-- What such a read leaves: the staged bytes and those it adds are queued behind the outstanding
write. -/
theorem Inv.read_busy {writeOk : Bool} (h : Inv s) (hbusy : ¬s.stream.Idle)
    (hr : s.reading = true) (ht : (s.onPeerRead chunk writeOk).halted = none) :
    ∃ q, AfterRead s.peer chunk q ∧ s.onPeerRead chunk writeOk =
      { s with
        peer := q
        received := s.received ++ chunk
        stream := s.stream.write .wroteBuf q.sendbufEnd } := by
  have hs := h.reading hr
  obtain ⟨hpos, -⟩ := h.pending.busy hbusy
  unfold Conn.onPeerRead at ht ⊢
  split at ht
  · cases ht
  · next hfreed =>
    rw [if_neg hfreed]
    split at ht
    · cases ht
    · next q hq =>
      have hafter := readBytes_spec hs h.bound hq
      have hpos' : q.sendbufEnd > 0 := by
        have := hafter.fin
        omega
      simp only [if_pos hpos'] at ht
      split at ht
      · next hok => exact ⟨q, hafter, by simp only [if_neg hs, if_pos hpos', if_pos hok]⟩
      · cases ht

/-- Once it has all gone out, more bytes have been sent than there are replies. -/
theorem Inv.duplicates {writeOk : Bool} (h : Inv s) (hrun : s.halted = none)
    (hbusy : ¬s.stream.Idle) (hr : s.reading = true)
    (ht : (s.onPeerRead chunk writeOk).halted = none) :
    ∃ as t, uvServer.run (s.onPeerRead chunk writeOk) as = some t ∧ t.halted = none ∧
      t.stopped = s.stopped ∧ ¬t.stream.sent <+: replies t.received := by
  obtain ⟨q, hafter, hread⟩ := h.read_busy hbusy hr ht
  obtain ⟨hpos, hoff⟩ := h.pending.busy hbusy
  have hfin := hafter.fin
  have hopen : s.closing = false := Bool.eq_false_iff.mpr fun hc => by
    have := (h.closing hc).1
    rw [hr] at this
    cases this
  rw [hread]
  obtain ⟨as, done, has⟩ := flush (s := { s with
    peer := q
    received := s.received ++ chunk
    stream := s.stream.write .wroteBuf q.sendbufEnd }) hrun hopen (fun w hw => by
      rcases List.mem_append.mp hw with hw | hw
      · exact hoff w hw
      · rw [List.mem_singleton.mp hw]
        exact (by omega : 0 < q.sendbufEnd))
  refine ⟨as, _, has, hrun, rfl, ?_⟩
  intro hprefix
  have hle := hprefix.length_le
  have hbefore := congrArg List.length h.sent
  have hsame := h.pending.unsent_length h.bound s.peer.sendbuf q.sendbuf
  simp only at hle
  rw [replies_append, ← h.frame] at hle
  simp only [Stream.write, unsent_append, unsent_singleton, List.length_append,
    length_slice hafter.bound] at hle hbefore
  omega

/-- As long as no read is delivered while a write is outstanding, what has been sent is a beginning
of what the sequential server sends for the bytes read so far, and all of it once no write is
queued. And after any read that is delivered while a write is outstanding, the connection can go on
to a state in which it is not. -/
theorem uv_sends_replies (h : uvServer.Reach OneAtATime s) (hs : s.stopped = false) :
    (∀ chunks : List (List UInt8), chunks.flatten = s.received →
      s.stream.sent <+: (Sequential.handleConnection Blocking.allSent (chunks.map .data)).sent ∧
      (s.halted = none → s.stream.queue = [] →
        s.stream.sent = (Sequential.handleConnection Blocking.allSent (chunks.map .data)).sent)) ∧
    (∀ a t, ¬OneAtATime s a → exec s a = some t → t.halted = none →
      ∃ as u, uvServer.run t as = some u ∧ u.halted = none ∧ u.stopped = false ∧
        ∀ chunks : List (List UInt8), chunks.flatten = u.received →
          ¬u.stream.sent <+:
            (Sequential.handleConnection Blocking.allSent (chunks.map .data)).sent) := by
  have hsound := sound_of_reach h hs
  constructor
  · intro chunks hch
    rw [Sequential.handleConnection, Blocking.handleConnection_data, hch]
    refine ⟨hsound.isPrefix, ?_⟩
    intro hrun hq
    have hsent := (hsound.inv hrun).sent
    rwa [hq, unsent_nil, List.append_nil] at hsent
  · intro a t ha hx ht
    have hrun := not_halted_of_exec hx
    cases step_of_exec hx with
    | read hr =>
      obtain ⟨as, u, hu, h1, h2, hnot⟩ := (hsound.inv hrun).duplicates hrun ha hr ht
      refine ⟨as, u, hu, h1, h2.trans hs, ?_⟩
      intro chunks hch
      rw [Sequential.handleConnection, Blocking.handleConnection_data, hch]
      exact hnot
    | readNone | readEnd | drain | wroteInitAck | wroteBuf | writeFailed | closed =>
      exact absurd trivial ha

/-- The client sends `^a`, which is read after the completion of the acknowledgement. -/
def alternatingRun : List Label := [
  .drain 1, .wrote true, .read [0x5e, 0x61] true, .drain 1, .wrote true]

theorem uv_sends_replies_alternatingRun :
    ∃ s, uvServer.Reach OneAtATime s ∧ s.received = [0x5e, 0x61] ∧
      s.stream.sent = (Sequential.handleConnection Blocking.allSent [.data [0x5e, 0x61]]).sent := by
  have hrun : ((uvServer.restrict OneAtATime).run uvServer.init alternatingRun).map (fun s =>
      (s.halted, s.stopped, s.stream.queue.isEmpty, s.received)) =
      some (none, false, true, [0x5e, 0x61]) := by decide +kernel
  obtain ⟨s, hs, hp⟩ := Machine.reach_of_run hrun
  simp only [Prod.mk.injEq] at hp
  obtain ⟨hhalted, hstopped, hqueue, hreceived⟩ := hp
  have hreach : uvServer.Reach OneAtATime s := hs.of_restrict
  exact ⟨s, hreach, hreceived, ((uv_sends_replies hreach hstopped).1 [[0x5e, 0x61]]
    hreceived.symm).2 hhalted (List.isEmpty_iff.mp hqueue)⟩

/-- The client sends `^a` and then `b`, which is read before the completion of the first write. -/
def overlapRun : List Label := [
  .drain 1, .wrote true, .read [0x5e, 0x61] true, .drain 1, .read [0x62] true, .drain 2]

/-- The `b` that answers `a` goes out a second time. -/
theorem uv_sends_replies_overlapRun :
    ∃ s, uvServer.Reach Machine.anyStep s ∧ s.halted = none ∧ s.stopped = false ∧
      s.stream.queue = [] ∧ s.received = [0x5e, 0x61, 0x62] ∧
      s.stream.sent = [0x2a, 0x62, 0x62, 0x63] ∧
      ¬s.stream.sent <+: (Sequential.handleConnection Blocking.allSent
        [.data [0x5e, 0x61], .data [0x62]]).sent := by
  have hrun : (uvServer.run uvServer.init overlapRun).map (fun s => (s.halted, s.stopped,
      s.stream.queue.isEmpty, s.received, s.stream.sent)) =
      some (none, false, true, [0x5e, 0x61, 0x62], [0x2a, 0x62, 0x62, 0x63]) := by decide +kernel
  obtain ⟨s, hs, hp⟩ := Machine.reach_of_run hrun
  simp only [Prod.mk.injEq] at hp
  obtain ⟨h1, h2, h3, h4, h5⟩ := hp
  refine ⟨s, hs, h1, h2, List.isEmpty_iff.mp h3, h4, h5, ?_⟩
  rw [h5]
  decide

end KoScripts.Servers.UvServer
