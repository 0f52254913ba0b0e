import KoScripts.Servers.UvServerBuffer

/-! # The kill switch of the libuv echo server

`on_wrote_buf` looks for `XYZ` at the end of what one read has staged. Each write completes before
the next read here, so that only the way TCP cuts the stream is left open; it decides whether the
three bytes end up together, and at the end. -/

namespace KoScripts.Servers.UvServer
open Lib Uv
open Event (InternalState sendbufSize)

/-- What the loop does between two reads of a connection: the queued write goes out and
completes. -/
def Completing : Label → Prop
  | .drain _ | .wrote _ | .readNone => True
  | .read _ _ | .readEnd | .writeFailed | .closed => False

/-- A division of what a client sends into reads, each with its write complete before the next
one. Behind `uv_stop` nothing is read. -/
inductive Delivers : Conn → List (List UInt8) → Conn → Prop
  | nil {s : Conn} : Delivers s [] s
  | stopped {s : Conn} {chunks : List (List UInt8)} : s.stopped = true → Delivers s chunks s
  | read {s t u : Conn} {chunk : List UInt8} {chunks : List (List UInt8)} {as : List Label} :
    s.stopped = false → uvServer.run s (.read chunk true :: as) = some t →
    (∀ a ∈ as, Completing a) → t.stream.Idle → t.halted = none → Delivers t chunks u →
    Delivers s (chunk :: chunks) u

/-- A connection, from its acknowledgement to the end of the stream or to `uv_stop`. -/
def Session (stream : List UInt8) (t : Conn) : Prop :=
  ∃ s chunks, uvServer.run uvServer.init ackRun = some s ∧ chunks.flatten = stream ∧
    Delivers s chunks t

def xyz : List UInt8 := ['X'.toUInt8, 'Y'.toUInt8, 'Z'.toUInt8]

/-- Some bytes of the stream, no more than one read can deliver, have `XYZ` for their replies. -/
def HasSwitch (q : Blocking.InternalState) (stream : List UInt8) : Prop :=
  ∃ pre seg post, stream = pre ++ seg ++ post ∧ seg.length ≤ suggestedSize ∧
    echo.output (echo.state q pre) seg = xyz

variable {q : Blocking.InternalState} {s t u v : Conn} {p : PeerState} {a : Label}
  {as : List Label} {chunk bs stream : List UInt8} {chunks : List (List UInt8)} {len : Nat}

/-! ## The end of the buffer -/

theorem three_suffix_iff {α : Type*} {x y z : α} {l : List α} : [x, y, z] <:+ l ↔ 3 ≤ l.length ∧
    l[l.length - 3]? = some x ∧ l[l.length - 2]? = some y ∧ l[l.length - 1]? = some z := by
  constructor
  · rintro ⟨pre, rfl⟩
    simp
  · rintro ⟨hlen, hx, hy, hz⟩
    obtain ⟨k, hk⟩ := Nat.exists_eq_add_of_le' hlen
    simp only [hk, Nat.add_sub_cancel, Nat.reduceSubDiff] at hx hy hz
    have hdrop : l.drop k = [x, y, z] := by
      apply List.ext_getElem?
      intro i
      rw [List.getElem?_drop]
      match i with
      | 0 => exact hx
      | 1 => exact hy
      | 2 => exact hz
      | i + 3 => exact List.getElem?_eq_none (by omega)
    exact ⟨l.take k, by rw [← hdrop, List.take_append_drop]⟩

theorem peerEnd_iff (hb : p.sendbufEnd ≤ sendbufSize) : peerEnd p = true ↔ xyz <:+ p.staged := by
  have hlen : p.staged.length = p.sendbufEnd := length_slice hb
  rw [xyz, three_suffix_iff, hlen, peerEnd]
  split
  · next h => exact iff_of_false Bool.false_ne_true fun hc => by omega
  · next h =>
    have hget {i : Nat} (hi : i < p.sendbufEnd) : p.staged[i]? = p.sendbuf[i]? := by
      rw [PeerState.staged, getElem?_slice, Nat.zero_add, if_pos hi]
    rw [hget (by omega), hget (by omega), hget (by omega)]
    simp only [Bool.and_eq_true, beq_iff_eq, and_assoc, Nat.not_lt.mp h, true_and]

/-! ## One read -/

/-- Between two reads, in the state `q` of the protocol. -/
structure Ready (q : Blocking.InternalState) (s : Conn) : Prop where
  running : s.halted = none
  stopped : s.stopped = false
  freed : s.peerFreed = false
  reading : s.reading = true
  closing : s.closing = false
  idle : s.stream.Idle
  acked : s.peer.state ≠ .initialAck
  frame : s.peer.state.frame = q
  emptied : s.peer.sendbufEnd = 0

/-- With no write outstanding nothing can happen between two reads. -/
theorem exec_idle (hidle : s.stream.Idle) (ha : Completing a) (hx : exec s a = some t) : t = s := by
  cases step_of_exec hx with
  | readNone => rfl
  | drain _ hd =>
    obtain ⟨w, ws, hq, -⟩ := Stream.drain_cases hd
    cases hidle.1.symm.trans hq
  | wroteInitAck hd | wroteBuf hd => cases hidle.2.symm.trans hd
  | read | readEnd | writeFailed | closed => cases ha

/-- From the read of `u` on, with its `uv_write` of `len` bytes. -/
inductive Writing (u : Conn) (len : Nat) : Conn → Prop
  | queued {off : Nat} {sent : List UInt8} : off < len →
    Writing u len { u with stream := ⟨[⟨.wroteBuf, len, off⟩], [], sent⟩ }
  | done {sent : List UInt8} : Writing u len { u with stream := ⟨[], [.wroteBuf], sent⟩ }
  | fin {sent : List UInt8} : Writing u len { u with stream := ⟨[], [], sent⟩ }.onWroteBuf

theorem onWroteBuf_stream : s.onWroteBuf.stream = s.stream := by
  unfold Conn.onWroteBuf
  split
  · rfl
  · split <;> rfl

theorem Writing.exec (h : Writing u len s) (ha : Completing a) (hx : exec s a = some t) :
    Writing u len t := by
  cases h with
  | queued hlt =>
    cases step_of_exec hx with
    | readNone => exact .queued hlt
    | drain _ hd =>
      obtain ⟨w, ws, hq, -, hcases⟩ := Stream.drain_cases hd
      cases hq
      rcases hcases with ⟨-, rfl⟩ | ⟨hlt', rfl⟩
      · exact .done
      · exact .queued hlt'
    | wroteInitAck hd | wroteBuf hd => cases hd
    | read | readEnd | writeFailed | closed => cases ha
  | done =>
    cases step_of_exec hx with
    | readNone => exact .done
    | drain _ hd =>
      obtain ⟨w, ws, hq, -⟩ := Stream.drain_cases hd
      cases hq
    | wroteInitAck hd => cases hd
    | wroteBuf hd =>
      cases hd
      exact .fin
    | read | readEnd | writeFailed | closed => cases ha
  | @fin sent =>
    have hidle : (Conn.onWroteBuf { u with stream := ⟨[], [], sent⟩ }).stream.Idle := by
      rw [onWroteBuf_stream]
      exact ⟨rfl, rfl⟩
    rw [exec_idle hidle ha hx]
    exact .fin

/-- What every step between two reads preserves, all of them do. -/
theorem run_completing {I : Conn → Prop} (step : ∀ {s t a}, I s → Completing a →
    exec s a = some t → I t) (h : I s) (has : ∀ a ∈ as, Completing a)
    (hx : uvServer.run s as = some t) : I t := by
  induction as generalizing s with
  | nil =>
    cases hx
    exact h
  | cons a as ih =>
    obtain ⟨v, hv, hx⟩ := Option.bind_eq_some_iff.mp hx
    have hi := step h (has a (.head _)) hv
    exact ih hi (fun b hb => has b (.tail _ hb)) hx

theorem Writing.of_idle (h : Writing u len s) (hidle : s.stream.Idle) :
    ∃ sent, s = { u with stream := ⟨[], [], sent⟩ }.onWroteBuf := by
  cases h with
  | queued => cases hidle.1
  | done => cases hidle.2
  | fin => exact ⟨_, rfl⟩

theorem not_halted_of_run (hx : uvServer.run s as = some t) (ht : t.halted = none) :
    s.halted = none := by
  cases as with
  | nil =>
    cases hx
    exact ht
  | cons a as =>
    obtain ⟨v, hv, -⟩ := Option.bind_eq_some_iff.mp hx
    exact not_halted_of_exec hv

/-- What the bytes of a read leave in the buffer and queue. -/
theorem Ready.staged (h : Ready q s) (hx : exec s (.read chunk true) = some u)
    (hu : u.halted = none) : chunk.length ≤ suggestedSize ∧ ∃ p, AfterRead s.peer chunk p ∧
      p.staged = echo.output q chunk ∧ u = { s with
        peer := p
        received := s.received ++ chunk
        stream :=
          if p.sendbufEnd = 0 then s.stream else s.stream.write .wroteBuf p.sendbufEnd } := by
  cases step_of_exec hx with
  | read _ _ hlen =>
    obtain ⟨-, ⟨hack, -⟩ | ⟨-, p, hp, heq⟩⟩ := onPeerRead_running hu
    · exact absurd hack h.acked
    · have hbound : s.peer.sendbufEnd ≤ sendbufSize := by rw [h.emptied]; exact Nat.zero_le _
      have hafter := readBytes_spec h.acked hbound hp
      have hempty : s.peer.staged = [] := by rw [PeerState.staged, h.emptied, slice_self]
      refine ⟨hlen, p, hafter, ?_, heq⟩
      rw [hafter.staged, hempty, h.frame, List.nil_append]

/-- One read and the completion of its write: `uv_stop` has been called if the replies end in
`XYZ`, else the connection is ready for the next one. -/
theorem Ready.read (h : Ready q s) (hx : uvServer.run s (.read chunk true :: as) = some t)
    (has : ∀ a ∈ as, Completing a) (hidle : t.stream.Idle) (ht : t.halted = none) :
    chunk.length ≤ suggestedSize ∧ (xyz <:+ echo.output q chunk ∧ t.stopped = true ∨
      ¬xyz <:+ echo.output q chunk ∧ Ready (echo.state q chunk) t) := by
  obtain ⟨u, hu, hx⟩ := Option.bind_eq_some_iff.mp hx
  obtain ⟨hlen, p, hafter, hstaged, heq⟩ := h.staged hu (not_halted_of_run hx ht)
  refine ⟨hlen, ?_⟩
  rw [← hstaged]
  have hend := peerEnd_iff hafter.bound
  have hframe : p.state.frame = echo.state q chunk := by rw [hafter.frame, h.frame]
  rcases Nat.eq_zero_or_pos p.sendbufEnd with hzero | hpos
  · rw [if_pos hzero] at heq
    have huidle : u.stream.Idle := by rw [heq]; exact h.idle
    have htu : t = u := by
      refine run_completing (I := (· = u)) ?_ rfl has hx
      intro s' t' b hs hb he
      rw [hs] at he
      exact exec_idle huidle hb he
    have hempty : p.staged = [] := by rw [PeerState.staged, hzero, slice_self]
    have hno : ¬xyz <:+ p.staged := by
      rw [hempty, List.suffix_nil]
      exact List.cons_ne_nil _ _
    refine .inr ⟨hno, ?_⟩
    rw [htu, heq]
    exact ⟨h.running, h.stopped, h.freed, h.reading, h.closing, h.idle, hafter.acked, hframe, hzero⟩
  · have hwriting : Writing u p.sendbufEnd u := by
      rw [heq, if_neg (Nat.ne_of_gt hpos), Stream.write, h.idle.1, h.idle.2]
      exact .queued hpos
    have hw := run_completing Writing.exec hwriting has hx
    obtain ⟨sent, htu⟩ := hw.of_idle hidle
    obtain ⟨-, hstep⟩ := onWroteBuf_running (htu ▸ ht)
    have hpeer : u.peer = p := by rw [heq]
    rw [← htu] at hstep
    rw [← hend, ← hpeer]
    split at hstep
    · next he =>
      rw [hstep]
      exact .inl ⟨he, rfl⟩
    · next he =>
      refine .inr ⟨he, ?_⟩
      rw [hstep, heq]
      exact ⟨h.running, h.stopped, h.freed, h.reading, h.closing, ⟨rfl, rfl⟩, hafter.acked, hframe,
        rfl⟩

theorem Ready.onPeerRead (h : Ready q s) (hp : chunk.foldlM readByte s.peer = .ok p) :
    s.onPeerRead chunk true = { s with
      peer := p
      received := s.received ++ chunk
      stream := if p.sendbufEnd = 0 then s.stream else s.stream.write .wroteBuf p.sendbufEnd } := by
  rw [Conn.onPeerRead, if_neg (Bool.eq_false_iff.mp h.freed), if_neg h.acked, hp]
  simp only [if_true]
  split
  · next hpos => rw [if_neg (Nat.ne_of_gt hpos)]
  · next hpos => rw [if_pos (Nat.eq_zero_of_not_pos hpos)]

theorem onWroteBuf_halted (hfreed : s.peerFreed = false) : s.onWroteBuf.halted = s.halted := by
  rw [Conn.onWroteBuf, if_neg (Bool.eq_false_iff.mp hfreed)]
  split <;> rfl

/-- A queued write can go out at once and complete. -/
theorem run_complete (sent : List UInt8) (hrun : u.halted = none) (hopen : u.closing = false)
    (hfreed : u.peerFreed = false) (hpos : 0 < len) : ∃ t,
    uvServer.run { u with stream := ⟨[⟨.wroteBuf, len, 0⟩], [], sent⟩ }
      [.drain len, .wrote true] = some t ∧ t.stream.Idle ∧ t.halted = none := by
  have hd : Stream.drain u.peer.sendbuf (len - 0) ⟨[⟨.wroteBuf, len, 0⟩], [], sent⟩ =
      some ⟨[], [Callback.wroteBuf], sent ++ slice u.peer.sendbuf 0 len⟩ :=
    Stream.drain_first (w := ⟨Callback.wroteBuf, len, 0⟩) u.peer.sendbuf rfl hpos
  have hdrain : uvServer.exec { u with stream := ⟨[⟨.wroteBuf, len, 0⟩], [], sent⟩ } (.drain len) =
      some { u with stream := ⟨[], [.wroteBuf], sent ++ slice u.peer.sendbuf 0 len⟩ } := by
    show exec { u with stream := ⟨[⟨.wroteBuf, len, 0⟩], [], sent⟩ } (.drain len) = _
    rw [Nat.sub_zero] at hd
    simp only [exec, hrun, hopen, hd, Option.isSome_none, Bool.false_eq_true, if_false,
      Option.map_some]
  generalize sent ++ slice u.peer.sendbuf 0 len = sent' at hdrain
  have hwrote : uvServer.exec { u with stream := ⟨[], [.wroteBuf], sent'⟩ } (.wrote true) =
      some { u with stream := ⟨[], [], sent'⟩ }.onWroteBuf := by
    show exec { u with stream := ⟨[], [.wroteBuf], sent'⟩ } (.wrote true) = _
    simp only [exec, hrun, Option.isSome_none, Bool.false_eq_true, if_false]
  refine ⟨_, (Machine.run_cons_of_exec hdrain).trans (Machine.run_cons_of_exec hwrote), ?_, ?_⟩
  · rw [onWroteBuf_stream]
    exact ⟨rfl, rfl⟩
  · exact (onWroteBuf_halted (s := { u with stream := ⟨[], [], sent'⟩ }) hfreed).trans hrun

/-- A read whose replies fit in the buffer can be made and its write completed. -/
theorem Ready.exists_read (h : Ready q s) (hne : chunk ≠ []) (hlen : chunk.length ≤ suggestedSize)
    (hfit : (echo.output q chunk).length ≤ sendbufSize) :
    ∃ as t, uvServer.run s (.read chunk true :: as) = some t ∧ (∀ a ∈ as, Completing a) ∧
      t.stream.Idle ∧ t.halted = none := by
  have hbound : s.peer.sendbufEnd ≤ sendbufSize := by rw [h.emptied]; exact Nat.zero_le _
  obtain ⟨p, hp⟩ := (readBytes_ok_iff h.acked hbound).mpr
    (by rwa [h.emptied, h.frame, Nat.zero_add])
  have hread : uvServer.exec s (.read chunk true) = some (s.onPeerRead chunk true) := by
    show exec s (.read chunk true) = some (s.onPeerRead chunk true)
    simp only [exec, h.running, Option.isSome_none, Bool.false_eq_true, if_false]
    exact if_pos ⟨h.reading, hne, hlen⟩
  rw [h.onPeerRead hp] at hread
  rcases Nat.eq_zero_or_pos p.sendbufEnd with hzero | hpos
  · rw [if_pos hzero] at hread
    exact ⟨[], _, Machine.run_cons_of_exec hread, List.forall_mem_nil _, h.idle, h.running⟩
  · rw [if_neg (Nat.ne_of_gt hpos), Stream.write, h.idle.1, h.idle.2] at hread
    obtain ⟨t, hrest, hidle, ht⟩ := run_complete (u := { s with
      peer := p, received := s.received ++ chunk }) s.stream.sent h.running h.closing h.freed hpos
    refine ⟨[.drain p.sendbufEnd, .wrote true], t, (Machine.run_cons_of_exec hread).trans hrest,
      ?_, hidle, ht⟩
    exact List.forall_mem_cons.mpr ⟨trivial, List.forall_mem_singleton.mpr trivial⟩

/-! ## Divisions -/

/-- Byte by byte, the connection never has more than one byte to look for `XYZ` in. -/
theorem Ready.singles (h : Ready q s) (bs : List UInt8) : ∃ t, Ready (echo.state q bs) t ∧
    ∀ chunks u, Delivers t chunks u → Delivers s (bs.map ([·]) ++ chunks) u := by
  induction bs generalizing q s with
  | nil => exact ⟨s, h, fun _ _ hd => hd⟩
  | cons b bs ih =>
    have hlen : (echo.output q [b]).length ≤ 1 := length_echo_output_le q [b]
    obtain ⟨as, v, hx, has, hidle, hv⟩ := h.exists_read (List.cons_ne_nil b [])
      (Nat.le_add_left 1 65535) (Nat.le_trans hlen (by decide))
    obtain ⟨-, ⟨hend, -⟩ | ⟨-, hready⟩⟩ := h.read hx has hidle hv
    · exact absurd (Nat.le_trans hend.length_le hlen) (by decide)
    · obtain ⟨t, ht, hrest⟩ := ih hready
      exact ⟨t, ht, fun chunks u hd => .read h.stopped hx has hidle hv (hrest chunks u hd)⟩

/-- Where no read can find `XYZ` at its end, no division stops the server. -/
theorem Ready.not_stopped (h : Ready q s) (hd : Delivers s chunks t)
    (hno : ¬HasSwitch q chunks.flatten) : t.stopped = false := by
  induction hd generalizing q with
  | nil => exact h.stopped
  | stopped hs => exact absurd hs (Bool.eq_false_iff.mp h.stopped)
  | @read s v u chunk chunks as _ hx has hidle hv _ ih =>
    obtain ⟨hlen, ⟨hend, -⟩ | ⟨-, hready⟩⟩ := h.read hx has hidle hv
    · obtain ⟨ys, zs, rfl, hout⟩ := Mealy.exists_of_suffix_output echo_out_length hend
      refine absurd ⟨ys, zs, chunks.flatten, rfl, ?_, hout⟩ hno
      rw [List.length_append] at hlen
      exact Nat.le_trans (Nat.le_add_left ..) hlen
    · refine ih hready fun ⟨pre, seg, post, heq, hseg, hout⟩ => hno ⟨chunk ++ pre, seg, post, ?_,
        hseg, ?_⟩
      · rw [List.flatten_cons, heq]
        simp only [List.append_assoc]
      · rw [Mealy.state_append]
        exact hout

theorem ready_of_ackRun : ∃ s, uvServer.run uvServer.init ackRun = some s ∧
    Ready .waitForMsg s := by
  have hrun : (uvServer.run uvServer.init ackRun).map (fun s => (s.halted, s.peer.state,
      s.peer.sendbufEnd, [s.stopped, s.peerFreed, s.reading, s.closing, decide s.stream.Idle])) =
      some (none, .waitForMsg, 0, [false, false, true, false, true]) := by decide +kernel
  obtain ⟨s, hs, hp⟩ := Option.map_eq_some_iff.mp hrun
  simp only [Prod.mk.injEq, List.cons.injEq, decide_eq_true_eq] at hp
  obtain ⟨hrunning, hstate, hempty, hstopped, hfreed, hreading, hclosing, hidle, -⟩ := hp
  exact ⟨s, hs, hrunning, hstopped, hfreed, hreading, hclosing, hidle, by rw [hstate]; nofun,
    by rw [hstate]; rfl, hempty⟩

/-- Byte by byte the switch is never found. -/
theorem session_open (stream : List UInt8) : ∃ t, Session stream t ∧ t.stopped = false := by
  obtain ⟨s, hs, hready⟩ := ready_of_ackRun
  obtain ⟨t, ht, hd⟩ := hready.singles stream
  refine ⟨t, ⟨s, _, hs, ?_, hd [] t .nil⟩, ht.stopped⟩
  rw [List.append_nil, ← List.flatMap_def, List.flatMap_singleton']

/-- A read of the right bytes finds it. -/
theorem session_stopped (h : HasSwitch .waitForMsg stream) :
    ∃ t, Session stream t ∧ t.stopped = true := by
  obtain ⟨pre, seg, post, rfl, hlen, hout⟩ := h
  obtain ⟨s, hs, hready⟩ := ready_of_ackRun
  obtain ⟨t, ht, hd⟩ := hready.singles pre
  have hne : seg ≠ [] := by
    rintro rfl
    cases hout
  obtain ⟨as, u, hx, has, hidle, hu⟩ := ht.exists_read hne hlen (by rw [hout]; decide)
  obtain ⟨-, ⟨-, hstopped⟩ | ⟨hend, -⟩⟩ := ht.read hx has hidle hu
  · refine ⟨u, ⟨s, _, hs, ?_, hd [seg, post] u ?_⟩, hstopped⟩
    · rw [List.flatten_append, ← List.flatMap_def, List.flatMap_singleton']
      simp only [List.flatten_cons, List.flatten_nil, List.append_nil, List.append_assoc]
    · exact .read ht.stopped hx has hidle hu (.stopped hstopped)
  · exact absurd (hout ▸ List.suffix_refl _) hend

/-- Any two divisions of a stream agree on whether the server is stopped if and only if no part of
it that one read can deliver has `XYZ` for its replies. -/
theorem kill_switch_iff (stream : List UInt8) :
    (∀ t t', Session stream t → Session stream t' → (t.stopped = true ↔ t'.stopped = true)) ↔
      ¬HasSwitch .waitForMsg stream := by
  constructor
  · intro h hswitch
    obtain ⟨t, ht, hstopped⟩ := session_stopped hswitch
    obtain ⟨t', ht', hopen⟩ := session_open stream
    exact absurd ((h t t' ht ht').mp hstopped) (Bool.eq_false_iff.mp hopen)
  · intro hno
    have hopen {t : Conn} (ht : Session stream t) : t.stopped = false := by
      obtain ⟨s, chunks, hs, rfl, hd⟩ := ht
      obtain ⟨s', hs', hready⟩ := ready_of_ackRun
      obtain rfl := Option.some.inj (hs.symm.trans hs')
      exact hready.not_stopped hd hno
    intro t t' ht ht'
    rw [hopen ht, hopen ht']

/-- `^WXY` stops the server if it arrives at once, and does not if it arrives byte by byte. -/
theorem kill_switch_divided : ¬∀ t t', Session [0x5e, 0x57, 0x58, 0x59] t →
    Session [0x5e, 0x57, 0x58, 0x59] t' → (t.stopped = true ↔ t'.stopped = true) := by
  intro h
  have hswitch : HasSwitch .waitForMsg [0x5e, 0x57, 0x58, 0x59] :=
    ⟨[], [0x5e, 0x57, 0x58, 0x59], [], rfl, by decide, by decide⟩
  obtain ⟨t, ht, hstopped⟩ := session_stopped hswitch
  obtain ⟨t', ht', hopen⟩ := session_open [0x5e, 0x57, 0x58, 0x59]
  exact absurd ((h t t' ht ht').mp hstopped) (Bool.eq_false_iff.mp hopen)

end KoScripts.Servers.UvServer
