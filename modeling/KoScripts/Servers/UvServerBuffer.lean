import KoScripts.Servers.UvServerLifetime

/-! # The staging buffer of the libuv echo server

libuv suggests a read buffer of 65536 bytes, and `on_alloc_buffer` allocates all of it; what a read
stages goes into a buffer of 1024. -/

namespace KoScripts.Servers.UvServer
open Lib Uv
open Event (InternalState sendbufSize)

variable {p q : PeerState} {s t : Conn} {b : UInt8} {bytes chunk : List UInt8} {ok : Bool}

theorem readByte_ok (h : p.sendbufEnd + (echo.output p.state.frame [b]).length ≤ sendbufSize) :
    ∃ q, readByte p b = .ok q := by
  obtain ⟨state, buf, fin⟩ := p
  cases state with
  | initialAck => exact ⟨_, rfl⟩
  | waitForMsg => exact ⟨_, rfl⟩
  | inMsg =>
    simp only [readByte]
    split
    · exact ⟨_, rfl⟩
    · next hd =>
      have hout : echo.output InternalState.inMsg.frame [b] = [b + 1] :=
        Mealy.output_singleton.trans (echo_out_message hd)
      have hfin : fin < sendbufSize := by
        rw [hout] at h
        exact h
      exact ⟨_, dif_pos hfin⟩

/-- The bytes of a read are staged if and only if there is room for their payload. -/
theorem readBytes_ok_iff (hs : p.state ≠ .initialAck) (hb : p.sendbufEnd ≤ sendbufSize) :
    (∃ q, bytes.foldlM readByte p = .ok q) ↔
      p.sendbufEnd + (echo.output p.state.frame bytes).length ≤ sendbufSize := by
  constructor
  · rintro ⟨q, hq⟩
    have hafter := readBytes_spec hs hb hq
    rw [← hafter.fin]
    exact hafter.bound
  · intro h
    induction bytes generalizing p with
    | nil => exact ⟨p, rfl⟩
    | cons b bs ih =>
      rw [← List.singleton_append, Mealy.output_append, List.length_append] at h
      obtain ⟨p', hp⟩ := readByte_ok (p := p) (b := b) (by omega)
      have hstep := readByte_spec hs hb hp
      have hfin := hstep.fin
      rw [← hstep.frame] at h
      obtain ⟨q, hq⟩ := ih hstep.acked hstep.bound (by omega)
      refine ⟨q, ?_⟩
      rw [List.foldlM_cons, hp]
      exact hq

theorem readBytes_abort_iff (hs : p.state ≠ .initialAck) (hb : p.sendbufEnd ≤ sendbufSize) :
    bytes.foldlM readByte p = .error .abort ↔
      sendbufSize < p.sendbufEnd + (echo.output p.state.frame bytes).length := by
  rw [← Nat.not_le, ← readBytes_ok_iff hs hb]
  cases h : bytes.foldlM readByte p with
  | error e =>
    rw [readBytes_error h]
    exact iff_of_true rfl nofun
  | ok q => exact iff_of_false nofun (not_not.mpr ⟨q, rfl⟩)

theorem onPeerRead_abort_iff (hrun : s.halted = none) (hs : s.peer.state ≠ .initialAck)
    (hb : s.peer.sendbufEnd ≤ sendbufSize) :
    (s.onPeerRead chunk ok).halted = some .abort ↔ ¬s.peerFreed = true ∧
      sendbufSize < s.peer.sendbufEnd + (echo.output s.peer.state.frame chunk).length := by
  rw [← readBytes_abort_iff hs hb]
  unfold Conn.onPeerRead
  split
  · next hfreed => exact iff_of_false nofun fun hc => hc.1 hfreed
  next hfreed =>
  split
  · next e he =>
    obtain rfl := readBytes_error he
    exact iff_of_true rfl ⟨hfreed, he⟩
  · next q hq =>
    refine iff_of_false ?_ fun hc => nomatch hq.symm.trans hc.2
    simp only
    split
    · split
      · rw [hrun]
        nofun
      · nofun
    · rw [hrun]
      nofun

theorem Alive.read_abort_iff (h : Alive s) (hx : UvServer.exec s (.read chunk ok) = some t) :
    t.halted = some .abort ↔ ¬s.peerFreed = true ∧
      sendbufSize < s.peer.sendbufEnd + (echo.output s.peer.state.frame chunk).length := by
  cases step_of_exec hx with
  | read hr => exact onPeerRead_abort_iff (not_halted_of_exec hx) (h.acked hr) h.bound

/-- With no write outstanding, a read does not fail the assertion on the staging buffer if and only
if its payload fits in the whole of it, or the kill switch has released the peer state. -/
theorem read_not_abort_iff (h : uvServer.Reach Machine.anyStep s) (hidle : s.stream.Idle)
    (hx : exec s (.read chunk ok) = some t) :
    t.halted ≠ some .abort ↔
      (echo.output s.peer.state.frame chunk).length ≤ sendbufSize ∨ s.peerFreed = true := by
  have halive := alive_of_reach h (not_halted_of_exec hx)
  rw [ne_eq, halive.read_abort_iff hx, not_and_or, not_not, Nat.not_lt, or_comm]
  by_cases hfreed : s.peerFreed = true
  · exact iff_of_true (.inr hfreed) (.inr hfreed)
  · -- A write that completes and does not stop the server leaves nothing staged.
    have hstopped : s.stopped = false :=
      Bool.eq_false_iff.mpr fun hc => hfreed (halive.freed.mpr (.inl hc))
    rw [halive.emptied (Stream.idle_iff.mp hidle) hstopped, Nat.zero_add]

/-- The acknowledgement has been written. -/
def ackRun : List Label := [.drain 1, .wrote true]

theorem read_not_abort_iff_ackRun : ∃ s t, uvServer.Reach Machine.anyStep s ∧ s.stream.Idle ∧
    exec s (.read [0x5e, 0x61] true) = some t ∧ t.halted ≠ some .abort := by
  have hrun : (uvServer.run uvServer.init ackRun).map (fun s => (decide s.stream.Idle,
      (exec s (.read [0x5e, 0x61] true)).isSome,
      decide ((echo.output s.peer.state.frame [0x5e, 0x61]).length ≤ sendbufSize))) =
      some (true, true, true) := by decide +kernel
  obtain ⟨s, hs, hp⟩ := Machine.reach_of_run hrun
  simp only [Prod.mk.injEq, decide_eq_true_eq] at hp
  obtain ⟨hidle, hsome, hfits⟩ := hp
  obtain ⟨t, hx⟩ := Option.isSome_iff_exists.mp hsome
  exact ⟨s, t, hs, hidle, hx, (read_not_abort_iff hs hidle hx).mpr (.inl hfits)⟩

/-- A frame of 1025 bytes. -/
def longChunk : List UInt8 := 0x5e :: List.replicate 1025 0x61

/-- A single read of it fails the assertion. -/
theorem read_abort_longChunk : ∃ s t, uvServer.Reach Machine.anyStep s ∧ s.stream.Idle ∧
    longChunk.length ≤ suggestedSize ∧ exec s (.read longChunk true) = some t ∧
    t.halted = some .abort := by
  have hrun : (uvServer.run uvServer.init ackRun).map (fun s => (decide s.stream.Idle,
      s.peerFreed, (exec s (.read longChunk true)).isSome,
      decide (sendbufSize < (echo.output s.peer.state.frame longChunk).length))) =
      some (true, false, true, true) := by decide +kernel
  obtain ⟨s, hs, hp⟩ := Machine.reach_of_run hrun
  simp only [Prod.mk.injEq, decide_eq_true_eq] at hp
  obtain ⟨hidle, hfreed, hsome, hlong⟩ := hp
  obtain ⟨t, hx⟩ := Option.isSome_iff_exists.mp hsome
  refine ⟨s, t, hs, hidle, by decide +kernel, hx, ?_⟩
  have halive := alive_of_reach hs (not_halted_of_exec hx)
  refine (halive.read_abort_iff hx).mpr ⟨?_, ?_⟩
  · rw [hfreed]
    nofun
  · exact Nat.lt_add_left _ hlong

end KoScripts.Servers.UvServer
