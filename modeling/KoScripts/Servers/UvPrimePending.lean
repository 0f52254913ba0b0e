import KoScripts.Servers.UvPrimeAnswer

/-! # What a connection of the prime server has to do

A chunk read makes for one work item or write, and each of them for a byte to be sent. Where only
one chunk is read, nothing is sent before its work item is done with. -/

namespace KoScripts.Servers.UvPrime
open Lib Uv

variable {c d : Conn} {a : Label} {mode : Mode} {chunk : List UInt8} {ok statusOk : Bool}

/-! ## What has been sent -/

theorem writeResponse_sent : (c.writeResponse ok).stream.sent = c.stream.sent := by
  unfold Conn.writeResponse
  split <;> rfl

theorem onPeerRead_sent : (c.onPeerRead mode chunk ok).stream.sent = c.stream.sent := by
  unfold Conn.onPeerRead
  split
  · rfl
  · cases mode with
    | block =>
      simp only
      split
      · rfl
      · exact writeResponse_sent
    | queue =>
      simp only
      split <;> rfl

theorem onWorkSubmitted_sent : c.onWorkSubmitted.stream.sent = c.stream.sent := by
  unfold Conn.onWorkSubmitted
  split
  · rfl
  · split <;> rfl

theorem onWorkCompleted_sent : (c.onWorkCompleted statusOk ok).stream.sent = c.stream.sent := by
  unfold Conn.onWorkCompleted
  split
  · rfl
  · split
    · rfl
    · exact writeResponse_sent

theorem sent_of_exec (h : exec mode c a = some d) : c.stream.sent <+: d.stream.sent := by
  cases step_of_exec h with
  | read => rw [onPeerRead_sent]
  | work => rw [onWorkSubmitted_sent]
  | workCompleted => rw [onWorkCompleted_sent]
  | drain _ hd =>
    obtain ⟨w, ws, -, -, ⟨-, rfl⟩ | ⟨-, rfl⟩⟩ := Stream.drain_cases hd <;>
      exact List.prefix_append _ _
  | readNone | readEnd | sentResponse | sendFailed | closed => exact List.prefix_refl _

/-! ## One read -/

/-- A read is the first one. -/
def FirstRead (c : Conn) : Label → Prop
  | .read .. => c.chunks = []
  | _ => True

/-- At most one chunk has been read, and nothing is sent before its work item is done with. -/
structure Single (c : Conn) : Prop where
  chunks : c.chunks.length ≤ 1
  pending : c.queued + c.computed + c.stream.queue.length ≤ c.chunks.length
  unread : c.chunks = [] → c.stream.sent = []
  waits : 0 < c.queued + c.computed → c.stream.sent = []

theorem Single.read (h : Single c) (hrun : c.halted = none) (hclosing : c.closing = false)
    (hnil : c.chunks = []) (hd : (c.onPeerRead mode chunk ok).halted = none) :
    Single (c.onPeerRead mode chunk ok) := by
  have hpending := h.pending
  have hsent := h.unread hnil
  rw [hnil, List.length_nil] at hpending
  cases mode with
  | block =>
    obtain ⟨hopen, rfl⟩ := open_of_onPeerRead_block hrun hd
    obtain ⟨q, -, heq⟩ := hopen.onPeerRead_block chunk
    rw [heq, hnil]
    refine ⟨Nat.le_refl 1, ?_, fun hc => absurd hc (List.cons_ne_nil _ _), fun _ => hsent⟩
    simp only [Stream.write, List.length_append, List.length_singleton, List.nil_append]
    omega
  | queue =>
    obtain ⟨hreleased, rfl⟩ := released_of_onPeerRead_queue hd
    rw [Conn.Open.onPeerRead_queue ⟨hrun, hclosing, hreleased⟩, hnil]
    refine ⟨Nat.le_refl 1, ?_, fun hc => absurd hc (List.cons_ne_nil _ _), fun _ => hsent⟩
    simp only [List.nil_append, List.length_singleton]
    omega

/-- One case for each label; of the reads only the first is allowed. -/
theorem Single.of_exec (h : Single c) (hclosing : c.closing = true → c.reading = false)
    (hfirst : FirstRead c a) (hx : exec mode c a = some d) (hd : d.halted = none) : Single d := by
  obtain ⟨hchunks, hpending, hunread, hwaits⟩ := h
  have hrun := not_halted_of_exec hx
  cases step_of_exec hx with
  | read hr =>
    refine Single.read ⟨hchunks, hpending, hunread, hwaits⟩ hrun ?_ hfirst hd
    exact Bool.eq_false_iff.mpr fun hc => Bool.eq_false_iff.mp (hclosing hc) hr
  | readNone | readEnd | sentResponse | closed => exact ⟨hchunks, hpending, hunread, hwaits⟩
  | sendFailed => cases hd
  | work hpos =>
    obtain ⟨-, q, -, heq⟩ := onWorkSubmitted_cases hd
    rw [heq]
    refine ⟨hchunks, ?_, hunread, fun _ => hwaits (by omega)⟩
    simp only
    omega
  | workCompleted hpos =>
    rw [onWorkCompleted_cases hd]
    refine ⟨hchunks, ?_, hunread, fun _ => hwaits (by omega)⟩
    simp only [Stream.write, List.length_append, List.length_singleton]
    omega
  | drain hopen hdrain =>
    obtain ⟨w, ws, hq, hk, hcases⟩ := Stream.drain_cases hdrain
    rw [hq, List.length_cons] at hpending
    -- The write that goes out is all that is left of the chunk.
    have hne : c.chunks ≠ [] := fun hc => by
      rw [hc, List.length_nil] at hpending
      omega
    have hleft : c.queued + c.computed = 0 := by omega
    refine ⟨hchunks, ?_, fun hc => absurd hc hne, fun hpos => absurd hleft (Nat.ne_of_gt hpos)⟩
    rcases hcases with ⟨-, rfl⟩ | ⟨-, rfl⟩
    · simp only
      omega
    · simp only [List.length_cons]
      omega

theorem single_init {peer : PeerState} : Single (onPeerConnected peer) :=
  ⟨Nat.zero_le 1, Nat.le_refl 0, fun _ => rfl, fun _ => rfl⟩

/-- Where only one chunk is read, no request gets in the way of another. -/
theorem Single.noInterference (h : Single c) (hfirst : FirstRead c a)
    (hx : exec mode c a = some d) : NoInterference mode c a := by
  have hpending := h.pending
  have hchunks := h.chunks
  cases step_of_exec hx with
  | read =>
    have hnil : c.chunks = [] := hfirst
    rw [hnil, List.length_nil] at hpending
    have hqueue : c.stream.queue = [] := List.eq_nil_of_length_eq_zero (by omega)
    cases mode with
    | block =>
      refine ⟨fun w hw => ?_, fun hpos => by omega⟩
      rw [hqueue] at hw
      cases hw
    | queue => exact fun hpos => by omega
  | work hpos =>
    have hqueue : c.stream.queue = [] := List.eq_nil_of_length_eq_zero (by omega)
    refine fun _ => ⟨fun w hw => ?_, fun hpos => by omega⟩
    rw [hqueue] at hw
    cases hw
  | readNone | readEnd | workCompleted | drain | sentResponse | sendFailed | closed => trivial

/-! ## What is still to come -/

/-- Every write and every work item makes for a byte to be sent, and every chunk for one of them as
long as nothing has been sent. -/
structure Going (c : Conn) : Prop where
  writes : ∀ w ∈ c.stream.queue, w.off < w.len ∧ w.len ≤ sendbufSize
  staged : 0 < c.computed → 0 < c.peer.sendbufEnd ∧ c.peer.sendbufEnd ≤ sendbufSize
  unanswered : c.stream.sent = [] →
    c.chunks.length ≤ c.queued + c.computed + c.stream.queue.length

theorem going_init {peer : PeerState} : Going (onPeerConnected peer) :=
  ⟨nofun, nofun, fun _ => Nat.le_refl 0⟩

theorem Stored.fin_bounds {p q : PeerState} {b : Bool} (h : Stored p (response b) q) :
    0 < q.sendbufEnd ∧ q.sendbufEnd ≤ sendbufSize := by
  rw [h.fin]
  exact ⟨length_response_pos, length_response_le⟩

theorem forall_mem_write {s : Stream Unit} {len : Nat}
    (h : ∀ w ∈ s.queue, w.off < w.len ∧ w.len ≤ sendbufSize)
    (hlen : 0 < len ∧ len ≤ sendbufSize) :
    ∀ w ∈ (s.write () len).queue, w.off < w.len ∧ w.len ≤ sendbufSize := by
  intro w hw
  rcases List.mem_append.mp hw with hw | hw
  · exact h w hw
  · rw [List.mem_singleton.mp hw]
    exact hlen

theorem slice_ne_nil {buf : Vector UInt8 sendbufSize} {i j : Nat} (hij : i < j)
    (hj : j ≤ sendbufSize) : slice buf i j ≠ [] := by
  intro hnil
  have hlen := congrArg List.length hnil
  rw [length_slice hj, List.length_nil] at hlen
  omega

theorem Going.read (h : Going c) (hrun : c.halted = none) (hclosing : c.closing = false)
    (hd : (c.onPeerRead mode chunk ok).halted = none) : Going (c.onPeerRead mode chunk ok) := by
  cases mode with
  | block =>
    obtain ⟨hopen, rfl⟩ := open_of_onPeerRead_block hrun hd
    obtain ⟨q, hq, heq⟩ := hopen.onPeerRead_block chunk
    rw [heq]
    refine ⟨forall_mem_write h.writes hq.fin_bounds, fun _ => hq.fin_bounds, fun hsent => ?_⟩
    have hle := h.unanswered hsent
    simp only [Stream.write, List.length_append, List.length_singleton]
    omega
  | queue =>
    obtain ⟨hreleased, rfl⟩ := released_of_onPeerRead_queue hd
    rw [Conn.Open.onPeerRead_queue ⟨hrun, hclosing, hreleased⟩]
    refine ⟨h.writes, h.staged, fun hsent => ?_⟩
    have hle := h.unanswered hsent
    simp only [List.length_append, List.length_singleton]
    omega

theorem Going.drain {k : Nat} {stream : Stream Unit} (h : Going c)
    (hdrain : c.stream.drain c.peer.sendbuf k = some stream) : Going { c with stream } := by
  obtain ⟨hwrites, hstaged, -⟩ := h
  obtain ⟨w, ws, hq, hk, ⟨-, rfl⟩ | ⟨hlt, rfl⟩⟩ := Stream.drain_cases hdrain
  · rw [hq, List.forall_mem_cons] at hwrites
    obtain ⟨⟨hoff, hlen⟩, hws⟩ := hwrites
    exact ⟨hws, hstaged, fun hsent =>
      absurd (List.append_eq_nil_iff.mp hsent).2 (slice_ne_nil hoff hlen)⟩
  · rw [hq, List.forall_mem_cons] at hwrites
    obtain ⟨⟨hoff, hlen⟩, hws⟩ := hwrites
    refine ⟨List.forall_mem_cons.mpr ⟨⟨hlt, hlen⟩, hws⟩, hstaged, fun hsent => ?_⟩
    exact absurd (List.append_eq_nil_iff.mp hsent).2 (slice_ne_nil (by omega) (by omega))

theorem Going.of_exec (h : Going c) (hclosing : c.closing = true → c.reading = false)
    (hx : exec mode c a = some d) (hd : d.halted = none) : Going d := by
  have hrun := not_halted_of_exec hx
  cases step_of_exec hx with
  | read hr =>
    exact h.read hrun
      (Bool.eq_false_iff.mpr fun hc => Bool.eq_false_iff.mp (hclosing hc) hr) hd
  | readNone | readEnd | sentResponse | closed => exact ⟨h.writes, h.staged, h.unanswered⟩
  | sendFailed => cases hd
  | work hpos =>
    obtain ⟨-, q, hq, heq⟩ := onWorkSubmitted_cases hd
    rw [heq]
    refine ⟨h.writes, fun _ => hq.fin_bounds, fun hsent => ?_⟩
    have hle := h.unanswered hsent
    simp only
    omega
  | workCompleted hpos =>
    rw [onWorkCompleted_cases hd]
    refine ⟨forall_mem_write h.writes (h.staged hpos), fun _ => h.staged hpos, fun hsent => ?_⟩
    have hle := h.unanswered hsent
    simp only [Stream.write, List.length_append, List.length_singleton]
    omega
  | drain _ hdrain => exact h.drain hdrain

end KoScripts.Servers.UvPrime
