import KoScripts.Servers.UvPrime

/-! # The lifetime of a peer in the prime server

Closing a handle does not cancel the work items that hold a pointer to its peer state, and
`on_client_closed` does not ask for them. The peer outlives them in the runs in which the close
callback finds none of them left, and in no others: a work item that is left then uses the released
memory in its next step. -/

namespace KoScripts.Servers.UvPrime
open Lib Uv

variable {s t : Conn} {mode : Mode} {a : Label}

theorem not_halted_of_exec (h : exec mode s a = some t) : s.halted = none := by
  simpa using (Option.ite_none_left_eq_some.mp h).1

/-! ## What a step does -/

inductive Step (mode : Mode) (s : Conn) : Label → Conn → Prop
  | read {chunk : List UInt8} {ok : Bool} : s.reading = true → chunk ≠ [] →
    Step mode s (.read chunk ok) (s.onPeerRead mode chunk ok)
  | readNone : s.reading = true → Step mode s .readNone s
  | readEnd : s.reading = true → Step mode s .readEnd { s with reading := false, closing := true }
  | work : 0 < s.queued → Step mode s .work s.onWorkSubmitted
  | workCompleted {statusOk ok : Bool} : 0 < s.computed →
    Step mode s (.workCompleted statusOk ok) (s.onWorkCompleted statusOk ok)
  | drain {k : Nat} {stream : Stream Unit} : ¬s.closing = true →
    s.stream.drain s.peer.sendbuf k = some stream → Step mode s (.drain k) { s with stream }
  | sentResponse {done : List Unit} : s.stream.done = () :: done →
    Step mode s .sentResponse { s with stream := { s.stream with done } }
  | sendFailed : s.stream.queue ≠ [] → Step mode s .sendFailed (s.halt .exit)
  | closed : s.closing = true → ¬s.released = true → s.stream.Idle →
    Step mode s .closed { s with released := true }

theorem step_of_exec (h : exec mode s a = some t) : Step mode s a t := by
  obtain ⟨-, h⟩ := Option.ite_none_left_eq_some.mp h
  cases a with
  | read chunk ok =>
    obtain ⟨⟨hr, hne⟩, h⟩ := Option.ite_none_right_eq_some.mp h
    cases h
    exact .read hr hne
  | readNone =>
    obtain ⟨hr, h⟩ := Option.ite_none_right_eq_some.mp h
    cases h
    exact .readNone hr
  | readEnd =>
    obtain ⟨hr, h⟩ := Option.ite_none_right_eq_some.mp h
    cases h
    exact .readEnd hr
  | work =>
    obtain ⟨hpos, h⟩ := Option.ite_none_right_eq_some.mp h
    cases h
    exact .work hpos
  | workCompleted statusOk ok =>
    obtain ⟨hpos, h⟩ := Option.ite_none_right_eq_some.mp h
    cases h
    exact .workCompleted hpos
  | drain k =>
    obtain ⟨hc, h⟩ := Option.ite_none_left_eq_some.mp h
    obtain ⟨stream, hd, rfl⟩ := Option.map_eq_some_iff.mp h
    exact .drain hc hd
  | sentResponse =>
    simp only at h
    split at h
    · cases h
    · next done hd =>
      cases h
      exact .sentResponse hd
  | sendFailed =>
    obtain ⟨hq, h⟩ := Option.ite_none_left_eq_some.mp h
    cases h
    exact .sendFailed hq
  | closed =>
    obtain ⟨⟨hc, hnot, hidle⟩, h⟩ := Option.ite_none_right_eq_some.mp h
    cases h
    exact .closed hc hnot hidle

/-! ## Nothing is read from a handle being closed -/

section
variable {chunk : List UInt8} {statusOk ok : Bool}

@[simp] theorem writeResponse_closing : (s.writeResponse ok).closing = s.closing := by
  unfold Conn.writeResponse
  split <;> rfl

@[simp] theorem writeResponse_reading : (s.writeResponse ok).reading = s.reading := by
  unfold Conn.writeResponse
  split <;> rfl

theorem onPeerRead_frame : (s.onPeerRead mode chunk ok).closing = s.closing ∧
    (s.onPeerRead mode chunk ok).reading = s.reading := by
  unfold Conn.onPeerRead
  split
  · exact ⟨rfl, rfl⟩
  · cases mode with
    | block =>
      simp only
      split
      · exact ⟨rfl, rfl⟩
      · exact ⟨writeResponse_closing, writeResponse_reading⟩
    | queue =>
      simp only
      split <;> exact ⟨rfl, rfl⟩

theorem onWorkSubmitted_frame : s.onWorkSubmitted.closing = s.closing ∧
    s.onWorkSubmitted.reading = s.reading := by
  unfold Conn.onWorkSubmitted
  split
  · exact ⟨rfl, rfl⟩
  · split <;> exact ⟨rfl, rfl⟩

theorem onWorkCompleted_frame : (s.onWorkCompleted statusOk ok).closing = s.closing ∧
    (s.onWorkCompleted statusOk ok).reading = s.reading := by
  unfold Conn.onWorkCompleted
  split
  · exact ⟨rfl, rfl⟩
  · split
    · exact ⟨rfl, rfl⟩
    · exact ⟨writeResponse_closing, writeResponse_reading⟩

end

theorem closing_of_exec (h : s.closing = true → s.reading = false) (hx : exec mode s a = some t) :
    t.closing = true → t.reading = false := by
  cases step_of_exec hx with
  | read => rwa [onPeerRead_frame.1, onPeerRead_frame.2]
  | readEnd => exact fun _ => rfl
  | work => rwa [onWorkSubmitted_frame.1, onWorkSubmitted_frame.2]
  | workCompleted => rwa [onWorkCompleted_frame.1, onWorkCompleted_frame.2]
  | readNone | drain | sentResponse | sendFailed | closed => exact h

/-- `uv_close` ends the reading. -/
theorem not_reading {G : Conn → Label → Prop} {peer : PeerState}
    (h : (uvPrime mode peer).Reach G s) : s.closing = true → s.reading = false :=
  h.invariant nofun fun hi _ hx => closing_of_exec hi hx

/-! ## The lifetime -/

/-- `on_client_closed` is called only when no work item of the connection is queued, running or
waiting for `on_work_completed`. -/
def ClosedIdle (s : Conn) : Label → Prop
  | .closed => s.queued = 0 ∧ s.computed = 0
  | _ => True

structure Alive (s : Conn) : Prop where
  released : s.released = true → s.closing = true ∧ s.queued = 0 ∧ s.computed = 0
  halted : s.halted ≠ some .fault

theorem Alive.halt {e : Halt} (h : Alive s) (he : e ≠ .fault) : Alive (s.halt e) where
  released := h.released
  halted := fun hc => he (Option.some.inj hc)

theorem Alive.writeResponse {ok : Bool} (h : Alive s) : Alive (s.writeResponse ok) := by
  unfold Conn.writeResponse
  split
  · exact ⟨h.released, h.halted⟩
  · exact h.halt nofun

theorem Alive.onPeerRead {chunk : List UInt8} {ok : Bool} (h : Alive s)
    (hnot : ¬s.released = true) : Alive (s.onPeerRead mode chunk ok) := by
  unfold Conn.onPeerRead
  rw [if_neg hnot]
  cases mode with
  | block =>
    obtain ⟨q, hset, -⟩ := setPeerSendbuf_response
      { s.peer with number := parseNumber 0 chunk } (isprime (parseNumber 0 chunk))
    simp only [hset]
    exact Alive.writeResponse ⟨h.released, h.halted⟩
  | queue =>
    simp only
    split
    · exact ⟨fun hc => absurd hc hnot, h.halted⟩
    · exact Alive.halt ⟨h.released, h.halted⟩ nofun

theorem Alive.onWorkSubmitted (h : Alive s) (hpos : 0 < s.queued) : Alive s.onWorkSubmitted := by
  have hnot : ¬s.released = true := fun hc => absurd (h.released hc).2.1 (Nat.ne_of_gt hpos)
  obtain ⟨q, hset, -⟩ := setPeerSendbuf_response s.peer (isprime s.peer.number)
  unfold Conn.onWorkSubmitted
  simp only [if_neg hnot, hset]
  exact ⟨fun hc => absurd hc hnot, h.halted⟩

theorem Alive.onWorkCompleted {statusOk ok : Bool} (h : Alive s) (hpos : 0 < s.computed) :
    Alive (s.onWorkCompleted statusOk ok) := by
  have hnot : ¬s.released = true := fun hc => absurd (h.released hc).2.2 (Nat.ne_of_gt hpos)
  unfold Conn.onWorkCompleted
  split
  · exact h.halt nofun
  · exact Alive.writeResponse ⟨fun hc => absurd hc hnot, h.halted⟩

theorem Alive.exec (h : Alive s) (hclosing : s.closing = true → s.reading = false)
    (hg : ClosedIdle s a) (hx : exec mode s a = some t) : Alive t := by
  -- A connection that is read from has not been released.
  have hread : s.reading = true → ¬s.released = true := fun hr hc =>
    Bool.eq_false_iff.mp (hclosing (h.released hc).1) hr
  cases step_of_exec hx with
  | read hr => exact h.onPeerRead (hread hr)
  | readNone => exact h
  | readEnd hr => exact ⟨fun hc => absurd hc (hread hr), h.halted⟩
  | work hpos => exact h.onWorkSubmitted hpos
  | workCompleted hpos => exact h.onWorkCompleted hpos
  | drain | sentResponse => exact ⟨h.released, h.halted⟩
  | sendFailed => exact h.halt nofun
  | closed hclosing => exact ⟨fun _ => ⟨hclosing, hg⟩, h.halted⟩

theorem alive_init {peer : PeerState} : Alive (onPeerConnected peer) := ⟨nofun, nofun⟩

/-- A work item that is left when the peer is released uses it in its next step. -/
theorem fault_of_released (hrun : s.halted = none) (hr : s.released = true)
    (hleft : ¬(s.queued = 0 ∧ s.computed = 0)) :
    ∃ a t, (a = .work ∨ a = .workCompleted true true) ∧ exec mode s a = some t ∧
      t.halted = some .fault := by
  have hrun' : ¬s.halted.isSome = true := by rw [hrun]; exact Bool.false_ne_true
  rcases Nat.eq_zero_or_pos s.queued with hq | hq
  · have hc : 0 < s.computed := by omega
    refine ⟨.workCompleted true true, s.halt .fault, .inr rfl, ?_, rfl⟩
    rw [UvPrime.exec, if_neg hrun']
    simp only [if_pos hc, Conn.onWorkCompleted, hr, not_true, if_true, if_false]
  · refine ⟨.work, s.halt .fault, .inl rfl, ?_, rfl⟩
    rw [UvPrime.exec, if_neg hrun']
    simp only [if_pos hq, Conn.onWorkSubmitted, hr, if_true]

/-- If the close callback is called only when no work item is left, then after it no step of a work
item can happen, and released memory is never used. And after a close callback that finds a work
item left, the next step of one uses the released memory. -/
theorem peer_outlives_work (mode : Mode) (peer : PeerState) :
    (∀ s, (uvPrime mode peer).Reach ClosedIdle s → s.halted ≠ some .fault ∧
      (s.released = true → exec mode s .work = none ∧
        ∀ statusOk ok, exec mode s (.workCompleted statusOk ok) = none)) ∧
    (∀ s t a, ¬ClosedIdle s a → exec mode s a = some t →
      t.released = true ∧ ∃ b u, (b = .work ∨ b = .workCompleted true true) ∧
        exec mode t b = some u ∧ u.halted = some .fault) := by
  constructor
  · intro s h
    have halive : Alive s := h.invariant_with not_reading alive_init
      fun hclosing hi hg hx => hi.exec hclosing hg hx
    refine ⟨halive.halted, ?_⟩
    intro hr
    obtain ⟨-, hqueued, hcomputed⟩ := halive.released hr
    simp [exec, hqueued, hcomputed]
  · intro s t a ha hx
    have hrun := not_halted_of_exec hx
    cases step_of_exec hx with
    | closed => exact ⟨rfl, fault_of_released hrun rfl ha⟩
    | read | readNone | readEnd | work | workCompleted | drain | sentResponse | sendFailed =>
      exact absurd trivial ha

/-- A peer state as `malloc` may hand it out. -/
def zeroPeer : PeerState := ⟨0, Vector.replicate sendbufSize 0, 0⟩

/-- The client sends `7` and closes before a thread has taken the work item. -/
def lateWorkRun : List Label := [.read [0x37, 0x0a] true, .readEnd, .closed]

/-- The work item then runs on the peer that has been released. -/
theorem peer_outlives_work_lateWorkRun :
    ∃ s t, (uvPrime .queue zeroPeer).Reach Machine.anyStep s ∧ s.released = true ∧
      exec .queue s .work = some t ∧ t.halted = some .fault := by
  have hrun : ((uvPrime .queue zeroPeer).run (onPeerConnected zeroPeer) lateWorkRun).map
      (fun s => (s.released, (exec .queue s .work).map Conn.halted)) =
      some (true, some (some .fault)) := by decide +kernel
  obtain ⟨s, hs, hp⟩ := Machine.reach_of_run hrun
  obtain ⟨hreleased, hx⟩ := Prod.mk.inj hp
  obtain ⟨t, ht, hfault⟩ := Option.map_eq_some_iff.mp hx
  exact ⟨s, t, hs, hreleased, ht, hfault⟩

end KoScripts.Servers.UvPrime
