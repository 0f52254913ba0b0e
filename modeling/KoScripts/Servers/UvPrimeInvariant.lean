import KoScripts.Servers.UvPrimeLifetime

/-! # Pipelined requests in the prime server

All requests of a connection share its number and its buffer. The answers are right as long as no
read changes the number under a queued work item and no response is stored over one that is still
to go out. -/

namespace KoScripts.Servers.UvPrime
open Lib Uv

variable {p q : PeerState} {s t : Conn} {mode : Mode} {b : Bool} {chunk str : List UInt8} {i : Nat}

/-- The buffer holds what a queued write is still to send of its response. -/
def Intact (buf : Vector UInt8 sendbufSize) (w : WriteReq Unit) : Prop :=
  ∃ b, w.len = (response b).length ∧ w.off < w.len ∧
    slice buf w.off w.len = (response b).drop w.off

/-- Storing this response now changes nothing that is still to go out: each queued write is of an
equal response or has got past it, and a response that waits for its `uv_write` is an equal one. -/
def Spares (s : Conn) (prime : Bool) : Prop :=
  (∀ w ∈ s.stream.queue, w.len = (response prime).length ∨ (response prime).length ≤ w.off) ∧
  (0 < s.computed → s.peer.sendbufEnd = (response prime).length)

/-- The requests of the connection do not get in each other's way. After `uv_close` nothing goes
out any more. -/
def NoInterference (mode : Mode) (s : Conn) : Label → Prop
  | .read chunk _ =>
    match mode with
    | .block => Spares s (isprime (parseNumber 0 chunk))
    | .queue => 0 < s.queued → isprime (parseNumber 0 chunk) = isprime s.peer.number
  | .work => s.closing = false → Spares s (isprime s.peer.number)
  | _ => True

structure Inv (mode : Mode) (s : Conn) : Prop where
  answers : s.stream.sent ++ unsent s.peer.sendbuf s.stream.queue ++
    (List.replicate s.computed s.peer.staged).flatten ++
    (List.replicate s.queued (response (isprime s.peer.number))).flatten = answers s.chunks
  intact : ∀ w ∈ s.stream.queue, Intact s.peer.sendbuf w
  staged : 0 < s.computed → ∃ b, s.peer.staged = response b ∧
    s.peer.sendbufEnd = (response b).length
  block : mode = .block → s.queued = 0 ∧ s.computed = 0

/-- What holds also when the process has ended, or the handle is being closed and work items are
left. -/
structure Sound (mode : Mode) (s : Conn) : Prop where
  isPrefix : s.stream.sent <+: answers s.chunks
  inv : s.halted = none → (s.closing = true → s.queued = 0 ∧ s.computed = 0) → Inv mode s

theorem Inv.isPrefix (h : Inv mode s) : s.stream.sent <+: UvPrime.answers s.chunks := by
  rw [← h.answers, List.append_assoc, List.append_assoc]
  exact List.prefix_append ..

theorem Inv.sound (h : Inv mode s) : Sound mode s := ⟨h.isPrefix, fun _ _ => h⟩

theorem answers_append {chunks : List (List UInt8)} :
    answers (chunks ++ [chunk]) =
      answers chunks ++ response (isprime (parseNumber 0 chunk)) := by
  rw [answers, List.flatMap_append]
  exact congrArg _ (List.append_nil _)

theorem answers_mono {chunks chunks' : List (List UInt8)} (h : chunks <+: chunks') :
    answers chunks <+: answers chunks' := by
  obtain ⟨more, rfl⟩ := h
  rw [answers, answers, List.flatMap_append]
  exact List.prefix_append ..

theorem Sound.halt {e : Halt} (h : Sound mode s) (hsent : t.stream.sent = s.stream.sent)
    (hchunks : s.chunks <+: t.chunks) (ht : t.halted = some e) : Sound mode t where
  isPrefix := hsent ▸ h.isPrefix.trans (answers_mono hchunks)
  inv hc := by rw [ht] at hc; cases hc

theorem Intact.stored {w : WriteReq Unit} (h : Intact p.sendbuf w) (hq : Stored p (response b) q)
    (hw : w.len = (response b).length ∨ (response b).length ≤ w.off) :
    slice q.sendbuf w.off w.len = slice p.sendbuf w.off w.len := by
  rcases hw with hlen | hoff
  · obtain ⟨b', hlen', -, hslice⟩ := h
    obtain rfl := response_length_inj (hlen.symm.trans hlen')
    have hstaged := hq.staged
    rw [PeerState.staged, hq.fin, ← hlen] at hstaged
    rw [hslice, ← hstaged, drop_slice, Nat.zero_add]
  · exact slice_congr fun k hk _ => hq.behind k (Nat.le_trans hoff hk)

/-- Storing a response that spares the others leaves all that is still to go out as it is. -/
theorem Inv.stored (h : Inv mode s) (hspares : Spares s b)
    (hp : p.sendbuf = s.peer.sendbuf) (hq : Stored p (response b) q) :
    unsent q.sendbuf s.stream.queue = unsent s.peer.sendbuf s.stream.queue ∧
      (∀ w ∈ s.stream.queue, Intact q.sendbuf w) ∧ (0 < s.computed → q.staged = s.peer.staged) := by
  have hslice : ∀ w ∈ s.stream.queue,
      slice q.sendbuf w.off w.len = slice s.peer.sendbuf w.off w.len := fun w hw =>
    hp ▸ (hp ▸ h.intact w hw : Intact p.sendbuf w).stored hq (hspares.1 w hw)
  refine ⟨unsent_congr hslice, ?_, ?_⟩
  · intro w hw
    obtain ⟨b', hlen, hlt, hw'⟩ := h.intact w hw
    exact ⟨b', hlen, hlt, (hslice w hw).trans hw'⟩
  · intro hpos
    obtain ⟨b', hstaged, hfin⟩ := h.staged hpos
    rw [hq.staged, hstaged, response_length_inj ((hspares.2 hpos).symm.trans hfin)]

/-- Queueing the write of what is staged. -/
theorem writeResponse_sound {ok : Bool} (hstaged : s.peer.staged = response b)
    (hfin : s.peer.sendbufEnd = (response b).length)
    (hintact : ∀ w ∈ s.stream.queue, Intact s.peer.sendbuf w)
    (hblock : mode = .block → s.queued = 0 ∧ s.computed = 0)
    (hanswers : s.stream.sent ++ unsent s.peer.sendbuf s.stream.queue ++ s.peer.staged ++
      (List.replicate s.computed s.peer.staged).flatten ++
      (List.replicate s.queued (response (isprime s.peer.number))).flatten = answers s.chunks) :
    Sound mode (s.writeResponse ok) := by
  unfold Conn.writeResponse
  split
  · refine Inv.sound ⟨?_, ?_, fun _ => ⟨b, hstaged, hfin⟩, hblock⟩
    · simp only [Stream.write]
      rw [unsent_append, unsent_singleton, ← List.append_assoc]
      exact hanswers
    · intro w hw
      rcases List.mem_append.mp hw with hw | hw
      · exact hintact w hw
      · rw [List.mem_singleton.mp hw]
        exact ⟨b, hfin, hfin ▸ length_response_pos, hstaged⟩
  · refine ⟨?_, fun hc => by cases hc⟩
    simp only [Conn.halt]
    rw [← hanswers, List.append_assoc, List.append_assoc, List.append_assoc]
    exact List.prefix_append ..

theorem Inv.readBlock {ok : Bool} (h : Inv .block s)
    (hspares : Spares s (isprime (parseNumber 0 chunk))) :
    Sound .block (s.onPeerRead .block chunk ok) := by
  unfold Conn.onPeerRead
  split
  · exact h.sound.halt rfl (List.prefix_refl _) rfl
  · obtain ⟨hqueued, hcomputed⟩ := h.block rfl
    obtain ⟨q, hset, hq⟩ := setPeerSendbuf_response
      { s.peer with number := parseNumber 0 chunk } (isprime (parseNumber 0 chunk))
    obtain ⟨hunsent, hintact, -⟩ :=
      h.stored (p := { s.peer with number := parseNumber 0 chunk }) hspares rfl hq
    simp only [hset]
    refine writeResponse_sound hq.staged hq.fin hintact h.block ?_
    have hanswers := h.answers
    simp only [hqueued, hcomputed, List.replicate_zero, List.flatten_nil,
      List.append_nil] at hanswers ⊢
    rw [hunsent, hanswers, answers_append, hq.staged]

theorem Inv.readQueue {ok : Bool} (h : Inv .queue s)
    (hsame : 0 < s.queued → isprime (parseNumber 0 chunk) = isprime s.peer.number) :
    Sound .queue (s.onPeerRead .queue chunk ok) := by
  unfold Conn.onPeerRead
  split
  · exact h.sound.halt rfl (List.prefix_refl _) rfl
  · simp only
    split
    · refine Inv.sound ⟨?_, h.intact, h.staged, nofun⟩
      have hrep : List.replicate s.queued (response (isprime (parseNumber 0 chunk))) =
          List.replicate s.queued (response (isprime s.peer.number)) := by
        rcases Nat.eq_zero_or_pos s.queued with hzero | hpos
        · rw [hzero]; rfl
        · rw [hsame hpos]
      simp only
      rw [List.replicate_succ', List.flatten_append, List.flatten_singleton, hrep, answers_append,
        ← h.answers, ← List.append_assoc]
      rfl
    · exact h.sound.halt rfl (List.prefix_append ..) rfl

theorem Inv.work (h : Inv mode s) (hspares : Spares s (isprime s.peer.number))
    (hpos : 0 < s.queued) : Sound mode s.onWorkSubmitted := by
  unfold Conn.onWorkSubmitted
  split
  · exact h.sound.halt rfl (List.prefix_refl _) rfl
  · obtain ⟨q, hset, hq⟩ := setPeerSendbuf_response s.peer (isprime s.peer.number)
    obtain ⟨hunsent, hintact, hstaged⟩ := h.stored hspares rfl hq
    have hmode : mode ≠ .block := fun hc => by
      have := (h.block hc).1
      omega
    obtain ⟨k, hk⟩ := Nat.exists_eq_succ_of_ne_zero (Nat.ne_of_gt hpos)
    -- The responses computed before are equal to the new one.
    have hrep : List.replicate s.computed q.staged = List.replicate s.computed s.peer.staged := by
      rcases Nat.eq_zero_or_pos s.computed with hzero | hpos
      · rw [hzero]; rfl
      · rw [hstaged hpos]
    simp only [hset]
    refine Inv.sound ⟨?_, hintact, fun _ => ⟨_, hq.staged, hq.fin⟩, fun hc => absurd hc hmode⟩
    have hanswers := h.answers
    simp only [hk, Nat.succ_eq_add_one, Nat.add_sub_cancel] at hanswers ⊢
    rw [List.replicate_succ, List.flatten_cons, ← List.append_assoc] at hanswers
    rw [hunsent, List.replicate_succ', List.flatten_append, List.flatten_singleton, hrep, hq.staged,
      hq.number, ← List.append_assoc]
    exact hanswers

theorem Inv.workCompleted {statusOk ok : Bool} (h : Inv mode s) (hpos : 0 < s.computed) :
    Sound mode (s.onWorkCompleted statusOk ok) := by
  unfold Conn.onWorkCompleted
  split
  · exact h.sound.halt rfl (List.prefix_refl _) rfl
  split
  · exact h.sound.halt rfl (List.prefix_refl _) rfl
  · obtain ⟨b, hstaged, hfin⟩ := h.staged hpos
    obtain ⟨k, hk⟩ := Nat.exists_eq_succ_of_ne_zero (Nat.ne_of_gt hpos)
    refine writeResponse_sound hstaged hfin h.intact ?_ ?_
    · intro hc
      have := (h.block hc).2
      omega
    · have hanswers := h.answers
      simp only [hk, Nat.succ_eq_add_one, Nat.add_sub_cancel] at hanswers ⊢
      rw [List.replicate_succ, List.flatten_cons, ← List.append_assoc] at hanswers
      exact hanswers

theorem Inv.drain {k : Nat} {stream : Stream Unit} (h : Inv mode s)
    (hd : s.stream.drain s.peer.sendbuf k = some stream) : Inv mode { s with stream } where
  answers := by
    simp only
    rw [Stream.drain_sent hd]
    exact h.answers
  intact := by
    obtain ⟨w, ws, hq, hk, ⟨heq, rfl⟩ | ⟨hlt, rfl⟩⟩ := Stream.drain_cases hd
    · exact fun w' hw => h.intact w' (hq ▸ List.mem_cons_of_mem w hw)
    · have hhead := h.intact w (hq ▸ List.mem_cons_self)
      intro w' hw
      rcases List.mem_cons.mp hw with rfl | hw
      · obtain ⟨b, hlen, -, hslice⟩ := hhead
        refine ⟨b, hlen, hlt, ?_⟩
        simp only
        rw [← drop_slice, hslice, List.drop_drop]
      · exact h.intact w' (hq ▸ List.mem_cons_of_mem w hw)
  staged := h.staged
  block := h.block

theorem inv_init {peer : PeerState} : Inv mode (onPeerConnected peer) where
  answers := rfl
  intact := nofun
  staged := nofun
  block _ := ⟨rfl, rfl⟩

/-! ## Handles being closed -/

theorem Sound.workClosing (h : Sound mode s) (hc : s.closing = true) :
    Sound mode s.onWorkSubmitted := by
  unfold Conn.onWorkSubmitted
  split
  · exact h.halt rfl (List.prefix_refl _) rfl
  · split
    · exact h.halt rfl (List.prefix_refl _) rfl
    · exact ⟨h.isPrefix, fun _ hleft => absurd (hleft hc).2 (Nat.succ_ne_zero _)⟩

theorem Sound.workCompletedClosing {statusOk ok : Bool} (h : Sound mode s)
    (hc : s.closing = true) : Sound mode (s.onWorkCompleted statusOk ok) := by
  unfold Conn.onWorkCompleted
  split
  · exact h.halt rfl (List.prefix_refl _) rfl
  split
  · exact h.halt rfl (List.prefix_refl _) rfl
  · unfold Conn.writeResponse
    rw [if_neg fun hok => hok.2 hc]
    exact h.halt rfl (List.prefix_refl _) rfl

/-! ## Runs -/

theorem exec_preserves {a : Label} (h : Sound mode s)
    (hclosing : s.closing = true → s.reading = false) (hg : NoInterference mode s a)
    (hx : exec mode s a = some t) : Sound mode t := by
  have hrun := not_halted_of_exec hx
  have hopen : s.closing = false → Inv mode s := fun hc =>
    h.inv hrun fun hc' => absurd hc' (Bool.eq_false_iff.mp hc)
  have hread : s.reading = true → s.closing = false := fun hr =>
    Bool.eq_false_iff.mpr fun hc => Bool.eq_false_iff.mp (hclosing hc) hr
  cases step_of_exec hx with
  | read hr =>
    cases mode with
    | block => exact (hopen (hread hr)).readBlock hg
    | queue => exact (hopen (hread hr)).readQueue hg
  | readNone => exact h
  | readEnd hr =>
    have hi := hopen (hread hr)
    exact Inv.sound ⟨hi.answers, hi.intact, hi.staged, hi.block⟩
  | work hpos =>
    cases hc : s.closing with
    | false => exact (hopen hc).work (hg hc) hpos
    | true => exact h.workClosing hc
  | workCompleted hpos =>
    cases hc : s.closing with
    | false => exact (hopen hc).workCompleted hpos
    | true => exact h.workCompletedClosing hc
  | drain hc hd => exact ((hopen (Bool.eq_false_iff.mpr hc)).drain hd).sound
  | sendFailed => exact h.halt rfl (List.prefix_refl _) rfl
  | sentResponse | closed =>
    refine ⟨h.isPrefix, ?_⟩
    intro _ hleft
    have hi := h.inv hrun hleft
    exact ⟨hi.answers, hi.intact, hi.staged, hi.block⟩

theorem sound_of_reach {peer : PeerState}
    (h : (uvPrime mode peer).Reach (NoInterference mode) s) : Sound mode s :=
  h.invariant_with not_reading inv_init.sound fun hclosing hi hg hx =>
    exec_preserves hi hclosing hg hx

end KoScripts.Servers.UvPrime
