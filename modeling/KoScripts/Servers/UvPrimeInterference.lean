import KoScripts.Lib.Diverges
import KoScripts.Servers.UvPrimeInvariant

/-! # What interference does

A step that changes the answer to an earlier request is not made good: the connection can go on to
a state in which the bytes sent differ from the answers. -/

namespace KoScripts.Servers.UvPrime
open Lib Uv

variable {p q peer : PeerState} {s t : Conn} {mode : Mode} {b b' : Bool} {chunk : List UInt8}
  {queue : List (WriteReq Unit)}

/-- The two responses have no byte in common in any place. -/
theorem response_getElem_ne {i : Nat} (h : b ≠ b') (hi : i < (response b).length)
    (hi' : i < (response b').length) : (response b)[i] ≠ (response b')[i] := by
  have key : ∀ (i : Nat) (hi : i < (response true).length) (hi' : i < (response false).length),
      (response true)[i] ≠ (response false)[i] := by decide
  cases b <;> cases b'
  · exact absurd rfl h
  · exact (key i hi' hi).symm
  · exact key i hi hi'
  · exact absurd rfl h

theorem response_diverges (h : b ≠ b') : Diverges (response b) (response b') :=
  diverges_of_head? (List.head?_eq_getElem? ▸ List.getElem?_eq_getElem length_response_pos)
    (List.head?_eq_getElem? ▸ List.getElem?_eq_getElem length_response_pos)
    (response_getElem_ne h _ _)

/-- Storing the other response over a write that is still to go out changes its next byte. -/
theorem Intact.overwritten {w : WriteReq Unit} (h : Intact p.sendbuf w)
    (hq : Stored p (response b) q) (hlen : w.len ≠ (response b).length)
    (hoff : w.off < (response b).length) :
    Diverges (slice q.sendbuf w.off w.len) (slice p.sendbuf w.off w.len) := by
  obtain ⟨b', hlen', hlt, hslice⟩ := h
  have hne : b ≠ b' := fun hb => hlen (hb ▸ hlen')
  have hstored : q.sendbuf[w.off]? = some (response b)[w.off] := by
    have hget := List.getElem?_eq_getElem hoff
    rw [← hget, ← hq.staged, PeerState.staged, getElem?_slice, Nat.zero_add, hq.fin, if_pos hoff]
  refine diverges_of_head? ?_ ?_ (response_getElem_ne hne hoff (hlen' ▸ hlt))
  · rw [List.head?_eq_getElem?, getElem?_slice, Nat.add_zero, if_pos hlt, hstored]
  · rw [hslice, List.head?_drop]
    exact List.getElem?_eq_getElem _

theorem unsent_diverges (hintact : ∀ w ∈ queue, Intact p.sendbuf w)
    (hq : Stored p (response b) q)
    (h : ¬∀ w ∈ queue, w.len = (response b).length ∨ (response b).length ≤ w.off) :
    Diverges (unsent q.sendbuf queue) (unsent p.sendbuf queue) := by
  induction queue with
  | nil => exact absurd nofun h
  | cons w ws ih =>
    have hw := hintact w List.mem_cons_self
    rw [unsent_cons, unsent_cons]
    by_cases hspares : w.len = (response b).length ∨ (response b).length ≤ w.off
    · rw [hw.stored hq hspares]
      have hrest := fun w' hw' => hintact w' (List.mem_cons_of_mem w hw')
      refine (ih hrest fun hws => h ?_).append_left
      exact List.forall_mem_cons.mpr ⟨hspares, hws⟩
    · obtain ⟨hlen, hoff⟩ := not_or.mp hspares
      exact (hw.overwritten hq hlen (Nat.lt_of_not_le hoff)).append_right

/-! ## Going on without interference -/

structure Conn.Open (s : Conn) : Prop where
  halted : s.halted = none
  closing : s.closing = false
  released : s.released = false

theorem exec_workCompleted (mode : Mode) (h : s.Open) (hpos : 0 < s.computed) :
    exec mode s (.workCompleted true true) = some { s with
      computed := s.computed - 1
      stream := s.stream.write () s.peer.sendbufEnd } := by
  simp only [exec, h.halted, Option.isSome_none, Bool.false_eq_true, if_false, hpos, if_true,
    Conn.onWorkCompleted, not_true, h.released, Conn.writeResponse, h.closing, not_false_eq_true,
    and_self]

theorem exec_work (mode : Mode) (h : s.Open) (hpos : 0 < s.queued) :
    ∃ q, Stored s.peer (response (isprime s.peer.number)) q ∧ exec mode s .work = some { s with
      peer := q
      queued := s.queued - 1
      computed := s.computed + 1 } := by
  obtain ⟨q, hset, hq⟩ := setPeerSendbuf_response s.peer (isprime s.peer.number)
  refine ⟨q, hq, ?_⟩
  simp only [exec, h.halted, Option.isSome_none, Bool.false_eq_true, if_false, hpos, if_true,
    Conn.onWorkSubmitted, h.released, hset]

/-- All that has been computed is queued for writing. -/
theorem completeAll (mode : Mode) (peer : PeerState) (h : s.Open) :
    ∃ as, (uvPrime mode peer).run s as = some { s with
      computed := 0
      stream := { s.stream with
        queue := s.stream.queue ++ List.replicate s.computed ⟨(), s.peer.sendbufEnd, 0⟩ } } := by
  generalize hn : s.computed = n
  induction n generalizing s with
  | zero =>
    refine ⟨[], ?_⟩
    rw [List.replicate_zero, List.append_nil, ← hn]
    rfl
  | succ n ih =>
    have hx := exec_workCompleted mode h (hn ▸ Nat.succ_pos n)
    obtain ⟨as, has⟩ := ih (s := { s with
      computed := s.computed - 1
      stream := s.stream.write () s.peer.sendbufEnd }) ⟨h.halted, h.closing, h.released⟩
      (by simp only [hn, Nat.add_sub_cancel])
    refine ⟨.workCompleted true true :: as, (Machine.run_cons_of_exec hx).trans (has.trans ?_)⟩
    simp only [Stream.write, List.replicate_succ, List.append_assoc, List.singleton_append]

/-- All that is queued goes out. -/
theorem flush (mode : Mode) (peer : PeerState) (h : s.Open)
    (hoff : ∀ w ∈ s.stream.queue, w.off < w.len) :
    ∃ as done, (uvPrime mode peer).run s as = some { s with
      stream := ⟨[], done, s.stream.sent ++ unsent s.peer.sendbuf s.stream.queue⟩ } := by
  obtain ⟨ks, hks⟩ := Stream.flush s.peer.sendbuf hoff
  have hdrain : ∀ {stream k stream'}, Stream.drain s.peer.sendbuf k stream = some stream' →
      (uvPrime mode peer).exec { s with stream } (.drain k) =
        some { s with stream := stream' } := by
    intro stream k stream' hd
    show exec mode { s with stream } (.drain k) = some { s with stream := stream' }
    simp only [exec, h.halted, h.closing, hd, Option.isSome_none, Bool.false_eq_true, if_false,
      Option.map_some]
  exact ⟨_, _, Machine.run_map hdrain hks⟩

/-- Left alone, an open connection sends all that is queued and all that has been computed. -/
theorem settle (mode : Mode) (peer : PeerState) (h : s.Open)
    (hoff : ∀ w ∈ s.stream.queue, w.off < w.len) (hfin : 0 < s.computed → 0 < s.peer.sendbufEnd) :
    ∃ as done, (uvPrime mode peer).run s as = some { s with
      computed := 0
      stream := ⟨[], done, s.stream.sent ++ unsent s.peer.sendbuf s.stream.queue ++
        (List.replicate s.computed s.peer.staged).flatten⟩ } := by
  let s' : Conn := { s with
    computed := 0
    stream := { s.stream with
      queue := s.stream.queue ++ List.replicate s.computed ⟨(), s.peer.sendbufEnd, 0⟩ } }
  have hopen : s'.Open := ⟨h.halted, h.closing, h.released⟩
  have hoff' : ∀ w ∈ s'.stream.queue, w.off < w.len := by
    intro w hw
    rcases List.mem_append.mp hw with hw | hw
    · exact hoff w hw
    · obtain ⟨hpos, rfl⟩ := List.mem_replicate.mp hw
      exact hfin (Nat.pos_of_ne_zero hpos)
  have hunsent : unsent s'.peer.sendbuf s'.stream.queue =
      unsent s.peer.sendbuf s.stream.queue ++
        (List.replicate s.computed s.peer.staged).flatten := by
    rw [unsent_append]
    refine congrArg _ ?_
    rw [unsent, List.flatMap_replicate]
    rfl
  obtain ⟨as, has⟩ := completeAll mode peer h
  obtain ⟨bs, done, hbs⟩ := flush mode peer hopen hoff'
  rw [hunsent, ← List.append_assoc] at hbs
  exact ⟨as ++ bs, done, (Machine.run_append has).trans hbs⟩

/-! ## Interfering steps -/

/-- The connection can go on to a state in which what it has sent is no beginning of the answers. -/
def GoesWrong (mode : Mode) (peer : PeerState) (t : Conn) : Prop :=
  ∃ as u, (uvPrime mode peer).run t as = some u ∧ u.halted = none ∧
    ¬u.stream.sent <+: answers u.chunks

theorem Inv.off_lt (h : Inv mode s) : ∀ w ∈ s.stream.queue, w.off < w.len := fun w hw => by
  obtain ⟨-, -, hlt, -⟩ := h.intact w hw
  exact hlt

theorem Inv.fin_pos (h : Inv mode s) (hpos : 0 < s.computed) : 0 < s.peer.sendbufEnd := by
  obtain ⟨b, -, hfin⟩ := h.staged hpos
  rw [hfin]
  exact length_response_pos

theorem GoesWrong.of_run {as : List Label} (hr : (uvPrime mode peer).run s as = some t)
    (h : GoesWrong mode peer t) : GoesWrong mode peer s := by
  obtain ⟨bs, u, hu, hrest⟩ := h
  exact ⟨as ++ bs, u, (Machine.run_append hr).trans hu, hrest⟩

theorem GoesWrong.of_exec {a : Label} (hx : exec mode s a = some t) (h : GoesWrong mode peer t) :
    GoesWrong mode peer s :=
  .of_run (show (uvPrime mode peer).run s [a] = some t from Machine.run_cons_of_exec hx) h

theorem goesWrong_of_settle (h : s.Open) (hoff : ∀ w ∈ s.stream.queue, w.off < w.len)
    (hfin : 0 < s.computed → 0 < s.peer.sendbufEnd)
    (hd : Diverges (s.stream.sent ++ unsent s.peer.sendbuf s.stream.queue ++
      (List.replicate s.computed s.peer.staged).flatten) (answers s.chunks)) :
    GoesWrong mode peer s := by
  obtain ⟨as, done, has⟩ := settle mode peer h hoff hfin
  exact ⟨as, _, has, h.halted, hd.not_prefix⟩

/-- What a read does in mode `BLOCK`. -/
theorem Conn.Open.onPeerRead_block (h : s.Open) (chunk : List UInt8) :
    ∃ q, Stored { s.peer with number := parseNumber 0 chunk }
        (response (isprime (parseNumber 0 chunk))) q ∧
      s.onPeerRead .block chunk true = { s with
        peer := q
        chunks := s.chunks ++ [chunk]
        stream := s.stream.write () q.sendbufEnd } := by
  obtain ⟨q, hset, hq⟩ := setPeerSendbuf_response
    { s.peer with number := parseNumber 0 chunk } (isprime (parseNumber 0 chunk))
  refine ⟨q, hq, ?_⟩
  simp only [Conn.onPeerRead, Conn.writeResponse, h.released, h.closing, hset, Bool.false_eq_true,
    if_false, not_false_eq_true, and_self, if_true]

/-- A read of a process that goes on has found the connection open. -/
theorem open_of_onPeerRead_block {ok : Bool} (hrun : s.halted = none)
    (ht : (s.onPeerRead .block chunk ok).halted = none) : s.Open ∧ ok = true := by
  obtain ⟨q, hset, -⟩ := setPeerSendbuf_response
    { s.peer with number := parseNumber 0 chunk } (isprime (parseNumber 0 chunk))
  unfold Conn.onPeerRead Conn.writeResponse at ht
  simp only [hset] at ht
  split at ht
  · cases ht
  · next hfree =>
    split at ht
    · next hok =>
      exact ⟨⟨hrun, Bool.eq_false_iff.mpr hok.2, Bool.eq_false_iff.mpr hfree⟩, hok.1⟩
    · cases ht

theorem Conn.Open.onPeerRead_queue (h : s.Open) (chunk : List UInt8) :
    s.onPeerRead .queue chunk true = { s with
      peer := { s.peer with number := parseNumber 0 chunk }
      chunks := s.chunks ++ [chunk]
      queued := s.queued + 1 } := by
  simp only [Conn.onPeerRead, h.released, Bool.false_eq_true, if_false, if_true]

theorem released_of_onPeerRead_queue {ok : Bool}
    (ht : (s.onPeerRead .queue chunk ok).halted = none) : s.released = false ∧ ok = true := by
  unfold Conn.onPeerRead at ht
  split at ht
  · cases ht
  · next hfree =>
    refine ⟨Bool.eq_false_iff.mpr hfree, ?_⟩
    cases ok with
    | true => rfl
    | false => cases ht

theorem onWorkSubmitted_cases (ht : s.onWorkSubmitted.halted = none) :
    s.released = false ∧ ∃ q, Stored s.peer (response (isprime s.peer.number)) q ∧
      s.onWorkSubmitted = { s with
        peer := q
        queued := s.queued - 1
        computed := s.computed + 1 } := by
  obtain ⟨q, hset, hq⟩ := setPeerSendbuf_response s.peer (isprime s.peer.number)
  unfold Conn.onWorkSubmitted at ht ⊢
  simp only [hset] at ht ⊢
  split at ht
  · cases ht
  · next hfree =>
    rw [if_neg hfree]
    exact ⟨Bool.eq_false_iff.mpr hfree, q, hq, rfl⟩

/-- A response stored over one that is still to go out. -/
theorem Inv.read_goesWrong {ok : Bool} (h : Inv .block s) (hrun : s.halted = none)
    (hg : ¬Spares s (isprime (parseNumber 0 chunk)))
    (ht : (s.onPeerRead .block chunk ok).halted = none) :
    GoesWrong .block peer (s.onPeerRead .block chunk ok) := by
  obtain ⟨hopen, rfl⟩ := open_of_onPeerRead_block hrun ht
  obtain ⟨q, hq, heq⟩ := hopen.onPeerRead_block chunk
  obtain ⟨hqueued, hcomputed⟩ := h.block rfl
  have hqueue := fun hc => hg ⟨hc, fun hpos => absurd hcomputed (Nat.ne_of_gt hpos)⟩
  have hd := unsent_diverges (p := { s.peer with number := parseNumber 0 chunk }) h.intact hq hqueue
  rw [heq]
  refine goesWrong_of_settle ⟨hopen.halted, hopen.closing, hopen.released⟩ ?_
    (fun hpos => absurd hcomputed (Nat.ne_of_gt hpos)) ?_
  · intro w hw
    rcases List.mem_append.mp hw with hw | hw
    · exact h.off_lt w hw
    · rw [List.mem_singleton.mp hw]
      exact hq.fin ▸ length_response_pos
  · have hanswers := h.answers
    simp only [hqueued, hcomputed, List.replicate_zero, List.flatten_nil, List.append_nil]
      at hanswers ⊢
    rw [answers_append, ← hanswers, Stream.write, unsent_append, List.append_assoc]
    exact hd.append_right.append_left

theorem Inv.work_goesWrong (h : Inv mode s) (hopen : s.Open)
    (hg : ¬Spares s (isprime s.peer.number)) (ht : s.onWorkSubmitted.halted = none) :
    GoesWrong mode peer s.onWorkSubmitted := by
  obtain ⟨-, q, hq, heq⟩ := onWorkSubmitted_cases ht
  rw [heq]
  refine goesWrong_of_settle ⟨hopen.halted, hopen.closing, hopen.released⟩ h.off_lt
    (fun _ => hq.fin ▸ length_response_pos) ?_
  simp only
  by_cases hqueue : ∀ w ∈ s.stream.queue,
      w.len = (response (isprime s.peer.number)).length ∨
        (response (isprime s.peer.number)).length ≤ w.off
  · -- The new response takes the place of one that waits for its `uv_write`.
    obtain ⟨hpos, hfin⟩ := Classical.not_imp.mp fun hc => hg ⟨hqueue, hc⟩
    obtain ⟨b, hstaged, hb⟩ := h.staged hpos
    have hne : isprime s.peer.number ≠ b := fun hc => hfin (hc ▸ hb)
    have hunsent : unsent q.sendbuf s.stream.queue = unsent s.peer.sendbuf s.stream.queue :=
      unsent_congr fun w hw => (h.intact w hw).stored hq (hqueue w hw)
    obtain ⟨k, hk⟩ := Nat.exists_eq_succ_of_ne_zero (Nat.ne_of_gt hpos)
    have hold : (List.replicate s.computed (response b)).flatten =
        response b ++ (List.replicate k (response b)).flatten := by
      rw [hk, List.replicate_succ, List.flatten_cons]
    rw [← h.answers, hunsent, hq.staged, hstaged, hold, List.replicate_succ, List.flatten_cons,
      List.append_assoc (_ ++ _) (_ ++ _), List.append_assoc (response b)]
    exact (response_diverges hne).append_right.append_left
  · have hd := unsent_diverges h.intact hq hqueue
    rw [← h.answers, List.append_assoc, List.append_assoc, List.append_assoc]
    exact hd.append_right.append_left

/-- A number read over that of a request which waits for a thread. -/
theorem Inv.number_goesWrong {ok : Bool} (h : Inv .queue s) (hrun : s.halted = none)
    (hclosing : s.closing = false) (hpos : 0 < s.queued)
    (hg : isprime (parseNumber 0 chunk) ≠ isprime s.peer.number)
    (ht : (s.onPeerRead .queue chunk ok).halted = none) :
    GoesWrong .queue peer (s.onPeerRead .queue chunk ok) := by
  obtain ⟨hfree, rfl⟩ := released_of_onPeerRead_queue ht
  rw [Conn.Open.onPeerRead_queue ⟨hrun, hclosing, hfree⟩]
  let s' : Conn := { s with
    peer := { s.peer with number := parseNumber 0 chunk }
    chunks := s.chunks ++ [chunk]
    queued := s.queued + 1 }
  -- First all that does not wait for a thread goes out.
  obtain ⟨as, done, has⟩ := settle .queue peer (s := s')
    ⟨hrun, hclosing, hfree⟩ h.off_lt h.fin_pos
  apply GoesWrong.of_run has
  -- Then the request that waits is answered with the number of the new one.
  obtain ⟨q, hq, hx⟩ := exec_work .queue (s := { s' with
    computed := 0
    stream := ⟨[], done, s'.stream.sent ++ unsent s'.peer.sendbuf s'.stream.queue ++
      (List.replicate s'.computed s'.peer.staged).flatten⟩ })
    ⟨hrun, hclosing, hfree⟩ (Nat.succ_pos _)
  apply GoesWrong.of_exec hx
  refine goesWrong_of_settle ⟨hrun, hclosing, hfree⟩ nofun
    (fun _ => hq.fin ▸ length_response_pos) ?_
  obtain ⟨k, hk⟩ := Nat.exists_eq_succ_of_ne_zero (Nat.ne_of_gt hpos)
  have hanswers := h.answers
  rw [hk, List.replicate_succ, List.flatten_cons] at hanswers
  have hd : Diverges (response (isprime (parseNumber 0 chunk)) ++ [])
      (response (isprime s.peer.number) ++
        ((List.replicate k (response (isprime s.peer.number))).flatten ++
          response (isprime (parseNumber 0 chunk)))) := (response_diverges hg).append_right
  rw [List.append_nil, ← List.append_assoc] at hd
  simp only [unsent_nil, List.append_nil, Nat.zero_add, List.replicate_one, List.flatten_singleton]
  rw [hq.staged, answers_append, ← hanswers, List.append_assoc _ (_ ++ _) (response _)]
  exact hd.append_left

/-- As long as the requests do not get in each other's way, what has been sent is a beginning of
the answers to the chunks read, and all of them once nothing is outstanding. And after any step in
which they do, the connection can go on to a state in which what has been sent is none. -/
theorem prime_answers (mode : Mode) (peer : PeerState) :
    (∀ s, (uvPrime mode peer).Reach (NoInterference mode) s →
      s.stream.sent <+: answers s.chunks ∧
      (s.halted = none → s.queued = 0 → s.computed = 0 → s.stream.queue = [] →
        s.stream.sent = answers s.chunks)) ∧
    (∀ s a t, (uvPrime mode peer).Reach (NoInterference mode) s → ¬NoInterference mode s a →
      exec mode s a = some t → t.halted = none →
        ∃ as u, (uvPrime mode peer).run t as = some u ∧ u.halted = none ∧
          ¬u.stream.sent <+: answers u.chunks) := by
  constructor
  · intro s h
    have hsound := sound_of_reach h
    refine ⟨hsound.isPrefix, ?_⟩
    intro hrun hqueued hcomputed hq
    have hanswers := (hsound.inv hrun fun _ => ⟨hqueued, hcomputed⟩).answers
    simpa [hqueued, hcomputed, hq] using hanswers
  · intro s a t h ha hx ht
    have hrun := not_halted_of_exec hx
    have hopen : s.closing = false → Inv mode s := fun hc =>
      (sound_of_reach h).inv hrun fun hc' => absurd hc' (Bool.eq_false_iff.mp hc)
    cases step_of_exec hx with
    | read hr =>
      have hc : s.closing = false :=
        Bool.eq_false_iff.mpr fun hc => Bool.eq_false_iff.mp (not_reading h hc) hr
      cases mode with
      | block => exact (hopen hc).read_goesWrong hrun ha ht
      | queue =>
        obtain ⟨hpos, hne⟩ := Classical.not_imp.mp ha
        exact (hopen hc).number_goesWrong hrun hc hpos hne ht
    | work =>
      obtain ⟨hc, hspares⟩ := Classical.not_imp.mp ha
      obtain ⟨hfree, -⟩ := onWorkSubmitted_cases ht
      exact (hopen hc).work_goesWrong ⟨hrun, hc, hfree⟩ hspares ht
    | readNone | readEnd | workCompleted | drain | sentResponse | sendFailed | closed =>
      exact absurd trivial ha

/-- The client sends `2` and then `4`, which is read before a thread has taken the first request. -/
def pipelinedQueueRun : List Label := [
  .read [0x32, 0x0a] true, .read [0x34, 0x0a] true, .work, .work,
  .workCompleted true true, .workCompleted true true, .drain 10, .drain 10]

/-- The same in mode `BLOCK`, where `4` is read before the first response has gone out. -/
def pipelinedBlockRun : List Label := [
  .read [0x32, 0x0a] true, .read [0x34, 0x0a] true, .drain 6, .drain 10]

/-- In neither mode is the first answer `prime`. -/
theorem prime_answers_pipelinedRun :
    (∃ s, (uvPrime .queue zeroPeer).Reach Machine.anyStep s ∧ s.halted = none ∧
      s.chunks = [[0x32, 0x0a], [0x34, 0x0a]] ∧
      s.stream.sent = bytes "composite\ncomposite\n" ∧ ¬s.stream.sent <+: answers s.chunks) ∧
    (∃ s, (uvPrime .block zeroPeer).Reach Machine.anyStep s ∧ s.halted = none ∧
      s.chunks = [[0x32, 0x0a], [0x34, 0x0a]] ∧
      s.stream.sent = bytes "composcomposite\n" ∧ ¬s.stream.sent <+: answers s.chunks) := by
  have hqueue : ((uvPrime .queue zeroPeer).run (onPeerConnected zeroPeer) pipelinedQueueRun).map
      (fun s => (s.halted, s.chunks, s.stream.sent)) =
      some (none, [[0x32, 0x0a], [0x34, 0x0a]], bytes "composite\ncomposite\n") := by
    decide +kernel
  have hblock : ((uvPrime .block zeroPeer).run (onPeerConnected zeroPeer) pipelinedBlockRun).map
      (fun s => (s.halted, s.chunks, s.stream.sent)) =
      some (none, [[0x32, 0x0a], [0x34, 0x0a]], bytes "composcomposite\n") := by
    decide +kernel
  constructor
  · obtain ⟨s, hs, hp⟩ := Machine.reach_of_run hqueue
    simp only [Prod.mk.injEq] at hp
    obtain ⟨h1, h2, h3⟩ := hp
    refine ⟨s, hs, h1, h2, h3, ?_⟩
    rw [h2, h3]
    decide +kernel
  · obtain ⟨s, hs, hp⟩ := Machine.reach_of_run hblock
    simp only [Prod.mk.injEq] at hp
    obtain ⟨h1, h2, h3⟩ := hp
    refine ⟨s, hs, h1, h2, h3, ?_⟩
    rw [h2, h3]
    decide +kernel

end KoScripts.Servers.UvPrime
