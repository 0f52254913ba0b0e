import Mathlib.NumberTheory.LucasLehmer
import KoScripts.Servers.UvPrimePending

/-! # The prime client and its server

`client` of `prime_client.py` sends its request with one `send`, takes what one `recv` returns and
closes, on a connection to the prime server. It closes when it has the beginning of an answer. The
peer state is then as good as released, and the server is right to count on it if the request has
been read in one piece. -/

namespace KoScripts.Clients.PrimeClient
open Lib Servers Uv UvPrime

/-- `b'2305843009213693951@'` -/
def request : List UInt8 := bytes "2305843009213693951@"

def bufsize : Nat := 8 * 1024

/-- Where `client` is, with the value of `buf` from the `recv` on. -/
inductive Client
  | send
  | recv
  | close (buf : List UInt8)
  | closed (buf : List UInt8)

def Client.buf : Client → Option (List UInt8)
  | .send | .recv => none
  | .close buf | .closed buf => some buf

def Client.isClosed : Client → Bool
  | .closed _ => true
  | _ => false

structure System where
  client : Client
  conn : Conn
  /-- Sent by the client and not yet read. -/
  upstream : List UInt8

inductive Label
  /-- `send` accepts `n` bytes. -/
  | send (n : Nat)
  /-- `recv` returns `n` bytes. -/
  | recv (n : Nat)
  | close
  | server (a : UvPrime.Label)

/-- The bytes that a callback takes from the client's stream. -/
def taken : UvPrime.Label → List UInt8
  | .read chunk _ => chunk
  | _ => []

namespace System
variable (s : System)

/-- Bytes have been sent to the client that it has not taken before it closed. -/
def reset : Bool :=
  s.client.isClosed && s.client.buf.any fun buf => buf.length < s.conn.stream.sent.length

/-- What the network lets the server see. -/
def permits : UvPrime.Label → Bool
  | .read chunk _ => chunk.isPrefixOf s.upstream
  | .readEnd => s.client.isClosed && (s.upstream = [] || s.reset)
  | .sendFailed => s.conn.closing || s.reset
  | _ => true

def exec (mode : Mode) : Label → Option System
  | .send n =>
    match s.client with
    | .send =>
      if 1 ≤ n ∧ n ≤ request.length then
        some { s with client := .recv, upstream := request.take n }
      else none
    | _ => none
  | .recv n =>
    match s.client with
    | .recv =>
      -- `b''` if the process of the server has ended
      if n ≤ s.conn.stream.sent.length ∧ n ≤ bufsize ∧
          (n = 0 → s.conn.stream.sent = [] ∧ s.conn.halted.isSome) then
        some { s with client := .close (s.conn.stream.sent.take n) }
      else none
    | _ => none
  | .close =>
    match s.client with
    | .close buf => some { s with client := .closed buf }
    | _ => none
  | .server a =>
    if s.permits a then
      (UvPrime.exec mode s.conn a).map fun conn => { s with
        conn
        upstream := s.upstream.drop (taken a).length }
    else none

end System

/-- The client has connected, and `on_peer_connected` has accepted it. -/
def system (mode : Mode) (peer : PeerState) : Machine System Label :=
  ⟨⟨.send, onPeerConnected peer, []⟩, fun s a => s.exec mode a⟩

variable {s t : System} {a : Label} {G : System → Label → Prop} {mode : Mode} {peer : PeerState}

/-! ## What a step does -/

inductive Step (mode : Mode) (s : System) : Label → System → Prop
  | send {n : Nat} : s.client = .send → n ≤ request.length →
    Step mode s (.send n) { s with client := .recv, upstream := request.take n }
  | recv {n : Nat} : s.client = .recv → (s.conn.halted = none → s.conn.stream.sent.take n ≠ []) →
    Step mode s (.recv n) { s with client := .close (s.conn.stream.sent.take n) }
  | close {buf : List UInt8} : s.client = .close buf →
    Step mode s .close { s with client := .closed buf }
  | server {a : UvPrime.Label} {conn : Conn} : s.permits a = true →
    UvPrime.exec mode s.conn a = some conn → Step mode s (.server a) { s with
      conn
      upstream := s.upstream.drop (taken a).length }

theorem step_of_exec (h : s.exec mode a = some t) : Step mode s a t := by
  cases a with
  | send n =>
    rw [System.exec] at h
    split at h
    · next hclient =>
      obtain ⟨⟨-, hle⟩, h⟩ := Option.ite_none_right_eq_some.mp h
      cases h
      exact .send hclient hle
    · cases h
  | recv n =>
    rw [System.exec] at h
    split at h
    · next hclient =>
      obtain ⟨⟨hle, -, hzero⟩, h⟩ := Option.ite_none_right_eq_some.mp h
      cases h
      refine .recv hclient fun hrun htake => ?_
      -- The process goes on, so that `recv` waits for a byte.
      rcases Nat.eq_zero_or_pos n with hn | hn
      · have hhalted := (hzero hn).2
        rw [hrun] at hhalted
        cases hhalted
      · have hlen := congrArg List.length htake
        rw [List.length_take, Nat.min_eq_left hle, List.length_nil] at hlen
        omega
    · cases h
  | close =>
    rw [System.exec] at h
    split at h
    · next hclient =>
      cases h
      exact .close hclient
    · cases h
  | server a =>
    obtain ⟨hpermits, h⟩ := Option.ite_none_right_eq_some.mp h
    obtain ⟨conn, hconn, rfl⟩ := Option.map_eq_some_iff.mp h
    exact .server hpermits hconn

/-- What holds of the steps of the server makes a run of the connection by itself. -/
theorem reach_conn {G' : Conn → UvPrime.Label → Prop} (h : (system mode peer).Reach G s)
    (hG : ∀ {s t a}, (system mode peer).Reach G s → G s (.server a) → s.permits a = true →
      UvPrime.exec mode s.conn a = some t → G' s.conn a) : (uvPrime mode peer).Reach G' s.conn := by
  induction h with
  | init => exact .init
  | step hr hg hx ih =>
    cases step_of_exec hx with
    | send | recv | close => exact ih
    | server hpermits hconn => exact .step ih (hG hr hg hpermits hconn) hconn

theorem reach_conn_any (h : (system mode peer).Reach G s) :
    (uvPrime mode peer).Reach Machine.anyStep s.conn := reach_conn h fun _ _ _ _ => trivial

/-! ## A request read in one piece -/

/-- The server reads once. -/
def OneRead (s : System) : Label → Prop
  | .server a => FirstRead s.conn a
  | _ => True

/-- What `client` has got is the beginning of what has been sent, and not nothing as long as the
server is there. The server closes behind it. -/
structure Heard (s : System) : Prop where
  isPrefix : ∀ buf ∈ s.client.buf, buf <+: s.conn.stream.sent
  ne_nil : s.conn.halted = none → ∀ buf ∈ s.client.buf, buf ≠ []
  closing : s.conn.closing = true → s.client.isClosed = true

theorem closing_of_permits {c d : Conn} {a : UvPrime.Label} (hx : UvPrime.exec mode c a = some d)
    (hd : d.closing = true) : c.closing = true ∨ a = .readEnd := by
  cases UvPrime.step_of_exec hx with
  | readEnd => exact .inr rfl
  | read => exact .inl (onPeerRead_frame.1 ▸ hd)
  | work => exact .inl (onWorkSubmitted_frame.1 ▸ hd)
  | workCompleted => exact .inl (onWorkCompleted_frame.1 ▸ hd)
  | readNone | drain | sentResponse | sendFailed | closed => exact .inl hd

theorem heard_of_reach (h : (system mode peer).Reach G s) : Heard s := by
  refine h.invariant ⟨nofun, nofun, nofun⟩ ?_
  intro s t a hi _ hx
  cases step_of_exec hx with
  | send hclient =>
    refine ⟨nofun, nofun, fun hc => ?_⟩
    have hclosed := hi.closing hc
    rw [hclient] at hclosed
    cases hclosed
  | recv hclient htake =>
    refine ⟨fun buf hbuf => ?_, fun hrun buf hbuf => ?_, fun hc => ?_⟩
    · cases hbuf
      exact List.take_prefix _ _
    · cases hbuf
      exact htake hrun
    · have hclosed := hi.closing hc
      rw [hclient] at hclosed
      cases hclosed
  | @close buf hclient =>
    have hbuf {buf' : List UInt8} (h : buf' ∈ some buf) : buf' ∈ s.client.buf := by
      rw [hclient]
      exact h
    exact ⟨fun buf' h => hi.isPrefix buf' (hbuf h), fun hrun buf' h => hi.ne_nil hrun buf' (hbuf h),
      fun _ => rfl⟩
  | server hpermits hconn =>
    refine ⟨fun buf hbuf => (hi.isPrefix buf hbuf).trans (sent_of_exec hconn), fun _ => ?_, ?_⟩
    · exact hi.ne_nil (UvPrime.not_halted_of_exec hconn)
    · intro hd
      rcases closing_of_permits hconn hd with hc | rfl
      · exact hi.closing hc
      · exact (Bool.and_eq_true_iff.mp hpermits).1

theorem single_of_reach (h : (system mode peer).Reach OneRead s) :
    s.conn.halted = none → Single s.conn := by
  refine h.invariant_with (J := fun s => s.conn.closing = true → s.conn.reading = false)
    (I := fun s => s.conn.halted = none → Single s.conn)
    (fun hr => not_reading (reach_conn_any hr)) (fun _ => single_init) ?_
  intro s t a hclosing hi hg hx hrun
  cases step_of_exec hx with
  | send | recv | close => exact hi hrun
  | server _ hconn =>
    exact (hi (UvPrime.not_halted_of_exec hconn)).of_exec hclosing hg hconn hrun

/-- The close callback comes when the client has an answer, and then no work item is left. -/
theorem closedIdle_of_reach {conn : Conn} {b : UvPrime.Label}
    (h : (system mode peer).Reach OneRead s) (hx : UvPrime.exec mode s.conn b = some conn) :
    ClosedIdle s.conn b := by
  cases UvPrime.step_of_exec hx with
  | closed hclosing =>
    have hrun := UvPrime.not_halted_of_exec hx
    obtain ⟨hpre, hne, hclosed⟩ := heard_of_reach h
    have hbuf : ∃ buf, buf ∈ s.client.buf := by
      have hisClosed := hclosed hclosing
      cases hclient : s.client with
      | closed buf => exact ⟨buf, rfl⟩
      | send | recv | close =>
        rw [hclient] at hisClosed
        cases hisClosed
    obtain ⟨buf, hbuf⟩ := hbuf
    have hsent : s.conn.stream.sent ≠ [] := fun hnil => by
      have hp := hpre buf hbuf
      rw [hnil] at hp
      exact hne hrun buf hbuf (List.prefix_nil.mp hp)
    have hleft : ¬0 < s.conn.queued + s.conn.computed := fun hpos =>
      hsent ((single_of_reach h hrun).waits hpos)
    exact ⟨by omega, by omega⟩
  | read | readNone | readEnd | work | workCompleted | drain | sentResponse | sendFailed => trivial

theorem isprime_request : isprime (parseNumber 0 request) = true := by
  have hparse : parseNumber 0 request = 2305843009213693951 := by decide +kernel
  have hprime : (mersenne 61).Prime := lucas_lehmer_sufficiency 61 (by norm_num) (by norm_num)
  rw [hparse, UvPrime.isprime_iff]
  exact .inr hprime

/-- The server does not use what it has released, and `client` gets the beginning of the answer. -/
theorem safe_of_reach (h : (system mode peer).Reach OneRead s) :
    s.conn.halted ≠ some .fault ∧ ∀ buf ∈ s.client.buf, buf <+: answers s.conn.chunks := by
  have hidle : (uvPrime mode peer).Reach ClosedIdle s.conn :=
    reach_conn h fun hr _ _ hx => closedIdle_of_reach hr hx
  have hapart : (uvPrime mode peer).Reach (NoInterference mode) s.conn :=
    reach_conn h fun hr hg _ hx =>
      (single_of_reach hr (UvPrime.not_halted_of_exec hx)).noInterference hg hx
  refine ⟨?_, fun buf hbuf => ?_⟩
  · have halive : Alive s.conn := hidle.invariant_with not_reading alive_init
      fun hclosing hi hg hx => hi.exec hclosing hg hx
    exact halive.halted
  · exact ((heard_of_reach h).isPrefix buf hbuf).trans (sound_of_reach hapart).isPrefix

/-! ## A request read in pieces -/

/-- The system can go on from one state to the other. -/
def GoesOn (peer : PeerState) (s t : System) : Prop :=
  ∃ as, (system .queue peer).run s as = some t

theorem GoesOn.refl (s : System) : GoesOn peer s s := ⟨[], rfl⟩

theorem GoesOn.trans {u : System} (h : GoesOn peer s t) (h' : GoesOn peer t u) :
    GoesOn peer s u := by
  obtain ⟨as, has⟩ := h
  obtain ⟨bs, hbs⟩ := h'
  exact ⟨as ++ bs, (Machine.run_append has).trans hbs⟩

theorem GoesOn.of_exec (h : s.exec .queue a = some t) : GoesOn peer s t :=
  ⟨[a], Machine.run_cons_of_exec h⟩

theorem exec_server {b : UvPrime.Label} {conn : Conn} (hpermits : s.permits b = true)
    (h : UvPrime.exec mode s.conn b = some conn) : s.exec mode (.server b) = some { s with
      conn
      upstream := s.upstream.drop (taken b).length } := by
  rw [System.exec, if_pos hpermits, h]
  rfl

/-- The request is read to its end. -/
theorem goesOn_read (peer : PeerState) (hopen : s.conn.Open) (hreading : s.conn.reading = true) :
    ∃ conn, GoesOn peer s { s with conn, upstream := [] } ∧ conn.Open ∧ conn.reading = true ∧
      conn.stream = s.conn.stream ∧
        s.conn.queued + s.conn.computed ≤ conn.queued + conn.computed := by
  by_cases hnil : s.upstream = []
  · refine ⟨s.conn, ?_, hopen, hreading, rfl, Nat.le_refl _⟩
    rw [← hnil]
    exact .refl s
  · have hx : UvPrime.exec .queue s.conn (.read s.upstream true) =
        some (s.conn.onPeerRead .queue s.upstream true) := by
      simp only [UvPrime.exec, hopen.halted, hreading, hnil, Option.isSome_none, Bool.false_eq_true,
        if_false, ne_eq, not_false_eq_true, and_self, if_true]
    have hpermits : s.permits (.read s.upstream true) = true :=
      List.isPrefixOf_iff_prefix.mpr (List.prefix_refl s.upstream)
    have hread := exec_server hpermits hx
    rw [taken, List.drop_length, hopen.onPeerRead_queue] at hread
    refine ⟨_, .of_exec hread, ⟨hopen.halted, hopen.closing, hopen.released⟩, hreading, rfl, ?_⟩
    simp only
    omega

/-- All that is queued goes out. -/
theorem goesOn_flush (peer : PeerState) (hopen : s.conn.Open)
    (hoff : ∀ w ∈ s.conn.stream.queue, w.off < w.len) : ∃ done sent,
    GoesOn peer s { s with conn := { s.conn with stream := ⟨[], done, sent⟩ } } := by
  obtain ⟨ks, hks⟩ := Stream.flush s.conn.peer.sendbuf hoff
  have hdrain : ∀ {stream k stream'}, Stream.drain s.conn.peer.sendbuf k stream = some stream' →
      (system .queue peer).exec { s with conn := { s.conn with stream } } (.server (.drain k)) =
        some { s with conn := { s.conn with stream := stream' } } := by
    intro stream k stream' hd
    refine exec_server (b := .drain k) rfl ?_
    simp only [UvPrime.exec, hopen.halted, hopen.closing, hd, Option.isSome_none,
      Bool.false_eq_true, if_false, Option.map_some]
  exact ⟨_, _, _, Machine.run_map hdrain hks⟩

/-- The callbacks of the writes that have gone out are called. -/
theorem goesOn_callbacks (peer : PeerState) (hrun : s.conn.halted = none) {done : List Unit}
    (hdone : s.conn.stream.done = done) : GoesOn peer s { s with
      conn := { s.conn with stream := { s.conn.stream with done := [] } } } := by
  induction done generalizing s with
  | nil =>
    rw [← hdone]
    exact .refl s
  | cons _ done ih =>
    have hx : UvPrime.exec .queue s.conn .sentResponse =
        some { s.conn with stream := { s.conn.stream with done } } := by
      simp only [UvPrime.exec, hrun, hdone, Option.isSome_none, Bool.false_eq_true, if_false]
    exact (GoesOn.of_exec (exec_server (b := .sentResponse) rfl hx)).trans (ih hrun rfl)

theorem goesOn_close (peer : PeerState) {buf : List UInt8} (h : s.client.buf = some buf) :
    GoesOn peer s { s with client := .closed buf } := by
  obtain ⟨client, conn, upstream⟩ := s
  cases client with
  | send | recv => cases h
  | close buf =>
    cases h
    exact .of_exec (a := .close) rfl
  | closed buf =>
    cases h
    exact .refl _

/-- The server reads the end of the stream and releases the peer state of a work item. -/
theorem fault_of_idle (peer : PeerState) (hclient : s.client.isClosed = true)
    (hupstream : s.upstream = []) (hopen : s.conn.Open) (hreading : s.conn.reading = true)
    (hidle : s.conn.stream.Idle) (hleft : 0 < s.conn.queued + s.conn.computed) :
    ∃ t, GoesOn peer s t ∧ t.conn.halted = some .fault := by
  have hend : UvPrime.exec .queue s.conn .readEnd =
      some { s.conn with reading := false, closing := true } := by
    simp only [UvPrime.exec, hopen.halted, hreading, Option.isSome_none, Bool.false_eq_true,
      if_false, if_true]
  have hclosed : UvPrime.exec .queue { s.conn with reading := false, closing := true } .closed =
      some { s.conn with reading := false, closing := true, released := true } := by
    simp only [UvPrime.exec, hopen.halted, hopen.released, hidle, Option.isSome_none,
      Bool.false_eq_true, if_false, not_false_eq_true, and_self, if_true]
  obtain ⟨a, d, ha, hx, hfault⟩ : ∃ a d, (a = .work ∨ a = .workCompleted true true) ∧
      UvPrime.exec .queue { s.conn with reading := false, closing := true, released := true } a =
        some d ∧ d.halted = some .fault :=
    fault_of_released (s := { s.conn with reading := false, closing := true, released := true })
      hopen.halted rfl fun hnone => Nat.ne_of_gt hleft (Nat.add_eq_zero_iff.mpr hnone)
  have hpermitsEnd : s.permits .readEnd = true := by
    simp only [System.permits, hclient, hupstream, decide_true, Bool.true_or, Bool.and_self]
  have hpermits : System.permits { s with
      conn := { s.conn with reading := false, closing := true, released := true } } a = true := by
    rcases ha with rfl | rfl <;> rfl
  exact ⟨_, (GoesOn.of_exec (exec_server hpermitsEnd hend)).trans
    ((GoesOn.of_exec (exec_server (b := .closed) rfl hclosed)).trans
      (.of_exec (exec_server hpermits hx))), hfault⟩

/-- The connection is read from, and what it has to do makes for bytes to be sent. -/
structure Live (c : Conn) : Prop extends c.Open where
  reading : c.reading = true
  going : Going c
  left : 0 < c.queued + c.computed

/-- The client closes, and the server releases the peer state when all has gone out. -/
theorem Live.fault (h : Live s.conn) (peer : PeerState) {buf : List UInt8}
    (hbuf : s.client.buf = some buf) : ∃ t, GoesOn peer s t ∧ t.conn.halted = some .fault := by
  obtain ⟨conn, hread, hopen, hreading, hstream, hleft⟩ := goesOn_read peer h.toOpen h.reading
  have hclose : GoesOn peer { s with conn, upstream := [] } ⟨.closed buf, conn, []⟩ :=
    goesOn_close peer hbuf
  obtain ⟨done, sent, hflush⟩ : ∃ done sent, GoesOn peer ⟨.closed buf, conn, []⟩
      ⟨.closed buf, { conn with stream := ⟨[], done, sent⟩ }, []⟩ :=
    goesOn_flush peer hopen fun w hw => (h.going.writes w (hstream ▸ hw)).1
  have hcallbacks : GoesOn peer ⟨.closed buf, { conn with stream := ⟨[], done, sent⟩ }, []⟩
      ⟨.closed buf, { conn with stream := ⟨[], [], sent⟩ }, []⟩ :=
    goesOn_callbacks peer hopen.halted rfl
  have hfault : ∃ t, GoesOn peer ⟨.closed buf, { conn with stream := ⟨[], [], sent⟩ }, []⟩ t ∧
      t.conn.halted = some .fault :=
    fault_of_idle peer rfl rfl ⟨hopen.halted, hopen.closing, hopen.released⟩ hreading ⟨rfl, rfl⟩
      (Nat.lt_of_lt_of_le h.left hleft)
  obtain ⟨t, ht, hhalted⟩ := hfault
  exact ⟨t, hread.trans (hclose.trans (hflush.trans (hcallbacks.trans ht))), hhalted⟩

/-- A work item that has run becomes a write. -/
theorem Live.complete (h : Live s.conn) (peer : PeerState) (hcomputed : 0 < s.conn.computed)
    (htwo : 2 ≤ s.conn.queued + s.conn.computed) :
    ∃ conn, GoesOn peer s { s with conn } ∧ Live conn ∧ conn.stream.queue ≠ [] := by
  have hx := exec_workCompleted .queue h.toOpen hcomputed
  have hgoing := h.going.of_exec (fun hc => absurd hc (Bool.eq_false_iff.mp h.closing)) hx h.halted
  refine ⟨_, .of_exec (exec_server (b := .workCompleted true true) rfl hx),
    ⟨⟨h.halted, h.closing, h.released⟩, h.reading, hgoing, ?_⟩, ?_⟩
  · simp only
    omega
  · exact List.concat_ne_nil _ _

/-- A work item becomes a write. -/
theorem Live.compute (h : Live s.conn) (peer : PeerState)
    (htwo : 2 ≤ s.conn.queued + s.conn.computed) :
    ∃ conn, GoesOn peer s { s with conn } ∧ Live conn ∧ conn.stream.queue ≠ [] := by
  rcases Nat.eq_zero_or_pos s.conn.computed with hzero | hpos
  · have hqueued : 0 < s.conn.queued := by omega
    obtain ⟨q, -, hx⟩ := exec_work .queue h.toOpen hqueued
    have hgoing := h.going.of_exec (fun hc => absurd hc (Bool.eq_false_iff.mp h.closing)) hx
      h.halted
    have hlive : Live { s.conn with
        peer := q
        queued := s.conn.queued - 1
        computed := s.conn.computed + 1 } :=
      ⟨⟨h.halted, h.closing, h.released⟩, h.reading, hgoing, by simp only; omega⟩
    obtain ⟨conn, hgoes, hlive', hne⟩ := Live.complete (s := { s with conn := { s.conn with
        peer := q
        queued := s.conn.queued - 1
        computed := s.conn.computed + 1 } }) hlive peer (Nat.succ_pos _) (by simp only; omega)
    exact ⟨conn, (GoesOn.of_exec (exec_server (b := .work) rfl hx)).trans hgoes, hlive', hne⟩
  · exact h.complete peer hpos htwo

/-- The first write goes out. -/
theorem Live.drain (h : Live s.conn) (peer : PeerState) (hqueue : s.conn.stream.queue ≠ []) :
    ∃ conn, GoesOn peer s { s with conn } ∧ Live conn ∧ conn.stream.sent ≠ [] := by
  obtain ⟨w, ws, hq⟩ := List.exists_cons_of_ne_nil hqueue
  obtain ⟨hoff, hlen⟩ := h.going.writes w (hq ▸ List.mem_cons_self)
  have hd := Stream.drain_first s.conn.peer.sendbuf hq hoff
  have hx : UvPrime.exec .queue s.conn (.drain (w.len - w.off)) = some { s.conn with
      stream := ⟨ws, s.conn.stream.done ++ [w.cb],
        s.conn.stream.sent ++ slice s.conn.peer.sendbuf w.off w.len⟩ } := by
    simp only [UvPrime.exec, h.halted, h.closing, hd, Option.isSome_none, Bool.false_eq_true,
      if_false, Option.map_some]
  refine ⟨_, .of_exec (exec_server (b := .drain _) rfl hx), ⟨⟨h.halted, h.closing, h.released⟩,
    h.reading, h.going.drain hd, h.left⟩, fun hsent => ?_⟩
  exact slice_ne_nil hoff hlen (List.append_eq_nil_iff.mp hsent).2

/-- An answer goes out, and a work item is left behind it. -/
theorem Live.answer (h : Live s.conn) (peer : PeerState) (htwo : 2 ≤ s.conn.chunks.length) :
    ∃ conn, GoesOn peer s { s with conn } ∧ Live conn ∧ conn.stream.sent ≠ [] := by
  by_cases hsent : s.conn.stream.sent = []
  · by_cases hqueue : s.conn.stream.queue = []
    · have hle := h.going.unanswered hsent
      rw [hqueue, List.length_nil] at hle
      obtain ⟨conn, hgoes, hlive, hne⟩ := h.compute peer (by omega)
      obtain ⟨conn', hgoes', hlive', hsent'⟩ :=
        Live.drain (s := { s with conn }) hlive peer hne
      exact ⟨conn', hgoes.trans hgoes', hlive', hsent'⟩
    · exact h.drain peer hqueue
  · exact ⟨s.conn, .refl s, h, hsent⟩

/-- The client takes the first byte of the answer. -/
theorem goesOn_recv (peer : PeerState) (hclient : s.client = .recv)
    (hsent : s.conn.stream.sent ≠ []) :
    GoesOn peer s { s with client := .close (s.conn.stream.sent.take 1) } := by
  have hlen : 1 ≤ s.conn.stream.sent.length := List.length_pos_iff.mpr hsent
  refine .of_exec (a := .recv 1) ?_
  rw [System.exec, hclient]
  exact if_pos ⟨hlen, by decide, nofun⟩

theorem going_of_reach (h : (system mode peer).Reach G s) :
    s.conn.halted = none → Going s.conn := by
  refine h.invariant_with (J := fun s => s.conn.closing = true → s.conn.reading = false)
    (I := fun s => s.conn.halted = none → Going s.conn)
    (fun hr => not_reading (reach_conn_any hr)) (fun _ => going_init) ?_
  intro s t a hclosing hi _ hx hrun
  cases step_of_exec hx with
  | send | recv | close => exact hi hrun
  | server _ hconn => exact (hi (UvPrime.not_halted_of_exec hconn)).of_exec hclosing hconn hrun

/-- Nothing is read before it has been sent. -/
theorem upstream_of_reach (h : (system mode peer).Reach G s) :
    s.client = .send → s.upstream = [] := by
  refine h.invariant (I := fun s => s.client = .send → s.upstream = []) (fun _ => rfl) ?_
  intro s t a hi _ hx hclient
  cases step_of_exec hx with
  | send | recv | close => cases hclient
  | server =>
    simp only [hi hclient, List.drop_nil]

theorem live_of_read {chunk : List UInt8} {ok : Bool} {d : Conn}
    (h : (system .queue peer).Reach G s) (hnext : s.conn.chunks ≠ [])
    (hx : UvPrime.exec .queue s.conn (.read chunk ok) = some d) (hd : d.halted = none) :
    Live d ∧ 2 ≤ d.chunks.length := by
  have hrun := UvPrime.not_halted_of_exec hx
  have hclosing := not_reading (reach_conn_any h)
  have hgoing := (going_of_reach h hrun).of_exec hclosing hx hd
  cases UvPrime.step_of_exec hx with
  | read hr =>
    obtain ⟨hreleased, rfl⟩ := released_of_onPeerRead_queue hd
    have hopen : s.conn.Open :=
      ⟨hrun, Bool.eq_false_iff.mpr fun hc => Bool.eq_false_iff.mp (hclosing hc) hr, hreleased⟩
    rw [hopen.onPeerRead_queue] at hgoing ⊢
    refine ⟨⟨⟨hrun, hopen.closing, hreleased⟩, hr, hgoing, ?_⟩, ?_⟩
    · simp only
      omega
    · have hpos := List.length_pos_iff.mpr hnext
      simp only [List.length_append, List.length_singleton]
      omega

/-- A second read makes for a second work item, and the client waits for one answer only. -/
theorem Live.fault_of_two (h : Live s.conn) (peer : PeerState) (htwo : 2 ≤ s.conn.chunks.length)
    (hsent : s.client ≠ .send) : ∃ t, GoesOn peer s t ∧ t.conn.halted = some .fault := by
  cases hclient : s.client with
  | send => exact absurd hclient hsent
  | recv =>
    obtain ⟨conn, hgoes, hlive, hne⟩ := h.answer peer htwo
    have hrecv : GoesOn peer { s with conn } { s with
        conn
        client := .close (conn.stream.sent.take 1) } := goesOn_recv peer hclient hne
    obtain ⟨t, ht, hfault⟩ := Live.fault (s := { s with
      conn
      client := .close (conn.stream.sent.take 1) }) hlive peer rfl
    exact ⟨t, hgoes.trans (hrecv.trans ht), hfault⟩
  | close buf | closed buf => exact h.fault peer (congrArg Client.buf hclient)

theorem fault_of_second_read {chunk : List UInt8} {ok : Bool}
    (h : (system .queue peer).Reach G s) (hnext : s.conn.chunks ≠ [])
    (hx : s.exec .queue (.server (.read chunk ok)) = some t) (ht : t.conn.halted = none) :
    ∃ u, GoesOn peer t u ∧ u.conn.halted = some .fault := by
  cases step_of_exec hx with
  | server hpermits hconn =>
    obtain ⟨hlive, htwo⟩ := live_of_read h hnext hconn ht
    refine Live.fault_of_two hlive peer htwo fun hclient => ?_
    -- Before the request is sent there is nothing to be read.
    have hpre := List.isPrefixOf_iff_prefix.mp hpermits
    rw [upstream_of_reach h hclient, List.prefix_nil] at hpre
    cases UvPrime.step_of_exec hconn with
    | read _ hne => exact hne hpre

/-- If the server reads once, then it does not use what it has released, and the client gets the
beginning of the answer to what has been read, which is `prime` if that is the request. And after
any second read the server, unless it has ended, can go on to use what it has released. -/
theorem served_iff_one_read (mode : Mode) (peer : PeerState) :
    (∀ s, (system mode peer).Reach OneRead s → s.conn.halted ≠ some .fault ∧
      ∀ buf ∈ s.client.buf, buf <+: answers s.conn.chunks ∧
        (s.conn.chunks = [request] → buf <+: bytes "prime\n")) ∧
    (∀ s t a, (system .queue peer).Reach Machine.anyStep s → ¬OneRead s a →
      s.exec .queue a = some t → t.conn.halted = none →
        ∃ u, GoesOn peer t u ∧ u.conn.halted = some .fault) := by
  constructor
  · intro s h
    obtain ⟨hhalted, hbuf⟩ := safe_of_reach h
    refine ⟨hhalted, fun buf hmem => ⟨hbuf buf hmem, fun hchunks => ?_⟩⟩
    have hpre := hbuf buf hmem
    rw [hchunks, answers, List.flatMap_singleton, isprime_request] at hpre
    exact hpre
  · intro s t a h hsecond hx ht
    cases a with
    | send | recv | close => exact absurd trivial hsecond
    | server a =>
      cases a with
      | read chunk ok => exact fault_of_second_read h hsecond hx ht
      | readNone | readEnd | work | workCompleted | drain | sentResponse | sendFailed | closed =>
        exact absurd trivial hsecond

/-- The digit 2 is read, answered and taken by the client before the rest of the request. -/
def piecesRun : List Label := [
  .send 20, .server (.read (request.take 1) true), .server .work,
  .server (.workCompleted true true), .server (.drain 6), .server .sentResponse, .recv 6, .close,
  .server (.read (request.drop 1) true), .server .readEnd, .server .closed, .server .work]

example : ((system .queue zeroPeer).run (system .queue zeroPeer).init piecesRun).map
    (fun s => (s.client.buf, s.conn.halted)) = some (some (bytes "prime\n"), some .fault) := by
  decide +kernel

end KoScripts.Clients.PrimeClient
