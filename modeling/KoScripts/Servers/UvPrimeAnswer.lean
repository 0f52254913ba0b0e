import KoScripts.Servers.UvPrimeInterference
import KoScripts.Servers.UvPrimeIsprime

/-! # The answer to a request

A request that comes alone is answered with what `isprime` says of its number modulo `2^64`, in
either mode. Below `2^64` that is right for every number but 1. -/

namespace KoScripts.Servers.UvPrime
open Lib Uv

variable {s t : Conn} {mode : Mode} {a : Label} {b : Bool} {digits rest sent : List UInt8}

/-! ## The number of a request -/

/-- A sequence of digits, and behind it nothing or a byte that is none. -/
structure Request where
  digits : List UInt8
  rest : List UInt8
  ne_nil : digits ≠ []
  isdigit_of_mem : ∀ c ∈ digits, isdigit c = true
  not_isdigit_head : ∀ c ∈ rest.head?, isdigit c = false

def Request.chunk (r : Request) : List UInt8 := r.digits ++ r.rest

/-- The number that a sequence of decimal digits denotes. -/
def denoted (digits : List UInt8) : Nat :=
  digits.foldl (fun n c => n * 10 + (c.toNat - '0'.toNat)) 0

theorem parseNumber_stop {number : UInt64} (h : ∀ c ∈ rest.head?, isdigit c = false) :
    parseNumber number rest = number := by
  cases rest with
  | nil => rfl
  | cons c cs =>
    rw [parseNumber, h c rfl]
    rfl

theorem digit_toUInt64 {c : UInt8} (h : isdigit c = true) :
    (c - '0'.toUInt8).toUInt64 = UInt64.ofNat (c.toNat - '0'.toNat) := by
  have hle : '0'.toUInt8 ≤ c := by simpa using (Bool.and_eq_true_iff.mp h).1
  apply UInt64.toNat_inj.mp
  have hlt := c.toNat_lt
  have hmod : (c.toNat - '0'.toNat) % 2 ^ 64 = c.toNat - '0'.toNat := Nat.mod_eq_of_lt (by omega)
  rw [UInt8.toNat_toUInt64, UInt8.toNat_sub_of_le _ _ hle, UInt64.toNat_ofNat', hmod]
  rfl

/-- The accumulator holds what the digits denote, modulo `2^64`. -/
theorem parseNumber_append (hd : ∀ c ∈ digits, isdigit c = true)
    (hr : ∀ c ∈ rest.head?, isdigit c = false) (n : Nat) :
    parseNumber (UInt64.ofNat n) (digits ++ rest) =
      UInt64.ofNat (digits.foldl (fun n c => n * 10 + (c.toNat - '0'.toNat)) n) := by
  induction digits generalizing n with
  | nil => exact parseNumber_stop hr
  | cons c cs ih =>
    have hc := hd c List.mem_cons_self
    rw [List.cons_append, parseNumber, if_pos hc, List.foldl_cons,
      ← ih (fun c' hc' => hd c' (List.mem_cons_of_mem c hc')), digit_toUInt64 hc,
      UInt64.ofNat_add, UInt64.ofNat_mul]
    rfl

theorem Request.parseNumber_chunk (r : Request) :
    (parseNumber 0 r.chunk).toNat = denoted r.digits % 2 ^ 64 := by
  have h := parseNumber_append r.isdigit_of_mem r.not_isdigit_head 0
  rw [Request.chunk, show (0 : UInt64) = UInt64.ofNat 0 from rfl, h]
  exact UInt64.toNat_ofNat'

theorem Request.chunk_ne_nil (r : Request) : r.chunk ≠ [] := by
  intro hc
  exact r.ne_nil (List.append_eq_nil_iff.mp hc).1

/-! ## The response -/

variable {chunk : List UInt8}

/-- A connection that is read from, with nothing pending. -/
structure Conn.Ready (s : Conn) : Prop extends s.Open where
  reading : s.reading = true
  queued : s.queued = 0
  computed : s.computed = 0
  queue : s.stream.queue = []

/-- No work item and no write is left. -/
structure Conn.Settled (s : Conn) : Prop where
  halted : s.halted = none
  queued : s.queued = 0
  computed : s.computed = 0
  queue : s.stream.queue = []

/-- The connection from a read on. -/
def afterRead (mode : Mode) (s : Conn) (chunk : List UInt8) : Machine Conn Label :=
  ⟨s.onPeerRead mode chunk true, exec mode⟩

def NothingRead : Conn → Label → Prop
  | _, .read .. => False
  | _, _ => True

/-- The bytes `bs` are what the chunk, read in `s`, is answered with, and nothing else, if no more
is read. -/
structure Responds (mode : Mode) (s : Conn) (chunk bs : List UInt8) : Prop where
  read : exec mode s (.read chunk true) = some (afterRead mode s chunk).init
  completes : ∃ t, (afterRead mode s chunk).Reach NothingRead t ∧ t.Settled
  sent : ∀ t, (afterRead mode s chunk).Reach NothingRead t → t.Settled →
    t.stream.sent = s.stream.sent ++ bs

/-- One request is under way, and its answer is `b`. -/
structure Answering (sent : List UInt8) (b : Bool) (s : Conn) : Prop where
  one : s.queued + s.computed + s.stream.queue.length ≤ 1
  total : s.stream.sent ++ unsent s.peer.sendbuf s.stream.queue ++
    (List.replicate s.computed s.peer.staged).flatten ++
    (List.replicate s.queued (response (isprime s.peer.number))).flatten = sent ++ response b

theorem Answering.settled (h : Answering sent b s) (hs : s.Settled) :
    s.stream.sent = sent ++ response b := by
  have htotal := h.total
  simpa [hs.queued, hs.computed, hs.queue] using htotal

theorem onWorkCompleted_cases {statusOk ok : Bool}
    (ht : (s.onWorkCompleted statusOk ok).halted = none) :
    s.onWorkCompleted statusOk ok = { s with
      computed := s.computed - 1
      stream := s.stream.write () s.peer.sendbufEnd } := by
  unfold Conn.onWorkCompleted Conn.writeResponse at ht ⊢
  split at ht
  · cases ht
  · next hstatus =>
    rw [if_neg hstatus]
    split at ht
    · cases ht
    · next hfree =>
      rw [if_neg hfree]
      split at ht
      · next hok => rw [if_pos hok]
      · cases ht

theorem Answering.work (h : Answering sent b s) (hpos : 0 < s.queued)
    (ht : s.onWorkSubmitted.halted = none) : Answering sent b s.onWorkSubmitted := by
  obtain ⟨-, q, hq, heq⟩ := onWorkSubmitted_cases ht
  have hone := h.one
  have hqueued : s.queued = 1 := by omega
  have hcomputed : s.computed = 0 := by omega
  have hqueue : s.stream.queue = [] := List.eq_nil_of_length_eq_zero (by omega)
  rw [heq]
  constructor
  · simp only
    omega
  · have htotal := h.total
    simp only [hqueued, hcomputed, hqueue, unsent_nil, List.append_nil, List.replicate_zero,
      List.replicate_one, List.flatten_nil, List.flatten_singleton, Nat.sub_self, Nat.zero_add,
      hq.staged] at htotal ⊢
    exact htotal

theorem Answering.workCompleted {statusOk ok : Bool} (h : Answering sent b s)
    (hpos : 0 < s.computed) (ht : (s.onWorkCompleted statusOk ok).halted = none) :
    Answering sent b (s.onWorkCompleted statusOk ok) := by
  have hone := h.one
  have hqueued : s.queued = 0 := by omega
  have hcomputed : s.computed = 1 := by omega
  have hqueue : s.stream.queue = [] := List.eq_nil_of_length_eq_zero (by omega)
  rw [onWorkCompleted_cases ht]
  constructor
  · simp only [Stream.write, hqueued, hcomputed, hqueue, List.nil_append, List.length_singleton]
    omega
  · have htotal := h.total
    simp only [Stream.write, hqueued, hcomputed, hqueue, unsent_nil, List.append_nil,
      List.nil_append, List.replicate_zero, List.replicate_one, List.flatten_nil,
      List.flatten_singleton, Nat.sub_self, unsent_singleton] at htotal ⊢
    exact htotal

theorem Answering.drain {k : Nat} {stream : Stream Unit} (h : Answering sent b s)
    (hd : s.stream.drain s.peer.sendbuf k = some stream) :
    Answering sent b { s with stream } where
  one := by
    have hone := h.one
    obtain ⟨w, ws, hq, -, hcases⟩ := Stream.drain_cases hd
    rw [hq, List.length_cons] at hone
    rcases hcases with ⟨-, rfl⟩ | ⟨-, rfl⟩
    · show s.queued + s.computed + ws.length ≤ 1
      omega
    · exact hone
  total := by
    simp only
    rw [Stream.drain_sent hd]
    exact h.total

/-- One case for each label but `read`. -/
theorem Answering.exec (h : Answering sent b s) (hg : NothingRead s a)
    (hx : exec mode s a = some t) (hrun : t.halted = none) : Answering sent b t := by
  cases step_of_exec hx with
  | read => exact absurd hg id
  | readNone => exact h
  | readEnd | sentResponse | closed => exact ⟨h.one, h.total⟩
  | work hpos => exact h.work hpos hrun
  | workCompleted hpos => exact h.workCompleted hpos hrun
  | drain _ hd => exact h.drain hd
  | sendFailed => cases hrun

/-! ## The two modes -/

theorem Conn.Ready.answering (h : s.Ready) (mode : Mode) (chunk : List UInt8) :
    Answering s.stream.sent (isprime (parseNumber 0 chunk)) (s.onPeerRead mode chunk true) := by
  cases mode with
  | block =>
    obtain ⟨q, hq, heq⟩ := h.onPeerRead_block chunk
    rw [heq]
    constructor
    · simp [Stream.write, h.queued, h.computed, h.queue]
    · simp only [Stream.write, h.queued, h.computed, h.queue, List.nil_append, unsent_singleton,
        List.replicate_zero, List.flatten_nil, List.append_nil]
      exact congrArg _ hq.staged
  | queue =>
    rw [h.onPeerRead_queue]
    constructor
    · simp [h.queued, h.computed, h.queue]
    · simp [h.queued, h.computed, h.queue]

theorem reach_exec {u : Conn} (ht : (afterRead mode s chunk).Reach NothingRead t)
    (hx : exec mode t a = some u) (hg : NothingRead t a) :
    (afterRead mode s chunk).Reach NothingRead u := .step ht hg hx

/-- The only write that is queued goes out. -/
theorem reach_settled {w : WriteReq Unit}
    (ht : (afterRead mode s chunk).Reach NothingRead t) (hopen : t.Open) (hqueued : t.queued = 0)
    (hcomputed : t.computed = 0) (hq : t.stream.queue = [w]) (hoff : w.off < w.len) :
    ∃ u, (afterRead mode s chunk).Reach NothingRead u ∧ u.Settled := by
  have hd := Stream.drain_first t.peer.sendbuf hq hoff
  have hx : exec mode t (.drain (w.len - w.off)) = some { t with
      stream := ⟨[], t.stream.done ++ [w.cb],
        t.stream.sent ++ slice t.peer.sendbuf w.off w.len⟩ } := by
    simp only [exec, hopen.halted, hopen.closing, hd, Option.isSome_none, Bool.false_eq_true,
      if_false, Option.map_some]
  exact ⟨_, reach_exec ht hx trivial, ⟨hopen.halted, hqueued, hcomputed, rfl⟩⟩

theorem Conn.Ready.completes (h : s.Ready) (mode : Mode) (chunk : List UInt8) :
    ∃ t, (afterRead mode s chunk).Reach NothingRead t ∧ t.Settled := by
  have hinit : (afterRead mode s chunk).Reach NothingRead (s.onPeerRead mode chunk true) := .init
  cases mode with
  | block =>
    obtain ⟨q, hq, heq⟩ := h.onPeerRead_block chunk
    rw [heq] at hinit
    refine reach_settled hinit ⟨h.halted, h.closing, h.released⟩ h.queued h.computed
      (w := ⟨(), q.sendbufEnd, 0⟩) ?_ ?_
    · simp only [Stream.write, h.queue, List.nil_append]
    · exact hq.fin ▸ length_response_pos
  | queue =>
    rw [h.onPeerRead_queue] at hinit
    obtain ⟨q, hq, hwork⟩ := exec_work .queue (s := { s with
      peer := { s.peer with number := parseNumber 0 chunk }
      chunks := s.chunks ++ [chunk]
      queued := s.queued + 1 }) ⟨h.halted, h.closing, h.released⟩ (Nat.succ_pos _)
    have hreach := reach_exec hinit hwork trivial
    have hcompleted := exec_workCompleted .queue (s := { s with
      peer := q
      chunks := s.chunks ++ [chunk]
      queued := s.queued + 1 - 1
      computed := s.computed + 1 }) ⟨h.halted, h.closing, h.released⟩ (Nat.succ_pos _)
    refine reach_settled (reach_exec hreach hcompleted trivial)
      ⟨h.halted, h.closing, h.released⟩ h.queued h.computed (w := ⟨(), q.sendbufEnd, 0⟩) ?_ ?_
    · simp only [Stream.write, h.queue, List.nil_append]
    · exact hq.fin ▸ length_response_pos

theorem Conn.Ready.responds (h : s.Ready) (mode : Mode) (hne : chunk ≠ []) :
    Responds mode s chunk (response (isprime (parseNumber 0 chunk))) where
  read := by
    show exec mode s (.read chunk true) = some (s.onPeerRead mode chunk true)
    simp only [exec, h.halted, h.reading, hne, Option.isSome_none, Bool.false_eq_true, if_false,
      ne_eq, not_false_eq_true, and_self, if_true]
  completes := h.completes mode chunk
  sent t ht hset := by
    have hinv : t.halted = none → Answering s.stream.sent (isprime (parseNumber 0 chunk)) t := by
      refine ht.invariant (I := fun t => t.halted = none →
        Answering s.stream.sent (isprime (parseNumber 0 chunk)) t)
        (fun _ => h.answering mode chunk) ?_
      intro u v a hi hg hx hrun
      exact (hi (not_halted_of_exec hx)).exec hg hx hrun
    exact (hinv hset.halted).settled hset

/-- There is one answer only. -/
theorem Responds.unique {bs bs' : List UInt8} (h : Responds mode s chunk bs)
    (h' : Responds mode s chunk bs') : bs = bs' := by
  obtain ⟨t, ht, hset⟩ := h.completes
  exact List.append_cancel_left ((h.sent t ht hset).symm.trans (h'.sent t ht hset))

theorem Conn.Ready.responds_iff (h : s.Ready) (mode : Mode) (hne : chunk ≠ []) {bs : List UInt8} :
    Responds mode s chunk bs ↔ bs = response (isprime (parseNumber 0 chunk)) := by
  constructor
  · intro hbs
    exact hbs.unique (h.responds mode hne)
  · rintro rfl
    exact h.responds mode hne

theorem response_inj {b' : Bool} : response b = response b' ↔ b = b' := by
  constructor
  · intro h
    exact response_length_inj (congrArg List.length h)
  · rintro rfl
    rfl

/-! ## The answer -/

theorem Request.isprime_iff (r : Request) : isprime (parseNumber 0 r.chunk) = true ↔
    denoted r.digits % 2 ^ 64 = 1 ∨ (denoted r.digits % 2 ^ 64).Prime := by
  rw [UvPrime.isprime_iff, ← UInt64.toNat_inj, r.parseNumber_chunk]
  exact Iff.rfl

/-- Every number, however long its digits, is answered as its remainder modulo `2^64` is, where 1
counts as a prime. -/
theorem Conn.Ready.responds_remainder (h : s.Ready) (r : Request) (mode : Mode) {bs : List UInt8} :
    Responds mode s r.chunk bs ↔
      bs = response
        (decide (denoted r.digits % 2 ^ 64 = 1 ∨ (denoted r.digits % 2 ^ 64).Prime)) := by
  have hprime : isprime (parseNumber 0 r.chunk) =
      decide (denoted r.digits % 2 ^ 64 = 1 ∨ (denoted r.digits % 2 ^ 64).Prime) := by
    rw [Bool.eq_iff_iff, decide_eq_true_iff, r.isprime_iff]
  rw [h.responds_iff mode r.chunk_ne_nil, hprime]

/-- A request that comes alone is answered in the same way in both modes, and below `2^64` with
whether its number is prime if and only if that number is not 1. -/
theorem prime_response (s : Conn) (r : Request) (h : s.Ready) :
    (∀ bs, Responds .block s r.chunk bs ↔ Responds .queue s r.chunk bs) ∧
    ∀ mode, denoted r.digits < 2 ^ 64 →
      (Responds mode s r.chunk (response (decide (denoted r.digits).Prime)) ↔
        denoted r.digits ≠ 1) := by
  constructor
  · intro bs
    rw [h.responds_remainder r .block, h.responds_remainder r .queue]
  · intro mode hlt
    rw [h.responds_remainder r mode, Nat.mod_eq_of_lt hlt, response_inj, Bool.eq_iff_iff,
      decide_eq_true_iff, decide_eq_true_iff]
    constructor
    · intro hiff hone
      exact Nat.not_prime_one (hone ▸ hiff.mpr (.inl hone))
    · intro hne
      exact ⟨.inr, fun hp => hp.resolve_left hne⟩

theorem ready_onPeerConnected (peer : PeerState) : (onPeerConnected peer).Ready where
  halted := rfl
  closing := rfl
  released := rfl
  reading := rfl
  queued := rfl
  computed := rfl
  queue := rfl

/-- A request of digits and a newline. -/
def lineRequest (digits : List UInt8) (hne : digits ≠ [])
    (hd : ∀ c ∈ digits, isdigit c = true) : Request where
  digits := digits
  rest := [0x0a]
  ne_nil := hne
  isdigit_of_mem := hd
  not_isdigit_head := by
    rintro c ⟨⟩
    rfl

def twoRequest : Request := lineRequest (bytes "2") (by decide) (List.all_eq_true.mp (by decide))

def oneRequest : Request := lineRequest (bytes "1") (by decide) (List.all_eq_true.mp (by decide))

/-- The digits of `2^64 + 2`. -/
def wrappingRequest : Request :=
  lineRequest (bytes "18446744073709551618") (by decide) (List.all_eq_true.mp (by decide))

/-- 2 is answered with `prime`, as it has to be. -/
theorem prime_response_two : Responds .queue (onPeerConnected zeroPeer) twoRequest.chunk
    (response (decide (denoted twoRequest.digits).Prime)) :=
  ((prime_response _ twoRequest (ready_onPeerConnected zeroPeer)).2 .queue (by decide)).mpr
    (by decide)

/-- So are 1 and the even number `2^64 + 2`. -/
theorem not_prime_response :
    (denoted oneRequest.digits = 1 ∧
      Responds .queue (onPeerConnected zeroPeer) oneRequest.chunk (bytes "prime\n") ∧
      ¬Responds .queue (onPeerConnected zeroPeer) oneRequest.chunk
        (response (decide (denoted oneRequest.digits).Prime))) ∧
    (denoted wrappingRequest.digits = 2 ^ 64 + 2 ∧
      Responds .queue (onPeerConnected zeroPeer) wrappingRequest.chunk (bytes "prime\n") ∧
      ¬Responds .queue (onPeerConnected zeroPeer) wrappingRequest.chunk
        (response (decide (denoted wrappingRequest.digits).Prime))) := by
  have hready := ready_onPeerConnected zeroPeer
  have of_not_prime {r : Request} (hr : isprime (parseNumber 0 r.chunk) = true)
      (hp : ¬(denoted r.digits).Prime) :
      Responds .queue (onPeerConnected zeroPeer) r.chunk (bytes "prime\n") ∧
        ¬Responds .queue (onPeerConnected zeroPeer) r.chunk
          (response (decide (denoted r.digits).Prime)) := by
    rw [hready.responds_iff .queue r.chunk_ne_nil, hready.responds_iff .queue r.chunk_ne_nil, hr,
      decide_eq_false hp]
    decide
  refine ⟨⟨by decide, of_not_prime (by decide) (by decide)⟩,
    ⟨by decide, of_not_prime (by decide) ?_⟩⟩
  intro h
  exact absurd (h.eq_one_or_self_of_dvd 2 (by decide)) (by decide)

end KoScripts.Servers.UvPrime
