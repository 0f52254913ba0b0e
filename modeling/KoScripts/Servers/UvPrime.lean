import KoScripts.Lib.Machine
import KoScripts.Servers.Uv

/-! # The libuv prime server

One connection of `uv_prime_server.c`, from its `uv_read_start` on. A label is a callback of the
loop, a step of the thread pool or a progress of the queued writes. A work item carries nothing but
the pointer to the peer state, so the items are counted: those on which `on_work_submitted` has not
run, and those on which it has and that wait for `on_work_completed`. -/

namespace KoScripts.Servers.UvPrime
open Lib Uv

/-! ## isprime -/

/-- `for (r = 3; r * r <= n; r += 2)` in wrapping arithmetic, for at most `fuel` rounds. -/
def isprimeLoop (n : UInt64) : Nat → UInt64 → Option Bool
  | 0, _ => none
  | fuel + 1, r =>
    if r * r ≤ n then if n % r = 0 then some false else isprimeLoop n fuel (r + 2) else some true

/-- The loop leaves at the latest when `r` has come to `n`. -/
theorem isprimeLoop_isSome {n : UInt64} {fuel : Nat} {r : UInt64} (hn : n.toNat % 2 = 1)
    (hr : r.toNat % 2 = 1) (hle : r.toNat ≤ n.toNat) (hf : n.toNat < r.toNat + fuel) :
    (isprimeLoop n fuel r).isSome := by
  induction fuel generalizing r with
  | zero => omega
  | succ fuel ih =>
    rw [isprimeLoop]
    split
    · split
      · rfl
      · next hmod =>
        have hne : r.toNat ≠ n.toNat := by
          intro heq
          refine hmod (UInt64.toNat_inj.mp ?_)
          rw [UInt64.toNat_mod, heq, Nat.mod_self]
          rfl
        have hlt := n.toNat_lt
        have hadd : (r + 2).toNat = r.toNat + 2 := by
          rw [UInt64.toNat_add, show (2 : UInt64).toNat = 2 from rfl]
          omega
        exact ih (by omega) (by omega) (by omega)
    · rfl

theorem isprimeLoop_three_isSome {n : UInt64} (hn : ¬n % 2 = 0) :
    (isprimeLoop n n.toNat 3).isSome := by
  have hodd : n.toNat % 2 = 1 := by
    have hne : ¬n.toNat % 2 = 0 := by
      intro hc
      apply hn
      rw [← UInt64.toNat_inj, UInt64.toNat_mod]
      exact hc
    omega
  rcases Nat.lt_or_ge n.toNat 3 with h | h
  · obtain rfl : n = 1 := UInt64.toNat_inj.mp (show n.toNat = 1 by omega)
    rfl
  · exact isprimeLoop_isSome hodd rfl h (Nat.lt_add_of_pos_left (by decide))

def isprime (n : UInt64) : Bool :=
  if h : n % 2 = 0 then n == 2 else (isprimeLoop n n.toNat 3).get (isprimeLoop_three_isSome h)

/-! ## The peer -/

def sendbufSize : Nat := 1024

/-- `peer_state_t`. -/
structure PeerState where
  number : UInt64
  sendbuf : Vector UInt8 sendbufSize
  sendbufEnd : Nat

def PeerState.staged (p : PeerState) : List UInt8 := slice p.sendbuf 0 p.sendbufEnd

/-- The loop of `set_peer_sendbuf` from index `i` on. -/
def setPeerSendbufFrom (state : PeerState) (i : Nat) : List UInt8 → Except Halt PeerState
  | [] => .ok { state with sendbufEnd := i }
  | c :: str =>
    if h : i < sendbufSize then
      setPeerSendbufFrom { state with sendbuf := state.sendbuf.set i c } (i + 1) str
    else .error .abort

def setPeerSendbuf (state : PeerState) (str : List UInt8) : Except Halt PeerState :=
  setPeerSendbufFrom state 0 str

def bytes (s : String) : List UInt8 := s.toList.map Char.toUInt8

def response (prime : Bool) : List UInt8 := if prime then bytes "prime\n" else bytes "composite\n"

variable {p : PeerState} {b : Bool} {str : List UInt8} {i : Nat}

/-- What storing `str` does to a peer. -/
structure Stored (p : PeerState) (str : List UInt8) (q : PeerState) : Prop where
  number : q.number = p.number
  staged : q.staged = str
  fin : q.sendbufEnd = str.length
  behind : ∀ k, str.length ≤ k → q.sendbuf[k]? = p.sendbuf[k]?

theorem setPeerSendbufFrom_spec (h : i + str.length ≤ sendbufSize) :
    ∃ q, setPeerSendbufFrom p i str = .ok q ∧ q.number = p.number ∧
      q.sendbufEnd = i + str.length ∧ q.staged = slice p.sendbuf 0 i ++ str ∧
      ∀ k, i + str.length ≤ k → q.sendbuf[k]? = p.sendbuf[k]? := by
  induction str generalizing p i with
  | nil => exact ⟨_, rfl, rfl, rfl, (List.append_nil _).symm, fun _ _ => rfl⟩
  | cons c str ih =>
    rw [List.length_cons] at h
    have hi : i < sendbufSize := by omega
    obtain ⟨q, hq, hnumber, hfin, hstaged, hbehind⟩ :=
      ih (p := { p with sendbuf := p.sendbuf.set i c }) (i := i + 1) (by omega)
    refine ⟨q, ?_, hnumber, ?_, ?_, ?_⟩
    · rw [setPeerSendbufFrom, dif_pos hi, hq]
    · rw [hfin, List.length_cons]
      omega
    · rw [hstaged, slice_set_end (Nat.zero_le i) hi, List.append_assoc]
      rfl
    · intro k hk
      rw [List.length_cons] at hk
      rw [hbehind k (by omega), Vector.getElem?_set, if_neg (by omega)]

theorem setPeerSendbuf_spec (h : str.length ≤ sendbufSize) :
    ∃ q, setPeerSendbuf p str = .ok q ∧ Stored p str q := by
  have hle : 0 + str.length ≤ sendbufSize := (Nat.zero_add _).symm ▸ h
  obtain ⟨q, hq, hnumber, hfin, hstaged, hbehind⟩ := setPeerSendbufFrom_spec (p := p) hle
  rw [Nat.zero_add] at hfin
  rw [slice_self, List.nil_append] at hstaged
  exact ⟨q, hq, hnumber, hstaged, hfin, fun k hk => hbehind k (by omega)⟩

theorem length_response_le : (response b).length ≤ sendbufSize := by cases b <;> decide

theorem length_response_pos : 0 < (response b).length := by cases b <;> decide

/-- The two responses differ in their length. -/
theorem response_length_inj {b' : Bool} (h : (response b).length = (response b').length) :
    b = b' := by
  revert h
  cases b <;> cases b' <;> decide

theorem setPeerSendbuf_response (p : PeerState) (b : Bool) :
    ∃ q, setPeerSendbuf p (response b) = .ok q ∧ Stored p (response b) q :=
  setPeerSendbuf_spec length_response_le

def isdigit (c : UInt8) : Bool := '0'.toUInt8 ≤ c && c ≤ '9'.toUInt8

/-- The parsing loop of `on_peer_read`. -/
def parseNumber (number : UInt64) : List UInt8 → UInt64
  | [] => number
  | c :: cs => if isdigit c then parseNumber (number * 10 + (c - '0'.toUInt8).toUInt64) cs else number

/-! ## The connection -/

/-- The environment variable `MODE`. -/
inductive Mode
  | block
  | queue
  deriving DecidableEq

structure Conn where
  peer : PeerState
  /-- Its only completion callback is `on_sent_response`. -/
  stream : Stream Unit
  /-- The work items on which `on_work_submitted` has not run. -/
  queued : Nat
  /-- The work items on which it has run, but not `on_work_completed`. -/
  computed : Nat
  reading : Bool
  closing : Bool
  /-- `on_client_closed` has released the peer state and the handle. -/
  released : Bool
  halted : Option Halt
  /-- The data handed to `on_peer_read`. -/
  chunks : List (List UInt8)

/-- The connection behind `on_peer_connected`, with a peer state from `malloc`. -/
def onPeerConnected (peer : PeerState) : Conn where
  peer := { peer with sendbufEnd := 0 }
  stream := .new
  queued := 0
  computed := 0
  reading := true
  closing := false
  released := false
  halted := none
  chunks := []

namespace Conn
variable (s : Conn)

def halt (e : Halt) : Conn := { s with halted := some e }

/-- `uv_write` of the response, and `exit(1)` if it fails, as it does on a handle being closed. -/
def writeResponse (ok : Bool) : Conn :=
  if ok ∧ ¬s.closing then { s with stream := s.stream.write () s.peer.sendbufEnd } else s.halt .exit

/-- `on_peer_read` with `nread > 0`, where its `uv_write` or `uv_queue_work` succeeds or not. -/
def onPeerRead (mode : Mode) (chunk : List UInt8) (ok : Bool) : Conn :=
  if s.released then s.halt .fault
  else
    let number := parseNumber 0 chunk
    let s := { s with peer := { s.peer with number }, chunks := s.chunks ++ [chunk] }
    match mode with
    | .block =>
      match setPeerSendbuf s.peer (response (isprime number)) with
      | .error e => s.halt e
      | .ok peer => { s with peer }.writeResponse ok
    | .queue => if ok then { s with queued := s.queued + 1 } else s.halt .exit

def onWorkSubmitted : Conn :=
  if s.released then s.halt .fault
  else
    match setPeerSendbuf s.peer (response (isprime s.peer.number)) with
    | .error e => s.halt e
    | .ok peer => { s with peer, queued := s.queued - 1, computed := s.computed + 1 }

def onWorkCompleted (statusOk ok : Bool) : Conn :=
  if ¬statusOk then s.halt .exit
  else if s.released then s.halt .fault
  else { s with computed := s.computed - 1 }.writeResponse ok

end Conn

inductive Label
  /-- `on_peer_read` with data. -/
  | read (chunk : List UInt8) (ok : Bool)
  /-- `on_peer_read` with `nread` 0. -/
  | readNone
  /-- `on_peer_read` with an error or the end of the stream: `uv_close`. -/
  | readEnd
  /-- A thread of the pool runs `on_work_submitted` on a work item. -/
  | work
  | workCompleted (statusOk ok : Bool)
  /-- Bytes of the queued writes go out. -/
  | drain (k : Nat)
  /-- `on_sent_response` with status 0. -/
  | sentResponse
  /-- `on_sent_response` with an error: `UV_ECANCELED` after `uv_close`, or one of the socket. -/
  | sendFailed
  | closed

def exec (mode : Mode) (s : Conn) (a : Label) : Option Conn :=
  if s.halted.isSome then none
  else
    match a with
    | .read chunk ok => if s.reading ∧ chunk ≠ [] then some (s.onPeerRead mode chunk ok) else none
    | .readNone => if s.reading then some s else none
    | .readEnd => if s.reading then some { s with reading := false, closing := true } else none
    | .work => if 0 < s.queued then some s.onWorkSubmitted else none
    | .workCompleted statusOk ok =>
      if 0 < s.computed then some (s.onWorkCompleted statusOk ok) else none
    | .drain k =>
      if s.closing then none
      else (s.stream.drain s.peer.sendbuf k).map fun stream => { s with stream }
    | .sentResponse =>
      match s.stream.done with
      | [] => none
      | _ :: done => some { s with stream := { s.stream with done } }
    | .sendFailed => if s.stream.queue = [] then none else some (s.halt .exit)
    | .closed =>
      if s.closing ∧ ¬s.released ∧ s.stream.Idle then some { s with released := true } else none

def uvPrime (mode : Mode) (peer : PeerState) : Machine Conn Label :=
  ⟨onPeerConnected peer, exec mode⟩

/-- What is to be sent for the chunks read: one answer for each, in their order. -/
def answers (chunks : List (List UInt8)) : List UInt8 :=
  chunks.flatMap fun chunk => response (isprime (parseNumber 0 chunk))

end KoScripts.Servers.UvPrime
