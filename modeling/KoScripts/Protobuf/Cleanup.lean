import KoScripts.Lib.Raise
import KoScripts.Protobuf.Header
import KoScripts.Protobuf.Reply

/-! # Cleaning up behind a request

`SimpleHandler.__init__`, `setup`, `finish` and `ThreadingMixIn.process_request_thread` with
`BaseServer.finish_request`, `shutdown_request`, `close_request`, of `proto_tcpser.py`. An
exception gets past all of them: `process_request_thread` has no `finally`, and `socket.error` in
the `except` clauses looks for an attribute of the class `socket`, which raises again. -/

namespace KoScripts.Protobuf
open Lib

inductive Raised
  | osError
  | attributeError
  | py (e : PyError)
deriving DecidableEq

/-- An attribute that `setup` makes a file. -/
inductive File
  | missing
  | opened
  | closed
deriving DecidableEq

/-- What `setup` has made of an accepted request, and how often `close` has been called on it. -/
structure Request where
  rfile : File
  wfile : File
  closes : Nat
deriving DecidableEq

def Request.accepted : Request := ⟨.missing, .missing, 0⟩

/-- What the peer and the operating system do to one request. In `handle`, a `recv` or the write
may raise; if none does, the stream decides. -/
structure Exchange where
  codec : Codec Rect
  stream : List UInt8
  n : Nat
  accepted : Nat
  makefileRead : Option Raised
  makefileWrite : Option Raised
  handleCall : Option Raised
  flush : Option Raised
  shutdown : Option Raised

/-- Evaluating `socket.error`, where `socket` is the class that `from socket import *` binds. -/
def socketError : Raised → Except Raised Bool := fun _ => .error .attributeError

variable (x : Exchange)

namespace SimpleHandler

def setup : Program Raised Request :=
  (Program.call x.makefileRead fun s => { s with rfile := .opened }).seq
    (Program.call x.makefileWrite fun s => { s with wfile := .opened })

/-- `handle` as far as the request is concerned. It reads no more than the stream has. -/
def handleRequest : Program Raised Request := fun s =>
  match x.handleCall with
  | some e => .raises e s
  | none =>
    match handle x.codec x.stream.length x.n x.accepted x.stream with
    | none => .never
    | some (.error e) => .raises (.py e) s
    | some (.ok _) => .returns s

def flush : Program Raised Request := fun s =>
  match s.wfile with
  | .missing => .raises .attributeError s
  | .opened => (Program.call x.flush id).tryExcept socketError .skip s
  | .closed => .returns s

def finish : Program Raised Request :=
  (flush x).seq ((Program.call none fun s => { s with wfile := .closed }).seq
    (Program.call none fun s => { s with rfile := .closed }))

/-- `__init__`. -/
def init : Program Raised Request :=
  (setup x).seq ((handleRequest x).tryFinally (finish x))

end SimpleHandler

namespace BaseServer

def closeRequest : Program Raised Request :=
  Program.call none fun s => { s with closes := s.closes + 1 }

def shutdownRequest : Program Raised Request :=
  ((Program.call x.shutdown id).tryExcept socketError .skip).seq closeRequest

def finishRequest : Program Raised Request := SimpleHandler.init x

end BaseServer

/-- `ThreadingMixIn.process_request_thread`. -/
def processRequestThread : Program Raised Request :=
  (BaseServer.finishRequest x).seq (BaseServer.shutdownRequest x)

/-- The request is closed once and so are its files, and an `OSError` of `flush` or `shutdown`
makes no difference. -/
structure Exchange.CleanedUp : Prop where
  ends : ∃ t, (processRequestThread x .accepted).final = some t ∧ t.closes = 1 ∧
    (t.wfile ≠ .missing → t.rfile = .closed ∧ t.wfile = .closed)
  flush : x.flush = some .osError → processRequestThread x .accepted =
    processRequestThread { x with flush := none } .accepted
  shutdown : x.shutdown = some .osError → processRequestThread x .accepted =
    processRequestThread { x with shutdown := none } .accepted

/-- Nothing raises: not the two `makefile`, not `handle`, which comes to an end, not `flush`, and
not `shutdown`. -/
structure Exchange.Quiet : Prop where
  makefileRead : x.makefileRead = none
  makefileWrite : x.makefileWrite = none
  handleCall : x.handleCall = none
  handled : ∃ fuel r, SimpleHandler.handle x.codec fuel x.n x.accepted x.stream = some (.ok r)
  flush : x.flush = none
  shutdown : x.shutdown = none

variable {x} {s t : Request}

namespace SimpleHandler

/-- As much fuel as the stream has bytes is enough. -/
theorem handle_length {codec : Codec Rect} {n accepted fuel : Nat} {stream : List UInt8}
    {r : Except PyError (Received Rect × List UInt8)}
    (h : handle codec fuel n accepted stream = some r) :
    handle codec stream.length n accepted stream = some r := by
  have hsome {i : Nat} : (handle codec i n accepted stream).isSome =
      (recvSize i [] stream).isSome := Option.isSome_map.trans recvFrame_isSome
  have hfuel : (recvSize fuel [] stream).isSome := by
    rw [← hsome, h]
    rfl
  have hlen : (handle codec stream.length n accepted stream).isSome := by
    rw [hsome]
    exact recvSize_isSome .nil (recvSize_isSome_iff.mp ⟨fuel, hfuel⟩)
  obtain ⟨r', hr'⟩ := Option.isSome_iff_exists.mp hlen
  rw [hr', handle_unique h hr']

theorem handleRequest_returns_iff : handleRequest x s = .returns t ↔ s = t ∧
    x.handleCall = none ∧
      ∃ fuel r, handle x.codec fuel x.n x.accepted x.stream = some (.ok r) := by
  rw [handleRequest]
  cases x.handleCall with
  | some e => exact iff_of_false nofun fun h => nomatch h.2.1
  | none =>
    simp only [true_and]
    cases hx : handle x.codec x.stream.length x.n x.accepted x.stream with
    | none =>
      refine iff_of_false nofun ?_
      rintro ⟨-, fuel, r, hr⟩
      cases hx.symm.trans (handle_length hr)
    | some r =>
      cases r with
      | error e =>
        refine iff_of_false nofun ?_
        rintro ⟨-, fuel, r, hr⟩
        cases hx.symm.trans (handle_length hr)
      | ok r =>
        rw [Outcome.returns.injEq, iff_self_and]
        exact fun _ => ⟨_, r, hx⟩

theorem flush_returns_iff (hs : s.wfile = .opened) :
    flush x s = .returns t ↔ x.flush = none ∧ s = t := by
  rw [flush, hs]
  exact (Program.tryExcept_returns_iff fun _ => rfl).trans Program.call_returns_iff

/-- `finish` closes both files, if `flush` does not raise. -/
theorem finish_returns_iff (hs : s.wfile = .opened) : finish x s = .returns t ↔
    x.flush = none ∧ { s with rfile := .closed, wfile := .closed } = t := by
  rw [finish, Program.seq_returns_iff]
  simp only [flush_returns_iff hs]
  constructor
  · rintro ⟨u, ⟨hf, rfl⟩, hu⟩
    exact ⟨hf, Outcome.returns.inj hu⟩
  · rintro ⟨hf, rfl⟩
    exact ⟨s, ⟨hf, rfl⟩, rfl⟩

theorem setup_returns_iff : setup x .accepted = .returns t ↔
    x.makefileRead = none ∧ x.makefileWrite = none ∧ ⟨.opened, .opened, 0⟩ = t := by
  rw [setup, Program.seq_returns_iff]
  simp only [Program.call_returns_iff]
  constructor
  · rintro ⟨u, ⟨hr, rfl⟩, hw, rfl⟩
    exact ⟨hr, hw, rfl⟩
  · rintro ⟨hr, hw, rfl⟩
    exact ⟨_, ⟨hr, rfl⟩, hw, rfl⟩

theorem init_returns_iff : init x .accepted = .returns t ↔
    ⟨.closed, .closed, 0⟩ = t ∧ x.makefileRead = none ∧ x.makefileWrite = none ∧
      x.handleCall = none ∧
      (∃ fuel r, handle x.codec fuel x.n x.accepted x.stream = some (.ok r)) ∧ x.flush = none := by
  rw [init, Program.seq_returns_iff]
  simp only [setup_returns_iff, Program.tryFinally_returns_iff, handleRequest_returns_iff]
  constructor
  · rintro ⟨_, ⟨hr, hw, rfl⟩, _, ⟨rfl, hc, hh⟩, hfin⟩
    obtain ⟨hf, rfl⟩ := (finish_returns_iff rfl).mp hfin
    exact ⟨rfl, hr, hw, hc, hh, hf⟩
  · rintro ⟨rfl, hr, hw, hc, hh, hf⟩
    exact ⟨_, ⟨hr, hw, rfl⟩, _, ⟨rfl, hc, hh⟩, (finish_returns_iff rfl).mpr ⟨hf, rfl⟩⟩

end SimpleHandler

/-! ## No close on the way -/

/-- Nothing but `close_request` closes the request. -/
def Open (s : Request) : Prop := s.closes = 0

theorem open_accepted : Open .accepted := rfl

theorem keeps_call {e : Option Raised} {f : Request → Request}
    (hf : ∀ s, (f s).closes = s.closes) : Program.Keeps Open (Program.call e f) :=
  Program.keeps_call fun s hs => (hf s).trans hs

theorem keeps_finishRequest : Program.Keeps Open (BaseServer.finishRequest x) := by
  have hsetup : Program.Keeps Open (SimpleHandler.setup x) := by
    apply Program.Keeps.seq
    · exact keeps_call fun _ => rfl
    · exact keeps_call fun _ => rfl
  have hhandle : Program.Keeps Open (SimpleHandler.handleRequest x) := by
    intro s t hs ht
    rw [SimpleHandler.handleRequest] at ht
    split at ht
    · cases ht; exact hs
    · split at ht
      · cases ht
      · cases ht; exact hs
      · cases ht; exact hs
  have hflush : Program.Keeps Open (SimpleHandler.flush x) := by
    intro s t hs ht
    rw [SimpleHandler.flush] at ht
    split at ht
    · cases ht; exact hs
    · exact (keeps_call fun _ => rfl).tryExcept Program.keeps_skip s t hs ht
    · cases ht; exact hs
  have hfinish : Program.Keeps Open (SimpleHandler.finish x) := by
    apply hflush.seq
    apply Program.Keeps.seq
    · exact keeps_call fun _ => rfl
    · exact keeps_call fun _ => rfl
  exact hsetup.seq (hhandle.tryFinally hfinish)

/-- What is closed in the end has been closed by `close_request`, behind a return of everything
before. -/
theorem quiet_of_closes (hx : (processRequestThread x .accepted).final = some t)
    (ht : t.closes = 1) : x.Quiet := by
  have hopen : ¬Open t := by
    rw [Open, ht]
    decide
  obtain ⟨u, hu, hx⟩ := keeps_finishRequest.returns_of_seq open_accepted hx hopen
  obtain ⟨rfl, hr, hw, hc, hh, hf⟩ := SimpleHandler.init_returns_iff.mp hu
  have hshutdown : Program.Keeps Open
      ((Program.call x.shutdown id).tryExcept socketError .skip) :=
    Program.Keeps.tryExcept (keeps_call fun _ => rfl) Program.keeps_skip
  have hu : Open ⟨.closed, .closed, 0⟩ := rfl
  obtain ⟨v, hv, -⟩ := hshutdown.returns_of_seq hu hx hopen
  have hs := (Program.call_returns_iff.mp ((Program.tryExcept_returns_iff fun _ => rfl).mp hv)).1
  exact ⟨hr, hw, hc, hh, hf, hs⟩

theorem processRequestThread_quiet (h : x.Quiet) :
    processRequestThread x .accepted = .returns ⟨.closed, .closed, 1⟩ := by
  obtain ⟨hr, hw, hc, hh, hf, hs⟩ := h
  have hinit := SimpleHandler.init_returns_iff.mpr ⟨rfl, hr, hw, hc, hh, hf⟩
  refine Program.seq_returns_iff.mpr ⟨_, hinit,
    Program.seq_returns_iff.mpr ⟨⟨.closed, .closed, 0⟩, ?_, rfl⟩⟩
  exact (Program.tryExcept_returns_iff fun _ => rfl).mpr (Program.call_returns_iff.mpr ⟨hs, rfl⟩)

/-- A request is cleaned up if and only if nothing raises on the way. -/
theorem cleanedUp_iff (x : Exchange) : x.CleanedUp ↔ x.Quiet := by
  constructor
  · intro h
    obtain ⟨t, hx, ht, -⟩ := h.ends
    exact quiet_of_closes hx ht
  · intro h
    refine ⟨⟨_, congrArg Outcome.final (processRequestThread_quiet h), rfl, fun _ => ⟨rfl, rfl⟩⟩,
      ?_, ?_⟩
    · intro hf
      cases h.flush.symm.trans hf
    · intro hs
      cases h.shutdown.symm.trans hs

/-- One byte that does not parse, in a frame of its own. Nothing else is wrong. -/
def garbage : Exchange where
  codec := rectCodec
  stream := [1, 0x80]
  n := 1
  accepted := 100
  makefileRead := none
  makefileWrite := none
  handleCall := none
  flush := none
  shutdown := none

/-- The exception of `ParseFromString` ends the thread before the request is closed. -/
theorem not_cleanedUp_garbage : ¬garbage.CleanedUp := by
  intro h
  obtain ⟨t, hx, ht, -⟩ := h.ends
  have hrun : (processRequestThread garbage .accepted).final = some ⟨.closed, .closed, 0⟩ := by
    decide +kernel
  obtain rfl := Option.some.inj (hrun.symm.trans hx)
  cases ht

-- What the `except` clause of `finish` raises skips the `close` of both files as well.
example : processRequestThread { garbage with stream := [0], flush := some .osError } .accepted =
    .raises .attributeError ⟨.opened, .opened, 0⟩ := rfl

end KoScripts.Protobuf
