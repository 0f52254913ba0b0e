import KoScripts.Lib.ReadUntil

/-! # The test client

A connection of `src/clients/simple_client.py`. `ReadThread` reads what the server sends until it
has the sentinel `1111`, and the connection is closed when it has been joined. `recv` returns `b''`
from the end of the stream on, to which `run` pays no attention. -/

namespace KoScripts.Clients
open Lib

/-- A bytes literal. -/
def ascii (s : String) : List UInt8 := s.toList.map Char.toUInt8

namespace ReadThread

def bufsize : Nat := 8 * 1024

/-- What `recv(self.bufsize)` returns before the end of the stream. -/
structure Segment where
  bytes : List UInt8
  ne_nil : bytes ≠ []
  length_le : bytes.length ≤ bufsize

/-- `b'1111'` -/
def sentinel : List UInt8 := ascii "1111"

/-- What has been received, and logged, when the loop is left. It runs out of fuel where the loop
does not end. -/
def run (fuel : Nat) (segments : List Segment) : Option (List (List UInt8)) :=
  readUntil (fun fullbuf => sentinel <:+: fullbuf) fuel [] (segments.map Segment.bytes)

end ReadThread

/-- The messages sent, one after the other. -/
def messages : List (List UInt8) :=
  [ascii "^abc$de^abte$f", ascii "xyz^123", ascii "25$^ab0000$abab"]

/-- A connection that has been closed. -/
structure Closed where
  /-- 'Something is wrong! Did not receive *' -/
  wrong : Bool
  sent : List (List UInt8)
  received : List (List UInt8)

/-- `first` is what `recv(1)` returns, and `segments` what comes behind it. The connection is closed
behind `rthread.join()`. -/
def makeNewConnection (fuel : Nat) (first : List UInt8) (segments : List ReadThread.Segment) :
    Option Closed :=
  (ReadThread.run fuel segments).map fun received =>
    { wrong := decide (first ≠ ascii "*"), sent := messages, received }

namespace ReadThread
variable {fuel : Nat} {segments : List Segment} {log pre : List (List UInt8)}

/-- What is still to come when the thread starts. -/
def stream (segments : List Segment) : List UInt8 := (segments.map Segment.bytes).flatten

/-- The thread ends, and it leaves its loop behind exactly that result of `recv` with which the
sentinel has been received or the stream has ended. -/
def StopsExactly (segments : List Segment) : Prop :=
  ∃ fuel log, run fuel segments = some log ∧ ∀ pre, pre ≠ [] → pre <+: log →
    (pre = log ↔ sentinel <:+: pre.flatten ∨ [] ∈ pre)

theorem sentinel_append (xs ys : List UInt8) (h : sentinel <:+: xs) : sentinel <:+: xs ++ ys :=
  h.trans (List.prefix_append xs ys).isInfix

/-- The thread ends if and only if the sentinel is in the stream, however it is cut. -/
theorem run_ends_iff : (∃ fuel log, run fuel segments = some log) ↔ sentinel <:+: stream segments :=
  readUntil_ends_iff sentinel_append

/-- The end of the stream is not received by a thread that ends. -/
theorem nil_not_mem_of_run (h : run fuel segments = some log) : [] ∉ log := by
  have hdone : sentinel <:+: stream segments := run_ends_iff.mp ⟨fuel, log, h⟩
  have hne : segments.map Segment.bytes ≠ [] := by
    intro hnil
    rw [stream, hnil] at hdone
    cases List.infix_nil.mp hdone
  intro hmem
  have hreceived : log <+: segments.map Segment.bytes := readUntil_prefix h hne hdone
  obtain ⟨segment, -, hbytes⟩ := List.mem_map.mp (hreceived.subset hmem)
  exact segment.ne_nil hbytes

/-- For every stream and every division of it the thread ends, and stops exactly where it should, if
and only if the sentinel is in the stream. -/
theorem run_stopsExactly_iff (segments : List Segment) :
    StopsExactly segments ↔ sentinel <:+: stream segments := by
  rw [← run_ends_iff]
  constructor
  · rintro ⟨fuel, log, h, -⟩
    exact ⟨fuel, log, h⟩
  · rintro ⟨fuel, log, h⟩
    refine ⟨fuel, log, h, fun pre hne hpre => ?_⟩
    have hnil : [] ∉ pre := fun hmem => nil_not_mem_of_run h (hpre.subset hmem)
    rw [or_iff_left hnil]
    exact readUntil_leaves_iff h hne hpre

/-- A stream that ends without the sentinel: the end of it is received for ever. -/
theorem not_stopsExactly_bcd : ¬StopsExactly [⟨ascii "bcd", by decide, by decide⟩] := by
  rintro ⟨fuel, log, h, -⟩
  have hinfix : sentinel <:+: ascii "bcd" := run_ends_iff.mp ⟨fuel, log, h⟩
  exact absurd hinfix (by decide)

end ReadThread

/-- The connection is closed if and only if the sentinel comes behind the first byte. -/
theorem makeNewConnection_returns_iff {first : List UInt8} {segments : List ReadThread.Segment} :
    (∃ fuel closed, makeNewConnection fuel first segments = some closed) ↔
      ReadThread.sentinel <:+: ReadThread.stream segments := by
  rw [← ReadThread.run_ends_iff]
  constructor
  · rintro ⟨fuel, closed, h⟩
    obtain ⟨log, hlog, -⟩ := Option.map_eq_some_iff.mp h
    exact ⟨fuel, log, hlog⟩
  · rintro ⟨fuel, log, h⟩
    exact ⟨fuel, _, congrArg (Option.map _) h⟩

end KoScripts.Clients
