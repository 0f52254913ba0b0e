import KoScripts.Clients.SimpleClient
import KoScripts.Servers.Echo

/-! # The test client and a blocking server

What a server of the echo protocol sends for the messages of `simple_client.py` has the sentinel at
its end, and nowhere else. So the client returns with all of it, or, where the connection ends
earlier, not at all. -/

namespace KoScripts.Clients
open Lib Servers

/-- What the client receives of a server that sends `served` and nothing more. -/
structure Receives (served first : List UInt8) (segments : List ReadThread.Segment) : Prop where
  first : first = served.take 1
  rest : ReadThread.stream segments = served.drop 1

variable {served first : List UInt8} {segments : List ReadThread.Segment} {fuel : Nat}
  {closed : Closed}

theorem replies_messages : replies messages.flatten = ascii "*bcdbcuf23436bc1111" := by
  decide +kernel

/-- A part of the replies has the sentinel only if it is all of them. -/
theorem sentinel_iff_complete (h : served <+: replies messages.flatten) :
    ReadThread.sentinel <:+: served.drop 1 ↔ served = replies messages.flatten := by
  rw [replies_messages] at h ⊢
  have hinits : ∀ xs ∈ (ascii "*bcdbcuf23436bc1111").inits,
      ReadThread.sentinel <:+: xs.drop 1 ↔ xs = ascii "*bcdbcuf23436bc1111" := by
    decide +kernel
  exact hinits served (List.mem_inits _ _ |>.mpr h)

theorem Receives.returns_iff (H : Receives served first segments)
    (h : served <+: replies messages.flatten) :
    (∃ fuel closed, makeNewConnection fuel first segments = some closed) ↔
      served = replies messages.flatten := by
  rw [makeNewConnection_returns_iff, H.rest]
  exact sentinel_iff_complete h

/-- A client that returns has received the `*` and has logged all the other replies. -/
theorem Receives.complete (H : Receives served first segments)
    (h : served <+: replies messages.flatten)
    (hclosed : makeNewConnection fuel first segments = some closed) :
    closed.wrong = false ∧ first ++ closed.received.flatten = replies messages.flatten := by
  have hserved : served = replies messages.flatten := (H.returns_iff h).mp ⟨fuel, closed, hclosed⟩
  have hfirst : first = ascii "*" := by
    rw [H.first, hserved, replies_messages]
    rfl
  obtain ⟨log, hlog, rfl⟩ := Option.map_eq_some_iff.mp hclosed
  refine ⟨decide_eq_false (not_not.mpr hfirst), ?_⟩
  have hjoin : replies messages.flatten = first ++ ReadThread.stream segments := by
    rw [← hserved, H.first, H.rest, List.take_append_drop]
  have hpart : first ++ log.flatten <+: replies messages.flatten := by
    rw [hjoin, List.prefix_append_right_inj]
    exact readUntil_flatten_prefix hlog
  rw [← sentinel_iff_complete hpart, hfirst]
  exact readUntil_done hlog

/-- Served by a blocking server, the client returns if and only if none of the sends fails. -/
theorem blocking_returns_iff {sendOk : Nat → Bool} {chunks : List (List UInt8)}
    (hchunks : chunks.flatten = messages.flatten)
    (H : Receives (Blocking.handleConnection sendOk (chunks.map .data)).sent first segments) :
    (∃ fuel closed, makeNewConnection fuel first segments = some closed) ↔
      ∀ k < (replies messages.flatten).length, sendOk k = true := by
  obtain ⟨hok, heq⟩ | ⟨sent, b, post, hsplit, hfail, heq⟩ :=
    Blocking.handleConnection_cases sendOk chunks []
  · rw [List.append_nil, hchunks] at heq
    rw [heq] at H
    rw [hchunks] at hok
    rw [H.returns_iff (List.prefix_refl _)]
    exact iff_of_true rfl hok
  · rw [List.append_nil] at heq
    rw [heq] at H
    rw [hchunks] at hsplit
    rw [H.returns_iff (hsplit ▸ List.prefix_append sent (b :: post)), hsplit]
    refine iff_of_false ?_ fun hok => ?_
    · intro hsent
      cases List.append_right_eq_self.mp hsent.symm
    · have hlt : sent.length < (sent ++ b :: post).length := by
        rw [List.length_append, List.length_cons]
        omega
      rw [hok sent.length hlt] at hfail
      cases hfail

end KoScripts.Clients
