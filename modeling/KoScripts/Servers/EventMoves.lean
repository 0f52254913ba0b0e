import KoScripts.Servers.Event

/-! # What a step of an event server makes of its connections

A handler moves the connection on its descriptor, and leaves the others. A call that returns
`EAGAIN` moves nothing. -/

namespace KoScripts.Servers.Event
open Lib

/-- What a step of the loop makes of a connection: bytes are read, with all the replies sent, and
replies are sent; or it is closed at the end of its stream. -/
inductive Conn.Moves (c : Conn) : Option Conn → Prop
  | moved {bytes out : List UInt8} :
    (bytes ≠ [] → c.sent = replies c.consumed ∧ bytes.length ≤ 1024) →
    c.Moves (some ⟨c.stream, c.consumed ++ bytes, c.sent ++ out⟩)
  | closed : c.Done → c.Moves none

/-- Of all the connections, the one on `fd` is moved. -/
structure MovesAt (socks socks' : Nat → Option Conn) (fd : Nat) : Prop where
  others : ∀ k, k ≠ fd → socks' k = socks k
  free : socks fd = none → socks' fd = none
  moves : ∀ c, socks fd = some c → c.Moves (socks' fd)

variable {maxfds : Nat} {table : Table maxfds} {fd : Fin maxfds} {c : Conn}

theorem Conn.Moves.received {bytes : List UInt8}
    (h : bytes ≠ [] → c.sent = replies c.consumed ∧ bytes.length ≤ 1024) :
    c.Moves (some (c.received bytes)) := by
  have hmoved : c.Moves (some ⟨c.stream, c.consumed ++ bytes, c.sent ++ []⟩) := .moved h
  rwa [List.append_nil] at hmoved

theorem Conn.Moves.wrote (out : List UInt8) : c.Moves (some (c.wrote out)) := by
  have hmoved : c.Moves (some ⟨c.stream, c.consumed ++ [], c.sent ++ out⟩) :=
    .moved fun h => absurd rfl h
  rwa [List.append_nil] at hmoved

theorem MovesAt.same {socks : Nat → Option Conn} (k : Nat) : MovesAt socks socks k where
  others _ _ := rfl
  free h := h
  moves c h := by
    have hmoved := Conn.Moves.wrote (c := c) []
    rwa [c.wrote_nil, ← h] at hmoved

theorem MovesAt.update {socks : Nat → Option Conn} {k : Nat} {o : Option Conn}
    (hc : socks k = some c) (h : c.Moves o) : MovesAt socks (Function.update socks k o) k where
  others _ hk := Function.update_of_ne hk _ _
  free hk := by
    rw [hc] at hk
    cases hk
  moves d hd := by
    obtain rfl := Option.some.inj (hc.symm.trans hd)
    rw [Function.update_self]
    exact h

/-- With nothing staged, all the replies to what has been read have been sent. -/
theorem Tracks.sent_of_idle (T : Tracks (table fd) c)
    (hst : (table fd).sendbufEnd ≤ (table fd).sendptr) : c.sent = replies c.consumed := by
  have hout := T.echoes.output
  rwa [T.ok.staged_eq_nil.mpr hst, List.append_nil] at hout

/-! ## on_peer_ready_recv -/

theorem received_ne {bytes : List UInt8} (h : c.recvOk (.data bytes) = true) :
    c.received bytes ≠ c := by
  intro heq
  obtain rfl := List.append_right_eq_self.mp (congrArg Conn.consumed heq)
  cases h

theorem recv_again (hok : PeerOk (table fd)) (hst : (table fd).sendbufEnd ≤ (table fd).sendptr) :
    onPeerReadyRecv table fd .again =
      .ok ⟨(table fd).interest, Function.update table fd (table fd), []⟩ := by
  have spec := onPeerReadyRecv_spec hok (r := .again) fun _ h => by cases h
  generalize onPeerReadyRecv table fd .again = out at spec ⊢
  have hint : (table fd).interest = fdStatusR := if_neg (Nat.not_lt.mpr hst)
  rw [hint, Function.update_eq_self]
  cases spec with
  | staged hlt => exact absurd hlt (Nat.not_lt.mpr hst)
  | again => rfl

/-- It reads the next bytes, or the end of the stream. -/
theorem recv_moves (T : Tracks (table fd) c) (hst : (table fd).sendbufEnd ≤ (table fd).sendptr)
    {r : RecvResult} (hr : c.recvOk r = true) (hne : r ≠ .error) :
    (∃ q bytes, onPeerReadyRecv table fd r =
        .ok ⟨q.interest, Function.update table fd q, bytes⟩ ∧ c.Moves (some (c.received bytes))) ∨
      onPeerReadyRecv table fd r = .ok ⟨fdStatusNORW, table, []⟩ ∧ c.Done := by
  have hsent := T.sent_of_idle hst
  cases r with
  | error => exact absurd rfl hne
  | again => exact .inl ⟨_, _, recv_again T.ok hst, .received fun h => absurd rfl h⟩
  | eof =>
    have hall : c.consumed = c.stream := by
      simp only [Conn.recvOk, Conn.unread, List.isEmpty_iff, List.drop_eq_nil_iff] at hr
      exact T.within.eq_of_length_le hr
    have spec := onPeerReadyRecv_spec T.ok (r := .eof) fun _ h => by cases h
    generalize onPeerReadyRecv table fd .eof = out at spec ⊢
    cases spec with
    | staged hlt => exact absurd hlt (Nat.not_lt.mpr hst)
    | eof => exact .inr ⟨rfl, hall, hall ▸ hsent⟩
  | data bytes =>
    have hlen : bytes.length ≤ 1024 := by
      simp only [Conn.recvOk, Bool.and_eq_true, decide_eq_true_eq] at hr
      exact hr.1.2
    have spec := onPeerReadyRecv_spec T.ok (r := .data bytes) fun bytes' h => by
      cases h
      exact hlen
    generalize onPeerReadyRecv table fd (.data bytes) = out at spec ⊢
    cases spec with
    | staged hlt => exact absurd hlt (Nat.not_lt.mpr hst)
    | data _ _ => exact .inl ⟨_, bytes, rfl, .received fun _ => ⟨hsent, hlen⟩⟩

/-! ## on_peer_ready_send -/

theorem wrote_ne (hok : PeerOk (table fd)) (hst : (table fd).sendptr < (table fd).sendbufEnd) :
    c.wrote (table fd).staged ≠ c := by
  intro heq
  have hnil := List.append_right_eq_self.mp (congrArg Conn.sent heq)
  exact absurd (hok.staged_eq_nil.mp hnil) (Nat.not_le.mpr hst)

theorem send_again (hok : PeerOk (table fd)) (hst : (table fd).sendptr < (table fd).sendbufEnd) :
    onPeerReadySend table fd .again =
      .ok ⟨(table fd).interest, Function.update table fd (table fd), []⟩ := by
  have spec := onPeerReadySend_spec hok (r := .again) fun _ h => by cases h
  generalize onPeerReadySend table fd .again = out at spec ⊢
  have hint : (table fd).interest = fdStatusW := if_pos hst
  rw [hint, Function.update_eq_self]
  cases spec with
  | idle hidle => exact absurd hst (Nat.not_lt.mpr hidle)
  | again => rfl

theorem send_moves (hok : PeerOk (table fd)) (hst : (table fd).sendptr < (table fd).sendbufEnd)
    {r : SendResult}
    (hr : ∀ nsent, r = .count nsent → nsent ≤ (table fd).sendbufEnd - (table fd).sendptr)
    (hne : r ≠ .error) :
    ∃ q bytes, onPeerReadySend table fd r =
      .ok ⟨q.interest, Function.update table fd q, bytes⟩ := by
  cases r with
  | error => exact absurd rfl hne
  | again => exact ⟨_, _, send_again hok hst⟩
  | count nsent =>
    have spec := onPeerReadySend_spec hok (r := .count nsent) fun nsent' h => by
      rw [PeerState.staged, length_slice hok.bound]
      exact hr nsent' h
    generalize onPeerReadySend table fd (.count nsent) = out at spec ⊢
    cases spec with
    | idle hidle => exact absurd hst (Nat.not_lt.mpr hidle)
    | count _ _ _ _ => exact ⟨_, _, rfl⟩

end KoScripts.Servers.Event
