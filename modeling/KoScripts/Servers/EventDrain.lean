import KoScripts.Lib.Machine
import KoScripts.Servers.Event

/-! # Serving the peers of an event server to their end

For an open peer there is always a call that brings it on, and its mask asks for the event of that
call. A server whose loop can make that one call, and leaves the other peers as they are, can serve
one peer after the other to the end of its stream. -/

namespace KoScripts.Servers.Event
open Lib

section
variable {maxfds : Nat} {table : Table maxfds} {fd : Fin maxfds} {c : Conn}

/-- What is left to do for a peer: two rounds for a byte to be read, one for what is staged. -/
def work (p : PeerState) (c : Conn) : Nat :=
  2 * c.unread.length + if p.sendptr < p.sendbufEnd then 1 else 0

/-- The call that brings a peer on. -/
inductive Advance (table : Table maxfds) (fd : Fin maxfds) (c : Conn) : Prop
  | send {q : PeerState} : (table fd).sendptr < (table fd).sendbufEnd →
    onPeerReadySend table fd (.count ((table fd).sendbufEnd - (table fd).sendptr)) =
      .ok ⟨q.interest, Function.update table fd q, (table fd).staged⟩ →
    work q (c.wrote (table fd).staged) < work (table fd) c → Advance table fd c
  | recv {q : PeerState} {bytes : List UInt8} : (table fd).sendbufEnd ≤ (table fd).sendptr →
    c.recvOk (.data bytes) = true →
    onPeerReadyRecv table fd (.data bytes) =
      .ok ⟨q.interest, Function.update table fd q, bytes⟩ →
    work q (c.received bytes) < work (table fd) c → Advance table fd c
  | eof : (table fd).sendbufEnd ≤ (table fd).sendptr → c.recvOk .eof = true →
    onPeerReadyRecv table fd .eof = .ok ⟨fdStatusNORW, table, []⟩ → c.Done → Advance table fd c

/-- The rest of the buffer goes out in one `send`. -/
theorem advance_send (T : Tracks (table fd) c)
    (hst : (table fd).sendptr < (table fd).sendbufEnd) : Advance table fd c := by
  have hlen : (table fd).staged.length = (table fd).sendbufEnd - (table fd).sendptr := by
    rw [PeerState.staged, length_slice T.ok.bound]
  have spec := onPeerReadySend_spec T.ok
    (r := .count ((table fd).sendbufEnd - (table fd).sendptr)) fun nsent h => by
      cases h
      exact Nat.le_of_eq hlen.symm
  generalize hout : onPeerReadySend table fd
    (.count ((table fd).sendbufEnd - (table fd).sendptr)) = out at spec
  cases spec with
  | idle hidle => exact absurd hst (Nat.not_lt.mpr hidle)
  | @count q _ _ hq _ hstaged =>
    rw [← hlen, List.take_length] at hout
    rw [← hlen, List.drop_length] at hstaged
    refine .send hst (hlen ▸ hout) ?_
    have hnone : ¬q.sendptr < q.sendbufEnd := Nat.not_lt.mpr (hq.staged_eq_nil.mp hstaged)
    rw [work, work, if_neg hnone, if_pos hst]
    exact Nat.lt_succ_self _

theorem length_unread_received (c : Conn) (bytes : List UInt8) :
    (c.received bytes).unread.length = c.unread.length - bytes.length := by
  simp only [Conn.unread, Conn.received, List.length_drop, List.length_append, Nat.sub_sub]

/-- With nothing staged the next bytes of the stream are read, or its end. -/
theorem advance_recv (T : Tracks (table fd) c)
    (hst : (table fd).sendbufEnd ≤ (table fd).sendptr) : Advance table fd c := by
  cases hun : c.unread with
  | nil =>
    have heof : c.recvOk .eof = true := by
      rw [Conn.recvOk, hun]
      rfl
    have hdone : c.Done := by
      have hout := T.echoes.output
      have hall : c.consumed = c.stream :=
        T.within.eq_of_length_le (List.drop_eq_nil_iff.mp hun)
      rw [T.ok.staged_eq_nil.mpr hst, List.append_nil, hall] at hout
      exact ⟨hall, hout⟩
    have spec := onPeerReadyRecv_spec T.ok (r := .eof) fun bytes h => by cases h
    generalize hout : onPeerReadyRecv table fd .eof = out at spec
    cases spec with
    | staged hlt => exact absurd hlt (Nat.not_lt.mpr hst)
    | eof => exact .eof hst heof hout hdone
  | cons b bs =>
    have hne : c.unread ≠ [] := hun ▸ List.cons_ne_nil b bs
    have hpos := List.length_pos_iff.mpr hne
    have hlen : (c.unread.take 1024).length = min 1024 c.unread.length := List.length_take
    have hdata : c.recvOk (.data (c.unread.take 1024)) = true := by
      simp only [Conn.recvOk, Bool.and_eq_true, decide_eq_true_eq, List.isPrefixOf_iff_prefix]
      exact ⟨⟨by omega, by omega⟩, List.take_prefix _ _⟩
    have hrest : (c.received (c.unread.take 1024)).unread.length < c.unread.length := by
      rw [length_unread_received]
      omega
    have spec := onPeerReadyRecv_spec T.ok (r := .data (c.unread.take 1024)) fun bytes h => by
      cases h
      rw [hlen]
      exact Nat.min_le_left _ _
    generalize hout : onPeerReadyRecv table fd (.data (c.unread.take 1024)) = out at spec
    cases spec with
    | staged hlt => exact absurd hlt (Nat.not_lt.mpr hst)
    | @data q _ =>
      refine .recv hst hdata hout ?_
      rw [work, work, if_neg (Nat.not_lt.mpr hst)]
      split <;> omega

theorem advance (T : Tracks (table fd) c) : Advance table fd c := by
  rcases Nat.lt_or_ge (table fd).sendptr (table fd).sendbufEnd with hst | hst
  · exact advance_send T hst
  · exact advance_recv T hst

end

/-! ## One peer after the other -/

universe u v

/-- What is seen of an event server: whether it has halted, whether its loop is about to wait for
events, its peers and the connections. -/
structure View (σ : Type u) (maxfds : Nat) where
  halted : σ → Option Halt
  waits : σ → Prop
  table : σ → Table maxfds
  socks : σ → Nat → Option Conn
  closed : σ → List Conn

namespace View
variable {σ : Type u} {α : Type v} {maxfds : Nat} (V : View σ maxfds)

/-- About to wait for events. -/
def Top (s : σ) : Prop := V.halted s = none ∧ V.waits s

/-- What is left to do for the peer on a descriptor. -/
def left (s : σ) (fd : Nat) : Nat :=
  if h : fd < maxfds then ((V.socks s fd).map (work (V.table s ⟨fd, h⟩))).getD 0 else 0

/-- `t` is `s` with the peer on `fd` brought on: closed, or with less left to do. -/
structure Round (fd : Nat) (c : Conn) (s t : σ) : Prop where
  keeps : V.closed s ⊆ V.closed t
  others : ∀ k, k ≠ fd → V.socks t k = V.socks s k
  peer : V.socks t fd = none ∧ c ∈ V.closed t ∧ c.Done ∨
    ∃ c', V.socks t fd = some c' ∧ c'.stream = c.stream ∧ V.left t fd < V.left s fd

/-- From the top of its loop the server can bring any open peer on and come to the top again. -/
structure Rounds (M : Machine σ α) : Prop where
  below : ∀ {s fd c}, M.Reach Machine.anyStep s → V.Top s → V.socks s fd = some c → fd < maxfds
  round : ∀ {s fd c}, M.Reach Machine.anyStep s → V.Top s → V.socks s fd = some c →
    ∃ ls t, M.run s ls = some t ∧ V.Top t ∧ V.Round fd c s t

/-- What `fd` was open for in `s` has been served to its end. -/
def Ended (s t : σ) (fd : Nat) : Prop :=
  V.socks t fd = none ∧
    ∀ c, V.socks s fd = some c → ∃ c' ∈ V.closed t, c'.stream = c.stream ∧ c'.Done

variable {V} {M : Machine σ α} {s t : σ} {c c' : Conn}

section
variable {fd : Fin maxfds} {q : PeerState}

theorem left_eq (hc : V.socks s fd = some c) : V.left s fd = work (V.table s fd) c := by
  rw [left, dif_pos fd.isLt, hc]
  rfl

/-- A peer is moved on, and there is less left to do for it. -/
theorem Round.set (hc : V.socks s fd = some c) (hclosed : V.closed t = V.closed s)
    (hsocks : V.socks t = Function.update (V.socks s) fd (some c'))
    (htable : V.table t = Function.update (V.table s) fd q) (hstream : c'.stream = c.stream)
    (hwork : work q c' < work (V.table s fd) c) : V.Round fd c s t where
  keeps := by rw [hclosed]; exact List.Subset.refl _
  others k hk := by rw [hsocks, Function.update_of_ne hk]
  peer := by
    have hc' : V.socks t fd = some c' := by rw [hsocks, Function.update_self]
    refine .inr ⟨c', hc', hstream, ?_⟩
    rw [left_eq hc', left_eq hc, htable, Function.update_self]
    exact hwork

theorem Round.drop (hclosed : V.closed t = c :: V.closed s)
    (hsocks : V.socks t = Function.update (V.socks s) fd none) (hdone : c.Done) :
    V.Round fd c s t where
  keeps := by rw [hclosed]; exact List.subset_cons_self _ _
  others k hk := by rw [hsocks, Function.update_of_ne hk]
  peer := .inl ⟨by rw [hsocks, Function.update_self], by rw [hclosed]; exact List.mem_cons_self,
    hdone⟩

end

variable {fd : Nat}

theorem Rounds.serve (R : V.Rounds M)
    (hr : M.Reach Machine.anyStep s) (ht : V.Top s) (hc : V.socks s fd = some c) :
    ∃ ls t, M.run s ls = some t ∧ V.Top t ∧ V.closed s ⊆ V.closed t ∧
      (∀ k, k ≠ fd → V.socks t k = V.socks s k) ∧ V.Ended s t fd := by
  induction hn : V.left s fd using Nat.strongRecOn generalizing s c with
  | ind n ih =>
    obtain ⟨ls, t, hrun, ht', H⟩ := R.round hr ht hc
    rcases H.peer with ⟨hnone, hmem, hdone⟩ | ⟨c', hc', hstream, hlt⟩
    · refine ⟨ls, t, hrun, ht', H.keeps, H.others, hnone, fun d hd => ?_⟩
      obtain rfl := Option.some.inj (hc.symm.trans hd)
      exact ⟨c, hmem, rfl, hdone⟩
    · obtain ⟨ls', u, hrun', hu, hclosed, hothers, hnone, hended⟩ :=
        ih _ (hn ▸ hlt) (hr.run hrun) ht' hc' rfl
      refine ⟨ls ++ ls', u, (Machine.run_append hrun).trans hrun', hu,
        List.Subset.trans H.keeps hclosed,
        fun k hk => (hothers k hk).trans (H.others k hk), hnone, fun d hd => ?_⟩
      obtain rfl := Option.some.inj (hc.symm.trans hd)
      obtain ⟨e, he, hes, hed⟩ := hended c' hc'
      exact ⟨e, he, hes.trans hstream, hed⟩

/-- The descriptors below `n` are served, and the others left alone. -/
theorem Rounds.serveBelow (R : V.Rounds M)
    (hr : M.Reach Machine.anyStep s) (ht : V.Top s) (n : Nat) :
    ∃ ls t, M.run s ls = some t ∧ V.Top t ∧ V.closed s ⊆ V.closed t ∧
      (∀ k, n ≤ k → V.socks t k = V.socks s k) ∧ ∀ k < n, V.Ended s t k := by
  induction n with
  | zero => exact ⟨[], s, rfl, ht, List.Subset.refl _, fun _ _ => rfl, fun k hk => by cases hk⟩
  | succ n ih =>
    obtain ⟨ls, t, hrun, ht', hclosed, habove, hbelow⟩ := ih
    cases hn : V.socks t n with
    | none =>
      refine ⟨ls, t, hrun, ht', hclosed, fun k hk => habove k (Nat.le_of_succ_le hk), ?_⟩
      intro k hk
      rcases Nat.lt_succ_iff_lt_or_eq.mp hk with hk | rfl
      · exact hbelow k hk
      · refine ⟨hn, fun c hc => ?_⟩
        cases (hn.symm.trans (habove k (Nat.le_refl k))).trans hc
    | some c =>
      obtain ⟨ls', u, hrun', hu, hclosed', hothers, hended⟩ := R.serve (hr.run hrun) ht' hn
      refine ⟨ls ++ ls', u, (Machine.run_append hrun).trans hrun', hu,
        List.Subset.trans hclosed hclosed',
        fun k hk => ?_, fun k hk => ?_⟩
      · rw [hothers k (Nat.ne_of_gt hk), habove k (Nat.le_of_succ_le hk)]
      · rcases Nat.lt_succ_iff_lt_or_eq.mp hk with hk | rfl
        · refine ⟨(hothers k (Nat.ne_of_lt hk)).trans (hbelow k hk).1, fun d hd => ?_⟩
          obtain ⟨e, he, hes⟩ := (hbelow k hk).2 d hd
          exact ⟨e, hclosed' he, hes⟩
        · refine ⟨hended.1, fun d hd => hended.2 d ?_⟩
          rw [habove k (Nat.le_refl k), hd]

/-- All the open peers are served to the ends of their streams. -/
theorem Rounds.drain (R : V.Rounds M)
    (hr : M.Reach Machine.anyStep s) (ht : V.Top s) :
    ∃ ls t, M.run s ls = some t ∧ V.Top t ∧ (∀ fd, V.socks t fd = none) ∧
      ∀ fd c, V.socks s fd = some c → ∃ c' ∈ V.closed t, c'.stream = c.stream ∧ c'.Done := by
  obtain ⟨ls, t, hrun, ht', -, habove, hbelow⟩ := R.serveBelow hr ht maxfds
  refine ⟨ls, t, hrun, ht', fun fd => ?_, fun fd c hc => ?_⟩
  · rcases Nat.lt_or_ge fd maxfds with hlt | hge
    · exact (hbelow fd hlt).1
    · cases hc : V.socks s fd with
      | none => rw [habove fd hge, hc]
      | some c => exact absurd (R.below hr ht hc) (Nat.not_lt.mpr hge)
  · exact (hbelow fd (R.below hr ht hc)).2 c hc

end View
end KoScripts.Servers.Event
