import KoScripts.Servers.Select

/-! # The invariant of the select loop

`Rep` ties the live sets to the open peers; the handlers of a pass keep it. `Pass` ties the
snapshot, the count `nready` and the live sets to each other: what is ready and still ahead in the
pass is in the live set it was taken from, because a handler edits the sets at its own descriptor
only, or at one that was not registered. -/

namespace KoScripts.Servers.Select
open Lib Event

structure Rep (listenerFd : Nat) (s : State) : Prop where
  listener : listenerFd ∈ s.readfdSet ∧ listenerFd ∉ s.writefdSet ∧ s.socks listenerFd = none
  listenerLe : listenerFd ≤ s.fdsetMax
  bound : s.fdsetMax < fdSetsize
  opened : ∀ {fd c}, s.socks fd = some c → ∃ h : fd < maxfds,
    Tracks (s.table ⟨fd, h⟩) c ∧ fd ≤ s.fdsetMax ∧
    (fd ∈ s.readfdSet ↔ (s.table ⟨fd, h⟩).interest.wantRead = true) ∧
    (fd ∈ s.writefdSet ↔ (s.table ⟨fd, h⟩).interest.wantWrite = true)
  free : ∀ {fd}, fd ≠ listenerFd → s.socks fd = none → fd ∉ s.readfdSet ∧ fd ∉ s.writefdSet
  done : ∀ c ∈ s.closed, c.Done

/-- The ready descriptors from `k` on. -/
def ahead (ready : Finset Nat) (k : Nat) : Nat := (ready.filter (k ≤ ·)).card

structure Pass (s : State) : Prop where
  disjoint : ∀ {x}, x ∈ s.readfds → x ∉ s.writefds
  le : ∀ {x}, x ∈ s.readfds ∨ x ∈ s.writefds → x ≤ s.fdsetMax
  readable : ∀ {x}, x ∈ s.readfds → s.fd ≤ x → x ∈ s.readfdSet
  writable : ∀ {x}, x ∈ s.writefds → s.fd ≤ x → x ∈ s.writefdSet
  count : s.nready = ahead s.readfds s.fd + ahead s.writefds s.fd
  total : s.nready + s.served.length = s.readfds.card + s.writefds.card
  nodup : (s.served.map (·.fd)).Nodup
  served : ∀ x, x ∈ s.served.map (·.fd) ↔ (x ∈ s.readfds ∨ x ∈ s.writefds) ∧ x < s.fd

/-- What a branch of the body leaves as it was: the variables of the pass, and the live sets at
every descriptor but the one served. -/
structure Frame (fd : Nat) (s t : State) : Prop where
  readfds : t.readfds = s.readfds
  writefds : t.writefds = s.writefds
  nready : t.nready = s.nready
  loop : t.fd = s.fd
  fdsetMax : s.fdsetMax ≤ t.fdsetMax
  readable : ∀ {x}, x ≠ fd → x ∈ s.readfdSet → x ∈ t.readfdSet
  writable : ∀ {x}, x ≠ fd → x ∈ s.writefdSet → x ∈ t.writefdSet

/-- What a branch of the body does for the descriptor `fd`, unless it ends the process. -/
structure Handled (listenerFd fd : Nat) (s t : State) : Prop where
  served : t.served = s.served
  rep : t.halted = none → Rep listenerFd t
  frame : t.halted = none → Frame fd s t

section
variable {listenerFd : Nat} {s t : State} {fd : Fin maxfds} {c : Conn} {q : PeerState}

theorem Handled.halt {k : Nat} (e : Halt) : Handled listenerFd k s (s.halt e) :=
  ⟨rfl, nofun, nofun⟩

/-! ## Updating and closing one peer -/

/-- `s` with the entry and the connection of one peer replaced, and the peer in the set that its
staged bytes ask for. -/
def State.setPeer (s : State) (fd : Fin maxfds) (q : PeerState) (c : Conn) : State :=
  { s with
    table := Function.update s.table fd q
    socks := Function.update s.socks fd (some c) }.register fd q.interest

theorem mem_register_read {x k : Nat} {status : FdStatus} :
    x ∈ (s.register k status).readfdSet ↔
      if x = k then status.wantRead = true else x ∈ s.readfdSet := by
  rw [State.register]
  cases status.wantRead <;> by_cases h : x = k <;> simp [h]

theorem mem_register_write {x k : Nat} {status : FdStatus} :
    x ∈ (s.register k status).writefdSet ↔
      if x = k then status.wantWrite = true else x ∈ s.writefdSet := by
  rw [State.register]
  cases status.wantWrite <;> by_cases h : x = k <;> simp [h]

theorem Rep.setPeer (R : Rep listenerFd s) (hl : (fd : Nat) ≠ listenerFd) (hle : fd ≤ s.fdsetMax)
    (T : Tracks q c) : Rep listenerFd (s.setPeer fd q c) where
  listener := by
    obtain ⟨h1, h2, h3⟩ := R.listener
    refine ⟨?_, ?_, ?_⟩
    · rw [State.setPeer, mem_register_read, if_neg hl.symm]
      exact h1
    · rw [State.setPeer, mem_register_write, if_neg hl.symm]
      exact h2
    · simp only [State.setPeer, State.register, Function.update_of_ne hl.symm]
      exact h3
  listenerLe := R.listenerLe
  bound := R.bound
  opened {x d} h := by
    rw [State.setPeer, mem_register_read, mem_register_write]
    by_cases hx : x = fd
    · subst hx
      simp only [State.setPeer, State.register, Function.update_self, Option.some.injEq] at h
      subst h
      exact ⟨fd.isLt, by simpa [State.register] using ⟨T, hle⟩⟩
    · simp only [State.setPeer, State.register, Function.update_of_ne hx] at h
      obtain ⟨hlt, H⟩ := R.opened h
      have hne : (⟨x, hlt⟩ : Fin maxfds) ≠ fd := fun h => hx (congrArg Fin.val h)
      refine ⟨hlt, ?_⟩
      simp only [State.register, Function.update_of_ne hne, if_neg hx]
      exact H
  free {x} hne h := by
    rw [State.setPeer, mem_register_read, mem_register_write]
    by_cases hx : x = fd
    · subst hx; simp [State.setPeer, State.register] at h
    · simp only [State.setPeer, State.register, Function.update_of_ne hx] at h
      rw [if_neg hx, if_neg hx]
      exact R.free hne h
  done := R.done

/-- `s` after the connection of one peer has been closed. -/
def State.dropPeer (s : State) (fd : Fin maxfds) (c : Conn) : State :=
  { s.register fd fdStatusNORW with
    socks := Function.update s.socks fd none
    closed := c :: s.closed }

theorem Rep.dropPeer (R : Rep listenerFd s) (hl : (fd : Nat) ≠ listenerFd)
    (hc : c.Done) :
    Rep listenerFd (s.dropPeer fd c) where
  listener := by
    obtain ⟨h1, h2, h3⟩ := R.listener
    refine ⟨mem_register_read.mpr ?_, ?_, ?_⟩
    · rw [if_neg hl.symm]
      exact h1
    · intro h
      have := mem_register_write.mp h
      rw [if_neg hl.symm] at this
      exact h2 this
    · simp only [State.dropPeer, Function.update_of_ne hl.symm]
      exact h3
  listenerLe := R.listenerLe
  bound := R.bound
  opened {x d} h := by
    by_cases hx : x = fd
    · simp [State.dropPeer, hx] at h
    · simp only [State.dropPeer, Function.update_of_ne hx] at h
      obtain ⟨hlt, hp, hle, hr, hw⟩ := R.opened h
      refine ⟨hlt, hp, hle, ?_, ?_⟩
      · rw [State.dropPeer, mem_register_read, if_neg hx]
        exact hr
      · rw [State.dropPeer, mem_register_write, if_neg hx]
        exact hw
  free {x} hne h := by
    rw [State.dropPeer, mem_register_read, mem_register_write]
    by_cases hx : x = fd
    · simp [hx, fdStatusNORW]
    · simp only [State.dropPeer, Function.update_of_ne hx] at h
      rw [if_neg hx, if_neg hx]
      exact R.free hne h
  done d h := by
    rcases List.mem_cons.mp h with rfl | h
    · exact hc
    · exact R.done d h

/-- An edit of the sets at `fd` only is framed there. -/
theorem Frame.register {status : FdStatus} {k : Nat} : Frame k s (s.register k status) where
  readfds := rfl
  writefds := rfl
  nready := rfl
  loop := rfl
  fdsetMax := Nat.le_refl _
  readable hne h := mem_register_read.mpr (by rwa [if_neg hne])
  writable hne h := mem_register_write.mpr (by rwa [if_neg hne])

theorem Handled.setPeer (R : Rep listenerFd s) (hl : (fd : Nat) ≠ listenerFd)
    (hle : fd ≤ s.fdsetMax) (T : Tracks q c) :
    Handled listenerFd fd s (s.setPeer fd q c) where
  served := rfl
  rep _ := R.setPeer hl hle T
  frame _ := ⟨rfl, rfl, rfl, rfl, Nat.le_refl _, Frame.register.readable, Frame.register.writable⟩

theorem Handled.dropPeer (R : Rep listenerFd s) (hl : (fd : Nat) ≠ listenerFd)
    (hc : c.Done) :
    Handled listenerFd fd s (s.dropPeer fd c) where
  served := rfl
  rep _ := R.dropPeer hl hc
  frame _ := ⟨rfl, rfl, rfl, rfl, Nat.le_refl _, Frame.register.readable, Frame.register.writable⟩

/-! ## What follows a handler -/

theorem registerOrClose_interest :
    { s with
      table := Function.update s.table fd q
      socks := Function.update s.socks fd (some c) }.registerOrClose fd q.interest =
      s.setPeer fd q c := by
  rw [State.registerOrClose, interest_ne_norw]
  rfl

theorem registerOrClose_norw (hc : s.socks fd = some c) :
    s.registerOrClose fd fdStatusNORW = s.dropPeer fd c := by
  simp [State.registerOrClose, fdStatusNORW, State.close, hc, State.dropPeer, State.register]

/-! ## The branches of the body -/

theorem Rep.raise (R : Rep listenerFd s) {m : Nat} (hm : s.fdsetMax ≤ m) (hb : m < fdSetsize) :
    Rep listenerFd { s with fdsetMax := m } where
  listener := R.listener
  listenerLe := Nat.le_trans R.listenerLe hm
  bound := hb
  opened h := by
    obtain ⟨hlt, T, hle, H⟩ := R.opened h
    exact ⟨hlt, T, Nat.le_trans hle hm, H⟩
  free := R.free
  done := R.done

theorem acceptPeer_handled (R : Rep listenerFd s) {a : AcceptResult}
    (ha : s.acceptOk listenerFd a = true) : Handled listenerFd listenerFd s (s.acceptPeer a) := by
  cases a with
  | again =>
    refine ⟨rfl, fun _ => R, fun _ => ?_⟩
    exact ⟨rfl, rfl, rfl, rfl, Nat.le_refl _, fun _ h => h, fun _ h => h⟩
  | error => exact .halt .exit
  | fd n stream =>
    obtain ⟨hl, hn⟩ : n ≠ listenerFd ∧ s.socks n = none := by simpa [State.acceptOk] using ha
    by_cases hbig : n > s.fdsetMax ∧ n ≥ fdSetsize
    · simp only [State.acceptPeer, if_pos hbig]
      exact ⟨rfl, nofun, nofun⟩
    simp only [State.acceptPeer, if_neg hbig]
    rcases Nat.lt_or_ge n maxfds with hlt | hge
    · obtain ⟨q, hq, T⟩ := onPeerConnected_turn s.table ⟨n, hlt⟩ stream
      have hle : s.fdsetMax ≤ (if n > s.fdsetMax then n else s.fdsetMax) := by split <;> omega
      have hle' : n ≤ (if n > s.fdsetMax then n else s.fdsetMax) := by split <;> omega
      have hb : (if n > s.fdsetMax then n else s.fdsetMax) < fdSetsize := by
        have := R.bound
        split <;> omega
      simp only [onPeerConnected, hq]
      refine ⟨rfl, fun _ => (R.raise hle hb).setPeer hl hle' T, ?_⟩
      intro _
      obtain ⟨hnr, hnw⟩ := R.free hl hn
      -- the new descriptor was in neither set
      have hneR : ∀ {x}, x ∈ s.readfdSet → x ≠ n := by
        rintro x h rfl
        exact hnr h
      have hneW : ∀ {x}, x ∈ s.writefdSet → x ≠ n := by
        rintro x h rfl
        exact hnw h
      exact ⟨rfl, rfl, rfl, rfl, hle, fun _ h => mem_register_read.mpr (by rwa [if_neg (hneR h)]),
        fun _ h => mem_register_write.mpr (by rwa [if_neg (hneW h)])⟩
    · have hq := onPeerConnected_of_ge s.table hge
      simp only [onPeerConnected, hq]
      exact ⟨rfl, nofun, nofun⟩

theorem recvPeer_handled (fd : Fin maxfds) (R : Rep listenerFd s) (hl : (fd : Nat) ≠ listenerFd)
    (hc : s.socks fd = some c) {r : RecvResult} (hr : c.recvOk r = true) :
    Handled listenerFd fd s (s.recvPeer fd r) := by
  obtain ⟨_, T, hle, -⟩ := R.opened hc
  have turn := onPeerReadyRecv_turn T hr
  rw [State.recvPeer, onPeerReadyRecv]
  generalize Event.onPeerReadyRecv s.table fd r = out at turn ⊢
  cases turn with
  | exit => exact .halt .exit
  | moved T' =>
    simp only [hc, Option.map_some]
    rw [registerOrClose_interest]
    exact .setPeer R hl hle T'
  | closed D =>
    have hsame : Function.update s.socks fd (some c) = s.socks := by
      rw [← hc, Function.update_eq_self]
    simp only [hc, Option.map_some, Conn.received_nil, hsame]
    rw [registerOrClose_norw hc]
    exact .dropPeer R hl D

theorem sendPeer_handled (fd : Fin maxfds) (R : Rep listenerFd s) (hl : (fd : Nat) ≠ listenerFd)
    (hc : s.socks fd = some c) (hw : (fd : Nat) ∈ s.writefdSet) {r : SendResult}
    (hr : s.sendOk fd r = true) : Handled listenerFd fd s (s.sendPeer fd r) := by
  obtain ⟨_, T, hle, -, hwr⟩ := R.opened hc
  have turn := onPeerReadySend_turn T (interest_wantWrite.mp (hwr.mp hw)) (r := r)
    fun nsent h => by
      subst h
      simp only [State.sendOk, fd.isLt, dif_pos, Bool.and_eq_true, decide_eq_true_eq] at hr
      exact hr.2
  rw [State.sendPeer, onPeerReadySend]
  generalize Event.onPeerReadySend s.table fd r = out at turn ⊢
  cases turn with
  | exit => exact .halt .exit
  | moved T' =>
    simp only [hc, Option.map_some]
    rw [registerOrClose_interest]
    exact .setPeer R hl hle T'
  | closed D =>
    have hsame : Function.update s.socks fd (some c) = s.socks := by
      rw [← hc, Function.update_eq_self]
    simp only [hc, Option.map_some, Conn.wrote_nil, hsame]
    rw [registerOrClose_norw hc]
    exact .dropPeer R hl D

end

/-! ## One round of the loop -/

section
variable {listenerFd : Nat} {s t : State}

@[simp] theorem next_halted : s.next.halted = s.halted := by
  unfold State.next
  split <;> rfl

@[simp] theorem next_socks : s.next.socks = s.socks := by
  unfold State.next
  split <;> rfl

theorem ahead_succ (ready : Finset Nat) (k : Nat) :
    ahead ready k = (if k ∈ ready then 1 else 0) + ahead ready (k + 1) := by
  have h : ready.filter (k ≤ ·) =
      if k ∈ ready then insert k (ready.filter (k + 1 ≤ ·)) else ready.filter (k + 1 ≤ ·) := by
    ext x
    split <;> simp only [Finset.mem_filter, Finset.mem_insert]
    · constructor
      · rintro ⟨hx, hk⟩
        rcases Nat.eq_or_lt_of_le hk with rfl | hk
        · exact .inl rfl
        · exact .inr ⟨hx, hk⟩
      · rintro (rfl | ⟨hx, hk⟩)
        · exact ⟨‹_›, Nat.le_refl _⟩
        · exact ⟨hx, Nat.le_of_succ_le hk⟩
    · constructor
      · rintro ⟨hx, hk⟩
        refine ⟨hx, Nat.lt_of_le_of_ne hk ?_⟩
        rintro rfl
        exact absurd hx ‹_›
      · rintro ⟨hx, hk⟩
        exact ⟨hx, Nat.le_of_succ_le hk⟩
  rw [ahead, h]
  split
  · rw [Finset.card_insert_of_notMem (by simp), Nat.add_comm]
    rfl
  · rw [Nat.zero_add]
    rfl

theorem ahead_zero (ready : Finset Nat) : ahead ready 0 = ready.card := by
  rw [ahead, Finset.filter_true_of_mem fun _ _ => Nat.zero_le _]

theorem ahead_eq_zero {ready : Finset Nat} {k : Nat} :
    ahead ready k = 0 ↔ ∀ x ∈ ready, x < k := by
  simp [ahead, Finset.filter_eq_empty_iff]

/-- The round of a descriptor that is not ready. -/
theorem Pass.skip (P : Pass s) (hr : s.fd ∉ s.readfds) (hw : s.fd ∉ s.writefds) :
    Pass { s with fd := s.fd + 1 } where
  disjoint := P.disjoint
  le := P.le
  readable hx hle := P.readable hx (Nat.le_of_succ_le hle)
  writable hx hle := P.writable hx (Nat.le_of_succ_le hle)
  count := by
    have h := P.count
    rw [ahead_succ s.readfds, ahead_succ s.writefds, if_neg hr, if_neg hw] at h
    simpa using h
  total := P.total
  nodup := P.nodup
  served x := by
    rw [P.served x]
    apply and_congr_right
    intro hx
    have hne : x ≠ s.fd := by
      rintro rfl
      exact hx.elim hr hw
    change x < s.fd ↔ x < s.fd + 1
    omega

/-- A ready descriptor is in exactly one of the two sets. -/
theorem Pass.count_serve (P : Pass s) (hrw : s.fd ∈ s.readfds ∨ s.fd ∈ s.writefds) :
    s.nready - 1 = (ahead s.readfds (s.fd + 1) : Int) + ahead s.writefds (s.fd + 1) := by
  have h := P.count
  rw [ahead_succ s.readfds, ahead_succ s.writefds] at h
  rcases hrw with hr | hw
  · rw [if_pos hr, if_neg (P.disjoint hr)] at h
    omega
  · rw [if_neg fun hr => P.disjoint hr hw, if_pos hw] at h
    omega

theorem Pass.nodup_serve (P : Pass s) : (s.served.map (·.fd) ++ [s.fd]).Nodup := by
  rw [List.nodup_append]
  refine ⟨P.nodup, List.nodup_singleton _, ?_⟩
  intro x hx y hy
  have hlt : x < s.fd := ((P.served x).mp hx).2
  rw [List.mem_singleton.mp hy]
  exact Nat.ne_of_lt hlt

theorem Pass.mem_serve (P : Pass s) (hrw : s.fd ∈ s.readfds ∨ s.fd ∈ s.writefds) (x : Nat) :
    x ∈ s.served.map (·.fd) ++ [s.fd] ↔ (x ∈ s.readfds ∨ x ∈ s.writefds) ∧ x < s.fd + 1 := by
  rw [List.mem_append, List.mem_singleton, P.served x]
  constructor
  · rintro (⟨hx, hlt⟩ | rfl)
    · exact ⟨hx, Nat.lt_succ_of_lt hlt⟩
    · exact ⟨hrw, Nat.lt_succ_self _⟩
  · rintro ⟨hx, hlt⟩
    rcases Nat.lt_succ_iff_lt_or_eq.mp hlt with hlt | rfl
    · exact .inl ⟨hx, hlt⟩
    · exact .inr rfl

/-- The round of a ready descriptor. -/
theorem Pass.serve (P : Pass s) {isOpen : Bool} (hrw : s.fd ∈ s.readfds ∨ s.fd ∈ s.writefds)
    (H : Handled listenerFd s.fd (s.serve isOpen) t) (hrun : t.halted = none) :
    Pass { t with fd := t.fd + 1 } := by
  have F := H.frame hrun
  have hloop : t.fd = s.fd := F.loop
  have hn : t.nready = s.nready - 1 := F.nready
  have hserved : t.served = s.served ++ [⟨s.fd, isOpen⟩] := H.served
  have hfds : t.served.map (·.fd) = s.served.map (·.fd) ++ [s.fd] := by
    rw [hserved, List.map_append]
    rfl
  rw [hloop]
  constructor
  · intro x hx
    simp only [F.readfds, F.writefds] at hx ⊢
    exact P.disjoint hx
  · intro x hx
    simp only [F.readfds, F.writefds] at hx
    exact Nat.le_trans (P.le hx) F.fdsetMax
  · intro x hx hle
    simp only [F.readfds] at hx
    exact F.readable (Nat.ne_of_gt hle) (P.readable hx (Nat.le_of_succ_le hle))
  · intro x hx hle
    simp only [F.writefds] at hx
    exact F.writable (Nat.ne_of_gt hle) (P.writable hx (Nat.le_of_succ_le hle))
  · simp only [F.readfds, F.writefds, hn]
    exact P.count_serve hrw
  · have h := P.total
    simp only [hn, hserved, F.readfds, F.writefds, List.length_append, List.length_singleton]
    change (_ : Int) = s.readfds.card + s.writefds.card
    omega
  · simp only [hfds]
    exact P.nodup_serve
  · simp only [hfds, F.readfds, F.writefds]
    exact P.mem_serve hrw

/-! ## Every run keeps the invariant -/

/-- A field of the pass does not matter to the representation. -/
theorem Rep.congr (R : Rep listenerFd s) (ht : t.table = s.table)
    (hr : t.readfdSet = s.readfdSet) (hw : t.writefdSet = s.writefdSet)
    (hm : t.fdsetMax = s.fdsetMax) (hs : t.socks = s.socks) (hc : t.closed = s.closed) :
    Rep listenerFd t := by
  constructor
  · rw [hr, hw, hs]; exact R.listener
  · rw [hm]; exact R.listenerLe
  · rw [hm]; exact R.bound
  · rw [hr, hw, hs, hm, ht]; exact R.opened
  · rw [hr, hw, hs]; exact R.free
  · rw [hc]; exact R.done

/-- A descriptor of a live set other than the listener is open. -/
theorem Rep.isOpen (R : Rep listenerFd s) {x : Nat} (hx : x ∈ s.readfdSet ∨ x ∈ s.writefdSet)
    (hl : x ≠ listenerFd) : ∃ c, s.socks x = some c := by
  cases hc : s.socks x with
  | some c => exact ⟨c, rfl⟩
  | none => exact (hx.elim (R.free hl hc).1 (R.free hl hc).2).elim

/-- In a running state: the representation, the pass, and that every descriptor served so far in
the pass was open when it was served. -/
structure Inv (listenerFd : Nat) (s : State) : Prop where
  rep : s.halted = none → Rep listenerFd s
  pass : s.halted = none → Pass s
  opened : ∀ v ∈ s.served, v.isOpen = true

theorem Inv.init : Inv listenerFd (init listenerFd) where
  rep h := by
    have hlt : listenerFd < fdSetsize := by
      by_contra hge
      simp [Select.init, Nat.le_of_not_lt hge] at h
    refine ⟨⟨by simp [Select.init], by simp [Select.init], rfl⟩, Nat.le_refl _, hlt, nofun, ?_,
      nofun⟩
    intro x hx _
    simpa [Select.init] using hx
  pass _ := by
    constructor <;> simp [Select.init, ahead]
  opened := nofun

theorem serve_opened {isOpen : Bool} (h : ∀ v ∈ s.served, v.isOpen = true) (ho : isOpen = true) :
    ∀ v ∈ (s.serve isOpen).served, v.isOpen = true := by
  intro v hv
  rcases List.mem_append.mp hv with hv | hv
  · exact h v hv
  · rw [List.mem_singleton.mp hv]
    exact ho

/-- The body on a ready descriptor that its branch handles. -/
theorem Inv.serve (I : Inv listenerFd s) (hrun : s.halted = none)
    (hrw : s.fd ∈ s.readfds ∨ s.fd ∈ s.writefds)
    (H : Handled listenerFd s.fd (s.serve true) t) :
    Inv listenerFd t.next := by
  have hopen : ∀ v ∈ t.served, v.isOpen = true := by
    rw [H.served]
    exact serve_opened I.opened rfl
  by_cases ht : t.halted = none
  · rw [State.next, if_pos ht]
    exact ⟨fun _ => (H.rep ht).congr rfl rfl rfl rfl rfl rfl,
      fun _ => (I.pass hrun).serve hrw H ht, hopen⟩
  · rw [State.next, if_neg ht]
    exact ⟨fun h => absurd h ht, fun h => absurd h ht, hopen⟩

theorem Rep.serve (R : Rep listenerFd s) {isOpen : Bool} : Rep listenerFd (s.serve isOpen) :=
  R.congr rfl rfl rfl rfl rfl rfl

/-- A peer that is served in the read branch is open. -/
theorem Inv.readable (I : Inv listenerFd s) (hrun : s.halted = none) (hr : s.fd ∈ s.readfds)
    (hl : s.fd ≠ listenerFd) : ∃ c, s.socks s.fd = some c ∧ s.fd < maxfds := by
  have R := I.rep hrun
  obtain ⟨c, hc⟩ := R.isOpen (.inl ((I.pass hrun).readable hr (Nat.le_refl _))) hl
  exact ⟨c, hc, (R.opened hc).1⟩

/-- The write branch serves open peers only. -/
theorem Inv.writable (I : Inv listenerFd s) (hrun : s.halted = none) (hw : s.fd ∈ s.writefds) :
    s.fd ≠ listenerFd ∧ s.fd ∈ s.writefdSet ∧ ∃ c, s.socks s.fd = some c ∧ s.fd < maxfds := by
  have R := I.rep hrun
  have hset := (I.pass hrun).writable hw (Nat.le_refl _)
  have hl : s.fd ≠ listenerFd := by
    intro h
    exact R.listener.2.1 (h ▸ hset)
  obtain ⟨c, hc⟩ := R.isOpen (.inr hset) hl
  exact ⟨hl, hset, c, hc, (R.opened hc).1⟩

theorem readBranch_handled (I : Inv listenerFd s) (hrun : s.halted = none) {a : AcceptResult}
    {r : RecvResult} (hr : s.fd ∈ s.readfds)
    (hok : if s.fd = listenerFd then s.acceptOk listenerFd a = true else s.recvOk s.fd r = true) :
    Handled listenerFd s.fd (s.serve true) (s.readBranch listenerFd a r) := by
  rw [State.readBranch, if_pos hr]
  by_cases hl : s.fd = listenerFd
  · rw [if_pos hl] at hok ⊢
    rw [hl]
    exact acceptPeer_handled (I.rep hrun).serve hok
  · rw [if_neg hl] at hok ⊢
    obtain ⟨c, hc, hlt⟩ := I.readable hrun hr hl
    rw [State.recvOk, hc] at hok
    rw [hc]
    exact recvPeer_handled ⟨s.fd, hlt⟩ (I.rep hrun).serve hl hc hok

theorem writeBranch_handled (I : Inv listenerFd s) (hrun : s.halted = none) {r : SendResult}
    (hw : s.fd ∈ s.writefds) (hok : s.sendOk s.fd r = true) :
    Handled listenerFd s.fd (s.serve true) (s.writeBranch r) := by
  obtain ⟨hl, hset, c, hc, hlt⟩ := I.writable hrun hw
  rw [State.writeBranch, if_pos hw, hc]
  exact sendPeer_handled ⟨s.fd, hlt⟩ (I.rep hrun).serve hl hc hset hok

/-- A round of the `for` loop: the descriptor is served by one of the branches, or not ready. -/
inductive Round (listenerFd : Nat) (s : State) (a : AcceptResult) (r : RecvResult)
    (r' : SendResult) : State → Prop
  | read : s.fd ∈ s.readfds →
    (if s.fd = listenerFd then s.acceptOk listenerFd a = true else s.recvOk s.fd r = true) →
    Round listenerFd s a r r' (s.readBranch listenerFd a r).next
  | write : s.fd ∉ s.readfds → s.fd ∈ s.writefds → s.sendOk s.fd r' = true →
    Round listenerFd s a r r' (s.writeBranch r').next
  | skip : s.fd ∉ s.readfds → s.fd ∉ s.writefds → Round listenerFd s a r r' s.next

theorem round_of_exec (I : Inv listenerFd s) {a : AcceptResult} {r : RecvResult} {r' : SendResult}
    (h : exec listenerFd s (.body a r r') = some t) :
    s.halted = none ∧ Round listenerFd s a r r' t := by
  simp only [exec, Option.ite_none_right_eq_some] at h
  obtain ⟨⟨hrun, -, hok⟩, h⟩ := h
  refine ⟨hrun, ?_⟩
  by_cases hr : s.fd ∈ s.readfds
  · -- The write branch does not run.
    have hok : if s.fd = listenerFd then s.acceptOk listenerFd a = true
        else s.recvOk s.fd r = true := by simpa using hok hr
    have hw : s.fd ∉ s.writefds := (I.pass hrun).disjoint hr
    by_cases ht : (s.readBranch listenerFd a r).halted = none
    · have F := (readBranch_handled I hrun hr hok).frame ht
      have hwf : (s.readBranch listenerFd a r).writefds = s.writefds := F.writefds
      have hloop : (s.readBranch listenerFd a r).fd = s.fd := F.loop
      have hskip : (s.readBranch listenerFd a r).writeBranch r' = s.readBranch listenerFd a r := by
        rw [State.writeBranch, hloop, hwf, if_neg hw]
      rw [if_neg (not_not.mpr ht), if_pos fun h => absurd h hw, hskip, Option.some.injEq] at h
      exact h ▸ .read hr hok
    · have hnext : (s.readBranch listenerFd a r).next = s.readBranch listenerFd a r := if_neg ht
      rw [if_pos ht, ← hnext, Option.some.injEq] at h
      exact h ▸ .read hr hok
  · have hsame : s.readBranch listenerFd a r = s := by rw [State.readBranch, if_neg hr]
    rw [hsame, if_neg (not_not.mpr hrun)] at h
    by_cases hw : s.fd ∈ s.writefds
    · simp only [hw, true_implies, Option.ite_none_right_eq_some, Option.some.injEq] at h
      exact h.2 ▸ .write hr hw h.1
    · have hskip : s.writeBranch r' = s := by rw [State.writeBranch, if_neg hw]
      rw [if_pos fun h => absurd h hw, hskip, Option.some.injEq] at h
      exact h ▸ .skip hr hw

/-- No descriptor is watched for both. -/
theorem Rep.disjoint (R : Rep listenerFd s) {fd : Nat} (hr : fd ∈ s.readfdSet)
    (hw : fd ∈ s.writefdSet) : False := by
  have hl : fd ≠ listenerFd := by
    rintro rfl
    exact R.listener.2.1 hw
  obtain ⟨c, hc⟩ := R.isOpen (.inl hr) hl
  obtain ⟨_, _, _, hR, hW⟩ := R.opened hc
  have hread := interest_wantRead.mp (hR.mp hr)
  have hwrite := interest_wantWrite.mp (hW.mp hw)
  omega

theorem Rep.le_fdsetMax (R : Rep listenerFd s) {fd : Nat}
    (h : fd ∈ s.readfdSet ∨ fd ∈ s.writefdSet) : fd ≤ s.fdsetMax := by
  by_cases hl : fd = listenerFd
  · exact hl ▸ R.listenerLe
  · obtain ⟨c, hc⟩ := R.isOpen h hl
    exact (R.opened hc).2.2.1

theorem exec_preserves (I : Inv listenerFd s) {a : Label} (h : exec listenerFd s a = some t) :
    Inv listenerFd t := by
  cases a with
  | select readfds writefds =>
    simp only [exec, Option.ite_none_right_eq_some, Option.some.injEq] at h
    obtain ⟨⟨hrun, -, hr, hw⟩, rfl⟩ := h
    have R := I.rep hrun
    refine ⟨fun _ => R.congr rfl rfl rfl rfl rfl rfl, fun _ => ?_, nofun⟩
    constructor
    · exact fun hx hx' => R.disjoint (hr hx) (hw hx')
    · exact fun hx => R.le_fdsetMax (hx.imp (fun h => hr h) fun h => hw h)
    · exact fun hx _ => hr hx
    · exact fun hx _ => hw hx
    · simp only [ahead_zero]
    · exact Int.add_zero _
    · exact List.nodup_nil
    · simp
  | selectError =>
    simp only [exec, Option.ite_none_right_eq_some, Option.some.injEq] at h
    obtain ⟨-, rfl⟩ := h
    exact ⟨nofun, nofun, I.opened⟩
  | body a r r' =>
    obtain ⟨hrun, hround⟩ := round_of_exec I h
    cases hround with
    | read hr hok => exact I.serve hrun (.inl hr) (readBranch_handled I hrun hr hok)
    | write _ hw hok => exact I.serve hrun (.inr hw) (writeBranch_handled I hrun hw hok)
    | skip hr hw =>
      rw [State.next, if_pos hrun]
      exact ⟨fun h => (I.rep h).congr rfl rfl rfl rfl rfl rfl,
        fun h => (I.pass hrun).skip hr hw, I.opened⟩

theorem reach_inv {G : State → Label → Prop} (h : (selectServer listenerFd).Reach G s) :
    Inv listenerFd s := h.invariant Inv.init fun I _ hx => exec_preserves I hx

/-! ## The representation at the start of a pass -/

/-- The two sets hold the listener and the open peers. -/
theorem Rep.mem_union_iff (R : Rep listenerFd s) {fd : Nat} :
    fd ∈ s.readfdSet ∪ s.writefdSet ↔ fd = listenerFd ∨ (s.socks fd).isSome := by
  rw [Finset.mem_union]
  constructor
  · intro hfd
    by_cases hl : fd = listenerFd
    · exact .inl hl
    · obtain ⟨c, hc⟩ := R.isOpen hfd hl
      exact .inr (by rw [hc]; rfl)
  · rintro (rfl | hfd)
    · exact .inl R.listener.1
    · obtain ⟨c, hc⟩ := Option.isSome_iff_exists.mp hfd
      obtain ⟨_, _, _, hR, hW⟩ := R.opened hc
      rw [hR, hW, interest_wantRead, interest_wantWrite]
      omega

/-- An open peer is in the set of what its buffer asks for. -/
theorem Rep.interested (R : Rep listenerFd s) {fd : Nat} {c : Conn} (hc : s.socks fd = some c) :
    ∃ hfd : fd < maxfds,
      if (s.table ⟨fd, hfd⟩).sendptr < (s.table ⟨fd, hfd⟩).sendbufEnd then
        fd ∈ s.writefdSet ∧ fd ∉ s.readfdSet
      else (s.table ⟨fd, hfd⟩).staged = [] ∧ fd ∈ s.readfdSet ∧ fd ∉ s.writefdSet := by
  obtain ⟨hfd, T, _, hR, hW⟩ := R.opened hc
  refine ⟨hfd, ?_⟩
  rw [interest_wantRead] at hR
  rw [interest_wantWrite] at hW
  split
  · exact ⟨hW.mpr ‹_›, fun h => by have := hR.mp h; omega⟩
  · exact ⟨T.ok.staged_eq_nil.mpr (by omega), hR.mpr (by omega), fun h => ‹¬_› (hW.mp h)⟩

/-- Nothing is ahead when the loop condition is false. -/
theorem Pass.ahead_of_done (P : Pass s) (hloop : s.looping = false) :
    ahead s.readfds s.fd = 0 ∧ ahead s.writefds s.fd = 0 := by
  simp only [State.looping, Bool.and_eq_false_iff, decide_eq_false_iff_not] at hloop
  rcases hloop with hloop | hloop
  · simp only [ahead_eq_zero]
    exact ⟨fun x hx => Nat.lt_of_le_of_lt (P.le (.inl hx)) (Nat.lt_of_not_le hloop),
      fun x hx => Nat.lt_of_le_of_lt (P.le (.inr hx)) (Nat.lt_of_not_le hloop)⟩
  · have := P.count
    omega

/-- In every run. Whenever the process is about to call `select`: the two sets hold exactly the
listener and the open peers; the listener is in the read set only; a peer is in exactly one set,
the write set when bytes are staged and the read set when none are; `fdset_max` bounds them and is
below `FD_SETSIZE`; and the last pass has served every descriptor that was ready, `nready` being 0.
Anywhere in a pass the descriptors served are distinct ready ones and `nready` counts the others.
No handler has run on a closed descriptor. -/
theorem select_representation (h : (selectServer listenerFd).Reach Machine.anyStep s) :
    (s.halted = none → s.looping = false →
      (∀ fd, fd ∈ s.readfdSet ∪ s.writefdSet ↔ fd = listenerFd ∨ (s.socks fd).isSome) ∧
      (listenerFd ∈ s.readfdSet ∧ listenerFd ∉ s.writefdSet) ∧
      (∀ fd c, s.socks fd = some c → ∃ hfd : fd < maxfds,
        if (s.table ⟨fd, hfd⟩).sendptr < (s.table ⟨fd, hfd⟩).sendbufEnd then
          fd ∈ s.writefdSet ∧ fd ∉ s.readfdSet
        else (s.table ⟨fd, hfd⟩).staged = [] ∧ fd ∈ s.readfdSet ∧ fd ∉ s.writefdSet) ∧
      (∀ fd ∈ s.readfdSet ∪ s.writefdSet, fd ≤ s.fdsetMax) ∧ s.fdsetMax < fdSetsize ∧
      s.nready = 0 ∧ ∀ fd ∈ s.readfds ∪ s.writefds, fd ∈ s.served.map (·.fd)) ∧
    (s.halted = none → (s.served.map (·.fd)).Nodup ∧
      (∀ fd ∈ s.served.map (·.fd), fd ∈ s.readfds ∪ s.writefds) ∧
      s.nready + s.served.length = (s.readfds ∪ s.writefds).card) ∧
    ∀ v ∈ s.served, v.isOpen = true := by
  have I := reach_inv h
  refine ⟨?_, ?_, I.opened⟩
  · intro hrun hloop
    have R := I.rep hrun
    have P := I.pass hrun
    have hahead := P.ahead_of_done hloop
    refine ⟨fun fd => R.mem_union_iff, ⟨R.listener.1, R.listener.2.1⟩, fun fd c => R.interested,
      fun fd hfd => R.le_fdsetMax (Finset.mem_union.mp hfd), R.bound, ?_, ?_⟩
    · have := P.count
      omega
    · intro fd hx
      rw [Finset.mem_union] at hx
      refine (P.served fd).mpr ⟨hx, ?_⟩
      rcases hx with hx | hx
      · exact ahead_eq_zero.mp hahead.1 fd hx
      · exact ahead_eq_zero.mp hahead.2 fd hx
  · intro hrun
    have P := I.pass hrun
    refine ⟨P.nodup, fun fd hfd => Finset.mem_union.mpr ((P.served fd).mp hfd).1, ?_⟩
    have hdisj : Disjoint s.readfds s.writefds := Finset.disjoint_left.mpr fun _ hx => P.disjoint hx
    rw [Finset.card_union_of_disjoint hdisj, P.total, Int.natCast_add]

end

/-- The body for a descriptor that is not ready. -/
def idle : Label := .body .again .again .again

/-- The peer on descriptor 4 is accepted and acknowledged; in the last pass it is closed and its
descriptor handed out again by the listener, descriptor 5. -/
def reuseRun : List Label := [
  .select {5} ∅, idle, idle, idle, idle, idle, .body (.fd 4 []) .again .again,
  .select ∅ {4}, idle, idle, idle, idle, .body .again .again (.count 1),
  .select {4, 5} ∅, idle, idle, idle, idle, .body .again .eof .again, .body (.fd 4 []) .again .again]

theorem select_representation_reuseRun :
    ∃ s, (selectServer 5).run (init 5) reuseRun = some s ∧
      (∀ fd ∈ s.served.map (·.fd), fd = 4 ∨ fd = 5) ∧ ∀ v ∈ s.served, v.isOpen = true := by
  have hrun : ((selectServer 5).run (init 5) reuseRun).map (fun s => s.served.map (·.fd)) =
      some [4, 5] := by decide +kernel
  obtain ⟨s, hs, hserved⟩ := Option.map_eq_some_iff.mp hrun
  refine ⟨s, hs, fun fd hfd => ?_, (select_representation (Machine.Reach.init.run hs)).2.2⟩
  rw [hserved] at hfd
  simpa using hfd

end KoScripts.Servers.Select
