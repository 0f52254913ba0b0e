import KoScripts.Lib.Slice

/-! # Writing to a libuv stream

What `uv_server.c` and `uv_prime_server.c` rely on of libuv: `uv_write` keeps a pointer to the
caller's buffer and a length, the bytes of the queued writes go out in order, a part at a time,
with what the buffer holds at that moment, and a write that has gone out waits for its completion
callback. -/

namespace KoScripts.Servers.Uv
open Lib

/-- How the process can end: `exit(1)`, a failed assertion, or the use of released memory. -/
inductive Halt
  | exit
  | abort
  | fault
  deriving DecidableEq, Repr

/-- A `uv_write_t`: the bytes `off ≤ i < len` of the buffer are still to go out. -/
structure WriteReq (κ : Type) where
  cb : κ
  len : Nat
  off : Nat
  deriving DecidableEq

structure Stream (κ : Type) where
  queue : List (WriteReq κ)
  /-- The writes that have gone out and whose callback has not been called. -/
  done : List κ
  sent : List UInt8

variable {κ : Type} {n k : Nat} {buf buf' : Vector UInt8 n} {s t : Stream κ} {w : WriteReq κ}
  {ws queue : List (WriteReq κ)}

namespace Stream

def new : Stream κ := ⟨[], [], []⟩

/-- `uv_write` of the first `len` bytes of the buffer. -/
def write (s : Stream κ) (cb : κ) (len : Nat) : Stream κ :=
  { s with queue := s.queue ++ [⟨cb, len, 0⟩] }

/-- The next `k` bytes go out. -/
def drain (buf : Vector UInt8 n) (k : Nat) (s : Stream κ) : Option (Stream κ) :=
  match s.queue with
  | [] => none
  | w :: ws =>
    if 1 ≤ k ∧ w.off + k ≤ w.len then
      let sent := s.sent ++ slice buf w.off (w.off + k)
      if w.off + k = w.len then some { queue := ws, done := s.done ++ [w.cb], sent }
      else some { s with queue := { w with off := w.off + k } :: ws, sent }
    else none

/-- No write has been queued whose callback has not been called. -/
def Idle (s : Stream κ) : Prop := s.queue = [] ∧ s.done = []

instance : Decidable s.Idle := inferInstanceAs (Decidable (_ ∧ _))

end Stream

/-- What is still to go out. -/
def unsent (buf : Vector UInt8 n) (queue : List (WriteReq κ)) : List UInt8 :=
  queue.flatMap fun w => slice buf w.off w.len

@[simp] theorem unsent_nil : unsent buf ([] : List (WriteReq κ)) = [] := rfl

theorem unsent_cons : unsent buf (w :: ws) = slice buf w.off w.len ++ unsent buf ws := rfl

theorem unsent_singleton : unsent buf [w] = slice buf w.off w.len := List.append_nil _

theorem unsent_append : unsent buf (queue ++ ws) = unsent buf queue ++ unsent buf ws :=
  List.flatMap_append

theorem unsent_congr (h : ∀ w ∈ queue, slice buf w.off w.len = slice buf' w.off w.len) :
    unsent buf queue = unsent buf' queue := by
  induction queue with
  | nil => rfl
  | cons w ws ih =>
    rw [unsent_cons, unsent_cons, h w List.mem_cons_self,
      ih fun w hw => h w (List.mem_cons_of_mem _ hw)]

namespace Stream

theorem Idle.eq (h : s.Idle) : s = ⟨[], [], s.sent⟩ := by
  obtain ⟨_, _, _⟩ := s
  obtain ⟨rfl, rfl⟩ := h
  rfl

theorem drain_cases (h : s.drain buf k = some t) : ∃ w ws, s.queue = w :: ws ∧ 1 ≤ k ∧
    (w.off + k = w.len ∧
        t = ⟨ws, s.done ++ [w.cb], s.sent ++ slice buf w.off w.len⟩ ∨
      w.off + k < w.len ∧
        t = ⟨{ w with off := w.off + k } :: ws, s.done, s.sent ++ slice buf w.off (w.off + k)⟩) := by
  unfold drain at h
  split at h
  · cases h
  · next w ws hq =>
    obtain ⟨⟨hk, hle⟩, h⟩ := Option.ite_none_right_eq_some.mp h
    refine ⟨w, ws, hq, hk, ?_⟩
    split at h
    · next heq => cases h; exact .inl ⟨heq, by rw [heq]⟩
    · next hne => cases h; exact .inr ⟨Nat.lt_of_le_of_ne hle hne, rfl⟩

/-- What has gone out and what is still to go out, put together, stays as it is. -/
theorem drain_sent (h : s.drain buf k = some t) :
    t.sent ++ unsent buf t.queue = s.sent ++ unsent buf s.queue := by
  obtain ⟨w, ws, hq, hk, ⟨heq, rfl⟩ | ⟨hlt, rfl⟩⟩ := drain_cases h
  · rw [hq, unsent_cons, List.append_assoc]
  · rw [hq, unsent_cons, unsent_cons, List.append_assoc, ← List.append_assoc (slice ..),
      slice_append_slice (Nat.le_add_right ..) (Nat.le_of_lt hlt)]

/-- The completion callbacks that are still to be called, in their order. -/
def outstanding (s : Stream κ) : List κ := s.done ++ s.queue.map WriteReq.cb

theorem idle_iff : s.Idle ↔ s.outstanding = [] := by
  rw [outstanding, List.append_eq_nil_iff, List.map_eq_nil_iff, and_comm]
  exact Iff.rfl

theorem write_outstanding {cb : κ} {len : Nat} :
    (s.write cb len).outstanding = s.outstanding ++ [cb] := by
  simp only [outstanding, write, List.map_append, List.map_cons, List.map_nil, List.append_assoc]

/-- Writes complete in the order in which they were queued. -/
theorem drain_outstanding (h : s.drain buf k = some t) : t.outstanding = s.outstanding := by
  obtain ⟨w, ws, hq, -, hcases⟩ := drain_cases h
  rcases hcases with ⟨-, rfl⟩ | ⟨-, rfl⟩
  · rw [outstanding, outstanding, hq, List.map_cons, List.append_assoc]
    rfl
  · rw [outstanding, outstanding, hq]
    rfl

/-- The rest of the first write can go out at once. -/
theorem drain_first (buf : Vector UInt8 n) (hq : s.queue = w :: ws) (hw : w.off < w.len) :
    s.drain buf (w.len - w.off) =
      some ⟨ws, s.done ++ [w.cb], s.sent ++ slice buf w.off w.len⟩ := by
  have hsum : w.off + (w.len - w.off) = w.len := Nat.add_sub_cancel' (Nat.le_of_lt hw)
  have hpos : 1 ≤ w.len - w.off := Nat.sub_pos_of_lt hw
  simp only [drain, hq, hsum, hpos, Nat.le_refl, and_self, if_true]

/-- All that is queued can go out, one write after the other. -/
theorem flush (buf : Vector UInt8 n) (hoff : ∀ w ∈ s.queue, w.off < w.len) :
    ∃ ks : List Nat, ks.foldlM (fun s k => drain buf k s) s =
      some ⟨[], s.done ++ s.queue.map WriteReq.cb, s.sent ++ unsent buf s.queue⟩ := by
  generalize hq : s.queue = queue at hoff
  induction queue generalizing s with
  | nil =>
    refine ⟨[], ?_⟩
    rw [List.map_nil, List.append_nil, unsent_nil, List.append_nil, ← hq]
    rfl
  | cons w ws ih =>
    have hfirst := drain_first buf hq (hoff w List.mem_cons_self)
    obtain ⟨ks, hks⟩ := ih (s := ⟨ws, s.done ++ [w.cb], s.sent ++ slice buf w.off w.len⟩) rfl
      fun w' hw => hoff w' (List.mem_cons_of_mem w hw)
    refine ⟨(w.len - w.off) :: ks, ?_⟩
    rw [List.foldlM_cons, hfirst, Option.bind_eq_bind, Option.bind_some, hks, List.map_cons,
      unsent_cons, List.append_assoc, List.append_assoc]
    rfl

end Stream
end KoScripts.Servers.Uv
