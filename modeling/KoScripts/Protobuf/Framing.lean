import KoScripts.Protobuf.Tcp
import Mathlib.Data.List.TakeDrop

/-! # Framing and segmentation

The header loop reads exactly the header, however long it is, because every shorter prefix of a
varint ends inside it. The body is read by one `recv` and the reply sent by one write, so a frame
arrives exactly when these two move it whole. -/

namespace KoScripts.Protobuf
open Lib

variable {α : Type} {codec : Codec α} {msg : α} {size n fuel : Nat}
  {p q stream message : List UInt8}

theorem decodeVarint_encode (h : size < 2 ^ 64) : decodeVarint (encodeVarint size) = .ok size := by
  have hd : Varint.decode (Varint.encode size ++ []) = .ok (size, []) := Varint.decode_encode h
  rw [List.append_nil] at hd
  rw [decodeVarint, encodeVarint, hd]

theorem decodeVarint_unfinished (h : size < 2 ^ 64) (hp : p ++ q = encodeVarint size)
    (hq : q ≠ []) :
    decodeVarint p = .error .indexError := by
  rw [decodeVarint, Varint.decode_prefix h hp hq]

theorem recv_one {b : UInt8} : recv 1 1 (b :: stream) = ([b], stream) := by
  rw [recv, List.splitAt_eq]; rfl

theorem recv_eof {k : Nat} : recv k n [] = ([], []) := by
  rw [recv, List.splitAt_eq, List.take_nil, List.drop_nil]

/-- From any prefix of a header on, the loop reads the rest of it, one byte a round. -/
theorem recvSize_header (h : size < 2 ^ 64) (hp : p ++ q = encodeVarint size) (hq : q ≠ [])
    (hf : q.length ≤ fuel) : recvSize fuel p (q ++ stream) = some (.ok (size, stream)) := by
  induction q generalizing p fuel with
  | nil => exact absurd rfl hq
  | cons b q ih =>
    cases fuel with
    | zero => cases hf
    | succ fuel =>
      rw [List.append_cons] at hp
      rw [List.cons_append, recvSize, recv_one]
      simp only
      cases q with
      | nil =>
        rw [List.append_nil] at hp
        rw [hp, decodeVarint_encode h]
        rfl
      | cons c q =>
        rw [decodeVarint_unfinished h hp (List.cons_ne_nil c q)]
        exact ih hp (List.cons_ne_nil c q) (Nat.le_of_succ_le_succ hf)

theorem decodeVarint_index_iff :
    decodeVarint p = .error .indexError ↔ Varint.Unfinished p := by
  rw [← Varint.decode_index_iff, decodeVarint]
  cases Varint.decode p with
  | ok => exact iff_of_false nofun nofun
  | error e =>
    cases e with
    | index => exact iff_of_true rfl rfl
    | tooLong => exact iff_of_false nofun nofun

/-- When the stream ends inside the header, the loop never ends: the end is received as no bytes,
over and over. -/
theorem recvSize_unfinished (h : Varint.Unfinished (message ++ stream)) :
    recvSize fuel message stream = none := by
  induction fuel generalizing message stream with
  | zero => rfl
  | succ fuel ih =>
    cases stream with
    | nil =>
      rw [recvSize, recv_eof]
      simp only [List.append_nil]
      rw [List.append_nil] at h
      rw [decodeVarint_index_iff.mpr h]
      exact ih (by rwa [List.append_nil])
    | cons b stream =>
      rw [List.append_cons] at h
      rw [recvSize, recv_one]
      simp only
      rw [decodeVarint_index_iff.mpr h.of_append]
      exact ih h

theorem recvSize_truncated (h : size < 2 ^ 64) (hp : p ++ (stream ++ q) = encodeVarint size)
    (hq : q ≠ []) : recvSize fuel p stream = none := by
  rw [← List.append_assoc] at hp
  exact recvSize_unfinished (Varint.decode_index_iff.mp (Varint.decode_prefix h hp hq))

theorem recvFrame_header {data : List UInt8} (h : size < 2 ^ 64)
    (hf : (encodeVarint size).length ≤ fuel) :
    recvFrame codec fuel n (encodeVarint size ++ data) =
      some ((codec.parseFromString (data.take (min size (max n 1)))).map
        fun msg => ⟨data.take (min size (max n 1)), msg⟩) := by
  have hne : encodeVarint size ≠ [] := Varint.encode_ne_nil
  rw [recvFrame, recvSize_header h (List.nil_append _) hne hf, Option.map_some]
  simp only [recv, List.splitAt_eq]
  rfl

theorem recvSize_mono {header : Except PyError (Nat × List UInt8)} {i j : Nat}
    (h : recvSize i message stream = some header) (hij : i ≤ j) :
    recvSize j message stream = some header := by
  induction i generalizing j message stream with
  | zero => cases h
  | succ i ih =>
    cases j with
    | zero => cases hij
    | succ j =>
      rw [recvSize] at h ⊢
      split at h
      · exact h
      · exact ih h (Nat.le_of_succ_le_succ hij)
      · exact h

theorem recvFrame_mono {r : Except PyError (Received α)} {i j : Nat}
    (h : recvFrame codec i n stream = some r) (hij : i ≤ j) :
    recvFrame codec j n stream = some r := by
  obtain ⟨header, hheader, hr⟩ := Option.map_eq_some_iff.mp h
  rw [recvFrame, recvSize_mono hheader hij, Option.map_some, hr]

/-- Once the header has arrived, the frame is received if and only if what the one `recv` returns
of the bytes behind it is the body. -/
theorem recvFrame_iff {data : List UInt8} (hinv : codec.Inverse)
    (hlen : (codec.serializeToString msg).length < 2 ^ 64) :
    (∃ fuel, recvFrame codec fuel n (encodeVarint (codec.serializeToString msg).length ++ data) =
        some (.ok ⟨codec.serializeToString msg, msg⟩)) ↔
      data.take (min (codec.serializeToString msg).length (max n 1)) =
        codec.serializeToString msg := by
  refine ⟨?_, fun h => ⟨_, (recvFrame_header hlen (Nat.le_refl _)).trans ?_⟩⟩
  · rintro ⟨fuel, h⟩
    have hmax := recvFrame_mono h
      (Nat.le_max_right (encodeVarint (codec.serializeToString msg).length).length fuel)
    rw [recvFrame_header hlen (Nat.le_max_left _ _), Option.some.injEq] at hmax
    generalize codec.parseFromString _ = parsed at hmax
    cases parsed with
    | error => cases hmax
    | ok m => exact congrArg Received.data (Except.ok.inj hmax)
  · rw [h, hinv msg]
    rfl

theorem take_take_eq_iff {data : List UInt8} {k : Nat} :
    (data.take k).take (min data.length (max n 1)) = data ↔
      data.length ≤ k ∧ data.length ≤ max n 1 := by
  rw [List.take_take, List.take_eq_self_iff]
  omega

/-- A request is received if and only if the one `recv` returns its whole body. -/
theorem receive_send_iff {codec : Codec Rect} (hinv : codec.Inverse) {r : Rect}
    (hlen : (codec.serializeToString r).length < 2 ^ 64) (more : List UInt8) :
    (∃ fuel, SimpleHandler.receive codec fuel n (Client.send codec r ++ more) =
        some (.ok ⟨codec.serializeToString r, r⟩)) ↔
      (codec.serializeToString r).length ≤ max n 1 := by
  have hsplit : Client.send codec r ++ more = encodeVarint (codec.serializeToString r).length ++
      (codec.serializeToString r ++ more) := List.append_assoc ..
  rw [hsplit]
  apply (recvFrame_iff hinv hlen).trans
  rw [List.take_append_of_le_length (Nat.min_le_left _ _), List.take_eq_self_iff]
  omega

/-- A reply is received if and only if the one write has accepted it whole and the one `recv`
returns its whole body. -/
theorem recvMessage_reply_iff {codec : Codec Rect} (hinv : codec.Inverse) {r : Rect}
    (hlen : (codec.serializeToString r).length < 2 ^ 64) (accepted : Nat) :
    (∃ fuel, Client.recvMessage codec fuel n (SimpleHandler.reply codec accepted r) =
        some (.ok ⟨codec.serializeToString r, r⟩)) ↔
      (frame codec r).length ≤ accepted ∧ (codec.serializeToString r).length ≤ max n 1 := by
  have hframe : (frame codec r).length = (encodeVarint (codec.serializeToString r).length).length +
      (codec.serializeToString r).length := List.length_append
  rcases Nat.lt_or_ge accepted (encodeVarint (codec.serializeToString r).length).length with h | h
  · refine iff_of_false (fun ⟨fuel, hx⟩ => ?_) (by omega)
    have hcut : SimpleHandler.reply codec accepted r =
        (encodeVarint (codec.serializeToString r).length).take accepted :=
      List.take_append_of_le_length (Nat.le_of_lt h)
    have hnone : recvSize fuel []
        ((encodeVarint (codec.serializeToString r).length).take accepted) = none :=
      recvSize_truncated hlen (List.take_append_drop accepted _) (by simp [h])
    rw [Client.recvMessage, recvFrame, hcut, hnone] at hx
    cases hx
  · obtain ⟨k, rfl⟩ := Nat.exists_eq_add_of_le h
    have hcut : SimpleHandler.reply codec
        ((encodeVarint (codec.serializeToString r).length).length + k) r =
        encodeVarint (codec.serializeToString r).length ++ (codec.serializeToString r).take k :=
      List.take_length_add_append k
    rw [hcut]
    apply (recvFrame_iff hinv hlen).trans
    rw [take_take_eq_iff]
    omega

/-- A rectangle sent by the client, or by the write of the server's reply, arrives as the body of
its frame if and only if the one `recv` of the body returns it whole and, of a reply, the write
accepts all. -/
theorem framing_iff (codec : Codec Rect) (hinv : codec.Inverse) (r : Rect)
    (hlen : (codec.serializeToString r).length < 2 ^ 64) (n accepted : Nat) (more : List UInt8) :
    ((∃ fuel, SimpleHandler.receive codec fuel n (Client.send codec r ++ more) =
          some (.ok ⟨codec.serializeToString r, r⟩)) ↔
        (codec.serializeToString r).length ≤ max n 1) ∧
      ((∃ fuel, Client.recvMessage codec fuel n (SimpleHandler.reply codec accepted r) =
          some (.ok ⟨codec.serializeToString r, r⟩)) ↔
        (frame codec r).length ≤ accepted ∧ (codec.serializeToString r).length ≤ max n 1) :=
  ⟨receive_send_iff hinv hlen more, recvMessage_reply_iff hinv hlen accepted⟩

theorem framing_iff_rect :
    ∃ fuel, SimpleHandler.receive rectCodec fuel 17 (Client.send rectCodec ⟨1, 2, 3, -4⟩ ++ []) =
      some (.ok ⟨rectCodec.serializeToString ⟨1, 2, 3, -4⟩, ⟨1, 2, 3, -4⟩⟩) :=
  (framing_iff rectCodec rectCodec_inverse ⟨1, 2, 3, -4⟩ (by decide +kernel) 17 0 []).1.mpr
    (by decide +kernel)

/-- A `recv` that returns two of the eight bytes of the body cuts it behind its first field. What
is left still parses, into another rectangle. -/
theorem receive_short_recv :
    SimpleHandler.receive rectCodec 1 2 (Client.send rectCodec ⟨1, 2, 3, 4⟩) =
        some (.ok ⟨[8, 1], ⟨1, 0, 0, 0⟩⟩) ∧
      ¬∃ fuel, SimpleHandler.receive rectCodec fuel 2 (Client.send rectCodec ⟨1, 2, 3, 4⟩) =
        some (.ok ⟨rectCodec.serializeToString ⟨1, 2, 3, 4⟩, ⟨1, 2, 3, 4⟩⟩) := by
  have hcut : SimpleHandler.receive rectCodec 1 2 (Client.send rectCodec ⟨1, 2, 3, 4⟩) =
      some (.ok ⟨[8, 1], ⟨1, 0, 0, 0⟩⟩) := by decide +kernel
  refine ⟨hcut, fun ⟨fuel, h⟩ => ?_⟩
  have h1 := recvFrame_mono hcut (Nat.le_max_left 1 fuel)
  have h2 := recvFrame_mono h (Nat.le_max_right 1 fuel)
  have heq : (⟨1, 0, 0, 0⟩ : Rect) = ⟨1, 2, 3, 4⟩ :=
    congrArg Received.msg (Except.ok.inj (Option.some.inj (h1.symm.trans h2)))
  cases heq

end KoScripts.Protobuf
