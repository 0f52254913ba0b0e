import KoScripts.Protobuf.Framing

/-! # The header loop

What the loop around `recv(1)` does on every stream: it reads exactly the header in front of
anything, and it ends unless the stream does so inside a varint. Neither side looks at what `recv`
returned, so behind the end of the stream the loop goes on with the same bytes. -/

namespace KoScripts.Protobuf
open Lib

variable {α : Type} {size n fuel : Nat} {p q stream message : List UInt8}

/-- From an unfinished header on, the loop ends with the stream at the latest if that takes the
bytes out of the unfinished ones. -/
theorem recvSize_isSome (hm : Varint.Unfinished message)
    (h : ¬Varint.Unfinished (message ++ stream)) :
    (recvSize stream.length message stream).isSome := by
  induction stream generalizing message with
  | nil => rw [List.append_nil] at h; exact absurd hm h
  | cons b stream ih =>
    rw [List.append_cons] at h
    rw [List.length_cons, recvSize, recv_one]
    simp only
    split
    · rfl
    · next he => exact ih (decodeVarint_index_iff.mp he) h
    · rfl

theorem recvSize_isSome_iff :
    (∃ fuel, (recvSize fuel [] stream).isSome) ↔ ¬Varint.Unfinished stream := by
  refine ⟨fun ⟨fuel, hx⟩ hu => ?_, fun h => ⟨_, recvSize_isSome .nil h⟩⟩
  rw [recvSize_unfinished (by exact hu)] at hx
  cases hx

theorem recvFrame_isSome {codec : Codec α} :
    (recvFrame codec fuel n stream).isSome = (recvSize fuel [] stream).isSome := Option.isSome_map

/-- Both header loops end on exactly the streams that are no proper prefix of a varint: those with
a byte that ends one, and those of at least ten bytes. -/
theorem header_ends_iff (codec : Codec Rect) (msgType : Codec α) (n accepted : Nat)
    (stream : List UInt8) :
    ((∃ fuel, (SimpleHandler.handle codec fuel n accepted stream).isSome) ↔
        (∃ b ∈ stream, b.toNat < 128) ∨ 10 ≤ stream.length) ∧
      ((∃ fuel, (Client.recvMessage msgType fuel n stream).isSome) ↔
        (∃ b ∈ stream, b.toNat < 128) ∨ 10 ≤ stream.length) := by
  have hu : ¬Varint.Unfinished stream ↔ (∃ b ∈ stream, b.toNat < 128) ∨ 10 ≤ stream.length := by
    refine ⟨fun h => ?_, ?_⟩
    · apply Classical.byContradiction
      intro hc
      rw [not_or] at hc
      exact h ⟨fun b hb => Nat.not_lt.mp fun hlt => hc.1 ⟨b, hb, hlt⟩, Nat.not_le.mp hc.2⟩
    · rintro (⟨b, hb, hlt⟩ | hlen) h
      · exact Nat.not_le.mpr hlt (h.more b hb)
      · exact Nat.not_le.mpr h.length_lt hlen
  have hhandle (fuel : Nat) : (SimpleHandler.handle codec fuel n accepted stream).isSome =
      (recvSize fuel [] stream).isSome := Option.isSome_map.trans recvFrame_isSome
  have hrecv (fuel : Nat) : (Client.recvMessage msgType fuel n stream).isSome =
      (recvSize fuel [] stream).isSome := recvFrame_isSome
  simp only [hhandle, hrecv, recvSize_isSome_iff, hu, and_self]

/-- A peer that sends half of a two-byte header and closes: the handler spins. -/
theorem header_unfinished :
    ¬∃ fuel, (SimpleHandler.handle rectCodec fuel 1 100 [0x80]).isSome := by
  rintro ⟨fuel, h⟩
  have hhigh : ∀ b ∈ ([0x80] : List UInt8), 128 ≤ b.toNat :=
    List.forall_mem_singleton.mpr (by decide)
  have hspins : recvSize fuel [] [0x80] = none := recvSize_unfinished ⟨hhigh, by decide⟩
  rw [SimpleHandler.handle, SimpleHandler.receive, recvFrame, hspins] at h
  cases h

/-- With fewer rounds than the header has bytes the loop is still inside it. -/
theorem recvSize_header_short (h : size < 2 ^ 64) (hp : p ++ q = encodeVarint size)
    (hf : fuel < q.length) : recvSize fuel p (q ++ stream) = none := by
  induction fuel generalizing p q with
  | zero => rfl
  | succ fuel ih =>
    cases q with
    | nil => cases hf
    | cons b q =>
      have hlt : fuel < q.length := Nat.lt_of_succ_lt_succ hf
      have hq : q ≠ [] := List.ne_nil_of_length_pos (Nat.zero_lt_of_lt hlt)
      rw [List.append_cons] at hp
      rw [List.cons_append, recvSize, recv_one]
      simp only
      rw [decodeVarint_unfinished h hp hq]
      exact ih hp hlt

/-- On the header of a length and anything behind it, the loop takes one round for each byte of the
header and leaves the rest, of which the body is received; every shorter prefix ends inside the
varint. -/
theorem header_exact (codec : Codec Rect) (msgType : Codec α) (h : size < 2 ^ 64)
    (rest : List UInt8) :
    (∀ fuel, recvSize fuel [] (encodeVarint size ++ rest) =
        if (encodeVarint size).length ≤ fuel then some (.ok (size, rest)) else none) ∧
      (∀ p q, p ++ q = encodeVarint size → q ≠ [] → decodeVarint p = .error .indexError) ∧
      ∀ fuel n, (encodeVarint size).length ≤ fuel →
        SimpleHandler.receive codec fuel n (encodeVarint size ++ rest) =
            some ((codec.parseFromString (recv size n rest).1).map
              fun msg => ⟨(recv size n rest).1, msg⟩) ∧
          Client.recvMessage msgType fuel n (encodeVarint size ++ rest) =
            some ((msgType.parseFromString (recv size n rest).1).map
              fun msg => ⟨(recv size n rest).1, msg⟩) := by
  refine ⟨fun fuel => ?_, fun p q hp hq => decodeVarint_unfinished h hp hq, fun fuel n hf => ?_⟩
  · have hne : encodeVarint size ≠ [] := Varint.encode_ne_nil
    split
    · next hf => exact recvSize_header h (List.nil_append _) hne hf
    · next hf => exact recvSize_header_short h (List.nil_append _) (Nat.not_le.mp hf)
  · rw [recv, List.splitAt_eq]
    exact ⟨recvFrame_header h hf, recvFrame_header h hf⟩

theorem header_exact_twoBytes :
    recvSize 2 [] (encodeVarint 300 ++ [1, 2, 3]) = some (.ok (300, [1, 2, 3])) :=
  (header_exact rectCodec rectCodec (by decide : 300 < 2 ^ 64) [1, 2, 3]).1 2

end KoScripts.Protobuf
