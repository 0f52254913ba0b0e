import KoScripts.Protobuf.Framing

/-! # The reply to a request

`SimpleHandler.handle` doubles the fields of the request in Python's integers and assigns them to
the `int32` fields of the reply. What a request of large coordinates gets is a `ValueError` and no
reply. -/

namespace KoScripts.Protobuf

variable {codec : Codec Rect} {r : Rect} {v : Int32} {n accepted : Nat}

/-- The coordinates that have a double in an `int32` field. -/
def Doublable (v : Int32) : Prop := -2 ^ 30 ≤ v.toInt ∧ v.toInt < 2 ^ 30

structure Rect.Doublable (r : Rect) : Prop where
  x1 : Protobuf.Doublable r.x1
  y1 : Protobuf.Doublable r.y1
  x2 : Protobuf.Doublable r.x2
  y2 : Protobuf.Doublable r.y2

/-- Each field of `rect` is twice that of `r`. -/
structure Rect.IsDouble (r rect : Rect) : Prop where
  x1 : rect.x1.toInt = 2 * r.x1.toInt
  y1 : rect.y1.toInt = 2 * r.y1.toInt
  x2 : rect.x2.toInt = 2 * r.x2.toInt
  y2 : rect.y2.toInt = 2 * r.y2.toInt

theorem toInt32_double_ok (h : Doublable v) :
    ∃ w, toInt32 (v.toInt * 2) = .ok w ∧ w.toInt = 2 * v.toInt := by
  obtain ⟨h1, h2⟩ := h
  have hlt : v.toInt * 2 < 2 ^ 31 := by omega
  have hle : -2 ^ 31 ≤ v.toInt * 2 := by omega
  refine ⟨_, if_pos ⟨hle, hlt⟩, ?_⟩
  rw [Int32.toInt_ofInt_of_le hle hlt, Int.mul_comm]

theorem toInt32_double_error (h : ¬Doublable v) :
    toInt32 (v.toInt * 2) = .error .valueError := by
  apply if_neg
  rintro ⟨h1, h2⟩
  exact h ⟨by omega, by omega⟩

theorem toInt32_bind_error {α : Type} {f : Int32 → Except PyError α}
    (hf : ∀ w, f w = .error .valueError) {x : Int} :
    (toInt32 x >>= f) = .error .valueError := by
  rw [toInt32]
  split
  · exact hf _
  · rfl

namespace SimpleHandler

theorem double_ok (h : r.Doublable) : ∃ rect, double r = .ok rect ∧ r.IsDouble rect := by
  obtain ⟨h1, h2, h3, h4⟩ := h
  have ⟨x1, hx1, d1⟩ := toInt32_double_ok h1
  have ⟨y1, hy1, d2⟩ := toInt32_double_ok h2
  have ⟨x2, hx2, d3⟩ := toInt32_double_ok h3
  have ⟨y2, hy2, d4⟩ := toInt32_double_ok h4
  refine ⟨⟨x1, y1, x2, y2⟩, ?_, d1, d2, d3, d4⟩
  rw [double, hx1, hy1, hx2, hy2]
  rfl

/-- Whichever field it is whose double does not fit, its assignment raises. -/
theorem double_error (h : ¬r.Doublable) : double r = .error .valueError := by
  have hfield : ¬Doublable r.x1 ∨ ¬Doublable r.y1 ∨ ¬Doublable r.x2 ∨ ¬Doublable r.y2 := by
    apply Classical.byContradiction
    intro hc
    simp only [not_or, Classical.not_not] at hc
    exact h ⟨hc.1, hc.2.1, hc.2.2.1, hc.2.2.2⟩
  rw [double]
  rcases hfield with h | h | h | h
  · rw [toInt32_double_error h]
    rfl
  · apply toInt32_bind_error
    intro
    rw [toInt32_double_error h]
    rfl
  · apply toInt32_bind_error
    intro
    apply toInt32_bind_error
    intro
    rw [toInt32_double_error h]
    rfl
  · apply toInt32_bind_error
    intro
    apply toInt32_bind_error
    intro
    apply toInt32_bind_error
    intro
    rw [toInt32_double_error h]
    rfl

/-- A request that arrives whole is parsed and doubled. -/
theorem handle_send (hinv : codec.Inverse) (hlen : (codec.serializeToString r).length < 2 ^ 64)
    (hn : (codec.serializeToString r).length ≤ n) (accepted : Nat) (more : List UInt8) :
    ∃ fuel, handle codec fuel n accepted (Client.send codec r ++ more) =
      some ((double r).map fun rect =>
        (⟨codec.serializeToString r, r⟩, reply codec accepted rect)) := by
  have ⟨fuel, h⟩ := (receive_send_iff hinv hlen more).mpr (Nat.le_trans hn (Nat.le_max_left n 1))
  refine ⟨fuel, ?_⟩
  rw [handle, h]
  rfl

theorem handle_mono {stream : List UInt8} {sent : Except PyError (Received Rect × List UInt8)}
    {i j : Nat} (h : handle codec i n accepted stream = some sent) (hij : i ≤ j) :
    handle codec j n accepted stream = some sent := by
  obtain ⟨received, hr, hs⟩ := Option.map_eq_some_iff.mp h
  rw [handle, receive, recvFrame_mono hr hij, Option.map_some, hs]

theorem handle_unique {stream : List UInt8} {x y : Except PyError (Received Rect × List UInt8)}
    {i j : Nat} (hx : handle codec i n accepted stream = some x)
    (hy : handle codec j n accepted stream = some y) : x = y := by
  have h1 := handle_mono hx (Nat.le_max_left i j)
  have h2 := handle_mono hy (Nat.le_max_right i j)
  exact Option.some.inj (h1.symm.trans h2)

/-- A request that arrives whole is answered by the frame of the rectangle of twice its fields if
and only if these fit; any other one ends the handler before its write. -/
theorem handle_answers_iff (codec : Codec Rect) (hinv : codec.Inverse) (r : Rect)
    (hlen : (codec.serializeToString r).length < 2 ^ 64)
    (hn : (codec.serializeToString r).length ≤ n) (accepted : Nat) (more : List UInt8) :
    ((∃ fuel rect, r.IsDouble rect ∧
        handle codec fuel n accepted (Client.send codec r ++ more) =
          some (.ok (⟨codec.serializeToString r, r⟩, reply codec accepted rect))) ↔
        r.Doublable) ∧
      (¬r.Doublable → ∃ fuel,
        handle codec fuel n accepted (Client.send codec r ++ more) =
          some (.error .valueError)) := by
  have ⟨fuel, h⟩ := handle_send hinv hlen hn accepted more
  have herror (hd : ¬r.Doublable) : handle codec fuel n accepted (Client.send codec r ++ more) =
      some (.error .valueError) := by
    rw [h, double_error hd]
    rfl
  refine ⟨⟨?_, fun hd => ?_⟩, fun hd => ⟨fuel, herror hd⟩⟩
  · rintro ⟨i, rect, -, hi⟩
    apply Classical.byContradiction
    intro hd
    cases handle_unique hi (herror hd)
  · have ⟨rect, hrect, hdouble⟩ := double_ok hd
    refine ⟨fuel, rect, hdouble, ?_⟩
    rw [h, hrect]
    rfl

theorem handle_answers_iff_rect : ∃ fuel rect, Rect.IsDouble ⟨1, 2, 3, -4⟩ rect ∧
    handle rectCodec fuel 17 100 (Client.send rectCodec ⟨1, 2, 3, -4⟩ ++ []) =
      some (.ok (⟨rectCodec.serializeToString ⟨1, 2, 3, -4⟩, ⟨1, 2, 3, -4⟩⟩,
        reply rectCodec 100 rect)) :=
  (handle_answers_iff rectCodec rectCodec_inverse ⟨1, 2, 3, -4⟩ (by decide +kernel)
    (by decide +kernel) 100 []).1.mpr
    ⟨⟨by decide, by decide⟩, ⟨by decide, by decide⟩, ⟨by decide, by decide⟩, by decide, by decide⟩

/-- The double of `2 ^ 30` does not fit. -/
theorem handle_overflow : ¬∃ fuel sent,
    handle rectCodec fuel 100 100 (Client.send rectCodec ⟨2 ^ 30, 0, 0, 0⟩) = some (.ok sent) := by
  rintro ⟨fuel, sent, h⟩
  have herror : handle rectCodec 1 100 100 (Client.send rectCodec ⟨2 ^ 30, 0, 0, 0⟩) =
      some (.error .valueError) := by decide +kernel
  cases handle_unique h herror

end SimpleHandler
end KoScripts.Protobuf
