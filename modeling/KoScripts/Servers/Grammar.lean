import KoScripts.Lib.Delimited
import KoScripts.Servers.Echo

/-! # The framing grammar

What the clients send is a stream of messages, each between a `^` and a `$`, with anything but `^`
before, between and behind them. `echo_output_render` says that the transducer emits the messages
of the stream and nothing else; with `Delimited.existsUnique_render` this tells what the blocking
servers send for any bytes at all. -/

namespace KoScripts.Servers
open Lib

/-- A byte stream by the grammar of the protocol. -/
abbrev Framed := Delimited '^'.toUInt8 '$'.toUInt8

/-! ## The transducer on the parts of a stream -/

theorem echo_output_noise {g rest : List UInt8} (h : '^'.toUInt8 ∉ g) :
    echo.output .waitForMsg (g ++ rest) = echo.output .waitForMsg rest := by
  induction g with
  | nil => rfl
  | cons b g ih =>
    rw [List.cons_append, Mealy.output_cons, echo_next_noise (Free.head_ne h), ih (Free.tail h)]
    rfl

/-- A `^` inside a message is payload like any other byte. -/
theorem echo_output_message {m rest : List UInt8} (h : '$'.toUInt8 ∉ m) :
    echo.output .inMsg (m ++ rest) = m.map (· + 1) ++ echo.output .inMsg rest := by
  induction m with
  | nil => rfl
  | cons b m ih =>
    have hb : b ≠ '$'.toUInt8 := Free.head_ne h
    rw [List.cons_append, Mealy.output_cons, echo_next_message hb, echo_out_message hb,
      ih (Free.tail h)]
    rfl

theorem echo_output_opening {g rest : List UInt8} (h : '^'.toUInt8 ∉ g) :
    echo.output .waitForMsg (g ++ '^'.toUInt8 :: rest) = echo.output .inMsg rest := by
  rw [echo_output_noise h]
  rfl

theorem echo_output_closing {m rest : List UInt8} (h : '$'.toUInt8 ∉ m) :
    echo.output .inMsg (m ++ '$'.toUInt8 :: rest) =
      m.map (· + 1) ++ echo.output .waitForMsg rest := by
  rw [echo_output_message h]
  rfl

/-! ## Whole streams -/

theorem echo_output_stream (frames : List (Free '$'.toUInt8 × Free '^'.toUInt8))
    (unfinished : Option (Free '$'.toUInt8)) (gap : Free '^'.toUInt8) :
    echo.output .waitForMsg (Delimited.stream gap.1 frames unfinished) =
      (frames.flatMap (fun f => f.1.1) ++ unfinished.elim [] Subtype.val).map (· + 1) := by
  induction frames generalizing gap with
  | nil =>
    cases unfinished with
    | none =>
      have h : echo.output .waitForMsg (gap.1 ++ []) = [] := echo_output_noise gap.2
      rwa [List.append_nil] at h
    | some m =>
      have hm : echo.output .inMsg (m.1 ++ []) = m.1.map (· + 1) ++ [] := echo_output_message m.2
      rw [List.append_nil, List.append_nil] at hm
      exact (echo_output_opening gap.2).trans hm
  | cons f frames ih =>
    rcases f with ⟨m, g⟩
    rw [Delimited.stream, echo_output_opening gap.2, echo_output_closing m.2, ih g,
      List.flatMap_cons, List.append_assoc]
    exact List.map_append.symm

theorem echo_output_render (d : Framed) :
    echo.output .waitForMsg d.render = d.payload.map (· + 1) :=
  echo_output_stream d.frames d.unfinished d.gap

theorem replies_render (d : Framed) :
    replies d.render = '*'.toUInt8 :: d.payload.map (· + 1) :=
  congrArg ('*'.toUInt8 :: ·) (echo_output_render d)

/-- `handle_connection` of both blocking servers answers a stream of the grammar with its messages,
each byte plus one, however `recv` has cut it; and there is nothing outside the grammar and nothing
ambiguous in it. -/
theorem handleConnection_framed :
    (∀ (d : Framed) (chunks : List (List UInt8)), chunks.flatten = d.render →
      (Sequential.handleConnection Blocking.allSent (chunks.map .data)).sent =
          '*'.toUInt8 :: d.payload.map (· + 1) ∧
        (ThreadServer.handleConnection Blocking.allSent (chunks.map .data)).sent =
          '*'.toUInt8 :: d.payload.map (· + 1)) ∧
      ∀ bs : List UInt8, ∃! d : Framed, d.render = bs := by
  constructor
  · intro d chunks hc
    have h : (Blocking.handleConnection Blocking.allSent (chunks.map .data)).sent =
        '*'.toUInt8 :: d.payload.map (· + 1) := by
      rw [Blocking.handleConnection_data, hc, replies_render]
    exact ⟨h, h⟩
  · intro bs
    exact Delimited.existsUnique_render '^'.toUInt8 '$'.toUInt8 bs

end KoScripts.Servers
