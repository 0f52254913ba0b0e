import Mathlib.Data.List.Basic
import Mathlib.Data.UInt

/-! # The ICMP sniffer

`src/tools/icmp_sniffer.c` receives every frame into the same `buf`, which it never clears, and
decodes whatever is there behind the Ethernet header. It looks neither at the EtherType nor, except
to print it, at the number of bytes received. -/

namespace KoScripts.Tools.IcmpSniffer

/-! ## The program -/

/-- What one `recv` puts at the start of `buf`. -/
structure Frame where
  bytes : List UInt8
  length_pos : 1 ≤ bytes.length
  length_le : bytes.length ≤ 1500

abbrev Buf := Vector UInt8 1500

def recv (buf : Buf) (frame : Frame) : Buf := .ofFn fun i => frame.bytes[i]?.getD buf[i]

def ethHlen : Nat := 14

/-- The header length in the first byte of an IPv4 header, in 32-bit words. -/
def ihl (b : UInt8) : Nat := b.toNat &&& 0xf

theorem ihl_le {b : UInt8} : ihl b ≤ 15 := Nat.and_le_right

inductive Echo
  | request
  | reply

/-- What is printed for a frame. -/
structure Record where
  length : Nat
  headerLength : Nat
  echo : Option Echo
  type : UInt8
  code : UInt8
  saddr : List UInt8
  daddr : List UInt8

def echoOf (type : UInt8) : Option Echo :=
  if type = 0 then some .reply else if type = 8 then some .request else none

/-- The body of the loop, behind `recv`, on which `n` bytes were received. -/
def decode (n : Nat) (buf : Buf) : Option Record :=
  if buf[ethHlen + 9] = 1 then
    let words := ihl buf[ethHlen]
    have hw : words ≤ 15 := ihl_le
    have ht : ethHlen + (words <<< 2) < 1500 := by
      rw [Nat.shiftLeft_eq, ethHlen]
      omega
    have hc : ethHlen + (words <<< 2) + 1 < 1500 := by
      rw [Nat.shiftLeft_eq, ethHlen]
      omega
    let type := buf[ethHlen + (words <<< 2)]
    some
      { length := n, headerLength := words <<< 2, echo := echoOf type, type
        code := buf[ethHlen + (words <<< 2) + 1]
        saddr := [buf[26], buf[27], buf[28], buf[29]]
        daddr := [buf[30], buf[31], buf[32], buf[33]] }
  else none

/-- What is printed for each of the frames received, until `recv` fails. -/
def sniff (buf : Buf) : List Frame → List (Option Record)
  | [] => []
  | frame :: frames =>
    let buf := recv buf frame
    decode frame.bytes.length buf :: sniff buf frames

/-! ## A frame's own bytes -/

/-- The length of the IPv4 header of a frame, in 32-bit words. -/
def headerWords (bytes : List UInt8) : Nat := ihl (bytes[ethHlen]?.getD 0)

/-- The bytes are an Ethernet header that announces IPv4, a complete IPv4 header that announces
ICMP, and at least the type and the code of an ICMP header. -/
structure IcmpFrame (bytes : List UInt8) : Prop where
  etherType : bytes[12]? = some 0x08 ∧ bytes[13]? = some 0x00
  protocol : bytes[23]? = some 1
  headerWords_ge : 5 ≤ headerWords bytes
  length_ge : ethHlen + 4 * headerWords bytes + 2 ≤ bytes.length

structure Record.OwnBytes (r : Record) (bytes : List UInt8) : Prop where
  length_eq : r.length = bytes.length
  headerLength_eq : r.headerLength = 4 * headerWords bytes
  echo_eq : r.echo = echoOf r.type
  type_eq : bytes[ethHlen + 4 * headerWords bytes]? = some r.type
  code_eq : bytes[ethHlen + 4 * headerWords bytes + 1]? = some r.code
  saddr_eq : (bytes.drop 26).take 4 = r.saddr
  daddr_eq : (bytes.drop 30).take 4 = r.daddr

/-- What is printed for a frame is what its own bytes say. -/
def Frame.ReportedAs (frame : Frame) (printed : Option Record) : Prop :=
  (printed.isSome ↔ IcmpFrame frame.bytes) ∧ ∀ r ∈ printed, r.OwnBytes frame.bytes

variable {buf : Buf} {frame : Frame} {frames : List Frame} {bytes : List UInt8} {i : Nat}

theorem getElem_recv (hi : i < 1500) : (recv buf frame)[i] = frame.bytes[i]?.getD buf[i] :=
  Vector.getElem_ofFn hi

/-- A byte that the frame has is received. -/
theorem recv_own (hi : i < 1500) (h : i < frame.bytes.length) :
    frame.bytes[i]? = some (recv buf frame)[i] := by
  rw [getElem_recv, List.getElem?_eq_getElem h, Option.getD_some]

theorem take_four (hown : ∀ i (hi : i < 1500), i < bytes.length → bytes[i]? = some buf[i])
    (hi : i + 3 < 1500) (h : i + 3 < bytes.length) :
    (bytes.drop i).take 4 = [buf[i], buf[i + 1], buf[i + 2], buf[i + 3]] := by
  have hget (j : Nat) (hj : j < 1500) (hlt : j < bytes.length) : bytes[j] = buf[j] :=
    Option.some.inj ((List.getElem?_eq_getElem hlt).symm.trans (hown j hj hlt))
  rw [List.drop_eq_getElem_cons (by omega), List.drop_eq_getElem_cons (by omega),
    List.drop_eq_getElem_cons (by omega), List.drop_eq_getElem_cons h, hget i (by omega),
    hget (i + 1) (by omega), hget (i + 2) (by omega), hget (i + 3) hi]
  rfl

theorem isSome_decode {n : Nat} : (decode n buf).isSome ↔ buf[23] = 1 := by
  rw [decode]
  split
  · next h => exact iff_of_true rfl h
  · next h => exact iff_of_false Bool.false_ne_true h

/-- Where the buffer has the frame's bytes, as many as an ICMP frame has, every byte read for the
record is one of them. -/
theorem decode_own (hown : ∀ i (hi : i < 1500), i < bytes.length → bytes[i]? = some buf[i])
    (h : IcmpFrame bytes) {r : Record} (hr : r ∈ decode bytes.length buf) : r.OwnBytes bytes := by
  have hge := h.headerWords_ge
  have hlen : 14 + 4 * headerWords bytes + 2 ≤ bytes.length := h.length_ge
  have hwords : ihl buf[ethHlen] = headerWords bytes := by
    rw [headerWords, hown ethHlen (by decide) (by rw [ethHlen]; omega), Option.getD_some]
  have hshift : ihl buf[ethHlen] <<< 2 = 4 * headerWords bytes := by
    rw [hwords, Nat.shiftLeft_eq, Nat.mul_comm]
  rw [decode] at hr
  split at hr
  · cases hr
    simp only [hshift]
    refine ⟨rfl, rfl, rfl, ?_, ?_, ?_, ?_⟩
    · exact hown _ _ (by rw [ethHlen]; omega)
    · exact hown _ _ (by rw [ethHlen]; omega)
    · exact take_four hown (by decide) (by omega)
    · exact take_four hown (by decide) (by omega)
  · cases hr

def Frame.protocol (frame : Frame) : Option UInt8 := frame.bytes[23]?

/-- The byte the decoder takes for the protocol: the one of the last frame that has it, else the
one `buf` held before. -/
def protocolByte (buf : Buf) (frames : List Frame) : UInt8 :=
  (frames.filterMap Frame.protocol).getLast?.getD buf[23]

theorem protocolByte_nil : protocolByte buf [] = buf[23] := rfl

theorem protocolByte_cons :
    protocolByte buf (frame :: frames) = protocolByte (recv buf frame) frames := by
  rw [protocolByte, protocolByte, getElem_recv]
  cases h : frame.protocol with
  | none => rw [List.filterMap_cons_none h, show frame.bytes[23]? = none from h, Option.getD_none]
  | some b =>
    rw [List.filterMap_cons_some h, show frame.bytes[23]? = some b from h, List.getLast?_cons,
      Option.getD_some, Option.getD_some]

/-- One frame: it is reported by its own bytes if it is an ICMP frame, or if the decoder does not
take it for one. -/
theorem reportedAs_decode_iff :
    frame.ReportedAs (decode frame.bytes.length (recv buf frame)) ↔
      IcmpFrame frame.bytes ∨ protocolByte buf [frame] ≠ 1 := by
  rw [protocolByte_cons, protocolByte_nil, Frame.ReportedAs, isSome_decode]
  refine ⟨fun ⟨h, _⟩ => ?_, fun h => ?_⟩
  · rw [← h]
    exact Classical.em _
  · rcases Classical.em (IcmpFrame frame.bytes) with hf | hf
    · refine ⟨iff_of_true ?_ hf, fun r => decode_own (fun i hi => recv_own hi) hf⟩
      rw [getElem_recv, hf.protocol, Option.getD_some]
    · have hne := h.resolve_left hf
      refine ⟨iff_of_false hne hf, fun r hr => ?_⟩
      exact absurd (isSome_decode.mp (Option.isSome_of_mem hr)) hne

/-- Over any frames, each is reported by its own bytes if and only if every frame after which the
protocol byte of the buffer is that of ICMP, its own or a left-over one, is an ICMP frame. -/
theorem sniff_reports_iff (buf : Buf) (frames : List Frame) :
    List.Forall₂ Frame.ReportedAs frames (sniff buf frames) ↔
      ∀ pre frame post, frames = pre ++ frame :: post →
        IcmpFrame frame.bytes ∨ protocolByte buf (pre ++ [frame]) ≠ 1 := by
  induction frames generalizing buf with
  | nil =>
    refine iff_of_true .nil fun pre frame post h => absurd h.symm ?_
    exact List.append_ne_nil_of_right_ne_nil pre (List.cons_ne_nil frame post)
  | cons first frames ih =>
    rw [sniff, List.forall₂_cons, reportedAs_decode_iff, ih]
    refine ⟨fun ⟨h1, h2⟩ pre frame post h => ?_, fun h => ⟨h [] first frames rfl, ?_⟩⟩
    · cases pre with
      | nil =>
        cases h
        exact h1
      | cons p pre =>
        obtain ⟨hp, hpre⟩ := List.cons.inj h
        rw [← hp, List.cons_append, protocolByte_cons]
        exact h2 pre frame post hpre
    · intro pre frame post heq
      have h2 := h (first :: pre) frame post (by rw [heq]; rfl)
      rwa [List.cons_append, protocolByte_cons] at h2

/-- An echo request from 10.0.0.1 to 10.0.0.2. -/
def echoRequest : Frame where
  bytes := [0, 0, 0, 0, 0, 2, 0, 0, 0, 0, 0, 1, 0x08, 0x00, 0x45, 0, 0, 28, 0, 0, 0, 0, 64, 1, 0, 0,
    10, 0, 0, 1, 10, 0, 0, 2, 8, 0, 0xf7, 0xff, 0, 0, 0, 0]
  length_pos := by decide
  length_le := by decide

/-- A frame that ends before the protocol byte. -/
def shortFrame : Frame where
  bytes := [0, 0, 0, 0, 0, 2, 0, 0, 0, 0, 0, 1, 0x08, 0x00, 0x45, 0, 0, 6, 0, 0]
  length_pos := by decide
  length_le := by decide

/-- Behind an echo request a short frame is printed as another one. -/
theorem sniff_leftOver :
    ¬List.Forall₂ Frame.ReportedAs [echoRequest, shortFrame]
      (sniff (.replicate 1500 0) [echoRequest, shortFrame]) := by
  intro h
  rw [sniff, sniff, List.forall₂_cons, List.forall₂_cons, reportedAs_decode_iff,
    reportedAs_decode_iff] at h
  rcases h.2.1 with hf | hp
  · have hlen : 14 + 4 * 5 + 2 ≤ 20 := hf.length_ge
    exact absurd hlen (by decide)
  · apply hp
    rw [protocolByte, List.filterMap_cons_none rfl, List.filterMap_nil, List.getLast?_nil,
      Option.getD_none, getElem_recv]
    rfl

end KoScripts.Tools.IcmpSniffer
