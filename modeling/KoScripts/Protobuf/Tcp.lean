import KoScripts.Protobuf.Rect

/-! # The length-prefixed messages over TCP

`protobuf/utils.py`, `protobuf/tcp/proto_tcpcli.py` and `protobuf/tcp/proto_tcpser.py`. A frame is
the length of a serialised message as a varint, and the message. Both sides read the length one
byte at a time, decoding what they have until it no longer ends inside the varint, and the body by
one `recv`. The client sends with `sendall`, the server by one write to an unbuffered file. -/

namespace KoScripts.Protobuf
open Lib

/-! ## utils.py -/

def encodeVarint (value : Nat) : List UInt8 := Varint.encode value

def decodeVarint (data : List UInt8) : Except PyError Nat :=
  match Varint.decode data with
  | .ok (value, _) => .ok value
  | .error .index => .error .indexError
  | .error .tooLong => .error .decodeError

/-! ## Sockets -/

/-- `recv(k)` on a connection over which `stream` is still to come and then the end. At least one
byte is returned if there is one and `k` is not 0, and at most `k`; in between the network decides,
by `n`. -/
def recv (k n : Nat) (stream : List UInt8) : List UInt8 × List UInt8 :=
  stream.splitAt (min k (max n 1))

/-- The loop around `recv(1)` and `decode_varint`: the size, and what is still to come. It runs out
of fuel where the loop does not end. -/
def recvSize : Nat → List UInt8 → List UInt8 → Option (Except PyError (Nat × List UInt8))
  | 0, _, _ => none
  | fuel + 1, message, stream =>
    let message := message ++ (recv 1 1 stream).1
    match decodeVarint message with
    | .ok size => some (.ok (size, (recv 1 1 stream).2))
    | .error .indexError => recvSize fuel message (recv 1 1 stream).2
    | .error e => some (.error e)

/-- The body of a frame, as the one `recv(size)` returned it, and the message parsed from it. -/
structure Received (α : Type) where
  data : List UInt8
  msg : α
deriving DecidableEq

variable {α : Type}

/-- Receiving a message: the loop over the header, then the body, of which `recv` returns `n` bytes
if there are that many. -/
def recvFrame (codec : Codec α) (fuel n : Nat) (stream : List UInt8) :
    Option (Except PyError (Received α)) :=
  (recvSize fuel [] stream).map fun header =>
    header.bind fun header =>
      let data := (recv header.1 n header.2).1
      (codec.parseFromString data).map fun msg => ⟨data, msg⟩

def frame (codec : Codec α) (msg : α) : List UInt8 :=
  let data := codec.serializeToString msg
  encodeVarint data.length ++ data

/-! ## proto_tcpcli.py -/

/-- `sendall`: the bytes that go out. -/
def Client.send (codec : Codec α) (msg : α) : List UInt8 := frame codec msg

def Client.recvMessage (codec : Codec α) (fuel n : Nat) (stream : List UInt8) :
    Option (Except PyError (Received α)) := recvFrame codec fuel n stream

/-! ## proto_tcpser.py -/

namespace SimpleHandler

/-- The first half of `handle`, up to `ParseFromString`. -/
def receive (codec : Codec Rect) (fuel n : Nat) (stream : List UInt8) :
    Option (Except PyError (Received Rect)) := recvFrame codec fuel n stream

/-- The rectangle that `handle` answers with. -/
def double (recvRec : Rect) : Except PyError Rect := do
  let x1 ← toInt32 (recvRec.x1.toInt * 2)
  let y1 ← toInt32 (recvRec.y1.toInt * 2)
  let x2 ← toInt32 (recvRec.x2.toInt * 2)
  let y2 ← toInt32 (recvRec.y2.toInt * 2)
  pure ⟨x1, y1, x2, y2⟩

/-- The one write of the reply. The socket accepts the first `accepted` bytes of it. -/
def reply (codec : Codec Rect) (accepted : Nat) (rect : Rect) : List UInt8 :=
  (frame codec rect).take accepted

/-- What the handler has parsed and the bytes it has sent. -/
def handle (codec : Codec Rect) (fuel n accepted : Nat) (stream : List UInt8) :
    Option (Except PyError (Received Rect × List UInt8)) :=
  (receive codec fuel n stream).map fun received =>
    received.bind fun received =>
      (double received.msg).map fun rect => (received, reply codec accepted rect)

end SimpleHandler

end KoScripts.Protobuf
