import KoScripts.Protobuf.RectPrefix
import KoScripts.Protobuf.Reply

/-! # A request and its reply

`wait_reply` of `proto_tcpcli.py` with the handler of `proto_tcpser.py` behind its connection. A
short `recv` on either side and a short write of the reply cut a message, and nothing tells the
receiver; what it makes of the rest are the first fields of what was sent. -/

namespace KoScripts.Protobuf

variable {codec : Codec Rect} {record : Nat × Int32 → List UInt8} {r rect : Rect}
  {fuel n n' accepted : Nat} {v w : Int32}

/-! ## Receiving a frame that is cut -/

end KoScripts.Protobuf
