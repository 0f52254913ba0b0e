import KoScripts.Protobuf.Rect

/-! # A serialised rectangle that is cut

The wire format does not say where a message ends. A prefix that ends inside a field is refused, one
that ends behind a field is the message of the fields in front of the cut. -/

namespace KoScripts.Protobuf
open Lib

/-- The first `k` fields of a rectangle; the others are not set. -/
def Rect.keep (r : Rect) (k : Nat) : Rect where
  x1 := if 0 < k then r.x1 else 0
  y1 := if 1 < k then r.y1 else 0
  x2 := if 2 < k then r.x2 else 0
  y2 := if 3 < k then r.y2 else 0

variable {tag fuel k : Nat} {v : Int32} {p q : List UInt8} {r : Rect} {fs : List (Nat × Int32)}

/-! ## Prefixes -/

namespace Codec.Wire
variable {codec : Codec Rect} {record : Nat × Int32 → List UInt8}

end Codec.Wire

/-! ## The records of a rectangle -/

end KoScripts.Protobuf
