import KoScripts.Lib.Pool
import KoScripts.Servers.UvServerBuffer

/-! # Disconnecting clients of the libuv echo server

The connections of one process. `uv_close` completes the writes that are still queued with
`UV_ECANCELED`, and the completion callbacks answer any error with `exit(1)`. A client that
disconnects while a write to it is queued thus takes the server down, with all its other clients. -/

namespace KoScripts.Servers.UvServer
open Lib Uv
open Event (sendbufSize)

variable {s t : Conn} {a : Label} {cs ds : List Conn} {i : Nat}

/-- The process, which ends when a callback of one of its connections ends it. -/
def server : Machine (List Conn) (PoolLabel Label) := uvServer.pool fun c => c.halted.isSome

/-- The calls of `uv_write` and `uv_read_start` succeed. -/
def CallsSucceed : Label → Prop
  | .read _ ok | .wrote ok => ok = true
  | _ => True

/-- What is read fits in the staging buffer, a connection is closed only when no write to it is
queued, and no write completes with an error. -/
def Harmless (s : Conn) : Label → Prop
  | .read chunk _ =>
    s.peer.sendbufEnd + (echo.output s.peer.state.frame chunk).length ≤ sendbufSize
  | .readEnd => s.stream.queue = []
  | .writeFailed => False
  | _ => True

def Served (s : Conn) (a : Label) : Prop := CallsSucceed a ∧ Harmless s a

instance {s : Conn} {a : Label} : Decidable (Served s a) :=
  match a with
  | .read _ _ => inferInstanceAs (Decidable (_ = _ ∧ _ ≤ _))
  | .readEnd => inferInstanceAs (Decidable (True ∧ s.stream.queue = []))
  | .wrote _ => inferInstanceAs (Decidable (_ = _ ∧ True))
  | .writeFailed => inferInstanceAs (Decidable (True ∧ False))
  | .readNone | .drain _ | .closed => inferInstanceAs (Decidable (True ∧ True))

/-! ## One connection -/

end KoScripts.Servers.UvServer
