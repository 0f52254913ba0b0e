import KoScripts.Lib.Mealy

/-! # The echo protocol and the blocking servers

`handle_connection` of `sequential_server.c` and `thread_server.c`: an initial `*`, then for every
byte between `^` and `$` that byte plus one, each sent by a `send` of its own. The protocol itself
is the transducer `echo`; `handleConnection_eq` says that a blocking server computes it, however
`recv` cuts the stream, up to the first `send` that fails. -/

namespace KoScripts.Servers
open Lib

namespace Blocking

/-- `enum {WAIT_FOR_MSG, IN_MSG}`. -/
inductive InternalState
  | waitForMsg
  | inMsg
  deriving DecidableEq, Repr

/-- What one call of `recv` on a blocking socket returns. -/
inductive RecvResult
  | data (bytes : List UInt8)
  | eof
  | error
  deriving DecidableEq, Repr

/-- Where a call of `handle_connection` stands: blocked in `recv`, returned with its socket
closed, or ended by `exit(1)` together with the process. -/
inductive Outcome
  | waiting
  | returned
  | exited
  deriving DecidableEq, Repr

structure Served where
  sent : List UInt8
  outcome : Outcome
  deriving DecidableEq, Repr

section
variable (sendOk : Nat → Bool)

/-- `send(sockfd, &b, 1, 0)`, where `sendOk k` says whether call number `k` on the socket
succeeds; the error carries what has been sent. -/
def send (sent : List UInt8) (b : UInt8) : Except (List UInt8) (List UInt8) :=
  if sendOk sent.length then .ok (sent ++ [b]) else .error sent

/-- The `switch` over one received byte. -/
def handleByte : InternalState × List UInt8 → UInt8 →
    Except (List UInt8) (InternalState × List UInt8)
  | (.waitForMsg, sent), b => .ok (if b = '^'.toUInt8 then .inMsg else .waitForMsg, sent)
  | (.inMsg, sent), b =>
    if b = '$'.toUInt8 then .ok (.waitForMsg, sent)
    else (send sendOk sent (b + 1)).map (.inMsg, ·)

/-- The `while (1)` loop over the results of `recv`. -/
def handleLoop : InternalState × List UInt8 → List RecvResult → Served
  | (_, sent), [] => ⟨sent, .waiting⟩
  | (_, sent), .error :: _ => ⟨sent, .exited⟩
  | (_, sent), .eof :: _ => ⟨sent, .returned⟩
  | st, .data bytes :: rs =>
    match bytes.foldlM (handleByte sendOk) st with
    | .ok st => handleLoop st rs
    -- a failed send closes the socket and returns
    | .error sent => ⟨sent, .returned⟩

/-- `handle_connection` on the results of its successive `recv` calls. -/
def handleConnection (recvs : List RecvResult) : Served :=
  match send sendOk [] '*'.toUInt8 with
  | .ok sent => handleLoop sendOk (.waitForMsg, sent) recvs
  | .error sent => ⟨sent, .exited⟩

end

end Blocking

namespace Sequential

/-- `sequential_server.c`. -/
def handleConnection (sendOk : Nat → Bool) (recvs : List Blocking.RecvResult) :
    Blocking.Served := Blocking.handleConnection sendOk recvs

end Sequential

namespace ThreadServer

/-- `thread_server.c`. -/
def handleConnection (sendOk : Nat → Bool) (recvs : List Blocking.RecvResult) :
    Blocking.Served := Blocking.handleConnection sendOk recvs

end ThreadServer

/-! ## The protocol as a transducer -/

/-- The echo protocol after the initial `*`. -/
def echo : Mealy Blocking.InternalState UInt8 UInt8 where
  next
    | .waitForMsg, b => if b = '^'.toUInt8 then .inMsg else .waitForMsg
    | .inMsg, b => if b = '$'.toUInt8 then .waitForMsg else .inMsg
  out
    | .waitForMsg, _ => []
    | .inMsg, b => if b = '$'.toUInt8 then [] else [b + 1]

section
variable {b : UInt8}

theorem echo_next_noise (h : b ≠ '^'.toUInt8) : echo.next .waitForMsg b = .waitForMsg := if_neg h

theorem echo_next_message (h : b ≠ '$'.toUInt8) : echo.next .inMsg b = .inMsg := if_neg h

theorem echo_out_message (h : b ≠ '$'.toUInt8) : echo.out .inMsg b = [b + 1] := if_neg h

end

/-- What a server of the protocol sends for the bytes it has received. -/
def replies (received : List UInt8) : List UInt8 :=
  '*'.toUInt8 :: echo.output .waitForMsg received

theorem echo_out_length (q : Blocking.InternalState) (b : UInt8) :
    (echo.out q b).length ≤ 1 := by
  cases q
  · exact Nat.zero_le 1
  · simp only [echo]
    split <;> simp

theorem length_echo_output_le (q : Blocking.InternalState) (bs : List UInt8) :
    (echo.output q bs).length ≤ bs.length := Mealy.length_output_le echo_out_length

@[simp] theorem replies_nil : replies [] = ['*'.toUInt8] := rfl

theorem replies_append (xs ys : List UInt8) :
    replies (xs ++ ys) = replies xs ++ echo.output (echo.state .waitForMsg xs) ys := by
  rw [replies, Mealy.output_append, ← List.cons_append]; rfl

theorem replies_mono {xs ys : List UInt8} (h : xs <+: ys) : replies xs <+: replies ys :=
  List.cons_prefix_cons.mpr ⟨rfl, Mealy.output_prefix h⟩

/-! ## The blocking servers compute it -/

namespace Blocking

section
variable (sendOk : Nat → Bool)

theorem send_cases (sent : List UInt8) (b : UInt8) :
    sendOk sent.length = true ∧ send sendOk sent b = .ok (sent ++ [b]) ∨
      sendOk sent.length = false ∧ send sendOk sent b = .error sent := by
  rw [send]
  cases sendOk sent.length with
  | true => exact .inl ⟨rfl, rfl⟩
  | false => exact .inr ⟨rfl, rfl⟩

/-- The bytes of `out`, each by a `send` of its own, behind what has been sent before. -/
def sendAll (sent out : List UInt8) : Except (List UInt8) (List UInt8) :=
  out.foldlM (send sendOk) sent

theorem sendAll_append (sent xs ys : List UInt8) :
    sendAll sendOk sent (xs ++ ys) =
      (sendAll sendOk sent xs).bind fun sent => sendAll sendOk sent ys := List.foldlM_append ..

theorem sendAll_cons (sent : List UInt8) (b : UInt8) (out : List UInt8) :
    sendAll sendOk sent (b :: out) =
      (send sendOk sent b).bind fun sent => sendAll sendOk sent out := List.foldlM_cons ..

theorem handleByte_eq (q : InternalState) (sent : List UInt8) (b : UInt8) :
    handleByte sendOk (q, sent) b =
      (sendAll sendOk sent (echo.out q b)).map fun sent => (echo.next q b, sent) := by
  cases q with
  | waitForMsg => rfl
  | inMsg =>
    simp only [handleByte, echo]
    split
    · rfl
    · rw [sendAll_cons]
      cases send sendOk sent (b + 1) with
      | error sent => rfl
      | ok sent => rfl

/-- A chunk is answered by sending what the protocol replies to it, as far as the sends succeed. -/
theorem handleBytes_eq (q : InternalState) (sent bs : List UInt8) :
    bs.foldlM (handleByte sendOk) (q, sent) =
      (sendAll sendOk sent (echo.output q bs)).map fun sent => (echo.state q bs, sent) := by
  induction bs generalizing q sent with
  | nil => rfl
  | cons b bs ih =>
    rw [List.foldlM_cons, handleByte_eq, Mealy.output_cons, sendAll_append]
    cases sendAll sendOk sent (echo.out q b) with
    | error sent => rfl
    | ok sent => exact ih (echo.next q b) sent

theorem handleLoop_eq (q : InternalState) (sent : List UInt8) (chunks : List (List UInt8))
    (rest : List RecvResult) :
    handleLoop sendOk (q, sent) (chunks.map .data ++ rest) =
      match sendAll sendOk sent (echo.output q chunks.flatten) with
      | .ok sent => handleLoop sendOk (echo.state q chunks.flatten, sent) rest
      | .error sent => ⟨sent, .returned⟩ := by
  induction chunks generalizing q sent with
  | nil => rfl
  | cons bytes chunks ih =>
    rw [List.map_cons, List.cons_append, handleLoop, handleBytes_eq, List.flatten_cons,
      Mealy.output_append, Mealy.state_append, sendAll_append]
    cases sendAll sendOk sent (echo.output q bytes) with
    | error sent => rfl
    | ok sent => exact ih (echo.state q bytes) sent

end

section
variable {sendOk : Nat → Bool} {sent out t : List UInt8}

theorem sendAll_ok (h : sendAll sendOk sent out = .ok t) :
    t = sent ++ out ∧ ∀ k, sent.length ≤ k → k < t.length → sendOk k = true := by
  induction out generalizing sent with
  | nil =>
    cases h
    refine ⟨(List.append_nil _).symm, fun k hle hlt => ?_⟩
    exact absurd hlt (Nat.not_lt.mpr hle)
  | cons b out ih =>
    obtain ⟨hok, hsend⟩ | ⟨-, hsend⟩ := send_cases sendOk sent b
    · rw [sendAll_cons, hsend] at h
      obtain ⟨rfl, hrest⟩ := ih h
      refine ⟨List.append_cons sent b out ▸ rfl, fun k hle hlt => ?_⟩
      obtain rfl | hgt := Nat.eq_or_lt_of_le hle
      · exact hok
      · apply hrest k _ hlt
        rw [List.length_append, List.length_singleton]
        exact hgt
    · rw [sendAll_cons, hsend] at h
      cases h

/-- Where a send fails, those before it have sent what is in front of its byte. -/
theorem sendAll_error (h : sendAll sendOk sent out = .error t) :
    ∃ pre b post, out = pre ++ b :: post ∧ t = sent ++ pre ∧ sendOk t.length = false := by
  induction out generalizing sent with
  | nil => cases h
  | cons b out ih =>
    obtain ⟨-, hsend⟩ | ⟨hfail, hsend⟩ := send_cases sendOk sent b
    · rw [sendAll_cons, hsend] at h
      obtain ⟨pre, c, post, rfl, rfl, hfail⟩ := ih h
      rw [List.append_assoc, List.singleton_append] at hfail ⊢
      exact ⟨b :: pre, c, post, rfl, rfl, hfail⟩
    · rw [sendAll_cons, hsend] at h
      cases h
      exact ⟨[], b, out, rfl, (List.append_nil _).symm, hfail⟩

end

/-- A blocking server sends `replies` of what it receives, whatever the chunks, up to the first send
that fails: the process ends if that is the first of all, and the connection if it is another. -/
theorem handleConnection_eq (sendOk : Nat → Bool) (chunks : List (List UInt8))
    (rest : List RecvResult) :
    handleConnection sendOk (chunks.map .data ++ rest) =
      match sendAll sendOk [] (replies chunks.flatten) with
      | .ok sent => handleLoop sendOk (echo.state .waitForMsg chunks.flatten, sent) rest
      | .error sent => ⟨sent, if sent = [] then .exited else .returned⟩ := by
  rw [handleConnection, replies, sendAll_cons]
  obtain ⟨-, hack⟩ | ⟨-, hack⟩ := send_cases sendOk [] '*'.toUInt8
  · rw [hack, Except.bind]
    simp only [handleLoop_eq]
    cases h : sendAll sendOk ([] ++ ['*'.toUInt8]) (echo.output .waitForMsg chunks.flatten) with
    | ok sent => rfl
    | error sent =>
      obtain ⟨pre, b, post, -, rfl, -⟩ := sendAll_error h
      rfl
  · rw [hack]
    rfl

/-- Either every send succeeds, or the first that fails cuts the replies off. -/
theorem handleConnection_cases (sendOk : Nat → Bool) (chunks : List (List UInt8))
    (rest : List RecvResult) :
    ((∀ k < (replies chunks.flatten).length, sendOk k = true) ∧
      handleConnection sendOk (chunks.map .data ++ rest) =
        handleLoop sendOk (echo.state .waitForMsg chunks.flatten, replies chunks.flatten) rest) ∨
    ∃ sent b post, replies chunks.flatten = sent ++ b :: post ∧ sendOk sent.length = false ∧
      handleConnection sendOk (chunks.map .data ++ rest) =
        ⟨sent, if sent = [] then .exited else .returned⟩ := by
  rw [handleConnection_eq]
  cases h : sendAll sendOk [] (replies chunks.flatten) with
  | ok sent =>
    obtain ⟨rfl, hok⟩ := sendAll_ok h
    exact .inl ⟨fun k => hok k (Nat.zero_le k), rfl⟩
  | error sent =>
    obtain ⟨pre, b, post, heq, rfl, hfail⟩ := sendAll_error h
    exact .inr ⟨_, b, post, heq, hfail, rfl⟩

/-- Every `send` succeeds. -/
def allSent : Nat → Bool := fun _ => true

theorem handleConnection_allSent (chunks : List (List UInt8)) (rest : List RecvResult) :
    handleConnection allSent (chunks.map .data ++ rest) =
      handleLoop allSent (echo.state .waitForMsg chunks.flatten, replies chunks.flatten) rest := by
  obtain ⟨-, h⟩ | ⟨sent, b, post, -, hfail, -⟩ := handleConnection_cases allSent chunks rest
  · exact h
  · cases hfail

/-- A blocking server whose sends succeed has sent `replies` of what it has received, whatever
the chunks. -/
theorem handleConnection_data (chunks : List (List UInt8)) :
    handleConnection allSent (chunks.map .data) = ⟨replies chunks.flatten, .waiting⟩ := by
  rw [← List.append_nil (chunks.map _), handleConnection_allSent]
  rfl

theorem handleConnection_data_eof (chunks : List (List UInt8)) :
    handleConnection allSent (chunks.map .data ++ [.eof]) = ⟨replies chunks.flatten, .returned⟩ :=
  handleConnection_allSent chunks [.eof]

end Blocking

end KoScripts.Servers
