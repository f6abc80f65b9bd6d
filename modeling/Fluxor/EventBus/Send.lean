import Fluxor.EventLoop.Dispatcher

/-!
# The two paths of Send

`eventBus.Send` hands a message to the mailbox of one consumer of the address,
either itself or, when the bus has an event-loop group, through the handler of
an event it dispatches to the group.
-/

namespace Fluxor.EventBus

open Fluxor.Concurrency Fluxor.EventLoop Fluxor.Support Function

/-- A body as callers pass it; a nil body is `none`. The bus tells byte
slices, protobuf messages and other values apart. -/
inductive Body (π ν : Type*)
  | bytes (data : List UInt8)
  | proto (msg : π)
  | value (v : ν)

/-- `proto.Marshal` and `json.Marshal`, with the text of their errors. -/
structure Encoders (π ν : Type*) where
  protoMarshal : π → Except String (List UInt8)
  jsonMarshal : ν → Except String (List UInt8)

/-- `message`, without the pointer back to the bus. -/
structure Message where
  body : List UInt8
  headers : GoStringMap
  replyAddress : GoString

inductive SendError
  | bus (err : CodedError)
  | noHandlers (address : GoString)
  | text (message : String)
  | mailbox (err : MailboxError)
  | dispatch (err : DispatchError)
  | context (err : ContextError)
  deriving DecidableEq

def errTimeout : SendError := .bus ⟨"TIMEOUT", "Request timeout"⟩

/-- What a `Dispatch` on the event-loop group came to: an error, or nil, and
then the loop has run the handler or has ended before. -/
inductive DispatchOutcome
  | failed (err : DispatchError)
  | returned (handled : Bool)

/-- The event-loop group as `Send` uses it. The handler of an event forwards a
message to the consumer of the given index. -/
abbrev LoopGroup := Event (List UInt8) (ℕ × Message) → DispatchOutcome

/-- `eventBus`, with the values its context carries. -/
structure Bus where
  consumers : GoString → List (Mailbox Message)
  ctxErr : Option ContextError
  (floxID requestID : GoString)
  loopGroup : Option LoopGroup
  sendCounter : ℕ

variable {π ν : Type*} (enc : Encoders π ν) (address : GoString) (body : Option (Body π ν))

def validateAddress : Option CodedError :=
  if address = [] then
    some ⟨"INVALID_ADDRESS", "address cannot be empty"⟩
  else if address.length > 255 then
    some ⟨"INVALID_ADDRESS", "address too long (max 255 characters)"⟩
  else none

def validateBody : Option CodedError :=
  match body with
  | none => some ⟨"INVALID_BODY", "body cannot be nil"⟩
  | some _ => none

def encodeBody : Option (Body π ν) → Except String (List UInt8)
  | none => .error "body cannot be nil"
  | some (.bytes data) => .ok data
  | some (.proto msg) =>
    match enc.protoMarshal msg with
    | .ok data => .ok data
    | .error e => .error ("protobuf encode failed: protobuf encode failed: " ++ e)
  | some (.value v) =>
    match enc.jsonMarshal v with
    | .ok data => .ok data
    | .error e => .error ("json encode failed: " ++ e)

/-- The checks at the head of `Send` and the encoding of the body. -/
def checkInputs : Except SendError (List UInt8) :=
  match validateAddress address with
  | some err => .error (.bus err)
  | none =>
    match validateBody body with
    | some err => .error (.bus err)
    | none =>
      match encodeBody enc body with
      | .error e => .error (.text ("encode body failed: " ++ e))
      | .ok data => .ok data

def newMessage (body : List UInt8) (headers : GoStringMap) (replyAddress : GoString) : Message where
  body := body
  headers := if headers = none then some fun _ => none else headers
  replyAddress := replyAddress

namespace Bus

variable (eb : Bus) (address : GoString)

def buildHeaders : GoStringMap :=
  let h : GoStringMap :=
    if eb.floxID ≠ [] then
      some (update (fun _ => none) (lit "X-Flox-ID") (some eb.floxID))
    else none
  if eb.requestID ≠ [] then
    some (update (h.getD fun _ => none) (lit "X-Request-ID") (some eb.requestID))
  else h

/-- `consumers[atomic.AddUint64(&eb.sendCounter, 1)%uint64(len(consumers))]`. -/
def nextConsumer (h : 0 < (eb.consumers address).length) : Fin (eb.consumers address).length :=
  ⟨(eb.sendCounter + 1) % 2 ^ 64 % (eb.consumers address).length, Nat.mod_lt _ h⟩

def mailboxSend (idx : Fin (eb.consumers address).length) (msg : Message) :
    Except MailboxError Bus :=
  match ((eb.consumers address).get idx).send msg with
  | .error e => .error e
  | .ok mb => .ok { eb with
      consumers := update eb.consumers address ((eb.consumers address).set idx mb) }

/-- The end of `Send` without an event-loop group. -/
def sendDirect (msg : Message) (idx : Fin (eb.consumers address).length) : Option SendError × Bus :=
  match eb.mailboxSend address idx msg with
  | .ok eb' => (none, eb')
  | .error .full => (some errTimeout, eb)
  | .error .closed => (eb.ctxErr.map .context, eb)

/-- The event `sendViaEventLoopWithContext` dispatches: the FloxID of the
context is the key, and a header unless the message has one. -/
def loopEvent (msg : Message) (idx : ℕ) : Event (List UInt8) (ℕ × Message) :=
  let headers := msg.headers.getD fun _ => none
  { key := eb.floxID
    address := address
    body := some msg.body
    headers := some (if eb.floxID ≠ [] ∧ (headers (lit "X-Flox-ID")).getD [] = [] then
        update headers (lit "X-Flox-ID") (some eb.floxID)
      else headers)
    handler := some (idx, msg) }

/-- The error `sendViaEventLoopWithContext` ends with. -/
def errNotImplemented : SendError :=
  .text ("SendWithContext: request-reply pattern requires correlation ID " ++
    "tracking (not yet implemented)")

/-- `sendViaEventLoop`. The loop drops what the handler returns, and the call always
ends with an error. -/
def sendViaEventLoop (group : LoopGroup) (address : GoString)
    (msg : Message) (idx : Fin (eb.consumers address).length) : Option SendError × Bus :=
  match group (eb.loopEvent address msg idx) with
  | .failed err =>
    if SendError.dispatch err = .mailbox .full then (some errTimeout, eb)
    else (some (.dispatch err), eb)
  | .returned false => (some errNotImplemented, eb)
  | .returned true =>
    match eb.mailboxSend address idx msg with
    | .ok eb' => (some errNotImplemented, eb')
    | .error _ => (some errNotImplemented, eb)

/-- `Send`: the error it returns and the bus it leaves. -/
def send (enc : Encoders π ν) (eb : Bus) (address : GoString)
    (body : Option (Body π ν)) : Option SendError × Bus :=
  match checkInputs enc address body with
  | .error err => (some err, eb)
  | .ok data =>
    if h : 0 < (eb.consumers address).length then
      let idx := eb.nextConsumer address h
      let eb' := { eb with sendCounter := (eb.sendCounter + 1) % 2 ^ 64 }
      let msg := newMessage data eb.buildHeaders []
      match eb.loopGroup with
      | some group => eb'.sendViaEventLoop group address msg idx
      | none => eb'.sendDirect address msg idx
    else (some (.noHandlers address), eb)

def queue (idx : ℕ) : List Message := ((eb.consumers address)[idx]?.map Mailbox.queue).getD []

/-- A message was put into the mailbox of the consumer `Send` chose. -/
def Enqueued (eb eb' : Bus) (address : GoString) (h : 0 < (eb.consumers address).length) : Prop :=
  ∃ msg, eb'.queue address (eb.nextConsumer address h) =
    eb.queue address (eb.nextConsumer address h) ++ [msg]

/-- `Send` with and without the group return nil on the same inputs, exactly when
they enqueued the message. -/
structure PathsAgree (enc : Encoders π ν) (eb : Bus) (group : LoopGroup)
    (address : GoString) (body : Option (Body π ν))
    (h : 0 < (eb.consumers address).length) : Prop where
  same : ({ eb with loopGroup := some group }.send enc address body).1 = none ↔
    ({ eb with loopGroup := none }.send enc address body).1 = none
  direct : ({ eb with loopGroup := none }.send enc address body).1 = none ↔
    eb.Enqueued ({ eb with loopGroup := none }.send enc address body).2 address h
  loop : ({ eb with loopGroup := some group }.send enc address body).1 = none ↔
    eb.Enqueued ({ eb with loopGroup := some group }.send enc address body).2 address h

/-- The mailbox refuses the message and the caller can see it: it is open and full,
or it is closed and the context of the bus has ended. -/
def Refused (h : 0 < (eb.consumers address).length) : Prop :=
  let mb := (eb.consumers address).get (eb.nextConsumer address h)
  mb.closed = true ∧ eb.ctxErr ≠ none ∨ mb.closed = false ∧ mb.capacity ≤ mb.queue.length

end Bus

/-- An input that `Send` refuses before it looks at the consumers. -/
def Invalid : Prop :=
  validateAddress address ≠ none ∨ validateBody body ≠ none ∨ ∃ e, encodeBody enc body = .error e

theorem checkInputs_cases :
    (Invalid enc address body ∧ ∃ err, checkInputs enc address body = .error err) ∨
      (¬Invalid enc address body ∧ ∃ data, checkInputs enc address body = .ok data) := by
  simp only [Invalid, checkInputs]
  cases haddr : validateAddress address with
  | some => exact Or.inl ⟨Or.inl (by simp), _, rfl⟩
  | none =>
    cases hbody : validateBody body with
    | some => exact Or.inl ⟨Or.inr (Or.inl (by simp)), _, rfl⟩
    | none => cases henc : encodeBody enc body <;> grind [encodeBody]

namespace Bus

variable {address : GoString}

theorem mailboxSend_closed (eb : Bus) {idx : Fin (eb.consumers address).length}
    (h : ((eb.consumers address).get idx).closed = true) (msg : Message) :
    eb.mailboxSend address idx msg = .error .closed := by
  grind [Mailbox.send_cases, mailboxSend]

theorem mailboxSend_full (eb : Bus) {idx : Fin (eb.consumers address).length}
    (hopen : ((eb.consumers address).get idx).closed = false)
    (hfull : ((eb.consumers address).get idx).capacity ≤
      ((eb.consumers address).get idx).queue.length) (msg : Message) :
    eb.mailboxSend address idx msg = .error .full := by
  grind [Mailbox.send_cases, mailboxSend]

theorem mailboxSend_room (eb : Bus) {idx : Fin (eb.consumers address).length}
    (hopen : ((eb.consumers address).get idx).closed = false)
    (hroom : ((eb.consumers address).get idx).queue.length <
      ((eb.consumers address).get idx).capacity) (msg : Message) :
    ∃ eb', eb.mailboxSend address idx msg = .ok eb' ∧
      eb'.queue address idx = eb.queue address idx ++ [msg] := by
  rcases Mailbox.send_cases ((eb.consumers address).get idx) msg with
    ⟨hclosed, -⟩ | ⟨-, hfull, -⟩ | ⟨-, -, mb, hsend, -, hqueue, -⟩
  · rw [hopen] at hclosed
    cases hclosed
  · omega
  · refine ⟨_, by rw [mailboxSend, hsend], ?_⟩
    grind [queue]

theorem not_enqueued {eb eb' : Bus} (h : 0 < (eb.consumers address).length)
    (hsame : eb'.consumers = eb.consumers) : ¬eb.Enqueued eb' address h := by
  rintro ⟨msg, hmsg⟩
  have hlen := congrArg List.length hmsg
  simp [queue, hsame] at hlen

section Paths

variable (enc : Encoders π ν) (eb : Bus) {address : GoString} {body : Option (Body π ν)}

theorem send_invalid (hinvalid : Invalid enc address body) :
    ∃ err, eb.send enc address body = (some err, eb) := by
  rcases checkInputs_cases enc address body with ⟨-, err, herr⟩ | ⟨hvalid, -⟩
  · exact ⟨err, by rw [send, herr]⟩
  · exact absurd hinvalid hvalid

def counted (eb : Bus) : Bus :=
  { eb with sendCounter := (eb.sendCounter + 1) % 2 ^ 64 }

variable {group : LoopGroup}

theorem send_eq (hvalid : ¬Invalid enc address body) (h : 0 < (eb.consumers address).length) :
    ∃ msg, eb.send enc address body = match eb.loopGroup with
      | some group => eb.counted.sendViaEventLoop group address msg (eb.nextConsumer address h)
      | none => eb.counted.sendDirect address msg (eb.nextConsumer address h) := by
  rcases checkInputs_cases enc address body with
    ⟨hinvalid, -⟩ | ⟨-, data, hdata⟩
  · exact absurd hinvalid hvalid
  · refine ⟨newMessage data eb.buildHeaders [], ?_⟩
    grind [send, counted]

theorem sendViaEventLoop_ne_nil (group : LoopGroup) (msg : Message)
    (idx : Fin (eb.consumers address).length) :
    (eb.sendViaEventLoop group address msg idx).1 ≠ none := by
  grind [sendViaEventLoop]

theorem send_loop_ne_nil (hgroup : eb.loopGroup = some group)
    (h : 0 < (eb.consumers address).length) : (eb.send enc address body).1 ≠ none := by
  by_cases hvalid : Invalid enc address body
  · obtain ⟨err, herr⟩ := send_invalid enc eb hvalid
    rw [herr]
    simp
  grind [send_eq, sendViaEventLoop_ne_nil]

theorem send_loop_consumers (hgroup : eb.loopGroup = some group)
    (h : 0 < (eb.consumers address).length) (hrefused : eb.Refused address h) :
    (eb.send enc address body).2.consumers = eb.consumers := by
  by_cases hvalid : Invalid enc address body
  · obtain ⟨err, herr⟩ := send_invalid enc eb hvalid
    rw [herr]
  · obtain ⟨msg, hsend⟩ := send_eq enc eb hvalid h
    have hfail : ∃ e, eb.counted.mailboxSend address
        (eb.nextConsumer address h) msg = .error e := by
      rcases hrefused with ⟨hclosed, -⟩ | ⟨hopen, hfull⟩
      · exact ⟨_, mailboxSend_closed eb.counted hclosed msg⟩
      · exact ⟨_, mailboxSend_full eb.counted hopen hfull msg⟩
    obtain ⟨e, he⟩ := hfail
    rw [hsend, hgroup]
    simp only [sendViaEventLoop]
    split
    · split <;> rfl
    · rfl
    · rw [he]
      rfl

theorem send_direct_refused (hgroup : eb.loopGroup = none) (h : 0 < (eb.consumers address).length)
    (hrefused : eb.Refused address h) :
    (eb.send enc address body).1 ≠ none ∧
      (eb.send enc address body).2.consumers = eb.consumers := by
  by_cases hvalid : Invalid enc address body
  · obtain ⟨err, herr⟩ := send_invalid enc eb hvalid
    rw [herr]
    exact ⟨by simp, rfl⟩
  · obtain ⟨msg, hsend⟩ := send_eq enc eb hvalid h
    rw [hsend, hgroup]
    simp only [sendDirect]
    rcases hrefused with ⟨hclosed, hctx⟩ | ⟨hopen, hfull⟩
    · rw [mailboxSend_closed eb.counted hclosed msg]
      refine ⟨?_, rfl⟩
      intro hnil
      exact hctx (Option.map_eq_none_iff.mp hnil)
    grind [mailboxSend_full, counted]

theorem send_direct_nil (hgroup : eb.loopGroup = none) (hvalid : ¬Invalid enc address body)
    (h : 0 < (eb.consumers address).length) (hrefused : ¬eb.Refused address h) :
    (eb.send enc address body).1 = none := by
  obtain ⟨msg, hsend⟩ := send_eq enc eb hvalid h
  rw [hsend, hgroup]
  simp only [sendDirect]
  simp only [Refused, not_or, not_and] at hrefused
  obtain ⟨hclosed, hopen⟩ := hrefused
  cases hc : ((eb.consumers address).get (eb.nextConsumer address h)).closed with
  | true => grind [mailboxSend_closed, counted]
  | false =>
    have hroom := Nat.lt_of_not_le (hopen hc)
    obtain ⟨eb', heb', -⟩ := mailboxSend_room eb.counted hc hroom msg
    rw [heb']

end Paths

/-- The two paths agree exactly when neither can enqueue and the direct one reports so. -/
theorem send_pathsAgree_iff (enc : Encoders π ν) (eb : Bus) (group : LoopGroup)
    (address : GoString) (body : Option (Body π ν)) (h : 0 < (eb.consumers address).length) :
    PathsAgree enc eb group address body h ↔ Invalid enc address body ∨ eb.Refused address h := by
  have hloop : ({ eb with loopGroup := some group }.send enc address body).1 ≠
      none := send_loop_ne_nil enc _ rfl h
  constructor
  · intro hagree
    by_contra hnot
    rw [not_or] at hnot
    have hnil : ({ eb with loopGroup := none }.send enc address body).1 =
        none := send_direct_nil enc _ rfl hnot.1 h hnot.2
    exact hloop (hagree.same.mpr hnil)
  · intro hcond
    have hquiet :
        ({ eb with loopGroup := none }.send enc address body).1 ≠ none ∧
        ({ eb with loopGroup := none }.send enc address body).2.consumers = eb.consumers ∧
        ({ eb with loopGroup := some group }.send enc address body).2.consumers = eb.consumers := by
      rcases hcond with hinvalid | hrefused
      · obtain ⟨err, herr⟩ := send_invalid enc { eb with loopGroup := none } hinvalid
        obtain ⟨err', herr'⟩ := send_invalid enc { eb with loopGroup := some group } hinvalid
        rw [herr, herr']
        exact ⟨by simp, rfl, rfl⟩
      · obtain ⟨h1, h2⟩ := send_direct_refused enc { eb with loopGroup := none } rfl h hrefused
        exact ⟨h1, h2, send_loop_consumers enc { eb with loopGroup := some group } rfl h hrefused⟩
    obtain ⟨hdirect, hsame, hsame'⟩ := hquiet
    refine ⟨⟨?_, ?_⟩, ⟨?_, ?_⟩, ⟨?_, ?_⟩⟩
    · intro hnil
      exact absurd hnil hloop
    · intro hnil
      exact absurd hnil hdirect
    · intro hnil
      exact absurd hnil hdirect
    · intro henq
      exact absurd henq (not_enqueued h hsame)
    · intro hnil
      exact absurd hnil hloop
    · intro henq
      exact absurd henq (not_enqueued h hsame')

def single (mb : Mailbox Message) : Bus where
  consumers := fun address => if address = lit "orders" then [mb] else []
  ctxErr := none
  floxID := []
  requestID := []
  loopGroup := none
  sendCounter := 0

def fullMailbox : Mailbox Message where
  queue := [newMessage [7] none []]
  capacity := 1
  closed := false
  bounded := by decide

def emptyMailbox : Mailbox Message where
  queue := []
  capacity := 1
  closed := false
  bounded := by decide

def noEncoders : Encoders Empty Empty where
  protoMarshal := fun m => m.elim
  jsonMarshal := fun v => v.elim

def liveGroup : LoopGroup := fun _ => .returned true

theorem send_pathsAgree_fullMailbox :
    PathsAgree noEncoders (single fullMailbox) liveGroup (lit "orders")
      (some (.bytes [1])) (by decide) :=
  (send_pathsAgree_iff noEncoders (single fullMailbox) liveGroup
    (lit "orders") (some (.bytes [1])) (by decide)).mpr
    (Or.inr (Or.inr ⟨rfl, by decide⟩))

/-- One live consumer with room: the message is enqueued either way, but the
event-loop path returns an error. -/
theorem send_paths_differ : ({ single emptyMailbox with loopGroup := none }.send noEncoders
        (lit "orders") (some (.bytes [1]))).1 = none ∧
      ({ single emptyMailbox with loopGroup := some liveGroup }.send noEncoders
        (lit "orders") (some (.bytes [1]))).1 = some errNotImplemented ∧
      ¬PathsAgree noEncoders (single emptyMailbox) liveGroup (lit "orders")
        (some (.bytes [1])) (by decide) := by
  refine ⟨by decide, by decide, fun hagree => ?_⟩
  exact absurd hagree.same (by decide)

end Bus
end Fluxor.EventBus
