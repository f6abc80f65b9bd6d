import Fluxor.Support.Transition
import Fluxor.Vpn.Protocol

/-!
# The VPN server

`vpn_server.go` and the address pool of `client.go` of `pkg/vpn`. The clients are
objects that several tables point to, and that outlive their entries: a connection
keeps the object it began with. Texts of log lines, counters and the contents of
published events are left out.

The authenticator, the salts, the times and the outcomes of writes are those of the
environment; `rand.Read` does not fail. Addresses have any type: `net.IP` is used
through `String` and `Contains` only. The server keeps a log that no function reads.
-/

namespace Fluxor.Vpn

open Support Transition Function

variable {IP : Type} [DecidableEq IP]

/-! ## The state -/

inductive Addr
  | udp (text : String)
  | tcp (text : String)

def Addr.string : Addr → String
  | .udp text => text
  | .tcp text => text

inductive ClientStatus
  | connecting | connected | disconnected | authenticated
  deriving DecidableEq

inductive ConnectionState
  | initial | handshaking | authenticating | configuring | connected | disconnected
  deriving DecidableEq

/-- `Client`. A client that is in the table has an address of the network. -/
structure Client (IP : Type) where
  id : String
  remoteAddr : Option Addr
  assignedIP : IP
  lastSeen : ℤ
  status : ClientStatus

/-- `clientCryptoState`, with the number of its session. -/
structure CryptoState where
  key : Bytes
  (sendSeq session : ℕ)

structure IPPool (IP : Type) where
  available : List IP
  allocated : Finset IP := ∅

def IPPool.allocate (pool : IPPool IP) : Option (IP × IPPool IP) :=
  (pool.available.find? (· ∉ pool.allocated)).map fun ip =>
    (ip, { pool with allocated := insert ip pool.allocated })

def IPPool.release (pool : IPPool IP) (ip : IP) : IPPool IP :=
  { pool with allocated := pool.allocated.erase ip }

structure Session where
  id : String
  (salt password : Bytes)

inductive Happening
  | handshake (id : String)
  | authenticated (id : String) (key : Bytes)
  | configured (id : String)
  | tornDown (id : String)
  | processed (id : String) (payload plain : Bytes)
  | forwarded (id target : String) (bytes : Bytes)
  | gateway (id : String) (bytes : Bytes)
  | answered (id : String) (bytes : Bytes)
  | encrypted (session : ℕ) (key nonce plaintext : Bytes)
  deriving DecidableEq

structure Server (IP : Type) where
  objects : ℕ → Option (Client IP) := fun _ => none
  created : ℕ := 0
  clients : String → Option ℕ := fun _ => none
  ipToClient : IP → Option ℕ := fun _ => none
  clientCrypto : String → Option CryptoState := fun _ => none
  ipPool : IPPool IP
  connectionStates : String → Option ConnectionState := fun _ => none
  connectionSeqs : String → ℕ := fun _ => 0
  sessions : List Session := []
  log : List Happening := []

structure Config (IP : Type) where
  echoData : Bool := false
  eventBus : Bool := false
  udpConn : Bool := true
  gatewayTUN : Bool := false
  network : IP → Bool
  parseIP : Bytes → IP
  dnsServers : List String := []
  routes : List String := []
  networkCIDR : String := ""
  idleTimeout : ℤ := 0

/-- What the environment does while a packet is handled. -/
structure Env (IP : Type) where
  now : ℤ
  timestamp : ℕ
  salt : Bytes
  authenticate : Bytes → Bytes → Bool
  clientInfo : Bytes → Option (Option IP)
  written : Bool
  salt_length : salt.length = saltSize

inductive VPNError
  | parse (err : ParseError)
  | invalidState (packet : PacketType) (state : ConnectionState)
  | authData | authenticationFailed | clientInfo | badKey
  | unknownType (type : UInt8)
  | tooLarge (length : ℕ)

/-- The bytes that a handler answers with, if any, or its error. -/
abbrev Response := Except VPNError (Option Bytes)

namespace Server

variable (s : Server IP)

def record (h : Happening) : Server IP :=
  { s with log := s.log ++ [h] }

def updateClient (p : ℕ) (f : Client IP → Client IP) : Server IP :=
  { s with objects := update s.objects p ((s.objects p).map f) }

def setState (id : String) (state : ConnectionState) : Server IP :=
  { s with
    connectionStates := update s.connectionStates id (some state) }

def setSeq (id : String) (seq : ℕ) : Server IP :=
  { s with connectionSeqs := update s.connectionSeqs id seq }

def setCrypto (id : String) (cc : Option CryptoState) : Server IP :=
  { s with clientCrypto := update s.clientCrypto id cc }

/-- The state of a connection; one that is not in the map is at its start. -/
def stateOf (id : String) : ConnectionState :=
  (s.connectionStates id).getD .initial

end Server

def nextSeq (packet : VPNPacket) : ℕ :=
  (packet.sequence + 1) % 2 ^ 32

def serialized (packet : VPNPacket) : Response :=
  match packet.serialize with
  | some bytes => .ok (some bytes)
  | none => .error (.tooLarge packet.data.length)

/-- `resp, _ := packet.Serialize(); return resp, nil`. -/
def best (packet : VPNPacket) : Response :=
  .ok packet.serialize

variable (cfg : Config IP) (prim : Primitives) (env : Env IP) (s : Server IP) (c : Client IP)
  (packet : VPNPacket)

/-! ## Control packets -/

def handleHandshake : Response × Server IP :=
  if s.stateOf c.id ≠ .initial then
    (.error (.invalidState .handshake (s.stateOf c.id)), s)
  else
    let seq := nextSeq packet
    (serialized (createPacket .handshake env.timestamp seq "HANDSHAKE".toUTF8.toList),
      ((s.setState c.id .handshaking).setSeq c.id seq).record (.handshake c.id))

/-- A new session: its key, and the number 0 for its first message. -/
def Server.beginSession (id : String) (key salt password : Bytes) : Server IP :=
  { s with
    clientCrypto := update s.clientCrypto id (some ⟨key, 0, s.sessions.length⟩)
    sessions := s.sessions ++ [⟨id, salt, password⟩] }

def handleAuth (p : ℕ) (c : Client IP) (packet : VPNPacket) : Response × Server IP :=
  if s.stateOf c.id ≠ .handshaking then
    (.error (.invalidState .auth (s.stateOf c.id)), s)
  else match parseAuthData packet with
    | none => (.error .authData, s)
    | some (username, password) =>
      if env.authenticate username password = false then
        (.error .authenticationFailed, s.setState c.id .disconnected)
      else match env.clientInfo username with
        | none => (.error .clientInfo, s)
        | some ip =>
          let s := (s.updateClient p fun c =>
            { c with
              status := .authenticated
              assignedIP := ip.getD c.assignedIP }).setState c.id .configuring
          let key := deriveKey prim env.salt password
          if key.length ≠ keySize then (.error .badKey, s)
          else
            (serialized (createPacket .auth env.timestamp (nextSeq packet) env.salt),
              (s.beginSession c.id key env.salt password).record (.authenticated c.id key))

def configData : Bytes :=
  let dns := if cfg.dnsServers = [] then ["8.8.8.8", "8.8.4.4"] else cfg.dnsServers
  let routes := if cfg.routes = [] then [cfg.networkCIDR] else cfg.routes
  ("DNS=" ++ String.intercalate "," dns ++ " ROUTES=" ++
    String.intercalate "," routes).toUTF8.toList

/-- `handleConfig`. The published event has the text of the remote address. -/
def handleConfig (p : ℕ) (c : Client IP) (packet : VPNPacket) :
    Except Fault (Response × Server IP) :=
  if s.stateOf c.id ≠ .configuring then
    pure (.error (.invalidState .config (s.stateOf c.id)), s)
  else
    let seq := nextSeq packet
    let s := ((s.setState c.id .connected).setSeq c.id seq).updateClient p
      fun c => { c with status := .connected }
    if cfg.eventBus = true ∧ c.remoteAddr = none then .error .nilDereference
    else pure (serialized (createPacket .config env.timestamp seq
      (configData cfg)), s.record (.configured c.id))

def handleKeepAlive (p : ℕ) (c : Client IP) (packet : VPNPacket) : Response × Server IP :=
  let seq := nextSeq packet
  (serialized (createPacket .keepAlive env.timestamp seq "KEEPALIVE".toUTF8.toList),
    (s.updateClient p fun c => { c with lastSeen := env.now }).setSeq c.id seq)

/-- The forwarding entry and the address of a client are given up. -/
def Server.releaseAddress (ip : IP) : Server IP :=
  { s with
    ipToClient := update s.ipToClient ip none
    ipPool := s.ipPool.release ip }

def handleDisconnect (p : ℕ) (c : Client IP) : Response × Server IP :=
  (.ok none, ((((s.setState c.id .disconnected).updateClient p fun c =>
      { c with status := .disconnected }).setCrypto c.id none).releaseAddress
        c.assignedIP).record (.tornDown c.id))

/-! ## Data packets -/

def Server.encryptFor (id : String) (plaintext : Bytes) : Bytes × Server IP :=
  match s.clientCrypto id with
  | none => (plaintext, s)
  | some cc =>
    (encryptData prim cc.key plaintext cc.sendSeq, (s.setCrypto id (some { cc with
        sendSeq := (cc.sendSeq + 1) % 2 ^ 64 })).record
          (.encrypted cc.session cc.key (nonce cc.sendSeq) plaintext))

def ackOrEcho (seq : ℕ) (plaintext : Bytes) : Response × Server IP :=
  if cfg.echoData = true ∧ 0 < plaintext.length then
    let (payload, s) := s.encryptFor prim c.id plaintext
    (best (createPacket .data env.timestamp seq payload), s)
  else (best (createPacket .ack env.timestamp seq "ACK".toUTF8.toList), s)

def reachable (target : Client IP) : Bool :=
  match target.remoteAddr with
  | some (.udp _) => cfg.udpConn && env.written
  | _ => false

/-- Forward the data to another client with the destination address, if there is
one; true if it was sent. -/
def forwardData (data : Bytes) (dst : IP) : Bool × Server IP :=
  match (s.ipToClient dst).bind s.objects with
  | none => (false, s)
  | some target =>
    if target.id = c.id then (false, s)
    else
      let (payload, s) := s.encryptFor prim target.id data
      let bytes := (createPacket .data env.timestamp 0 payload).serialize.getD []
      if reachable cfg env target then
        (true, s.record (.forwarded c.id target.id bytes))
      else (false, s)

def isEchoRequest (data : Bytes) : Except Fault Bool :=
  if 28 ≤ data.length then do
    let protocol ← index data 9
    let kind ← index data 20
    pure (protocol = 1 && kind = 8)
  else pure false

/-- Answer the data: an echo reply, or what `ackOrEcho` says. -/
def answerData (seq : ℕ) (data : Bytes) : Except Fault (Response × Server IP) := do
  let echo ← isEchoRequest data
  match echo with
  | true =>
    let reply ← icmpReply data
    let (payload, s) := s.encryptFor prim c.id reply
    pure (best (createPacket .data env.timestamp seq payload), s)
  | false => pure (ackOrEcho cfg prim env s c seq data)

def routeData (seq : ℕ) (data : Bytes) (dst : IP) : Except Fault (Response × Server IP) :=
  if cfg.network dst = false then
    pure (.ok none, if cfg.gatewayTUN then s.record (.gateway c.id data) else s)
  else match forwardData cfg prim env s c data dst with
    | (true, s) => pure (.ok none, s)
    | (false, s) => answerData cfg prim env s c seq data

/-- `handleData` after the decryption. -/
def processData (seq : ℕ) (data : Bytes) : Except Fault (Response × Server IP) :=
  if data.length < 20 then pure (ackOrEcho cfg prim env s c seq data)
  else do
    let version ← index data 0
    if version >>> 4 ≠ 4 then pure (ackOrEcho cfg prim env s c seq data)
    else do
      let dst ← slice data 16 20
      routeData cfg prim env s c seq data (cfg.parseIP dst)

def decryptPayload (id : String) (payload : Bytes) : Except Fault (Option Bytes) :=
  match s.clientCrypto id with
  | none => pure (some payload)
  | some cc => decryptData prim cc.key payload

def handleData (p : ℕ) (c : Client IP) (packet : VPNPacket) :
    Except Fault (Response × Server IP) := do
  let seq := nextSeq packet
  let s := (s.updateClient p fun c => { c with lastSeen := env.now }).setSeq c.id seq
  let plain ← decryptPayload prim s c.id packet.data
  match plain with
  | none => pure (best (createPacket .ack env.timestamp seq "ACK".toUTF8.toList), s)
  | some data => processData cfg prim env (s.record (.processed c.id packet.data data)) c seq data

/-- An iteration of `gatewayTUNReadLoop` that has read the data: the client with the
destination address, and the packet that it is sent. -/
def gatewayTUNRead (timestamp : ℕ) (data : Bytes) :
    Except Fault (Option (Client IP × Bytes) × Server IP) :=
  if data.length < 20 then pure (none, s)
  else do
    let version ← index data 0
    if version >>> 4 ≠ 4 then pure (none, s)
    else do
      let dst ← slice data 16 20
      match (s.ipToClient (cfg.parseIP dst)).bind s.objects with
      | none => pure (none, s)
      | some target =>
        let (payload, s) := s.encryptFor prim target.id data
        pure (some (target, (createPacket .data timestamp 0 payload).serialize.getD []), s)

/-! ## Packets -/

def dispatch (p : ℕ) (c : Client IP) (packet : VPNPacket) : Except Fault (Response × Server IP) :=
  match PacketType.ofByte packet.type with
  | some .handshake => pure (handleHandshake env s c packet)
  | some .auth => pure (handleAuth prim env s p c packet)
  | some .config => handleConfig cfg env s p c packet
  | some .keepAlive => pure (handleKeepAlive env s p c packet)
  | some .disconnect => pure (handleDisconnect s p c)
  | some .data =>
    if s.stateOf c.id ≠ .connected then
      pure (.error (.invalidState .data (s.stateOf c.id)), s)
    else handleData cfg prim env s p c packet
  | some .ack | none => pure (.error (.unknownType packet.type), s)

def handleVPNPacket (p : ℕ) (data : Bytes) : Except Fault (Response × Server IP) :=
  match s.objects p with
  | none => .error .nilDereference
  | some c => do
      let parsed ← parsePacket data
      match parsed with
      | .error err => pure (.error (.parse err), s)
      | .ok packet => dispatch cfg prim env s p c packet

def Server.answer (p : ℕ) (response : Response) : Server IP :=
  match s.objects p, response with
  | some c, .ok (some bytes) => s.record (.answered c.id bytes)
  | _, _ => s

/-! ## The table of the clients -/

/-- A new object for a client that gets an entry in the table. -/
def Server.addObject : Server IP :=
  { s with
    objects := update s.objects s.created (some c)
    created := s.created + 1
    clients := update s.clients c.id (some s.created) }

/-- `getOrCreateClient`: the object, or nil if the pool is exhausted. -/
def getOrCreateClient (addr : Addr) (now : ℤ) : Option ℕ × Server IP :=
  match s.clients addr.string with
  | some p => (some p, s)
  | none =>
    match s.ipPool.allocate with
    | none => (none, s)
    | some (ip, pool) =>
      (some s.created, { s.addObject ⟨addr.string, some addr, ip, now, .connecting⟩ with
          ipPool := pool
          ipToClient := update s.ipToClient ip (some s.created) })

def Server.touch (p : ℕ) (now : ℤ) : Server IP :=
  s.updateClient p fun c => { c with lastSeen := now }

/-- `handleUDPPacket`. The first use of the client fails if it is nil. -/
def handleUDPPacket (addr : String) (data : Bytes) : Except Fault (Server IP) :=
  match getOrCreateClient s (.udp addr) env.now with
  | (none, _) => .error .nilDereference
  | (some p, s) =>
    (handleVPNPacket cfg prim env (s.touch p env.now) p data).map
      fun (response, s) => s.answer p response

def Server.dropClient (id : String) (p : ℕ) : Server IP :=
  ({ s with clients := update s.clients id none }).updateClient p
    fun c => { c with status := .disconnected }

/-- The body of the loop of `checkKeepAlive`, for a client that is idle. -/
def expire (id : String) (p : ℕ) (c : Client IP) : Server IP :=
  (((s.setCrypto id none).releaseAddress c.assignedIP).dropClient id p).record (.tornDown id)

def Server.entry (id : String) : Option (ℕ × Client IP) :=
  (s.clients id).bind fun p => (s.objects p).map fun c => (p, c)

/-- An entry of the table in the loop of `checkKeepAlive`. -/
def checkClient (now : ℤ) (id : String) : Server IP :=
  match s.entry id with
  | none => s
  | some (p, c) => if cfg.idleTimeout < now - c.lastSeen then expire s id p c else s

/-- `checkKeepAlive`, if it comes upon the clients in this order. -/
def checkKeepAlive (now : ℤ) (order : List String) : Server IP :=
  order.foldl (fun s id => checkClient cfg s now id) s

/-- `AddClient`; nothing happens if there is no address left. -/
def addClient (id : String) (remoteAddr : Option Addr)
    (ip : Option IP) (now : ℤ) : Option (Server IP) :=
  match ip with
  | some ip => some (s.addObject ⟨id, remoteAddr, ip, now, .connecting⟩)
  | none =>
    s.ipPool.allocate.map fun (ip, pool) =>
      { s.addObject ⟨id, remoteAddr, ip, now, .connecting⟩ with ipPool := pool }

/-- `RemoveClient`; nothing happens if there is no such client. -/
def removeClient (id : String) : Option (Server IP) :=
  (s.entry id).map fun (p, c) =>
    (({ s with ipPool := s.ipPool.release c.assignedIP }).dropClient id p).record (.tornDown id)

/-! ## Runs -/

/-- An event of a server. A datagram is an `arrive`, a `touch` and a `packet`; a TCP
connection arrives once and hands over its packets. A `tun` is a read of the gateway. -/
inductive Event (IP : Type)
  | arrive (addr : Addr) (now : ℤ)
  | touch (p : ℕ) (now : ℤ)
  | packet (p : ℕ) (data : Bytes) (env : Env IP)
  | idle (id : String) (now : ℤ)
  | add (id : String) (remoteAddr : Option Addr) (ip : Option IP) (now : ℤ)
  | remove (id : String)
  | tun (data : Bytes) (timestamp : ℕ)

def step : Event IP → Option (Server IP)
  | .arrive addr now => some (getOrCreateClient s addr now).2
  | .touch p now => some (s.touch p now)
  | .packet p data env =>
    match handleVPNPacket cfg prim env s p data with
    | .ok (response, s) => some (s.answer p response)
    | .error _ => none
  | .idle id now => some (checkClient cfg s now id)
  | .add id remoteAddr ip now => addClient s id remoteAddr ip now
  | .remove id => removeClient s id
  | .tun data timestamp =>
    if cfg.gatewayTUN = false ∨ 2000 < data.length then none
    else match gatewayTUNRead cfg prim s timestamp data with
      | .ok (_, s) => some s
      | .error _ => none

def sampleConfig : Config ℕ where
  echoData := true
  eventBus := true
  network _ := true
  parseIP _ := 0

def sampleEnv {IP : Type} : Env IP where
  now := 0
  timestamp := 0
  salt := List.replicate 16 7
  authenticate _ _ := true
  clientInfo _ := some none
  written := true
  salt_length := rfl

def datagram (type : PacketType) (data : Bytes) : Bytes :=
  ((createPacket type 0 0 data).serialize).getD []

end Fluxor.Vpn
