import Fluxor.Vpn.Server

/-!
# What a step of the server can do

The handlers are taken apart once: `Handled` lists what the handling of a packet
writes, `Sends` what the handling of data does after the decryption. Sessions,
addresses and nonces are proved about from these lists.
-/

namespace Fluxor.Vpn

open Support Transition Function Option Except Server Prod

variable {IP : Type} {cfg : Config IP} {prim : Primitives}

/-! ## Data packets -/

def Happening.SentBy (id : String) : Happening → Prop
  | .forwarded sender _ _ => sender = id
  | .gateway sender _ => sender = id
  | _ => False

/-- The server encrypts messages, and sends on what comes from a client. -/
inductive Sends (prim : Primitives) (id : String) : Server IP → Server IP → Prop
  | refl (s : Server IP) : Sends prim id s s
  | encrypt {s s' : Server IP} (sends : Sends prim id s s') (target : String) (plaintext : Bytes) :
      Sends prim id s (s'.encryptFor prim target plaintext).2
  | record {s s' : Server IP} (sends : Sends prim id s s') {h : Happening}
      (sent : h.SentBy id) : Sends prim id s (s'.record h)

section Data

variable {env : Env IP} {s s₀ s' : Server IP} {c : Client IP} {seq : ℕ}
  {data : Bytes} {r : Response}

section

variable (h : Sends prim c.id s₀ s)

include h

theorem Sends.ackOrEcho : Sends prim c.id s₀ (ackOrEcho cfg prim env s c seq data).2 := by
  rw [Vpn.ackOrEcho]
  split
  · exact h.encrypt _ _
  · exact h

theorem Sends.forwardData {dst : IP} :
    Sends prim c.id s₀ (forwardData cfg prim env s c data dst).2 := by
  rw [Vpn.forwardData]
  split
  · exact h
  · split
    · exact h
    · dsimp only
      split
      · exact (h.encrypt _ _).record rfl
      · exact h.encrypt _ _

theorem Sends.answerData
    (hr : answerData cfg prim env s c seq data = .ok (r, s')) : Sends prim c.id s₀ s' := by
  rw [Vpn.answerData, bind_eq_ok] at hr
  obtain ⟨echo, -, hr⟩ := hr
  cases echo with
  | false =>
    obtain ⟨-, rfl⟩ := mk.inj (ok.inj hr)
    exact h.ackOrEcho
  | true =>
    obtain ⟨reply, -, hr⟩ := bind_eq_ok.mp hr
    obtain ⟨-, rfl⟩ := mk.inj (ok.inj hr)
    exact h.encrypt _ _

theorem Sends.routeData {dst : IP}
    (hr : routeData cfg prim env s c seq data dst = .ok (r, s')) : Sends prim c.id s₀ s' := by
  rw [Vpn.routeData] at hr
  split at hr
  · obtain ⟨-, rfl⟩ := mk.inj (ok.inj hr)
    split
    · exact h.record rfl
    · exact h
  · have hforward : Sends prim c.id s₀ (Vpn.forwardData cfg prim env s c data dst).2 :=
      h.forwardData
    split at hr
    next hsent =>
      obtain ⟨-, rfl⟩ := mk.inj (ok.inj hr)
      rwa [hsent] at hforward
    grind [answerData]

theorem Sends.processData
    (hr : processData cfg prim env s c seq data = .ok (r, s')) : Sends prim c.id s₀ s' := by
  rw [Vpn.processData] at hr
  split at hr
  · obtain ⟨-, rfl⟩ := mk.inj (ok.inj hr)
    exact h.ackOrEcho
  · obtain ⟨version, -, hr⟩ := bind_eq_ok.mp hr
    split at hr
    · obtain ⟨-, rfl⟩ := mk.inj (ok.inj hr)
      exact h.ackOrEcho
    grind [bind_eq_ok, routeData]

end

end Data

/-! ## All packets -/

def Response.Control (r : Response) : Prop :=
  ∀ bytes, r = .ok (some bytes) → bytes.head? ≠ some PacketType.data.toByte

variable {packet : VPNPacket}

theorem head_serialize {bytes : Bytes} (h : packet.serialize = some bytes) :
    bytes.head? = some packet.type := by
  grind [VPNPacket.serialize]

variable {type : PacketType}

theorem toByte_ne_data (h : type ≠ .data) : type.toByte ≠ PacketType.data.toByte := by
  cases type with
  | data => exact absurd rfl h
  | _ => decide

variable {data : Bytes}

theorem control_serialized {timestamp seq : ℕ} (h : type ≠ .data) :
    Response.Control (serialized (createPacket type timestamp seq data)) := by
  intro bytes hbytes
  rw [serialized] at hbytes
  split at hbytes
  next hserialize =>
    obtain rfl := some.inj (ok.inj hbytes)
    rw [head_serialize hserialize]
    simpa [createPacket] using toByte_ne_data h
  · cases hbytes

theorem control_best {timestamp seq : ℕ} (h : type ≠ .data) :
    Response.Control (best (createPacket type timestamp seq data)) := by
  intro bytes hbytes
  rw [head_serialize (ok.inj hbytes)]
  simpa [createPacket] using toByte_ne_data h

variable [DecidableEq IP]

structure Carries (data : Bytes) (type : PacketType) (packet : VPNPacket) : Prop where
  parsed : parsePacket data = .ok (.ok packet)
  type : PacketType.ofByte packet.type = some type

section

omit [DecidableEq IP]

theorem Carries.packet_eq {type' : PacketType} {packet' : VPNPacket}
    (h : Carries data type packet) (h' : Carries data type' packet') : packet = packet' :=
  ok.inj (ok.inj (h.parsed.symm.trans h'.parsed))

theorem Carries.type_eq {type' : PacketType} {packet' : VPNPacket} (h : Carries data type packet)
    (h' : Carries data type' packet') : type = type' := by
  obtain rfl := h.packet_eq h'
  exact some.inj (h.type.symm.trans h'.type)

end

instance (data : Bytes) (type : PacketType) : Decidable (∃ packet, Carries data type packet) :=
  match hparsed : parsePacket data with
  | .ok (.ok packet) =>
    decidable_of_iff (PacketType.ofByte packet.type = some type)
      ⟨fun htype => ⟨packet, hparsed, htype⟩, fun ⟨packet', h⟩ => by
        obtain rfl : packet = packet' := Except.ok.inj (Except.ok.inj (hparsed.symm.trans h.parsed))
        exact h.type⟩
  | .ok (.error _) => isFalse fun ⟨_, h⟩ => by
      have heq := hparsed.symm.trans h.parsed
      cases heq
  | .error _ => isFalse fun ⟨_, h⟩ => by
      have heq := hparsed.symm.trans h.parsed
      cases heq

inductive Handled (prim : Primitives) (env : Env IP) (s : Server IP) (p : ℕ)
    (c : Client IP) (data : Bytes) : Response → Server IP → Prop
  | refused (err : VPNError) : Handled prim env s p c data (.error err) s
  | handshake {r : Response} {packet : VPNPacket} (seq : ℕ)
      (carries : Carries data .handshake packet) (control : r.Control)
      (state : s.stateOf c.id = .initial) :
      Handled prim env s p c data r (((s.setState c.id .handshaking).setSeq c.id seq).record
          (.handshake c.id))
  | authFailed (state : s.stateOf c.id = .handshaking) :
      Handled prim env s p c data (.error .authenticationFailed) (s.setState c.id .disconnected)
  | authenticated {r : Response} {packet : VPNPacket} {username password : Bytes}
      {ip : Option IP} (carries : Carries data .auth packet)
      (credentials : parseAuthData packet = some (username, password))
      (accepted : env.authenticate username password = true)
      (info : env.clientInfo username = some ip)
      (control : r.Control) (state : s.stateOf c.id = .handshaking) :
      Handled prim env s p c data r ((((s.updateClient p fun c =>
          { c with
            status := .authenticated
            assignedIP := ip.getD c.assignedIP }).setState c.id
              .configuring).beginSession c.id (deriveKey prim env.salt password)
                env.salt password).record (.authenticated c.id (deriveKey prim env.salt password)))
  | configured {r : Response} {packet : VPNPacket} (seq : ℕ)
      (carries : Carries data .config packet) (control : r.Control)
      (state : s.stateOf c.id = .configuring) :
      Handled prim env s p c data r
        ((((s.setState c.id .connected).setSeq c.id seq).updateClient p fun c =>
          { c with status := .connected }).record (.configured c.id))
  | keepAlive {r : Response} (seq : ℕ) (control : r.Control) :
      Handled prim env s p c data r
        ((s.updateClient p fun c => { c with lastSeen := env.now }).setSeq c.id seq)
  | disconnected {packet : VPNPacket} (carries : Carries data .disconnect packet) :
      Handled prim env s p c data (.ok none) (handleDisconnect s p c).2
  | processed {r : Response} {packet : VPNPacket} {s' : Server IP} (seq : ℕ)
      (plain : Bytes) (carries : Carries data .data packet)
      (state : s.stateOf c.id = .connected)
      (decrypted : decryptPayload prim s c.id packet.data = .ok (some plain))
      (sends : Sends prim c.id
        (((s.updateClient p fun c => { c with lastSeen := env.now }).setSeq c.id
          seq).record (.processed c.id packet.data plain)) s') :
      Handled prim env s p c data r s'

section Packets

variable {env : Env IP} {s s' : Server IP} {p : ℕ} {c : Client IP}
  {packet : VPNPacket} {data : Bytes} {r : Response}

theorem length_deriveKey (salt password : Bytes) :
    (deriveKey prim salt password).length = keySize := by
  rw [deriveKey, List.length_take, prim.sha256_length]
  rfl

theorem handled_of_handleHandshake (hcarries : Carries data .handshake packet) :
    Handled prim env s p c data (handleHandshake env s c packet).1
      (handleHandshake env s c packet).2 := by
  rw [handleHandshake]
  split
  · exact .refused _
  next hstate => exact .handshake _ hcarries (control_serialized (by decide)) (not_not.mp hstate)

theorem handled_of_handleAuth (hcarries : Carries data .auth packet) :
    Handled prim env s p c data (handleAuth prim env s p c packet).1
      (handleAuth prim env s p c packet).2 := by
  rw [handleAuth]
  split
  · exact .refused _
  next hstate =>
    rw [not_not] at hstate
    split
    · exact .refused _
    next hparsed =>
      split
      · exact .authFailed hstate
      next haccepted =>
        rw [Bool.not_eq_false] at haccepted
        split
        · exact .refused _
        next hinfo =>
          dsimp only
          rw [if_neg (not_not.mpr (length_deriveKey _ _))]
          exact .authenticated hcarries hparsed haccepted hinfo
            (control_serialized (by decide)) hstate

theorem handled_of_handleData (hcarries : Carries data .data packet)
    (hstate : s.stateOf c.id = .connected)
    (h : handleData cfg prim env s p c packet = .ok (r, s')) :
    Handled prim env s p c data r s' := by
  rw [handleData, bind_eq_ok] at h
  obtain ⟨plain, hplain, h⟩ := h
  cases plain with
  | none =>
    cases h
    exact .keepAlive _ (control_best (by decide))
  | some plain => exact .processed _ plain hcarries hstate hplain ((Sends.refl _).processData h)

theorem handled_of_dispatch (hparsed : parsePacket data = .ok (.ok packet))
    (h : dispatch cfg prim env s p c packet = .ok (r, s')) : Handled prim env s p c data r s' := by
  rw [dispatch] at h
  split at h
  next htype =>
    obtain ⟨rfl, rfl⟩ := mk.inj (ok.inj h)
    exact handled_of_handleHandshake ⟨hparsed, htype⟩
  next htype =>
    obtain ⟨rfl, rfl⟩ := mk.inj (ok.inj h)
    exact handled_of_handleAuth ⟨hparsed, htype⟩
  next htype =>
    rw [handleConfig] at h
    split at h
    · cases h
      exact .refused _
    next hstate =>
      dsimp only at h
      split at h
      · cases h
      · cases h
        exact .configured _ ⟨hparsed, htype⟩ (control_serialized (by decide)) (not_not.mp hstate)
  · cases h
    exact .keepAlive _ (control_serialized (by decide))
  next htype =>
    cases h
    exact .disconnected ⟨hparsed, htype⟩
  next htype =>
    split at h
    · cases h
      exact .refused _
    next hstate => exact handled_of_handleData ⟨hparsed, htype⟩ (not_not.mp hstate) h
  all_goals
    cases h
    exact .refused _

theorem handled_of_handleVPNPacket (h : handleVPNPacket cfg prim env s p data = .ok (r, s')) :
    ∃ c, s.objects p = some c ∧ Handled prim env s p c data r s' := by
  rw [handleVPNPacket] at h
  split at h
  · cases h
  next c hc =>
    obtain ⟨parsed, hparsed, h⟩ := bind_eq_ok.mp h
    cases parsed with
    | error =>
      cases h
      exact ⟨c, hc, .refused _⟩
    | ok => exact ⟨c, hc, handled_of_dispatch hparsed h⟩

end Packets

variable {env : Env IP} {s s' : Server IP} {p : ℕ} {c : Client IP} {r : Response}

/-! ## The other events -/

variable {pool pool' : IPPool IP}

theorem allocate_eq_some {ip : IP} :
    pool.allocate = some (ip, pool') ↔ pool.available.find? (· ∉ pool.allocated) = some ip ∧
        pool' = { pool with allocated := insert ip pool.allocated } := by
  rw [IPPool.allocate, map_eq_some_iff]
  grind

theorem not_mem_of_allocate {ip : IP}
    (h : pool.allocate = some (ip, pool')) : ip ∉ pool.allocated := by
  grind [allocate_eq_some]

theorem getOrCreateClient_cases (s : Server IP) (addr : Addr) (now : ℤ) :
    (getOrCreateClient s addr now).2 = s ∨ ∃ ip pool, s.clients addr.string = none ∧
        s.ipPool.allocate = some (ip, pool) ∧
        (getOrCreateClient s addr now).2 =
          { s.addObject ⟨addr.string, some addr, ip, now, .connecting⟩ with
            ipPool := pool
            ipToClient := update s.ipToClient ip (some s.created) } := by
  grind [getOrCreateClient]

variable {id : String}

omit [DecidableEq IP] in
theorem entry_eq_some : s.entry id = some (p, c) ↔
    s.clients id = some p ∧ s.objects p = some c := by
  simp only [entry, bind_eq_some_iff, map_eq_some_iff, Prod.mk.injEq]
  grind

def Server.IdleAt (cfg : Config IP) (s : Server IP) (now : ℤ) (id : String) : Prop :=
  match s.entry id with
  | some (_, c) => cfg.idleTimeout < now - c.lastSeen
  | none => False

instance (s : Server IP) (now : ℤ) (id : String) : Decidable (s.IdleAt cfg now id) := by
  unfold Server.IdleAt
  split
  · infer_instance
  · infer_instance

theorem checkClient_cases (cfg : Config IP) (s : Server IP) (now : ℤ) (id : String) :
    ¬s.IdleAt cfg now id ∧ checkClient cfg s now id = s ∨
      ∃ p c, s.clients id = some p ∧ s.objects p = some c ∧
        s.IdleAt cfg now id ∧ checkClient cfg s now id = expire s id p c := by
  rw [checkClient, Server.IdleAt]
  cases hentry : s.entry id with
  | none => exact .inl ⟨fun h => h, rfl⟩
  | some found =>
    obtain ⟨p, c⟩ := found
    obtain ⟨hp, hc⟩ := entry_eq_some.mp hentry
    by_cases hidle : cfg.idleTimeout < now - c.lastSeen
    · exact .inr ⟨p, c, hp, hc, hidle, if_pos hidle⟩
    · exact .inl ⟨hidle, if_neg hidle⟩

theorem removeClient_eq_some (h : removeClient s id = some s') :
    ∃ p c, s.clients id = some p ∧ s.objects p = some c ∧
      s' = (({ s with ipPool := s.ipPool.release c.assignedIP }).dropClient id
        p).record (.tornDown id) := by
  obtain ⟨⟨p, c⟩, hentry, rfl⟩ := map_eq_some_iff.mp h
  grind [entry_eq_some]

theorem addClient_eq_some {remoteAddr : Option Addr} {ip : Option IP} {now : ℤ}
    (h : addClient s id remoteAddr ip now = some s') :
    ∃ ip' pool, s' = { s.addObject ⟨id, remoteAddr, ip', now, .connecting⟩ with
      ipPool := pool } := by
  cases ip with
  | some ip =>
    cases h
    exact ⟨ip, s.ipPool, rfl⟩
  | none =>
    obtain ⟨⟨ip', pool⟩, -, rfl⟩ := map_eq_some_iff.mp h
    exact ⟨ip', pool, rfl⟩

theorem step_packet (h : step cfg prim s (.packet p data env) = some s') :
    ∃ c r s₁, s.objects p = some c ∧ Handled prim env s p c data r s₁ ∧ s' = s₁.answer p r := by
  rw [step] at h
  split at h
  next hhandle =>
    obtain ⟨c, hc, hhandled⟩ := handled_of_handleVPNPacket hhandle
    grind
  · cases h

omit [DecidableEq IP] in
theorem gatewayTUNRead_eq_ok {timestamp : ℕ} {sent : Option (Client IP × Bytes)}
    (h : gatewayTUNRead cfg prim s timestamp data = .ok (sent, s')) :
    s' = s ∨ ∃ target, s' = (s.encryptFor prim target data).2 := by
  rw [gatewayTUNRead] at h
  split at h
  · exact .inl (mk.inj (ok.inj h)).2.symm
  · obtain ⟨version, -, h⟩ := bind_eq_ok.mp h
    split at h
    · exact .inl (mk.inj (ok.inj h)).2.symm
    · obtain ⟨dst, -, h⟩ := bind_eq_ok.mp h
      split at h
      · exact .inl (mk.inj (ok.inj h)).2.symm
      next target _ => exact .inr ⟨target.id, (mk.inj (ok.inj h)).2.symm⟩

theorem step_tun {timestamp : ℕ} (h : step cfg prim s (.tun data timestamp) = some s') :
    s' = s ∨ ∃ target, s' = (s.encryptFor prim target data).2 := by
  rw [step] at h
  split at h
  · cases h
  · split at h
    next hread =>
      cases h
      exact gatewayTUNRead_eq_ok hread
    · cases h

theorem step_of_dispatch {s₁ : Server IP} (hobject : s.objects p = some c)
    (hcarries : Carries data type packet) (h : dispatch cfg prim env s p c packet = .ok (r, s₁)) :
    step cfg prim s (.packet p data env) = some (s₁.answer p r) := by
  rw [step, handleVPNPacket, hobject, hcarries.parsed]
  simp only [bind, Except.bind, h]

theorem dispatch_auth {username password : Bytes} {ip : Option IP}
    (hcarries : Carries data .auth packet) (hstate : s.stateOf c.id = .handshaking)
    (hparsed : parseAuthData packet = some (username, password))
    (haccepted : env.authenticate username password = true)
    (hinfo : env.clientInfo username = some ip) :
    dispatch cfg prim env s p c packet =
      .ok (serialized (createPacket .auth env.timestamp (nextSeq packet) env.salt),
        (((s.updateClient p fun c =>
          { c with
            status := .authenticated
            assignedIP := ip.getD c.assignedIP }).setState c.id
              .configuring).beginSession c.id (deriveKey prim env.salt password)
                env.salt password).record
                  (.authenticated c.id (deriveKey prim env.salt password))) := by
  have hdispatch : dispatch cfg prim env s p c packet = .ok (handleAuth prim env s p c packet) := by
    rw [dispatch, hcarries.type]
    rfl
  grind [handleAuth, length_deriveKey]

theorem step_disconnect (hobject : s.objects p = some c)
    (hcarries : Carries data .disconnect packet) :
    step cfg prim s (.packet p data env) = some (handleDisconnect s p c).2 := by
  have hdispatch : dispatch cfg prim env s p c packet = .ok (handleDisconnect s p c) := by
    rw [dispatch, hcarries.type]
    rfl
  rw [step_of_dispatch hobject hcarries hdispatch, handleDisconnect, answer]
  exact fun _ _ _ h => by cases h

/-! ## Datagrams and checks are made of events -/

theorem run_of_handleUDPPacket {addr : String}
    (h : handleUDPPacket cfg prim env s addr data = .ok s') :
    ∃ p, Run (step cfg prim) anyStep s
      [.arrive (.udp addr) env.now, .touch p env.now, .packet p data env] s' := by
  rw [handleUDPPacket] at h
  split at h
  · cases h
  next p s₁ harrive =>
    cases hhandle : handleVPNPacket cfg prim env (s₁.touch p env.now) p data with
    | error =>
      rw [hhandle] at h
      cases h
    | ok result =>
      obtain ⟨r, s₂⟩ := result
      rw [hhandle] at h
      obtain rfl := ok.inj h
      have hstep : step cfg prim s (.arrive (.udp addr) env.now) = some s₁ := by rw [step, harrive]
      refine ⟨p, .cons trivial hstep (.cons trivial rfl (.cons trivial ?_ (.nil _)))⟩
      rw [step, hhandle]

theorem run_checkKeepAlive (now : ℤ) (order : List String) :
    Run (step cfg prim) anyStep s (order.map fun id => .idle id now)
      (checkKeepAlive cfg s now order) := by
  induction order generalizing s with
  | nil => exact .nil s
  | cons id order ih => exact .cons trivial rfl ih

/-! ## What the writes leave -/

/-- Everything but the numbers of the messages and the log. -/
structure Server.Same (s s' : Server IP) : Prop where
  objects : s'.objects = s.objects
  created : s'.created = s.created
  clients : s'.clients = s.clients
  ipToClient : s'.ipToClient = s.ipToClient
  ipPool : s'.ipPool = s.ipPool
  connectionStates : s'.connectionStates = s.connectionStates
  sessions : s'.sessions = s.sessions

section

omit [DecidableEq IP]

theorem Server.Same.refl (s : Server IP) : s.Same s :=
  ⟨rfl, rfl, rfl, rfl, rfl, rfl, rfl⟩

theorem Server.Same.trans {t : Server IP} (h : s.Same s') (h' : s'.Same t) : s.Same t :=
  ⟨h'.objects.trans h.objects, h'.created.trans h.created,
    h'.clients.trans h.clients, h'.ipToClient.trans h.ipToClient,
    h'.ipPool.trans h.ipPool, h'.connectionStates.trans h.connectionStates,
    h'.sessions.trans h.sessions⟩

theorem same_record (s : Server IP) (h : Happening) : s.Same (s.record h) :=
  ⟨rfl, rfl, rfl, rfl, rfl, rfl, rfl⟩

theorem same_encryptFor (s : Server IP) (id : String) (plaintext : Bytes) :
    s.Same (s.encryptFor prim id plaintext).2 := by
  unfold encryptFor
  split
  · exact .refl s
  · exact ⟨rfl, rfl, rfl, rfl, rfl, rfl, rfl⟩

theorem Sends.same (h : Sends prim id s s') : s.Same s' := by
  induction h with
  | refl => exact .refl _
  | encrypt _ _ _ ih => exact ih.trans (same_encryptFor ..)
  | record _ _ ih => exact ih.trans (same_record ..)

theorem same_step_tun [DecidableEq IP] {data : Bytes} {timestamp : ℕ}
    (h : step cfg prim s (.tun data timestamp) = some s') : s.Same s' := by
  rcases step_tun h with rfl | ⟨target, rfl⟩
  · exact .refl _
  · exact same_encryptFor ..

theorem same_answer (s : Server IP) (p : ℕ) (r : Response) : s.Same (s.answer p r) := by
  unfold answer
  split
  · exact same_record ..
  · exact .refl s

theorem answer_error (s : Server IP) (p : ℕ) (err : VPNError) : s.answer p (.error err) = s := by
  unfold answer
  grind

theorem stateOf_setState (s : Server IP) (id id' : String) (state : ConnectionState) :
    (s.setState id state).stateOf id' = if id' = id then state else s.stateOf id' := by
  simp only [stateOf, setState, update_apply]
  split
  · rfl
  · rfl

theorem objects_updateClient (s : Server IP) (p q : ℕ) (f : Client IP → Client IP) :
    (s.updateClient p f).objects q = if q = p then (s.objects q).map f else s.objects q := by
  change update s.objects p _ q = _
  grind

theorem object_updateClient (hobject : s.objects p = some c) (f : Client IP → Client IP) :
    (s.updateClient p f).objects p = some (f c) := by
  rw [objects_updateClient, if_pos rfl, hobject]
  rfl

end

theorem Handled.object (h : Handled prim env s p c data r s') (hobject : s.objects p = some c) :
    ∃ c', s'.objects p = some c' ∧ c'.id = c.id ∧ c'.remoteAddr = c.remoteAddr := by
  cases h with
  | refused | handshake | authFailed => exact ⟨c, hobject, rfl, rfl⟩
  | authenticated | configured | keepAlive | disconnected =>
    exact ⟨_, object_updateClient hobject _, rfl, rfl⟩
  | processed _ _ _ _ _ hsends =>
    rw [hsends.same.objects]
    exact ⟨_, object_updateClient hobject _, rfl, rfl⟩

/-! ## Objects and entries -/

/-- The objects are those created, and every entry of the table points to one with
its identifier. -/
structure Server.WellFormed (s : Server IP) : Prop where
  created : ∀ p c, s.objects p = some c → p < s.created
  pointed : ∀ id p, s.clients id = some p → ∃ c, s.objects p = some c ∧ c.id = id

namespace Server.WellFormed

section

omit [DecidableEq IP]

theorem of_eq (h : s.WellFormed) (hobjects : s'.objects = s.objects)
    (hcreated : s'.created = s.created) (hclients : s'.clients = s.clients) : s'.WellFormed := by
  constructor
  · rw [hobjects, hcreated]
    exact h.created
  · rw [hobjects, hclients]
    exact h.pointed

theorem id_eq {id : String} (h : s.WellFormed) (hp : s.clients id = some p)
    (hc : s.objects p = some c) : c.id = id := by
  obtain ⟨c', hc', hid⟩ := h.pointed id p hp
  obtain rfl := some.inj (hc.symm.trans hc')
  exact hid

theorem same (h : s.WellFormed) (hsame : s.Same s') : s'.WellFormed :=
  h.of_eq hsame.objects hsame.created hsame.clients

theorem updateClient {f : Client IP → Client IP} (h : s.WellFormed) (hf : ∀ c, (f c).id = c.id) :
    (s.updateClient p f).WellFormed := by
  constructor
  · intro q c hq
    rw [objects_updateClient] at hq
    split at hq
    · obtain ⟨c', hc', -⟩ := map_eq_some_iff.mp hq
      exact h.created q c' hc'
    · exact h.created q c hq
  · intro id q hq
    obtain ⟨c, hc, hid⟩ := h.pointed id q hq
    grind [objects_updateClient]

theorem addObject (h : s.WellFormed) (c : Client IP) : (s.addObject c).WellFormed := by
  constructor
  · intro p c' hp
    change update s.objects s.created (some c) p = some c' at hp
    change p < s.created + 1
    by_cases hnew : p = s.created
    · omega
    · rw [update_of_ne hnew] at hp
      have hlt := h.created p c' hp
      omega
  · intro id p hp
    change update s.clients c.id (some s.created) id = some p at hp
    change ∃ c', update s.objects s.created (some c) p = some c' ∧ _
    by_cases hid : id = c.id
    · grind
    · rw [update_of_ne hid] at hp
      obtain ⟨c', hc', hid'⟩ := h.pointed id p hp
      have hlt := h.created p c' hc'
      grind

theorem dropClient {id : String} (h : s.WellFormed) : (s.dropClient id p).WellFormed := by
  refine updateClient ⟨h.created, fun id' q hq => ?_⟩ fun _ => rfl
  change update s.clients id none id' = some q at hq
  by_cases hid : id' = id
  · rw [hid, update_self] at hq
    cases hq
  · rw [update_of_ne hid] at hq
    exact h.pointed id' q hq

end

theorem handled {data : Bytes} (h : s.WellFormed) (hhandled : Handled prim env s p c data r s') :
    s'.WellFormed := by
  cases hhandled with
  | refused => exact h
  | handshake | authFailed => exact h.of_eq rfl rfl rfl
  | authenticated | configured | keepAlive | disconnected =>
    refine of_eq (h.updateClient ?_) rfl rfl rfl
    exact fun _ => rfl
  | processed _ _ _ _ _ hsends =>
    have hsame := hsends.same
    refine of_eq (h.updateClient ?_) hsame.objects hsame.created hsame.clients
    exact fun _ => rfl

theorem step {event : Event IP} (h : s.WellFormed) (hstep : Vpn.step cfg prim s event = some s') :
    s'.WellFormed := by
  cases event with
  | arrive =>
    cases hstep
    grind [getOrCreateClient_cases, of_eq, addObject]
  | touch =>
    cases hstep
    exact h.updateClient fun _ => rfl
  | packet =>
    obtain ⟨c, r, s₁, -, hhandled, rfl⟩ := step_packet hstep
    exact (h.handled hhandled).same (same_answer ..)
  | idle id now =>
    cases hstep
    rcases checkClient_cases cfg s now id with ⟨-, heq⟩ | ⟨p, c, -, -, -, heq⟩
    · rwa [heq]
    · rw [heq]
      exact (dropClient (h.of_eq rfl rfl rfl)).of_eq rfl rfl rfl
  | add =>
    obtain ⟨ip', pool, rfl⟩ := addClient_eq_some hstep
    exact (h.addObject _).of_eq rfl rfl rfl
  | remove =>
    obtain ⟨p, c, -, -, rfl⟩ := removeClient_eq_some hstep
    exact (dropClient (h.of_eq rfl rfl rfl)).of_eq rfl rfl rfl
  | tun => exact h.same (same_step_tun hstep)

end Server.WellFormed

end Fluxor.Vpn
