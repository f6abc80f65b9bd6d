import Fluxor.Vpn.Crash
import Fluxor.Vpn.Sessions

/-!
# Teardowns

After a client was disconnected or removed, it should be able to come back: to shake
hands, to authenticate, to be configured, and to have its data processed. It can
exactly if the state of its connection is the initial one, which no teardown sees
to.
-/

namespace Fluxor.Vpn

open Support Transition Option Server

variable {IP : Type} [DecidableEq IP]

/-! ## Coming back -/

/-- The datagrams of a client that connects, with credentials that are accepted. -/
structure Login (IP : Type) where
  (hello credentials config : Bytes)
  (helloEnv authEnv configEnv : Env IP)
  (helloPacket authPacket configPacket : VPNPacket)
  (username password : Bytes)
  ip : Option IP
  shakes : Carries hello .handshake helloPacket
  authenticates : Carries credentials .auth authPacket
  configures : Carries config .config configPacket
  parsed : parseAuthData authPacket = some (username, password)
  accepted : authEnv.authenticate username password = true
  info : authEnv.clientInfo username = some ip

def Login.events (l : Login IP) (p : ℕ) : List (Event IP) :=
  [.packet p l.hello l.helloEnv, .packet p l.credentials l.authEnv, .packet p l.config l.configEnv]

def Login.key (prim : Primitives) (l : Login IP) : Bytes := deriveKey prim l.authEnv.salt l.password

def sampleLogin : Login IP where
  hello := datagram .handshake []
  credentials := datagram .auth [117, 58, 112]
  config := datagram .config []
  helloEnv := sampleEnv
  authEnv := sampleEnv
  configEnv := sampleEnv
  helloPacket := createPacket .handshake 0 0 []
  authPacket := createPacket .auth 0 0 [117, 58, 112]
  configPacket := createPacket .config 0 0 []
  username := [117]
  password := [112]
  ip := none
  shakes := ⟨rfl, rfl⟩
  authenticates := ⟨rfl, rfl⟩
  configures := ⟨rfl, rfl⟩
  parsed := by decide
  accepted := rfl
  info := rfl

def IsArrival (_ : Server IP) (event : Event IP) : Prop := ∃ addr now, event = .arrive addr now

/-- However the client comes back, its login leads to a session with its key, and
its data is processed in it. -/
def CanReconnect (cfg : Config IP) (prim : Primitives) (s : Server IP) (id : String) : Prop :=
  ∀ arrivals s₁ p c, Run (step cfg prim) IsArrival s arrivals s₁ →
    s₁.objects p = some c → c.id = id → ∀ l : Login IP, ∃ s₂,
      exec (step cfg prim) anyStep s₁ (l.events p) = some s₂ ∧
      session s₂.log id = .established (l.key prim) ∧
      ∀ env data packet plain, Carries data .data packet →
        decryptData prim (l.key prim) packet.data = .ok (some plain) →
        ∃ s₃, step cfg prim s₂ (.packet p data env) = some s₃ ∧
          s₂.log ++ [.processed id packet.data plain] <+: s₃.log

variable {cfg : Config IP} {prim : Primitives} {env : Env IP}
  {s s' s₁ : Server IP} {p : ℕ} {c : Client IP} {id : String} {data : Bytes}
  {packet : VPNPacket} {r : Response}

/-- A connection of the client on its way to a session. -/
structure Server.Stands (s : Server IP) (p : ℕ) (id : String)
    (state : ConnectionState) (phase : Phase) : Prop where
  object : ∃ c, s.objects p = some c ∧ c.id = id ∧ c.remoteAddr ≠ none
  stateOf_eq : s.stateOf id = state
  session_eq : session s.log id = phase
  agrees : Agrees state (s.keyOf id) phase

namespace Server.Stands

variable {state : ConnectionState} {phase : Phase}

omit [DecidableEq IP] in
theorem answer (h : s.Stands p id state phase) (r : Response) :
    (s.answer p r).Stands p id state phase := by
  have hsame := same_answer s p r
  have hkey : (s.answer p r).keyOf id = s.keyOf id := by
    unfold Server.answer
    split
    · rfl
    · rfl
  constructor
  · rw [hsame.objects]
    exact h.object
  · rw [stateOf, hsame.connectionStates]
    exact h.stateOf_eq
  · rw [(quiet_answer s p r).session_eq]
    exact h.session_eq
  · rw [hkey]
    exact h.agrees

section Packets

variable (cfg prim env)

theorem hello (h : s.Stands p id .initial phase) (hcarries : Carries data .handshake packet) :
    ∃ s', step cfg prim s (.packet p data env) = some s' ∧
      s'.Stands p id .handshaking .handshaken := by
  obtain ⟨c, hc, rfl, haddr⟩ := h.object
  have hdispatch : dispatch cfg prim env s p c packet = .ok (handleHandshake env s c packet) := by
    rw [dispatch, hcarries.type]
    rfl
  rw [handleHandshake, if_neg (not_not.mpr h.stateOf_eq)] at hdispatch
  refine ⟨_, step_of_dispatch hc hcarries hdispatch, answer ⟨?_, ?_, ?_, ?_⟩ _⟩
  · exact ⟨c, hc, rfl, haddr⟩
  · exact (stateOf_setState ..).trans (if_pos rfl)
  · exact (session_append_singleton ..).trans (if_pos rfl)
  · rfl

theorem credentials {username password : Bytes} {ip : Option IP}
    (h : s.Stands p id .handshaking .handshaken) (hcarries : Carries data .auth packet)
    (hparsed : parseAuthData packet = some (username, password))
    (haccepted : env.authenticate username password = true)
    (hinfo : env.clientInfo username = some ip) :
    ∃ s', step cfg prim s (.packet p data env) = some s' ∧ s'.Stands p id .configuring
        (.authenticated (deriveKey prim env.salt password)) := by
  obtain ⟨c, hc, rfl, haddr⟩ := h.object
  refine ⟨_, step_of_dispatch hc hcarries (dispatch_auth hcarries h.stateOf_eq
    hparsed haccepted hinfo), answer ⟨?_, ?_, ?_, ?_⟩ _⟩
  · exact ⟨_, object_updateClient hc _, rfl, haddr⟩
  · exact (stateOf_setState ..).trans (if_pos rfl)
  · refine (session_append_singleton ..).trans ((if_pos rfl).trans ?_)
    change (session s.log c.id).authenticate _ = _
    rw [h.session_eq]
    rfl
  · exact ⟨_, by simp [keyOf, beginSession, record], rfl⟩

theorem config {key : Bytes} (h : s.Stands p id .configuring (.authenticated key))
    (hcarries : Carries data .config packet) :
    ∃ s', step cfg prim s (.packet p data env) = some s' ∧
      s'.Stands p id .connected (.established key) := by
  obtain ⟨c, hc, rfl, haddr⟩ := h.object
  have hdispatch : dispatch cfg prim env s p c packet = handleConfig cfg env s p c packet := by
    rw [dispatch, hcarries.type]
  rw [handleConfig, if_neg (not_not.mpr h.stateOf_eq)] at hdispatch
  simp only [haddr, and_false, if_false] at hdispatch
  refine ⟨_, step_of_dispatch hc hcarries hdispatch, answer ⟨?_, ?_, ?_, ?_⟩ _⟩
  · exact ⟨_, object_updateClient hc _, rfl, haddr⟩
  · exact (stateOf_setState ..).trans (if_pos rfl)
  · refine (session_append_singleton ..).trans ((if_pos rfl).trans ?_)
    change (session s.log c.id).configure = _
    rw [h.session_eq]
    rfl
  · obtain ⟨k, hk, heq⟩ := h.agrees
    obtain rfl := Phase.authenticated.inj heq
    exact ⟨key, hk, rfl⟩

end Packets

theorem processes {key plain : Bytes} (h : s.Stands p id .connected (.established key))
    (hcarries : Carries data .data packet)
    (hplain : decryptData prim key packet.data = .ok (some plain)) :
    ∃ s', step cfg prim s (.packet p data env) = some s' ∧
      s.log ++ [.processed id packet.data plain] <+: s'.log := by
  obtain ⟨c, hc, rfl, -⟩ := h.object
  obtain ⟨k, hk, heq⟩ := h.agrees
  obtain rfl := Phase.established.inj heq
  obtain ⟨cc, hcc, rfl⟩ := map_eq_some_iff.mp hk
  obtain ⟨⟨r, s₁⟩, hr⟩ := safe_handleData cfg prim env s p c packet
  have hdispatch : dispatch cfg prim env s p c packet = .ok (r, s₁) := by
    grind [dispatch, Carries.type, stateOf_eq]
  refine ⟨_, step_of_dispatch hc hcarries hdispatch, ?_⟩
  have hpayload : decryptPayload prim s c.id packet.data = .ok (some plain) := by
    rwa [decryptPayload, hcc]
  rw [handleData, bind_eq_ok] at hr
  obtain ⟨plain', hplain', hr⟩ := hr
  obtain rfl := Except.ok.inj (hplain'.symm.trans hpayload)
  have hsends := (Sends.refl _).processData hr
  exact hsends.quiet.extends.trans (quiet_answer s₁ p r).extends

end Server.Stands

/-! ## Who can come back -/

/-- Every client has a remote address, as without `AddClient`. -/
def Server.Addressed (s : Server IP) : Prop := ∀ p c, s.objects p = some c → c.remoteAddr ≠ none

def NoAdd (_ : Server IP) : Event IP → Prop
  | .add .. => False
  | _ => True

instance (s : Server IP) (event : Event IP) : Decidable (NoAdd s event) :=
  match event with
  | .arrive .. | .touch .. | .packet .. | .idle .. | .add .. | .remove _ | .tun .. => by
    delta NoAdd
    infer_instance

namespace Server.Addressed

section

variable (h : s.Addressed)

include h

omit [DecidableEq IP] in
theorem updateClient {f : Client IP → Client IP}
    (hf : ∀ c, (f c).remoteAddr = c.remoteAddr) : (s.updateClient p f).Addressed := by
  intro q c hq
  rw [objects_updateClient] at hq
  split at hq
  · obtain ⟨c', hc', rfl⟩ := map_eq_some_iff.mp hq
    rw [hf]
    exact h q c' hc'
  · exact h q c hq

theorem handled (hhandled : Handled prim env s p c data r s') : s'.Addressed := by
  cases hhandled with
  | refused | handshake | authFailed => exact h
  | authenticated | configured | keepAlive | disconnected =>
    exact h.updateClient (p := p) fun _ => rfl
  | processed _ _ _ _ _ hsends =>
    rw [Addressed, hsends.same.objects]
    exact h.updateClient (p := p) fun _ => rfl

theorem arrive (addr : Addr) (now : ℤ) :
    (getOrCreateClient s addr now).2.Addressed := by
  rcases getOrCreateClient_cases s addr now with heq | ⟨ip, pool, -, -, heq⟩
  · rwa [heq]
  · rw [heq]
    intro p c hp
    change Function.update s.objects s.created _ p = some c at hp
    rw [Function.update_apply] at hp
    split at hp
    · grind
    · exact h p c hp

theorem step {event : Event IP} (hadd : NoAdd s event)
    (hstep : Vpn.step cfg prim s event = some s') : s'.Addressed := by
  cases event with
  | arrive addr now =>
    cases hstep
    exact h.arrive addr now
  | touch =>
    cases hstep
    exact h.updateClient fun _ => rfl
  | packet p =>
    obtain ⟨c, r, s₁, -, hhandled, rfl⟩ := step_packet hstep
    rw [Addressed, (same_answer s₁ p r).objects]
    exact h.handled hhandled
  | idle id now =>
    cases hstep
    rcases checkClient_cases cfg s now id with ⟨-, heq⟩ | ⟨p, c, -, -, -, heq⟩
    · rwa [heq]
    · rw [heq]
      exact h.updateClient (p := p) fun _ => rfl
  | add => exact hadd.elim
  | remove =>
    obtain ⟨p, c, -, -, rfl⟩ := removeClient_eq_some hstep
    exact h.updateClient (p := p) fun _ => rfl
  | tun =>
    rw [Addressed, (same_step_tun hstep).objects]
    exact h

end

end Server.Addressed

theorem stateOf_arrive (addr : Addr) (now : ℤ) :
    (getOrCreateClient s addr now).2.stateOf id = s.stateOf id := by
  rcases getOrCreateClient_cases s addr now with heq | ⟨ip, pool, -, -, heq⟩
  · rw [heq]
  · rw [heq]
    rfl

theorem canReconnect_of_initial (haddressed : s.Addressed) (hstate : s.stateOf id = .initial) :
    CanReconnect cfg prim s id := by
  intro arrivals s₁ p c hrun hobject hid l
  have hkept : s₁.Addressed ∧ s₁.stateOf id = .initial := by
    refine hrun.invariant (I := fun s => s.Addressed ∧ s.stateOf id = .initial)
      ?_ ⟨haddressed, hstate⟩
    rintro s _ s' ⟨haddressed, hstate⟩ ⟨addr, now, rfl⟩ hstep
    cases hstep
    grind [Addressed.arrive, stateOf_arrive]
  have hstands : s₁.Stands p id .initial (session s₁.log id) :=
    ⟨⟨c, hobject, hid, hkept.1 p c hobject⟩, hkept.2, rfl, trivial⟩
  obtain ⟨t₁, hstep₁, hstands⟩ := hstands.hello cfg prim l.helloEnv l.shakes
  obtain ⟨t₂, hstep₂, hstands⟩ := hstands.credentials cfg prim l.authEnv
    l.authenticates l.parsed l.accepted l.info
  obtain ⟨t₃, hstep₃, hstands⟩ := hstands.config cfg prim l.configEnv l.configures
  refine ⟨t₃, ?_, hstands.session_eq, ?_⟩
  · simp only [Login.events, exec_anyStep_cons, hstep₁, hstep₂, hstep₃, bind_some]
    rfl
  · intro env data packet plain hcarries hplain
    exact hstands.processes hcarries hplain

theorem closed_of_step (hnot : ∀ packet, ¬Carries data .handshake packet)
    (hclosed : session s.log id = .closed)
    (hstep : step cfg prim s (.packet p data env) = some s') : session s'.log id = .closed := by
  obtain ⟨c, r, s₁, -, hhandled, rfl⟩ := step_packet hstep
  rw [(quiet_answer s₁ p r).session_eq]
  cases hhandled with
  | refused | authFailed | keepAlive => exact hclosed
  | handshake _ hcarries => exact absurd hcarries (hnot _)
  | authenticated | configured | disconnected =>
    refine (session_append_singleton s.log _ id).trans ?_
    rw [hclosed]
    exact ite_self _
  | processed _ _ _ _ _ hsends =>
    rw [hsends.quiet.session_eq]
    refine ((Quiet.refl s.log).snoc ?_).session_eq id |>.trans hclosed
    exact fun _ hc => hc

theorem step_hello_refused (hobject : s.objects p = some c) (hstate : s.stateOf c.id ≠ .initial)
    (hcarries : Carries data .handshake packet) :
    step cfg prim s (.packet p data env) = some s := by
  have hdispatch : dispatch cfg prim env s p c packet = .ok (handleHandshake env s c packet) := by
    rw [dispatch, hcarries.type]
    rfl
  rw [handleHandshake, if_pos hstate] at hdispatch
  rw [step_of_dispatch hobject hcarries hdispatch, answer_error]

theorem not_canReconnect (hobject : s.objects p = some c) (hid : c.id = id)
    (hstate : s.stateOf id ≠ .initial) (hclosed : session s.log id = .closed) :
    ¬CanReconnect cfg prim s id := by
  intro hcan
  obtain ⟨s₂, hexec, hestablished, -⟩ := hcan [] s p c (.nil s) hobject hid sampleLogin
  simp only [Login.events, exec_anyStep_cons, bind_eq_some_iff] at hexec
  obtain ⟨t₁, hstep₁, t₂, hstep₂, t₃, hstep₃, heq⟩ := hexec
  cases heq
  rw [step_hello_refused hobject (hid ▸ hstate) sampleLogin.shakes] at hstep₁
  cases hstep₁
  have hclosed₂ := closed_of_step
    (by intro _ h; cases h.type_eq sampleLogin.authenticates) hclosed hstep₂
  have hclosed₃ := closed_of_step
    (by intro _ h; cases h.type_eq sampleLogin.configures) hclosed₂ hstep₃
  rw [hclosed₃] at hestablished
  cases hestablished

/-! ## Whole runs -/

/-- Clients are removed only while their connection has no session. -/
def Rests (cfg : Config IP) (s : Server IP) : Event IP → Prop
  | .idle id now => s.IdleAt cfg now id → s.stateOf id = .initial ∨ s.stateOf id = .disconnected
  | .remove id => s.stateOf id = .initial ∨ s.stateOf id = .disconnected
  | _ => True

/-- No client disconnects, and clients are removed only before their first
handshake. -/
def Keeps (cfg : Config IP) (s : Server IP) : Event IP → Prop
  | .packet _ data _ => ¬∃ packet, Carries data .disconnect packet
  | .idle id now => s.IdleAt cfg now id → s.stateOf id = .initial
  | .remove id => s.stateOf id = .initial
  | .add .. => False
  | _ => True

def teardowns (log : List Happening) (id : String) : ℕ := log.count (.tornDown id)

instance (s : Server IP) (event : Event IP) : Decidable (Keeps cfg s event) :=
  match event with
  | .arrive .. | .touch .. | .packet .. | .idle .. | .add .. | .remove _ | .tun .. => by
    delta Keeps
    infer_instance

/-- If the event tears a client down, then the client can come back. -/
def Reopens (cfg : Config IP) (prim : Primitives) (s : Server IP) (event : Event IP) : Prop :=
  ∀ s' id, step cfg prim s event = some s' →
    teardowns s.log id < teardowns s'.log id → CanReconnect cfg prim s' id

variable {event : Event IP}

theorem Server.Tracked.step (h : s.Tracked prim) (hrests : Rests cfg s event)
    (hstep : Vpn.step cfg prim s event = some s') : s'.Tracked prim := by
  cases event with
  | arrive addr now =>
    cases hstep
    rcases getOrCreateClient_cases s addr now with heq | ⟨ip, pool, -, -, heq⟩
    · rwa [heq]
    · rw [heq]
      exact h.of_eq rfl (fun _ => rfl) rfl
  | touch =>
    cases hstep
    exact h.of_eq rfl (fun _ => rfl) rfl
  | packet =>
    obtain ⟨c, r, s₁, hc, hhandled, rfl⟩ := step_packet hstep
    obtain ⟨c', hc', hid, -⟩ := hhandled.object hc
    grind [handled, answer]
  | idle id now =>
    cases hstep
    rcases checkClient_cases cfg s now id with ⟨-, heq⟩ | ⟨p, c, -, -, hidle, heq⟩
    · rwa [heq]
    · rw [heq]
      exact h.tornDown (hrests hidle) rfl (fun _ hne => keyOf_setCrypto_of_ne hne ..) rfl
  | add =>
    obtain ⟨ip', pool, rfl⟩ := addClient_eq_some hstep
    exact h.of_eq rfl (fun _ => rfl) rfl
  | remove =>
    obtain ⟨p, c, -, -, rfl⟩ := removeClient_eq_some hstep
    exact h.tornDown hrests rfl (fun _ _ => rfl) rfl
  | tun =>
    rcases step_tun hstep with rfl | ⟨target, rfl⟩
    · exact h
    · exact h.encryptFor ..

theorem teardowns_append_tornDown (log : List Happening) (id' : String) :
    teardowns (log ++ [.tornDown id']) id = teardowns log id + if id' = id then 1 else 0 := by
  grind [teardowns]

variable {log : List Happening}

theorem id_eq_of_teardown {id' : String}
    (h : teardowns log id < teardowns (log ++ [.tornDown id']) id) : id' = id := by
  grind [teardowns_append_tornDown]

theorem teardowns_append_of_ne {h : Happening} (hne : h ≠ .tornDown id) :
    teardowns (log ++ [h]) id = teardowns log id := by
  simp [teardowns, List.count_append, hne]

theorem Quiet.teardowns_eq {log' : List Happening} (h : Quiet log log') :
    teardowns log' id = teardowns log id := by
  obtain ⟨new, rfl, hnew⟩ := h
  have hzero : new.count (.tornDown id) = 0 := List.count_eq_zero.mpr fun hmem => hnew _ hmem id rfl
  rw [teardowns, List.count_append, hzero]
  rfl

theorem Handled.teardowns_eq (h : Handled prim env s p c data r s')
    (hkeeps : ¬∃ packet, Carries data .disconnect packet) :
    teardowns s'.log id = teardowns s.log id := by
  cases h with
  | refused | authFailed | keepAlive => rfl
  | handshake | authenticated | configured => exact teardowns_append_of_ne (by simp)
  | disconnected hcarries => exact absurd ⟨_, hcarries⟩ hkeeps
  | processed _ _ _ _ _ hsends =>
    rw [hsends.quiet.teardowns_eq]
    exact teardowns_append_of_ne (by simp)

theorem stateOf_of_teardown (hkeeps : Keeps cfg s event) (hstep : step cfg prim s event = some s')
    (htorn : teardowns s.log id < teardowns s'.log id) : s'.stateOf id = .initial := by
  cases event with
  | arrive addr now =>
    cases hstep
    rcases getOrCreateClient_cases s addr now with heq | ⟨ip, pool, -, -, heq⟩
    · grind
    · rw [heq] at htorn
      exact absurd htorn (lt_irrefl _)
  | touch =>
    cases hstep
    exact absurd htorn (lt_irrefl _)
  | packet p =>
    obtain ⟨c, r, s₁, -, hhandled, rfl⟩ := step_packet hstep
    rw [(quiet_answer s₁ p r).teardowns_eq, hhandled.teardowns_eq hkeeps] at htorn
    exact absurd htorn (lt_irrefl _)
  | idle id' now =>
    cases hstep
    rcases checkClient_cases cfg s now id' with
      ⟨-, heq⟩ | ⟨p, c, -, -, hidle, heq⟩
    · grind
    · rw [heq] at htorn ⊢
      obtain rfl := id_eq_of_teardown htorn
      exact hkeeps hidle
  | add => exact hkeeps.elim
  | remove =>
    obtain ⟨p, c, -, -, rfl⟩ := removeClient_eq_some hstep
    obtain rfl := id_eq_of_teardown htorn
    exact hkeeps
  | tun =>
    rw [(quiet_step_tun hstep).teardowns_eq] at htorn
    exact absurd htorn (lt_irrefl _)

omit [DecidableEq IP] in
theorem Keeps.noAdd (h : Keeps cfg s event) : NoAdd s event := by
  cases event with
  | add => exact h
  | _ => trivial

theorem reopens_of_keeps (haddressed : s.Addressed) (hkeeps : Keeps cfg s event) :
    Reopens cfg prim s event := by
  intro s' id hstep htorn
  exact canReconnect_of_initial (haddressed.step hkeeps.noAdd hstep)
    (stateOf_of_teardown hkeeps hstep htorn)

theorem initial_of_canReconnect (hcan : CanReconnect cfg prim s id)
    (hobject : s.objects p = some c) (hid : c.id = id) (hlog : s.log = log ++ [.tornDown id]) :
    s.stateOf id = .initial := by
  by_contra hstate
  refine not_canReconnect hobject hid hstate ?_ hcan
  rw [hlog, session_append_singleton]
  exact if_pos rfl

theorem teardowns_lt (log : List Happening) :
    teardowns log id < teardowns (log ++ [.tornDown id]) id := by
  grind [teardowns_append_tornDown]

theorem keeps_of_reopens (hwell : s.WellFormed) (hadd : NoAdd s event)
    (hstep : step cfg prim s event = some s') (hreopens : Reopens cfg prim s event) :
    Keeps cfg s event := by
  cases event with
  | arrive | touch | tun => trivial
  | packet =>
    rintro ⟨packet, hcarries⟩
    obtain ⟨c, -, -, hc, -, -⟩ := step_packet hstep
    have hcan := hreopens _ c.id (step_disconnect hc hcarries) (teardowns_lt _)
    have hinitial := initial_of_canReconnect hcan (object_updateClient hc _) rfl rfl
    have hstate : (s.setState c.id .disconnected).stateOf c.id = .disconnected := by
      rw [stateOf_setState, if_pos rfl]
    exact nomatch hstate.symm.trans hinitial
  | idle id now =>
    intro hidle
    rcases checkClient_cases cfg s now id with
      ⟨hnot, -⟩ | ⟨p, c, hp, hc, -, heq⟩
    · exact absurd hidle hnot
    · have hcan := hreopens (expire s id p c) id (congrArg some heq) (teardowns_lt _)
      have hid := hwell.id_eq hp hc
      have hinitial := initial_of_canReconnect hcan (object_updateClient hc _) hid rfl
      exact hinitial
  | add => exact hadd.elim
  | remove id =>
    obtain ⟨p, c, hp, hc, rfl⟩ := removeClient_eq_some hstep
    have hcan := hreopens _ id hstep (teardowns_lt _)
    have hid := hwell.id_eq hp hc
    have hinitial := initial_of_canReconnect hcan (object_updateClient hc _) hid rfl
    exact hinitial

section Runs

variable {pool : IPPool IP} {events : List (Event IP)}

theorem sound_of_run (hrun : Run (step cfg prim) (Rests cfg) { ipPool := pool } events s) :
    Sound prim s.log :=
  (hrun.invariant (I := Tracked prim) (fun h hrests hstep =>
    h.step hrests hstep) ⟨sound_nil, fun _ => trivial⟩).sound

omit [DecidableEq IP] in
theorem Keeps.rests {event : Event IP} (h : Keeps cfg s event) : Rests cfg s event := by
  cases event with
  | idle => exact fun hidle => .inl (h hidle)
  | remove => exact .inl h
  | _ => trivial

/-- Data is handled soundly, and every client that is torn down can come back,
exactly if no client disconnects and clients are removed only before their first
handshake. -/
theorem sessions_end_iff (hrun : Run (step cfg prim) NoAdd { ipPool := pool } events s) :
    Sound prim s.log ∧ Run (step cfg prim) (Reopens cfg prim) { ipPool := pool } events s ↔
      Run (step cfg prim) (Keeps cfg) { ipPool := pool } events s := by
  constructor
  · rintro ⟨-, hreopens⟩
    refine (hrun.and hreopens).1.mono_of_invariant
      (I := WellFormed) (fun h _ hstep => h.step hstep)
      (fun h hguard hstep => keeps_of_reopens h hguard.1 hstep hguard.2) ?_
    exact ⟨fun _ _ h => (nomatch h), fun _ _ h => (nomatch h)⟩
  · intro hkeeps
    refine ⟨sound_of_run (hkeeps.mono Keeps.rests), ?_⟩
    refine (hrun.and hkeeps).1.mono_of_invariant (I := Addressed)
      (fun h hguard hstep => h.step hguard.1 hstep)
      (fun h hguard _ => reopens_of_keeps h hguard.2) ?_
    exact fun _ _ h => (nomatch h)

end Runs

def sampleMessage : Bytes :=
  datagram .data (encryptData samplePrimitives
    ((sampleLogin : Login ℕ).key samplePrimitives) [1, 2, 3] 0)

/-- The client at `a` sends data; the client at `b` is removed before it has shaken hands. -/
theorem sessions_end_connected : ∃ s : Server ℕ,
    Run (step sampleConfig samplePrimitives) NoAdd { ipPool := ⟨[7, 8], ∅⟩ }
      ([.arrive (.udp "a") 0] ++ sampleLogin.events 0 ++
        [.packet 0 sampleMessage sampleEnv, .arrive (.udp "b") 0, .idle "b" 10]) s ∧
    (∃ payload, .processed "a" payload [1, 2, 3] ∈ s.log) ∧
    teardowns s.log "b" = 1 ∧ Sound samplePrimitives s.log ∧
    Run (step sampleConfig samplePrimitives)
      (Reopens sampleConfig samplePrimitives) { ipPool := ⟨[7, 8], ∅⟩ }
      ([.arrive (.udp "a") 0] ++ sampleLogin.events 0 ++
        [.packet 0 sampleMessage sampleEnv, .arrive (.udp "b") 0, .idle "b" 10]) s := by
  obtain ⟨s, hkeeps, hprocessed, htorn⟩ := exists_run
    (step sampleConfig samplePrimitives) (Keeps sampleConfig)
    { ipPool := ⟨[7, 8], ∅⟩ }
    ([.arrive (.udp "a") 0] ++ sampleLogin.events 0 ++
      [.packet 0 sampleMessage sampleEnv, .arrive (.udp "b") 0, .idle "b" 10])
    (fun s => .processed "a" (sampleMessage.drop 16) [1, 2, 3] ∈ s.log ∧
      teardowns s.log "b" = 1) (by decide +kernel)
  have hrun := hkeeps.mono Keeps.noAdd
  obtain ⟨hsound, hreopens⟩ := (sessions_end_iff hrun).mpr hkeeps
  exact ⟨s, hrun, ⟨_, hprocessed⟩, htorn, hsound, hreopens⟩

/-- A client that was removed for being idle is still connected: its data is
processed without a key. A client that has disconnected is not let in again. -/
theorem removed_client_processed :
    (∃ s : Server ℕ, Run (step sampleConfig samplePrimitives) NoAdd { ipPool := ⟨[7], ∅⟩ }
        ([.arrive (.udp "a") 0] ++ sampleLogin.events 0 ++ [.idle "a" 10, .arrive (.udp "a") 10,
            .packet 1 (datagram .data [1, 2, 3]) sampleEnv]) s ∧
      ¬Sound samplePrimitives s.log) ∧
    ∃ s : Server ℕ, Run (step sampleConfig samplePrimitives) NoAdd { ipPool := ⟨[7], ∅⟩ }
        [.arrive (.udp "a") 0, .packet 0 (datagram .disconnect []) sampleEnv] s ∧
      ¬CanReconnect sampleConfig samplePrimitives s "a" := by
  constructor
  · refine exists_run_of _
        (fun s => s.log.take 7 ++ [.processed "a" [1, 2, 3] [1, 2, 3]] <+: s.log ∧
        session (s.log.take 7) "a" = .closed) (by decide +kernel) ?_
    rintro s - ⟨hprocessed, hclosed⟩ hsound
    obtain ⟨key, hestablished, -⟩ := hsound _ _ hprocessed
    rw [hclosed] at hestablished
    cases hestablished
  · refine exists_run_of _ (fun s => s.stateOf "a" ≠ .initial ∧ session s.log "a" = .closed ∧
        (s.objects 0).map Client.id = some "a") (by decide +kernel) ?_
    rintro s - ⟨hstate, hclosed, hid⟩
    obtain ⟨c, hc, hid⟩ := map_eq_some_iff.mp hid
    grind [not_canReconnect]

end Fluxor.Vpn
