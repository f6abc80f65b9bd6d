import Fluxor.Vpn.Teardown

/-!
# The nonces of the two sides of a session

`ClientCrypto` of `crypto.go`, and a server together with the clients of its
sessions. Each side numbers its messages from 0 on and takes the number as the
nonce. Both sides have the same key.
-/

namespace Fluxor.Vpn

open Support Transition Function List System

variable {IP : Type}

/-! ## Encryptions -/

structure Encryption where
  (key nonce plaintext : Bytes)
  deriving DecidableEq

def Happening.encryption (session : ℕ) : Happening → Option Encryption
  | .encrypted i key nonce plaintext => if i = session then some ⟨key, nonce, plaintext⟩ else none
  | _ => none

/-- The encryptions of the server in a session, in their order. -/
def encryptions (log : List Happening) (session : ℕ) : List Encryption :=
  log.filterMap (Happening.encryption session)

structure ClientCrypto where
  key : Bytes
  sendSeq : ℕ

def newClientCrypto (prim : Primitives) (salt password : Bytes) : Option ClientCrypto :=
  let key := deriveKey prim salt password
  if key.length ≠ keySize then none else some ⟨key, 0⟩

def ClientCrypto.encrypt (prim : Primitives) (cc : ClientCrypto) (plaintext : Bytes) :
    Bytes × ClientCrypto :=
  (encryptData prim cc.key plaintext cc.sendSeq, { cc with sendSeq := (cc.sendSeq + 1) % 2 ^ 64 })

/-! ## A server and the clients of its sessions -/

structure System (IP : Type) where
  server : Server IP
  peers : ℕ → Option ClientCrypto := fun _ => none
  sent : ℕ → List Encryption := fun _ => []

/-- The server does something; a client gets the key of a session, once; or it
encrypts a message. -/
inductive Action (IP : Type)
  | server (event : Event IP)
  | join (session : ℕ)
  | send (session : ℕ) (plaintext : Bytes)

def System.act [DecidableEq IP] (cfg : Config IP) (prim : Primitives)
    (t : System IP) : Action IP → Option (System IP)
  | .server event => (step cfg prim t.server event).map fun s => { t with server := s }
  | .join i =>
    match t.peers i, t.server.sessions[i]? with
    | none, some σ =>
      (newClientCrypto prim σ.salt σ.password).map fun cc =>
        { t with peers := update t.peers i (some cc) }
    | _, _ => none
  | .send i plaintext =>
    (t.peers i).map fun cc =>
      { t with
        peers := update t.peers i (some (cc.encrypt prim plaintext).2)
        sent := update t.sent i (t.sent i ++ [⟨cc.key, nonce cc.sendSeq, plaintext⟩]) }

def System.Performed (t : System IP) (e : Encryption) : Prop :=
  ∃ i, e ∈ encryptions t.server.log i ∨ e ∈ t.sent i

/-- Different plaintexts never meet the same key and nonce. -/
def System.NoReuse (t : System IP) : Prop :=
  ∀ e e', t.Performed e → t.Performed e' → e.plaintext ≠ e'.plaintext →
    ¬(e.key = e'.key ∧ e.nonce = e'.nonce)

/-! ## Numbered messages -/

theorem nonce_injective {k k' : ℕ} (hk : k < 2 ^ 64) (hk' : k' < 2 ^ 64) (h : nonce k = nonce k') :
    k = k' := by
  have hnumbers : putBigEndian 8 k = putBigEndian 8 k' := append_cancel_right h
  grind [bigEndian_putBigEndian]

def Numbered (key : Bytes) (es : List Encryption) : Prop :=
  ∀ k e, es[k]? = some e → e.key = key ∧ e.nonce = nonce (k % 2 ^ 64)

variable {es : List Encryption}

theorem Numbered.snoc {key : Bytes} (h : Numbered key es) (plaintext : Bytes) :
    Numbered key (es ++ [⟨key, nonce (es.length % 2 ^ 64), plaintext⟩]) := by
  intro k e he
  rcases lt_trichotomy k es.length with hlt | rfl | hgt
  · rw [getElem?_append_left hlt] at he
    exact h k e he
  · grind
  grind

theorem numbered_nil (key : Bytes) : Numbered key [] := by
  intro k e he
  cases he

theorem Numbered.exists_number {key : Bytes} {e : Encryption} (h : Numbered key es)
    (hlength : es.length < 2 ^ 64) (he : e ∈ es) :
    ∃ k, k < 2 ^ 64 ∧ es[k]? = some e ∧ e.key = key ∧ e.nonce = nonce k := by
  obtain ⟨k, hk⟩ := getElem?_of_mem he
  have hlt : k < 2 ^ 64 := (List.getElem?_eq_some_iff.mp hk).1.trans hlength
  obtain ⟨hkey, hnonce⟩ := h k e hk
  grind

variable {log : List Happening} {session : ℕ}

theorem encryptions_append (log : List Happening) (h : Happening) (session : ℕ) :
    encryptions (log ++ [h]) session =
      encryptions log session ++ (h.encryption session).toList := by
  grind [encryptions]

theorem encryptions_append_of_none {h : Happening} (hnone : h.encryption session = none) :
    encryptions (log ++ [h]) session = encryptions log session := by
  grind [encryptions_append]

/-! ## The server -/

def Session.key (prim : Primitives) (σ : Session) : Bytes := deriveKey prim σ.salt σ.password

/-- The messages of a session are numbered, and the server knows the next number of
the sessions it has a key of. -/
structure Server.Sealed (prim : Primitives) (s : Server IP) : Prop where
  crypto : ∀ id cc, s.clientCrypto id = some cc → ∃ σ,
    s.sessions[cc.session]? = some σ ∧ σ.id = id ∧ cc.key = σ.key prim ∧
      cc.sendSeq = (encryptions s.log cc.session).length % 2 ^ 64
  numbered : ∀ i σ, s.sessions[i]? = some σ → Numbered (σ.key prim) (encryptions s.log i)
  begun : ∀ i, s.sessions.length ≤ i → encryptions s.log i = []

namespace Server.Sealed

variable {prim : Primitives} {s s' : Server IP} {id : String}

section

variable (h : s.Sealed prim)

include h

theorem of_eq (hcrypto : s'.clientCrypto = s.clientCrypto)
    (hsessions : s'.sessions = s.sessions)
    (hlog : ∀ i, encryptions s'.log i = encryptions s.log i) : s'.Sealed prim := by
  constructor
  · rw [hcrypto, hsessions]
    simp only [hlog]
    exact h.crypto
  · grind [numbered]
  grind [begun]

theorem dropKey (id : String) : (s.setCrypto id none).Sealed prim := by
  refine ⟨fun id' cc hcc => ?_, h.numbered, h.begun⟩
  change update s.clientCrypto id none id' = some cc at hcc
  rw [update_apply] at hcc
  split at hcc
  · cases hcc
  · exact h.crypto id' cc hcc

theorem beginSession (id : String) (salt password : Bytes) :
    (s.beginSession id (deriveKey prim salt password) salt password).Sealed prim := by
  have hnew := h.begun s.sessions.length le_rfl
  refine ⟨fun id' cc hcc => ?_, fun i σ hσ => ?_, fun i hi => ?_⟩
  · change update s.clientCrypto id _ id' = some cc at hcc
    change ∃ σ, (s.sessions ++ [_])[cc.session]? = some σ ∧ _
    rw [update_apply] at hcc
    split at hcc
    next hid =>
      cases hcc
      refine ⟨⟨id, salt, password⟩, getElem?_concat_length, hid.symm, rfl, ?_⟩
      change 0 = (encryptions s.log s.sessions.length).length % 2 ^ 64
      rw [hnew]
      rfl
    · obtain ⟨σ, hσ, hrest⟩ := h.crypto id' cc hcc
      refine ⟨σ, ?_, hrest⟩
      grind
  · change (s.sessions ++ [_])[i]? = some σ at hσ
    change Numbered _ (encryptions s.log i)
    grind [numbered, numbered_nil]
  · change (s.sessions ++ [_]).length ≤ i at hi
    rw [length_append] at hi
    exact h.begun i (by omega)

theorem encryptFor (target : String) (plaintext : Bytes) :
    (s.encryptFor prim target plaintext).2.Sealed prim := by
  unfold Server.encryptFor
  split
  · exact h
  next cc hcc =>
    obtain ⟨σ, hσ, hid, hkey, hseq⟩ := h.crypto target cc hcc
    have hlog : ∀ i, encryptions (s.log ++ [.encrypted cc.session cc.key
        (nonce cc.sendSeq) plaintext]) i = if cc.session = i then
          encryptions s.log i ++ [⟨cc.key, nonce cc.sendSeq, plaintext⟩]
        else encryptions s.log i := by
      grind [encryptions_append, Happening.encryption]
    refine ⟨fun id cc' hcc' => ?_, fun i σ' hσ' => ?_, fun i hi => ?_⟩
    · change update s.clientCrypto target _ id = some cc' at hcc'
      change ∃ σ, s.sessions[cc'.session]? = some σ ∧ _ ∧ _ ∧
        _ = (encryptions (s.log ++ [_]) cc'.session).length % 2 ^ 64
      grind [crypto]
    · change s.sessions[i]? = some σ' at hσ'
      change Numbered _ (encryptions (s.log ++ [_]) i)
      grind [Numbered.snoc, numbered]
    · change encryptions (s.log ++ [_]) i = []
      have hlt := (List.getElem?_eq_some_iff.mp hσ).1
      have hle : s.sessions.length ≤ i := hi
      rw [hlog, if_neg (by omega)]
      exact h.begun i hi

theorem record {e : Happening} (hnone : ∀ i, e.encryption i = none) : (s.record e).Sealed prim :=
  h.of_eq rfl rfl fun i => encryptions_append_of_none (hnone i)

end

theorem of_sends (hsends : Sends prim id s s') (h : s.Sealed prim) : s'.Sealed prim := by
  induction hsends with
  | refl => exact h
  | encrypt _ target plaintext ih => exact ih.encryptFor target plaintext
  | @record _ _ e hsent ih =>
    refine ih.record fun i => ?_
    cases e with
    | encrypted => exact hsent.elim
    | _ => rfl

variable [DecidableEq IP] {cfg : Config IP} {env : Env IP} {p : ℕ} {c : Client IP}
  {data : Bytes} {r : Response}

theorem handled (h : s.Sealed prim) (hhandled : Handled prim env s p c data r s') :
    s'.Sealed prim := by
  cases hhandled with
  | refused => exact h
  | handshake | configured => exact (h.record fun _ => rfl).of_eq rfl rfl fun _ => rfl
  | authFailed | keepAlive => exact h.of_eq rfl rfl fun _ => rfl
  | authenticated =>
    exact ((h.beginSession c.id _ _).record fun _ => rfl).of_eq rfl rfl fun _ => rfl
  | disconnected => exact ((h.dropKey c.id).record fun _ => rfl).of_eq rfl rfl fun _ => rfl
  | processed _ _ _ _ _ hsends =>
    exact of_sends hsends ((h.record fun _ => rfl).of_eq rfl rfl fun _ => rfl)

omit [DecidableEq IP] in
theorem answer (h : s.Sealed prim) (p : ℕ) (r : Response) : (s.answer p r).Sealed prim := by
  unfold Server.answer
  split
  · exact h.record fun _ => rfl
  · exact h

theorem step {event : Event IP} (h : s.Sealed prim) (hstep : Vpn.step cfg prim s event = some s') :
    s'.Sealed prim := by
  cases event with
  | arrive addr now =>
    cases hstep
    rcases getOrCreateClient_cases s addr now with heq | ⟨ip, pool, -, -, heq⟩
    · rwa [heq]
    · rw [heq]
      exact h.of_eq rfl rfl fun _ => rfl
  | touch =>
    cases hstep
    exact h.of_eq rfl rfl fun _ => rfl
  | packet p =>
    obtain ⟨c, r, s₁, -, hhandled, rfl⟩ := step_packet hstep
    exact (h.handled hhandled).answer p r
  | idle id now =>
    cases hstep
    rcases checkClient_cases cfg s now id with ⟨-, heq⟩ | ⟨p, c, -, -, -, heq⟩
    · rwa [heq]
    · rw [heq]
      exact ((h.dropKey id).record fun _ => rfl).of_eq rfl rfl fun _ => rfl
  | add =>
    obtain ⟨ip', pool, rfl⟩ := addClient_eq_some hstep
    exact h.of_eq rfl rfl fun _ => rfl
  | remove =>
    obtain ⟨p, c, -, -, rfl⟩ := removeClient_eq_some hstep
    exact (h.record fun _ => rfl).of_eq rfl rfl fun _ => rfl
  | tun =>
    rcases step_tun hstep with rfl | ⟨target, rfl⟩
    · exact h
    · exact h.encryptFor ..

end Server.Sealed

/-! ## Both sides -/

section System

variable {cfg : Config IP} {prim : Primitives} {env : Env IP}
  {s s' : Server IP} {p : ℕ} {c : Client IP} {data : Bytes} {r : Response}
  {t t' : System IP}

/-- The messages of both sides are numbered. -/
structure System.Sealed (prim : Primitives) (t : System IP) : Prop where
  server : t.server.Sealed prim
  peers : ∀ i cc, t.peers i = some cc → ∃ σ, t.server.sessions[i]? = some σ ∧
    cc.key = σ.key prim ∧ cc.sendSeq = (t.sent i).length % 2 ^ 64
  numbered : ∀ i σ, t.server.sessions[i]? = some σ → Numbered (σ.key prim) (t.sent i)
  unsent : ∀ i, t.peers i = none → t.sent i = []

namespace System.Sealed

section

variable (h : t.Sealed prim)

include h

theorem of_server (hserver : s'.Sealed prim) (hsessions : t.server.sessions <+: s'.sessions) :
    Sealed prim { t with server := s' } := by
  obtain ⟨new, hnew⟩ := hsessions
  refine ⟨hserver, fun i cc hcc => ?_, fun i σ hσ => ?_, h.unsent⟩
  · grind [peers]
  · change s'.sessions[i]? = some σ at hσ
    by_cases hi : i < t.server.sessions.length
    · grind [numbered]
    · -- Nobody has joined a session that did not exist.
      have hnone : t.peers i = none := by cases hcc : t.peers i <;> grind [peers]
      grind [unsent, numbered_nil]

theorem join {i : ℕ} {σ : Session} (hnone : t.peers i = none)
    (hσ : t.server.sessions[i]? = some σ) :
    Sealed prim { t with peers := update t.peers i (some ⟨σ.key prim, 0⟩) } := by
  refine ⟨h.server, fun j cc hcc => ?_, h.numbered, fun j hj => ?_⟩
  · grind [unsent, peers]
  grind [unsent]

theorem send {i : ℕ} {cc : ClientCrypto} (hcc : t.peers i = some cc) (plaintext : Bytes) :
    Sealed prim { t with
      peers := update t.peers i (some (cc.encrypt prim plaintext).2)
      sent := update t.sent i (t.sent i ++ [⟨cc.key, nonce cc.sendSeq, plaintext⟩]) } := by
  obtain ⟨σ, hσ, hkey, hseq⟩ := h.peers i cc hcc
  refine ⟨h.server, fun j cc' hcc' => ?_, fun j σ' hσ' => ?_, fun j hj => ?_⟩
  · grind [ClientCrypto.encrypt, peers]
  · grind [Numbered.snoc, numbered]
  grind [unsent]

theorem exists_session {e : Encryption} {i : ℕ}
    (he : e ∈ encryptions t.server.log i ∨ e ∈ t.sent i) : ∃ σ, t.server.sessions[i]? = some σ := by
  have hlt : i < t.server.sessions.length := by
    by_contra hge
    rcases he with he | he
    · rw [h.server.begun i (by omega)] at he
      cases he
    · cases hcc : t.peers i <;> grind [unsent, peers]
  exact ⟨_, getElem?_eq_getElem hlt⟩

end

end System.Sealed

variable [DecidableEq IP]

theorem Handled.sessions (h : Handled prim env s p c data r s') : s.sessions <+: s'.sessions := by
  cases h with
  | authenticated => exact prefix_append ..
  | processed _ _ _ _ _ hsends => exact hsends.same.sessions ▸ prefix_rfl
  | _ => exact prefix_rfl

theorem sessions_of_step {event : Event IP} (h : step cfg prim s event = some s') :
    s.sessions <+: s'.sessions := by
  cases event with
  | arrive addr now =>
    cases h
    rcases getOrCreateClient_cases s addr now with heq | ⟨ip, pool, -, -, heq⟩
    · rw [heq]
    · rw [heq]
      exact prefix_rfl
  | touch =>
    cases h
    exact prefix_rfl
  | packet p =>
    obtain ⟨c, r, s₁, -, hhandled, rfl⟩ := step_packet h
    rw [(same_answer s₁ p r).sessions]
    exact hhandled.sessions
  | idle id now =>
    cases h
    rcases checkClient_cases cfg s now id with ⟨-, heq⟩ | ⟨p, c, -, -, -, heq⟩
    · rw [heq]
    · rw [heq]
      exact prefix_rfl
  | add =>
    obtain ⟨ip', pool, rfl⟩ := addClient_eq_some h
    exact prefix_rfl
  | remove =>
    obtain ⟨p, c, -, -, rfl⟩ := removeClient_eq_some h
    exact prefix_rfl
  | tun => exact (same_step_tun h).sessions ▸ prefix_rfl

theorem System.Sealed.act {a : Action IP} (h : t.Sealed prim)
    (hact : act cfg prim t a = some t') : t'.Sealed prim := by
  cases a with
  | server =>
    obtain ⟨s', hstep, rfl⟩ := Option.map_eq_some_iff.mp hact
    exact h.of_server (h.server.step hstep) (sessions_of_step hstep)
  | join =>
    rw [System.act] at hact
    split at hact
    next hnone hσ =>
      obtain ⟨cc, hcc, rfl⟩ := Option.map_eq_some_iff.mp hact
      rw [newClientCrypto, if_neg (not_not.mpr (length_deriveKey _ _))] at hcc
      cases hcc
      exact h.join hnone hσ
    · cases hact
  | send i plaintext =>
    obtain ⟨cc, hcc, rfl⟩ := Option.map_eq_some_iff.mp hact
    exact h.send hcc plaintext

variable {pool : IPPool IP} {actions : List (Action IP)}

omit [DecidableEq IP] in
theorem sealed_init (pool : IPPool IP) : System.Sealed prim { server := { ipPool := pool } } :=
  ⟨⟨fun _ _ h => (nomatch h), fun _ _ h => (nomatch h), fun _ _ => rfl⟩,
    fun _ _ h => (nomatch h), fun _ _ h => (nomatch h), fun _ _ => rfl⟩

theorem sealed_of_run
    (hrun : Run (System.act cfg prim) anyStep { server := { ipPool := pool } } actions t) :
    t.Sealed prim :=
  hrun.invariant (fun h _ hact => h.act hact) (sealed_init pool)

variable (sessions : List Session)

/-- Every successful authentication draws a salt of its own. -/
def FreshSalts : Prop := (sessions.map Session.salt).Nodup

def InjectiveKeys (prim : Primitives) (sessions : List Session) : Prop :=
  ∀ σ ∈ sessions, ∀ σ' ∈ sessions, σ.key prim = σ'.key prim →
    σ.salt = σ'.salt ∧ σ.password = σ'.password

instance : Decidable (FreshSalts sessions) := inferInstanceAs (Decidable (List.Nodup _))

instance : Decidable (InjectiveKeys prim sessions) :=
  inferInstanceAs (Decidable (∀ σ ∈ sessions, ∀ σ' ∈ sessions, _ → _ ∧ _))

/-- Each side encrypts fewer than 2^64 messages in each session. -/
def System.Bounded (t : System IP) : Prop :=
  ∀ i, (encryptions t.server.log i).length < 2 ^ 64 ∧ (t.sent i).length < 2 ^ 64

/-- The two sides of a session have encrypted the same with the same number. -/
def System.Agrees (t : System IP) : Prop :=
  ∀ (i k : ℕ) (e e' : Encryption), (encryptions t.server.log i)[k]? = some e →
    (t.sent i)[k]? = some e' → e.plaintext = e'.plaintext

section

omit [DecidableEq IP]

theorem System.Sealed.bounded (h : t.Sealed prim) (hlog : t.server.log.length < 2 ^ 64)
    (hsent : ∀ i < t.server.sessions.length, (t.sent i).length < 2 ^ 64) : t.Bounded := by
  intro i
  refine ⟨(length_filterMap_le ..).trans_lt hlog, ?_⟩
  cases hlist : t.sent i with
  | nil => exact Nat.two_pow_pos 64
  | cons e =>
    obtain ⟨σ, hσ⟩ := h.exists_session (e := e) (i := i) (.inr (by simp [hlist]))
    grind

theorem System.Sealed.locate (h : t.Sealed prim) (hbounded : t.Bounded) {e : Encryption}
    (he : t.Performed e) :
    ∃ i σ k, t.server.sessions[i]? = some σ ∧ e.key = σ.key prim ∧ k < 2 ^ 64 ∧ e.nonce = nonce k ∧
      ((encryptions t.server.log i)[k]? = some e ∨ (t.sent i)[k]? = some e) := by
  obtain ⟨i, he⟩ := he
  obtain ⟨σ, hσ⟩ := h.exists_session he
  rcases he with he | he
  · obtain ⟨k, hk, hget, hkey, hnonce⟩ := (h.server.numbered i σ hσ).exists_number (hbounded i).1 he
    exact ⟨i, σ, k, hσ, hkey, hk, hnonce, .inl hget⟩
  · obtain ⟨k, hk, hget, hkey, hnonce⟩ := (h.numbered i σ hσ).exists_number (hbounded i).2 he
    exact ⟨i, σ, k, hσ, hkey, hk, hnonce, .inr hget⟩

end

theorem session_eq_of_key {sessions : List Session} {i j : ℕ} {σ σ' : Session}
    (hfresh : FreshSalts sessions) (hkeys : InjectiveKeys prim sessions)
    (hi : sessions[i]? = some σ) (hj : sessions[j]? = some σ') (hkey : σ.key prim = σ'.key prim) :
    i = j := by
  have hsalt := (hkeys σ (mem_of_getElem? hi) σ' (mem_of_getElem? hj) hkey).1
  have hlt : i < (sessions.map Session.salt).length := by grind
  refine (getElem?_inj hlt hfresh).mp ?_
  grind

/-- No key and nonce are used for two plaintexts exactly if, in every session, the
two sides encrypt the same plaintext under a number they have both used. -/
theorem nonces_distinct_iff
    (hrun : Run (System.act cfg prim) anyStep { server := { ipPool := pool } } actions t)
    (hfresh : FreshSalts t.server.sessions) (hkeys : InjectiveKeys prim t.server.sessions)
    (hbounded : t.Bounded) : t.NoReuse ↔ t.Agrees := by
  have hsealed := sealed_of_run hrun
  constructor
  · intro hreuse i k e e' he he'
    by_contra hne
    have hmem := mem_of_getElem? he
    have hmem' := mem_of_getElem? he'
    obtain ⟨σ, hσ⟩ := hsealed.exists_session (.inl hmem)
    obtain ⟨hkey, hnonce⟩ := hsealed.server.numbered i σ hσ k e he
    obtain ⟨hkey', hnonce'⟩ := hsealed.numbered i σ hσ k e' he'
    exact hreuse e e' ⟨i, .inl hmem⟩ ⟨i, .inr hmem'⟩ hne
      ⟨hkey.trans hkey'.symm, hnonce.trans hnonce'.symm⟩
  · rintro hagrees e e' he he' hne ⟨hkey, hnonce⟩
    obtain ⟨i, σ, k, hσ, hekey, hk, henonce, hget⟩ := hsealed.locate hbounded he
    obtain ⟨i', σ', k', hσ', hekey', hk', henonce', hget'⟩ := hsealed.locate hbounded he'
    obtain rfl := session_eq_of_key hfresh hkeys hσ hσ' (hekey.symm.trans (hkey.trans hekey'))
    obtain rfl := nonce_injective hk hk' (henonce.symm.trans (hnonce.trans henonce'))
    -- One side has used a number once; with both sides, the plaintexts agree.
    rcases hget with hget | hget
    · rcases hget' with hget' | hget'
      · grind
      · exact hne (hagrees i k e e' hget hget')
    · rcases hget' with hget' | hget'
      · exact hne (hagrees i k e' e hget' hget).symm
      grind

end System

def sampleJoin : List (Action ℕ) :=
  (Event.arrive (.udp "a") 0 :: sampleLogin.events 0).map .server ++ [.join 0]

/-- The server answers the first message of the client with the same plaintext. -/
theorem nonces_distinct_echoed : ∃ t : System ℕ,
    Run (System.act sampleConfig samplePrimitives) anyStep { server := { ipPool := ⟨[7], ∅⟩ } }
      (sampleJoin ++ [.send 0 [1, 2, 3], .server (.packet 0 sampleMessage sampleEnv)]) t ∧
    (encryptions t.server.log 0).length = 1 ∧ (t.sent 0).length = 1 ∧ t.NoReuse := by
  refine exists_run_of _ (fun t => FreshSalts t.server.sessions ∧
      InjectiveKeys samplePrimitives t.server.sessions ∧ t.server.log.length < 2 ^ 64 ∧
      t.server.sessions.length = 1 ∧ (encryptions t.server.log 0).length = 1 ∧
      (t.sent 0).length = 1 ∧ encryptions t.server.log 0 = t.sent 0) (by decide +kernel) ?_
  rintro t hrun ⟨hfresh, hkeys, hlog, hsessions, hserver, hsent, hagrees⟩
  have hsealed := sealed_of_run hrun
  have hbounded := hsealed.bounded hlog fun i hi => by grind
  refine ⟨hserver, hsent, (nonces_distinct_iff hrun hfresh hkeys hbounded).mpr ?_⟩
  intro i k e e' he he'
  obtain ⟨σ, hσ⟩ := hsealed.exists_session (.inl (mem_of_getElem? he))
  grind

/-- The first message of the client is lost, and the server answers the second one:
both sides have used the number 0. -/
theorem nonce_reused : ∃ t : System ℕ, Run (System.act sampleConfig samplePrimitives) anyStep
      { server := { ipPool := ⟨[7], ∅⟩ } } (sampleJoin ++ [.send 0 [1], .send 0 [1, 2, 3],
        .server (.packet 0 sampleMessage sampleEnv)]) t ∧
    FreshSalts t.server.sessions ∧
    InjectiveKeys samplePrimitives t.server.sessions ∧ t.Bounded ∧ ¬t.NoReuse := by
  refine exists_run_of _ (fun t => FreshSalts t.server.sessions ∧
      InjectiveKeys samplePrimitives t.server.sessions ∧ t.server.log.length < 2 ^ 64 ∧
      t.server.sessions.length = 1 ∧ (t.sent 0).length = 2 ∧
      ∃ e ∈ encryptions t.server.log 0, ∃ e' ∈ t.sent 0,
        e.plaintext ≠ e'.plaintext ∧ e.key = e'.key ∧ e.nonce = e'.nonce) (by decide +kernel) ?_
  rintro t hrun ⟨hfresh, hkeys, hlog, hsessions, hsent, e, he, e', he', hne, hsame⟩
  have hbounded := (sealed_of_run hrun).bounded hlog fun i hi => by grind
  exact ⟨hfresh, hkeys, hbounded, fun hreuse => hreuse e e' ⟨0, .inl he⟩ ⟨0, .inr he'⟩ hne hsame⟩

end Fluxor.Vpn
