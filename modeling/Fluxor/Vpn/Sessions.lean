import Fluxor.Vpn.Steps

/-!
# Sessions and their ends

The log says how far a client has come since it was last torn down: it has shaken
hands, is authenticated with a key, or its session is established. Data is handled
soundly if it comes in an established session and decrypts under its key.

The server looks at `connectionStates`, which an idle check and `RemoveClient` leave
as it is, and which a disconnect sets to a state that nothing leads out of.
-/

namespace Fluxor.Vpn

open Support Transition List Server

variable {IP : Type}

/-! ## Sessions in the log -/

/-- How far a client has come since it was last torn down. -/
inductive Phase
  | closed | handshaken
  | authenticated (key : Bytes)
  | established (key : Bytes)
  deriving DecidableEq

def Phase.authenticate (key : Bytes) : Phase → Phase
  | .handshaken => .authenticated key
  | phase => phase

def Phase.configure : Phase → Phase
  | .authenticated key => .established key
  | phase => phase

/-- What a happening does to the session of a client. -/
def Phase.next (id : String) (phase : Phase) : Happening → Phase
  | .handshake id' => if id' = id then .handshaken else phase
  | .authenticated id' key => if id' = id then phase.authenticate key else phase
  | .configured id' => if id' = id then phase.configure else phase
  | .tornDown id' => if id' = id then .closed else phase
  | _ => phase

def session (log : List Happening) (id : String) : Phase := log.foldl (Phase.next id) .closed

theorem session_append_singleton (log : List Happening) (h : Happening) (id : String) :
    session (log ++ [h]) id = (session log id).next id h := by
  rw [session, foldl_append]
  rfl

/-- Data is processed, sent on and answered with data only in an established
session, and only if it decrypts under the key of the session. -/
def SoundAt (prim : Primitives) (log : List Happening) : Happening → Prop
  | .processed id payload plain =>
    ∃ key, session log id = .established key ∧ decryptData prim key payload = .ok (some plain)
  | .forwarded id _ _ => ∃ key, session log id = .established key
  | .gateway id _ => ∃ key, session log id = .established key
  | .answered id bytes => bytes.head? = some PacketType.data.toByte →
      ∃ key, session log id = .established key
  | _ => True

def Sound (prim : Primitives) (log : List Happening) : Prop :=
  ∀ before h, before ++ [h] <+: log → SoundAt prim before h

variable {prim : Primitives} {cfg : Config IP} {log : List Happening}

theorem sound_nil : Sound prim [] := by
  intro before h hbefore
  simp at hbefore

variable {h : Happening}

theorem sound_append_singleton : Sound prim (log ++ [h]) ↔ Sound prim log ∧ SoundAt prim log h := by
  constructor
  · intro hsound
    refine ⟨fun before h' hbefore => ?_, hsound log h (prefix_refl _)⟩
    exact hsound before h' (hbefore.trans (prefix_append ..))
  · rintro ⟨hsound, hlast⟩ before h' hbefore
    rcases prefix_concat_iff.mp hbefore with heq | hbefore
    · obtain ⟨rfl, rfl⟩ := append_inj' heq rfl |>.imp_right singleton_inj.mp
      exact hlast
    · exact hsound before h' hbefore

def Happening.Concerns (id : String) : Happening → Prop
  | .handshake id' => id' = id
  | .authenticated id' _ => id' = id
  | .configured id' => id' = id
  | .tornDown id' => id' = id
  | _ => False

variable {id : String}

theorem next_of_not_concerns (phase : Phase) (hnot : ¬h.Concerns id) : phase.next id h = phase := by
  cases h with
  | handshake | authenticated | configured | tornDown => exact if_neg hnot
  | _ => rfl

theorem soundAt_of_concerns (hid : h.Concerns id) : SoundAt prim log h := by
  cases h with
  | handshake | authenticated | configured | tornDown => trivial
  | _ => exact hid.elim

theorem concerns_unique {id' : String} (hid : h.Concerns id) (hid' : h.Concerns id') :
    id' = id := by
  cases h with
  | handshake | authenticated | configured | tornDown => exact hid'.symm.trans hid
  | _ => exact hid.elim

/-- The log grows by what leaves all sessions as they are. -/
def Quiet (log log' : List Happening) : Prop :=
  ∃ new, log' = log ++ new ∧ ∀ h ∈ new, ∀ id, ¬h.Concerns id

theorem Quiet.refl (log : List Happening) : Quiet log log :=
  ⟨[], (append_nil log).symm, fun _ h => by simp at h⟩

variable {log' : List Happening}

theorem Quiet.snoc (hquiet : Quiet log log') (hnot : ∀ id, ¬h.Concerns id) :
    Quiet log (log' ++ [h]) := by
  obtain ⟨new, rfl, hnew⟩ := hquiet
  refine ⟨new ++ [h], append_assoc .., fun h' hh' => ?_⟩
  rcases mem_append.mp hh' with hold | hlast
  · exact hnew h' hold
  · rwa [mem_singleton.mp hlast]

theorem Quiet.extends (hquiet : Quiet log log') : log <+: log' := by
  obtain ⟨new, rfl, -⟩ := hquiet
  exact prefix_append ..

theorem Quiet.session_eq (hquiet : Quiet log log') (id : String) :
    session log' id = session log id := by
  obtain ⟨new, rfl, hnew⟩ := hquiet
  induction new using reverseRecOn with
  | nil => rw [append_nil]
  | append_singleton new h ih =>
    have hrest : ∀ h' ∈ new, ∀ id, ¬h'.Concerns id :=
      fun h' hh' => hnew h' (mem_append_left _ hh')
    rw [← append_assoc, session_append_singleton,
      next_of_not_concerns _ (hnew h (by simp) id), ih hrest]

/-! ## The state of a connection and its session -/

def Server.keyOf (s : Server IP) (id : String) : Option Bytes :=
  (s.clientCrypto id).map CryptoState.key

/-- The session is as far as the state of the connection says. -/
def Agrees (state : ConnectionState) (key : Option Bytes) (phase : Phase) : Prop :=
  match state with
  | .handshaking => phase = .handshaken
  | .configuring => ∃ k, key = some k ∧ phase = .authenticated k
  | .connected => ∃ k, key = some k ∧ phase = .established k
  | _ => True

/-- Data was handled soundly so far, and the states say what the sessions are. -/
structure Server.Tracked (prim : Primitives) (s : Server IP) : Prop where
  sound : Sound prim s.log
  agrees : ∀ id, Agrees (s.stateOf id) (s.keyOf id) (session s.log id)

section Writes

variable {s s' : Server IP} {id : String}

theorem stateOf_setState_of_ne {id' : String} (hne : id' ≠ id) (s : Server IP)
    (state : ConnectionState) : (s.setState id state).stateOf id' = s.stateOf id' := by
  rw [stateOf_setState, if_neg hne]

theorem keyOf_setCrypto_of_ne {id' : String} (hne : id' ≠ id) (s : Server IP)
    (cc : Option CryptoState) : (s.setCrypto id cc).keyOf id' = s.keyOf id' :=
  congrArg (Option.map CryptoState.key) (Function.update_of_ne hne ..)

variable (prim) in
theorem keyOf_encryptFor (s : Server IP) (target : String) (plaintext : Bytes) (id : String) :
    (s.encryptFor prim target plaintext).2.keyOf id = s.keyOf id := by
  unfold encryptFor
  split
  · rfl
  next hcc =>
    simp only [keyOf, record, setCrypto, Function.update_apply]
    split
    next heq =>
      rw [heq, hcc]
      rfl
    · rfl

namespace Server.Tracked

theorem established (h : s.Tracked prim) (hstate : s.stateOf id = .connected) :
    ∃ key, s.keyOf id = some key ∧ session s.log id = .established key := by
  have hagrees := h.agrees id
  rwa [hstate] at hagrees

theorem of_eq (h : s.Tracked prim) (hstates : s'.connectionStates = s.connectionStates)
    (hkeys : ∀ id, s'.keyOf id = s.keyOf id) (hlog : s'.log = s.log) : s'.Tracked prim := by
  refine ⟨hlog ▸ h.sound, fun id => ?_⟩
  rw [stateOf, hstates, hkeys, hlog]
  exact h.agrees id

theorem record (h : s.Tracked prim) {e : Happening} (hat : SoundAt prim s.log e)
    (hnot : ∀ id, ¬e.Concerns id) : (s.record e).Tracked prim := by
  refine ⟨sound_append_singleton.mpr ⟨h.sound, hat⟩, fun id => ?_⟩
  have hsession : session (s.record e).log id = session s.log id :=
    ((Quiet.refl _).snoc hnot).session_eq id
  rw [hsession]
  exact h.agrees id

theorem setState (h : s.Tracked prim) {state : ConnectionState}
    (hrest : ∀ key phase, Agrees state key phase) : (s.setState id state).Tracked prim := by
  refine ⟨h.sound, fun id' => ?_⟩
  rw [stateOf_setState]
  split
  · exact hrest ..
  · exact h.agrees id'

theorem control (h : s.Tracked prim) {e : Happening} (hconcerns : e.Concerns id)
    (hlog : s'.log = s.log ++ [e])
    (hid : Agrees (s'.stateOf id) (s'.keyOf id) ((session s.log id).next id e))
    (hstate : ∀ id', id' ≠ id → s'.stateOf id' = s.stateOf id')
    (hkey : ∀ id', id' ≠ id → s'.keyOf id' = s.keyOf id') : s'.Tracked prim := by
  constructor
  · rw [hlog, sound_append_singleton]
    exact ⟨h.sound, soundAt_of_concerns hconcerns⟩
  · intro id'
    rw [hlog, session_append_singleton]
    by_cases heq : id' = id
    · rwa [heq]
    · rw [hstate id' heq, hkey id' heq,
        next_of_not_concerns _ fun hc => heq (concerns_unique hconcerns hc)]
      exact h.agrees id'

end Server.Tracked

end Writes

/-! ## One step -/

section Step

variable {env : Env IP} {s s' : Server IP} {p : ℕ} {c : Client IP} {data : Bytes} {r : Response}
  {id : String}

theorem not_concerns_of_sentBy {e : Happening} {id' : String} (h : e.SentBy id) :
    ¬e.Concerns id' := by
  cases e with
  | forwarded | gateway => exact fun hc => hc
  | _ => exact h.elim

theorem soundAt_of_sentBy {e : Happening} {key : Bytes} (h : e.SentBy id)
    (hsession : session log id = .established key) : SoundAt prim log e := by
  cases e with
  | forwarded | gateway =>
    obtain rfl := h
    exact ⟨key, hsession⟩
  | _ => exact h.elim

theorem quiet_encryptFor (s : Server IP) (target : String) (plaintext : Bytes) :
    Quiet s.log (s.encryptFor prim target plaintext).2.log := by
  unfold encryptFor
  split
  · exact .refl _
  · exact (Quiet.refl _).snoc fun _ hc => hc

theorem quiet_step_tun [DecidableEq IP] {data : Bytes} {timestamp : ℕ}
    (h : step cfg prim s (.tun data timestamp) = some s') : Quiet s.log s'.log := by
  rcases step_tun h with rfl | ⟨target, rfl⟩
  · exact .refl _
  · exact quiet_encryptFor ..

theorem Sends.quiet (h : Sends prim id s s') : Quiet s.log s'.log := by
  induction h with
  | refl => exact .refl _
  | @encrypt s' _ target plaintext ih =>
    unfold encryptFor
    split
    · exact ih
    · exact ih.snoc fun _ hc => hc
  | record _ hsent ih => exact ih.snoc fun _ => not_concerns_of_sentBy hsent

theorem quiet_answer (s : Server IP) (p : ℕ) (r : Response) : Quiet s.log (s.answer p r).log := by
  unfold answer
  split
  · exact (Quiet.refl _).snoc fun _ hc => hc
  · exact .refl _

namespace Server.Tracked

theorem encryptFor (h : s.Tracked prim) (target : String) (plaintext : Bytes) :
    (s.encryptFor prim target plaintext).2.Tracked prim := by
  have hkeys := keyOf_encryptFor prim s target plaintext
  unfold Server.encryptFor at hkeys ⊢
  split
  · exact h
  next cc hcc =>
    rw [hcc] at hkeys
    exact (h.record (e := .encrypted cc.session cc.key (nonce cc.sendSeq) plaintext)
      trivial fun _ hc => hc).of_eq rfl hkeys rfl

theorem of_sends {id : String} (hsends : Sends prim id s s') (h : s.Tracked prim)
    (hstate : s.stateOf id = .connected) : s'.Tracked prim := by
  induction hsends with
  | refl => exact h
  | encrypt _ target plaintext ih => exact ih.encryptFor target plaintext
  | @record s' hsends e hsent ih =>
    have hstate' : s'.stateOf id = .connected := by rwa [stateOf, hsends.same.connectionStates]
    obtain ⟨key, -, hsession⟩ := ih.established hstate'
    exact ih.record (soundAt_of_sentBy hsent hsession) fun _ => not_concerns_of_sentBy hsent

variable [DecidableEq IP]

theorem handled (h : s.Tracked prim) (hhandled : Handled prim env s p c data r s') :
    s'.Tracked prim ∧ (r.Control ∨ s'.stateOf c.id = .connected) := by
  cases hhandled with
  | refused => exact ⟨h, .inl fun _ hr => by cases hr⟩
  | handshake seq _ hcontrol =>
    refine ⟨h.control (e := .handshake c.id) rfl rfl ?_
      (fun _ hne => stateOf_setState_of_ne hne ..) fun _ _ => rfl, .inl hcontrol⟩
    change Agrees ((s.setState c.id .handshaking).stateOf c.id) _ _
    rw [stateOf_setState, if_pos rfl]
    exact if_pos rfl
  | authFailed => exact ⟨h.setState fun _ _ => trivial, .inl fun _ hr => by cases hr⟩
  | @authenticated _ _ _ password ip _ _ _ _ hcontrol hstate =>
    have hphase := h.agrees c.id
    rw [hstate] at hphase
    refine ⟨h.control (e := .authenticated c.id (deriveKey prim env.salt password)) rfl rfl ?_
      (fun _ hne => stateOf_setState_of_ne hne ..)
      fun _ hne => keyOf_setCrypto_of_ne hne .., .inl hcontrol⟩
    change Agrees ((s.setState c.id .configuring).stateOf c.id) _ _
    rw [stateOf_setState, if_pos rfl, hphase]
    exact ⟨_, by simp [Server.keyOf, Server.beginSession, Server.record], if_pos rfl⟩
  | configured seq _ hcontrol hstate =>
    have hphase := h.agrees c.id
    rw [hstate] at hphase
    obtain ⟨key, hkey, hsession⟩ := hphase
    refine ⟨h.control (e := .configured c.id) rfl rfl ?_
      (fun _ hne => stateOf_setState_of_ne hne ..) fun _ _ => rfl, .inl hcontrol⟩
    change Agrees ((s.setState c.id .connected).stateOf c.id) _ _
    rw [stateOf_setState, if_pos rfl, hsession]
    exact ⟨key, hkey, if_pos rfl⟩
  | keepAlive seq hcontrol => exact ⟨h.of_eq rfl (fun _ => rfl) rfl, .inl hcontrol⟩
  | disconnected =>
    refine ⟨h.control (e := .tornDown c.id) rfl rfl ?_ (fun _ hne => stateOf_setState_of_ne hne ..)
      fun _ hne => keyOf_setCrypto_of_ne hne .., .inl fun _ hr => by cases hr⟩
    change Agrees ((s.setState c.id .disconnected).stateOf c.id) _ _
    rw [stateOf_setState, if_pos rfl]
    trivial
  | @processed _ packet _ seq plain _ hstate hdecrypted hsends =>
    obtain ⟨key, hkey, hsession⟩ := h.established hstate
    obtain ⟨cc, hcc, rfl⟩ := Option.map_eq_some_iff.mp hkey
    rw [decryptPayload, hcc] at hdecrypted
    have hnoted : SoundAt prim s.log (.processed c.id packet.data plain) :=
      ⟨cc.key, hsession, hdecrypted⟩
    have hrecorded := h.record hnoted fun _ hc => hc
    refine ⟨of_sends hsends ?_ hstate, .inr ?_⟩
    · exact hrecorded.of_eq rfl (fun _ => rfl) rfl
    · rwa [stateOf, hsends.same.connectionStates]

section

omit [DecidableEq IP]

theorem answer (h : s.Tracked prim) (hobject : s.objects p = some c)
    (hr : r.Control ∨ s.stateOf c.id = .connected) : (s.answer p r).Tracked prim := by
  unfold Server.answer
  split
  next bytes hobject' =>
    obtain rfl := Option.some.inj (hobject.symm.trans hobject')
    refine h.record ?_ fun _ hc => hc
    intro hdata
    rcases hr with hcontrol | hstate
    · exact absurd hdata (hcontrol bytes rfl)
    · obtain ⟨key, -, hsession⟩ := h.established hstate
      exact ⟨key, hsession⟩
  · exact h

theorem tornDown {id : String} (h : s.Tracked prim)
    (hrest : s.stateOf id = .initial ∨ s.stateOf id = .disconnected)
    (hstates : s'.connectionStates = s.connectionStates)
    (hkeys : ∀ id', id' ≠ id → s'.keyOf id' = s.keyOf id')
    (hlog : s'.log = s.log ++ [.tornDown id]) : s'.Tracked prim := by
  have hstate : ∀ id', s'.stateOf id' = s.stateOf id' := by
    intro id'
    rw [stateOf, hstates]
    rfl
  refine h.control (e := .tornDown id) rfl hlog ?_ (fun id' _ => hstate id') hkeys
  rw [hstate]
  rcases hrest with hinitial | hdisconnected
  · rw [hinitial]
    trivial
  · rw [hdisconnected]
    trivial

end

end Server.Tracked

end Step

end Fluxor.Vpn
