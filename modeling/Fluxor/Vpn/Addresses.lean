import Fluxor.Support.Leases
import Fluxor.Vpn.Steps

/-!
# Who has which address

The clients of the table that are not disconnected hold their addresses. With the
forwarding map and the set of allocated addresses these are leases of the addresses.

The events that break this write to only one side: `AddClient` and `RemoveClient`
leave out the map, an authentication may replace the address of a client, and a
client that is disconnected gives its address up a second time.
-/

namespace Fluxor.Vpn

open Support Transition Function Option Server

variable {IP : Type}

structure Server.Live (s : Server IP) (p : ℕ) (c : Client IP) : Prop where
  object : s.objects p = some c
  entry : s.clients c.id = some p
  status : c.status ≠ .disconnected

def Server.Holds (s : Server IP) (p : ℕ) (ip : IP) : Prop := ∃ c, s.Live p c ∧ c.assignedIP = ip

/-- Addresses are exclusive, the map forwards to their holders, and every allocated
address is assigned to a client of the table. -/
structure Server.Exclusive (s : Server IP) : Prop where
  distinct : ∀ p c p' c', s.Live p c → s.Live p' c' → c.assignedIP = c'.assignedIP → p = p'
  forwards : ∀ ip p, s.ipToClient ip = some p ↔ s.Holds p ip
  allocated : ∀ ip ∈ s.ipPool.allocated, ∃ id p c, s.entry id = some (p, c) ∧ c.assignedIP = ip

/-- A client of the table that is disconnected has sent a disconnect. -/
def Server.Gone (s : Server IP) : Prop :=
  ∀ p c, s.objects p = some c → s.clients c.id = some p →
    c.status = .disconnected → s.stateOf c.id = .disconnected

structure Server.Accounted (s : Server IP) : Prop where
  wellFormed : s.WellFormed
  leased : Leased s.Holds s.ipToClient s.ipPool.allocated
  gone : s.Gone

variable {s s' : Server IP} {p q : ℕ} {c d : Client IP} {id : String} {ip : IP}
  {f : Client IP → Client IP}

theorem Server.Live.unique (h : s.Live p c) (hd : s.objects p = some d) : c = d :=
  some.inj (h.object.symm.trans hd)

theorem holds_iff (hc : s.objects p = some c) : s.Holds p ip ↔
    s.clients c.id = some p ∧ c.status ≠ .disconnected ∧ c.assignedIP = ip := by
  constructor
  · rintro ⟨d, hlive, heq⟩
    obtain rfl := hlive.unique hc
    exact ⟨hlive.entry, hlive.status, heq⟩
  · rintro ⟨hentry, hstatus, heq⟩
    exact ⟨c, ⟨hc, hentry, hstatus⟩, heq⟩

instance [DecidableEq IP] (s : Server IP) (p : ℕ) (ip : IP) : Decidable (s.Holds p ip) :=
  match hc : s.objects p with
  | some _ => decidable_of_iff _ (holds_iff hc).symm
  | none => isFalse fun ⟨_, hlive, _⟩ => nomatch hc.symm.trans hlive.object

theorem Server.Accounted.exclusive (h : s.Accounted) : s.Exclusive := by
  constructor
  · intro p c p' c' hlive hlive' heq
    exact h.leased.unique ⟨c, hlive, heq⟩ ⟨c', hlive', rfl⟩
  · exact h.leased.owner_iff
  · intro ip hip
    obtain ⟨p, c, hlive, heq⟩ := (h.leased.taken_iff ip).mp hip
    exact ⟨c.id, p, c, entry_eq_some.mpr ⟨hlive.entry, hlive.object⟩, heq⟩

/-! ## Writes to an object -/

theorem holds_congr (hobjects : s'.objects = s.objects) (hclients : s'.clients = s.clients) :
    s'.Holds q ip ↔ s.Holds q ip := by
  constructor
  all_goals
    rintro ⟨d, ⟨hobject, hentry, hstatus⟩, heq⟩
    exact ⟨d, ⟨hobjects ▸ hobject, hclients ▸ hentry, hstatus⟩, heq⟩

section Update

variable (hobjects : s'.objects = (s.updateClient p f).objects)
  (hclients : s'.clients = s.clients) (hc : s.objects p = some c)

include hobjects hclients

theorem live_update_of_ne (hne : q ≠ p) : s'.Live q d ↔ s.Live q d := by
  have hobject : s'.objects q = s.objects q := by rw [hobjects, objects_updateClient, if_neg hne]
  constructor
  · rintro ⟨hd, hentry, hstatus⟩
    exact ⟨hobject ▸ hd, hclients ▸ hentry, hstatus⟩
  · rintro ⟨hd, hentry, hstatus⟩
    exact ⟨hobject.trans hd, hclients ▸ hentry, hstatus⟩

include hc

theorem holds_update (hid : (f c).id = c.id) (hkeep : s.clients c.id = some p →
      ((f c).status = .disconnected ↔ c.status = .disconnected) ∧ (f c).assignedIP = c.assignedIP) :
    s'.Holds q ip ↔ s.Holds q ip := by
  by_cases hne : q = p
  · subst hne
    have hobject : s'.objects q = some (f c) := by rw [hobjects, object_updateClient hc]
    constructor
    · rintro ⟨d, hlive, heq⟩
      obtain rfl := hlive.unique hobject
      have hentry : s.clients c.id = some q := by
        rw [← hclients, ← hid]
        exact hlive.entry
      obtain ⟨hstatus, hip⟩ := hkeep hentry
      exact ⟨c, ⟨hc, hentry, fun h => hlive.status (hstatus.mpr h)⟩, hip.symm.trans heq⟩
    · rintro ⟨d, hlive, heq⟩
      obtain rfl := hlive.unique hc
      obtain ⟨hstatus, hip⟩ := hkeep hlive.entry
      refine ⟨f d, ⟨hobject, ?_, fun h => hlive.status (hstatus.mp h)⟩, hip.trans heq⟩
      rw [hid, hclients]
      exact hlive.entry
  grind [Holds, live_update_of_ne]

theorem holds_update_disconnected (hstatus : (f c).status = .disconnected) :
    s'.Holds q ip ↔ s.Holds q ip ∧ q ≠ p := by
  by_cases hne : q = p
  · subst hne
    simp only [ne_eq, not_true_eq_false, and_false, iff_false]
    rintro ⟨d, hlive, -⟩
    obtain rfl := hlive.unique (hobjects ▸ object_updateClient hc f)
    exact hlive.status hstatus
  · simp only [Server.Holds, live_update_of_ne hobjects hclients hne, ne_eq, hne,
      not_false_eq_true, and_true]

end Update

theorem objects_dropClient (s : Server IP) (id : String) (p q : ℕ) : (s.dropClient id p).objects q =
      if q = p then (s.objects q).map fun c => { c with status := .disconnected }
      else s.objects q :=
  objects_updateClient { s with clients := update s.clients id none } p q _

namespace Server.Gone

section

variable (h : s.Gone)

include h

theorem of_eq (hobjects : s'.objects = s.objects) (hclients : s'.clients = s.clients)
    (hstates : s'.connectionStates = s.connectionStates) : s'.Gone := by
  intro q d
  rw [hobjects, hclients, stateOf, hstates]
  exact h q d

theorem updateClient (hid : ∀ c, (f c).id = c.id)
    (hstatus : ∀ c, (f c).status = .disconnected → c.status = .disconnected) :
    (s.updateClient p f).Gone := by
  intro q d hd hentry hdisconnected
  rw [objects_updateClient] at hd
  split at hd
  · obtain ⟨c, hc, rfl⟩ := map_eq_some_iff.mp hd
    rw [hid] at hentry ⊢
    exact h q c hc hentry (hstatus c hdisconnected)
  · exact h q d hd hentry hdisconnected

theorem updateClient_disconnected (hc : s.objects p = some c)
    (hid : ∀ c, (f c).id = c.id) (hstate : s.stateOf c.id = .disconnected) :
    (s.updateClient p f).Gone := by
  intro q d hd hentry hdisconnected
  by_cases hne : q = p
  · rw [hne, object_updateClient hc] at hd
    cases hd
    rwa [hid]
  · rw [objects_updateClient, if_neg hne] at hd
    exact h q d hd hentry hdisconnected

theorem setState {state : ConnectionState}
    (hstate : s.stateOf id ≠ .disconnected ∨ state = .disconnected) :
    (s.setState id state).Gone := by
  intro q d hd hentry hdisconnected
  have hgone := h q d hd hentry hdisconnected
  grind [stateOf_setState]

theorem dropClient (hc : s.objects p = some c) (hid : c.id = id) :
    (s.dropClient id p).Gone := by
  intro q d hd hentry hdisconnected
  change update s.clients id none d.id = some q at hentry
  by_cases hne : d.id = id
  · grind
  · rw [update_of_ne hne] at hentry
    rw [objects_dropClient] at hd
    split at hd
    · grind
    · exact h q d hd hentry hdisconnected

end

end Server.Gone

theorem holds_dropClient (hobjects : s'.objects = (s.dropClient id p).objects)
    (hclients : s'.clients = (s.dropClient id p).clients) (hp : s.clients id = some p) :
    s'.Holds q ip ↔ s.Holds q ip ∧ q ≠ p := by
  refine (holds_congr hobjects hclients).trans ?_
  constructor
  · rintro ⟨d, ⟨hobject, hentry, hstatus⟩, heq⟩
    change update s.clients id none d.id = some q at hentry
    have hid : d.id ≠ id := by grind
    rw [update_of_ne hid] at hentry
    rw [objects_dropClient] at hobject
    split at hobject
    · obtain ⟨c, -, rfl⟩ := map_eq_some_iff.mp hobject
      exact absurd rfl hstatus
    next hne => exact ⟨⟨d, ⟨hobject, hentry, hstatus⟩, heq⟩, hne⟩
  · rintro ⟨⟨d, ⟨hobject, hentry, hstatus⟩, heq⟩, hne⟩
    have hid : d.id ≠ id := by grind
    refine ⟨d, ⟨?_, ?_, hstatus⟩, heq⟩
    · grind [objects_dropClient]
    · exact (update_of_ne hid ..).trans hentry

theorem holds_addObject (hobjects : s'.objects = (s.addObject c).objects)
    (hclients : s'.clients = (s.addObject c).clients) (hwell : s.WellFormed)
    (hnone : s.clients c.id = none) (hstatus : c.status ≠ .disconnected) :
    s'.Holds q ip ↔ s.Holds q ip ∨ q = s.created ∧ ip = c.assignedIP := by
  refine (holds_congr hobjects hclients).trans ?_
  have hnew : (s.addObject c).objects s.created = some c := update_self ..
  constructor
  · rintro ⟨d, ⟨hobject, hentry, hd⟩, heq⟩
    by_cases hq : q = s.created
    · grind
    · have hobject' : s.objects q = some d := (update_of_ne hq ..).symm.trans hobject
      change update s.clients c.id (some s.created) d.id = some q at hentry
      by_cases hid : d.id = c.id
      · grind
      · rw [update_of_ne hid] at hentry
        exact .inl ⟨d, ⟨hobject', hentry, hd⟩, heq⟩
  · rintro (⟨d, ⟨hobject, hentry, hd⟩, heq⟩ | ⟨rfl, rfl⟩)
    · have hq : q ≠ s.created := (hwell.created q d hobject).ne
      have hid : d.id ≠ c.id := by grind
      exact ⟨d, ⟨(update_of_ne hq ..).trans hobject, (update_of_ne hid ..).trans hentry, hd⟩, heq⟩
    · exact ⟨c, ⟨hnew, update_self .., hstatus⟩, rfl⟩

theorem Server.Gone.addObject (h : s.Gone) (hstatus : c.status ≠ .disconnected) :
    (s.addObject c).Gone := by
  intro q d hobject hentry hdisconnected
  change update s.objects s.created (some c) q = some d at hobject
  change update s.clients c.id (some s.created) d.id = some q at hentry
  by_cases hq : q = s.created
  · grind
  · rw [update_of_ne hq] at hobject
    by_cases hid : d.id = c.id
    · grind
    · rw [update_of_ne hid] at hentry
      exact h q d hobject hentry hdisconnected

/-! ## One step -/

section Step

variable [DecidableEq IP] {cfg : Config IP} {prim : Primitives} {env : Env IP}
  {data : Bytes} {r : Response}

/-- The address that is configured for whom the datagram authenticates. -/
def configuredIP (env : Env IP) (data : Bytes) : Option IP :=
  match parsePacket data with
  | .ok (.ok packet) =>
    match parseAuthData packet with
    | some (username, password) =>
      if env.authenticate username password then (env.clientInfo username).join
      else none
    | none => none
  | _ => none

omit [DecidableEq IP] in
theorem configuredIP_eq {packet : VPNPacket} {username password : Bytes} {ip : Option IP}
    (hparsed : parsePacket data = .ok (.ok packet))
    (hcredentials : parseAuthData packet = some (username, password))
    (haccepted : env.authenticate username password = true)
    (hinfo : env.clientInfo username = some ip) : configuredIP env data = ip := by
  grind [configuredIP]

def Server.MayRelease (s : Server IP) (p : ℕ) (c : Client IP) : Prop :=
  s.clients c.id = some p ∧ c.status ≠ .disconnected ∨ c.assignedIP ∉ s.ipPool.allocated

/-- A packet neither replaces the address of a client in the table nor gives up an
address that another client holds. -/
def LawfulPacket (s : Server IP) (p : ℕ) (c : Client IP) (data : Bytes) (env : Env IP) : Prop :=
  (s.clients c.id = some p → s.stateOf c.id = .handshaking →
    configuredIP env data = none ∨ configuredIP env data = some c.assignedIP) ∧
  ((∃ packet, Carries data .disconnect packet) → s.MayRelease p c)

/-- The events that keep the books of the addresses. -/
def Lawful (cfg : Config IP) (s : Server IP) : Event IP → Prop
  | .packet p data env =>
    match s.objects p with
    | some c => LawfulPacket s p c data env
    | none => True
  | .idle id now => s.IdleAt cfg now id → match s.entry id with
      | some (p, c) => s.MayRelease p c
      | none => True
  | .add .. => False
  | .remove id =>
    match s.entry id with
    | some (_, c) => c.status = .disconnected ∧ c.assignedIP ∉ s.ipPool.allocated
    | none => True
  | _ => True

instance (s : Server IP) (p : ℕ) (c : Client IP) : Decidable (s.MayRelease p c) :=
  inferInstanceAs (Decidable (_ ∨ _))

instance (s : Server IP) (event : Event IP) : Decidable (Lawful cfg s event) :=
  match event with
  | .packet p _ _ => by
    delta Lawful LawfulPacket
    dsimp only
    exact match s.objects p with
      | some _ | none => by infer_instance
  | .idle id _ | .remove id => by
    delta Lawful
    dsimp only
    exact match s.entry id with
      | some _ | none => by infer_instance
  | .arrive .. | .touch .. | .add .. | .tun .. => by
    delta Lawful
    infer_instance

namespace Server.Accounted

section

variable (h : s.Accounted)

include h

section

omit [DecidableEq IP]

theorem of_holds (hwell : s'.WellFormed)
    (hholds : ∀ q ip, s'.Holds q ip ↔ s.Holds q ip) (howner : s'.ipToClient = s.ipToClient)
    (hpool : s'.ipPool = s.ipPool) (hgone : s'.Gone) : s'.Accounted := by
  refine ⟨hwell, ?_, hgone⟩
  rw [howner, hpool]
  exact h.leased.congr hholds

theorem same (hsame : s.Same s') : s'.Accounted :=
  h.of_holds (h.wellFormed.same hsame) (fun _ _ => holds_congr hsame.objects hsame.clients)
    hsame.ipToClient hsame.ipPool
    (h.gone.of_eq hsame.objects hsame.clients hsame.connectionStates)

theorem mem_allocated (hlive : s.Live p c) : c.assignedIP ∈ s.ipPool.allocated :=
  (h.leased.taken_iff _).mpr ⟨p, c, hlive, rfl⟩

end

section

variable (hc : s.objects p = some c)

include hc

theorem leased_release {holds : ℕ → IP → Prop}
    (hmay : s.MayRelease p c) (hholds : ∀ q ip, holds q ip ↔ s.Holds q ip ∧ q ≠ p) :
    Leased holds (update s.ipToClient c.assignedIP none)
      (s.ipPool.release c.assignedIP).allocated := by
  have honly : ∀ ip, s.Holds p ip → ip = c.assignedIP := by
    rintro ip ⟨d, hlive, rfl⟩
    rw [hlive.unique hc]
  rcases hmay with ⟨hentry, hstatus⟩ | hfree
  · exact h.leased.release ⟨c, ⟨hc, hentry, hstatus⟩, rfl⟩ honly hholds
  · obtain ⟨howner, htaken⟩ := h.leased.release_free hfree
    rw [howner, IPPool.release, htaken]
    refine h.leased.congr fun q ip => (hholds q ip).trans (and_iff_left_of_imp ?_)
    rintro hq rfl
    have hip := honly ip hq
    exact hfree ((h.leased.taken_iff _).mpr ⟨q, hip ▸ hq⟩)

omit [DecidableEq IP] in
theorem not_disconnected
    (hentry : s.clients c.id = some p) (hstate : s.stateOf c.id ≠ .disconnected) :
    c.status ≠ .disconnected :=
  fun hstatus => hstate (h.gone p c hc hentry hstatus)

theorem handled
    (hlawful : LawfulPacket s p c data env) (hhandled : Handled prim env s p c data r s') :
    s'.Accounted := by
  have hwell := h.wellFormed.handled hhandled
  cases hhandled with
  | refused => exact h
  | handshake seq _ _ hstate =>
    refine h.of_holds hwell (fun _ _ => holds_congr rfl rfl) rfl rfl ?_
    exact h.gone.setState (.inl (by rw [hstate]; decide))
  | authFailed =>
    refine h.of_holds hwell (fun _ _ => holds_congr rfl rfl) rfl rfl ?_
    exact h.gone.setState (.inr rfl)
  | @authenticated _ _ _ _ ip hcarries hparsed haccepted hinfo _ hstate =>
    have hip := configuredIP_eq hcarries.parsed hparsed haccepted hinfo
    have hstate' : s.stateOf c.id ≠ .disconnected := by
      rw [hstate]
      decide
    refine h.of_holds hwell (fun q x => ?_) rfl rfl ?_
    · refine holds_update rfl rfl hc rfl fun hentry => ?_
      refine ⟨iff_of_false nofun (h.not_disconnected hc hentry hstate'), ?_⟩
      have hsame := hlawful.1 hentry hstate
      grind
    · exact (h.gone.setState (.inl hstate')).updateClient (fun _ => rfl) nofun
  | configured seq _ _ hstate =>
    have hstate' : s.stateOf c.id ≠ .disconnected := by
      rw [hstate]
      decide
    refine h.of_holds hwell (fun q x => ?_) rfl rfl ?_
    · refine holds_update rfl rfl hc rfl fun hentry => ?_
      exact ⟨iff_of_false nofun (h.not_disconnected hc hentry hstate'), rfl⟩
    · exact (h.gone.setState (.inl hstate')).updateClient (fun _ => rfl) nofun
  | keepAlive =>
    refine h.of_holds hwell (fun q x => ?_) rfl rfl ?_
    · exact holds_update rfl rfl hc rfl fun _ => ⟨Iff.rfl, rfl⟩
    · exact h.gone.updateClient (p := p) (fun _ => rfl) fun _ hstatus => hstatus
  | disconnected hcarries =>
    refine ⟨hwell, ?_, ?_⟩
    · refine h.leased_release hc (hlawful.2 ⟨_, hcarries⟩) fun q x => ?_
      exact holds_update_disconnected rfl rfl hc rfl
    · have hgone : (s.setState c.id .disconnected).Gone := h.gone.setState (.inr rfl)
      refine hgone.updateClient_disconnected hc (fun _ => rfl) ?_
      rw [stateOf_setState, if_pos rfl]
  | processed seq plain _ _ _ hsends =>
    have hsame := hsends.same
    refine h.of_holds hwell (fun q x => ?_) hsame.ipToClient hsame.ipPool ?_
    · exact holds_update hsame.objects hsame.clients hc rfl fun _ => ⟨Iff.rfl, rfl⟩
    · have hgone : (s.updateClient p fun c => { c with lastSeen := env.now }).Gone :=
        h.gone.updateClient (fun _ => rfl) fun _ hstatus => hstatus
      exact hgone.of_eq hsame.objects hsame.clients hsame.connectionStates

end

theorem arrive (addr : Addr) (now : ℤ) :
    (getOrCreateClient s addr now).2.Accounted := by
  rcases getOrCreateClient_cases s addr now with
    heq | ⟨ip, pool, hnone, hallocate, heq⟩
  · rwa [heq]
  · rw [heq]
    have hfree := not_mem_of_allocate hallocate
    obtain ⟨-, rfl⟩ := allocate_eq_some.mp hallocate
    refine ⟨(h.wellFormed.addObject _).of_eq rfl rfl rfl, ?_, ?_⟩
    · refine h.leased.take hfree s.created fun q x => ?_
      exact holds_addObject (c := ⟨addr.string, some addr, ip, now, .connecting⟩) rfl rfl
        h.wellFormed hnone nofun
    · exact (h.gone.addObject
        (c := ⟨addr.string, some addr, ip, now, .connecting⟩) nofun).of_eq rfl rfl rfl

omit [DecidableEq IP] in
theorem touch (p : ℕ) (now : ℤ) : (s.touch p now).Accounted := by
  refine h.of_holds (h.wellFormed.updateClient fun _ => rfl) (fun q x => ?_) rfl rfl
    (h.gone.updateClient (fun _ => rfl) fun _ hstatus => hstatus)
  cases hc : s.objects p with
  | some => exact holds_update rfl rfl hc rfl fun _ => ⟨Iff.rfl, rfl⟩
  | none =>
    refine holds_congr ?_ rfl
    rw [Server.touch, Server.updateClient, hc, map_none, ← hc]
    exact update_eq_self ..

theorem step {event : Event IP} (hlawful : Lawful cfg s event)
    (hstep : Vpn.step cfg prim s event = some s') : s'.Accounted := by
  cases event with
  | arrive addr now =>
    cases hstep
    exact h.arrive addr now
  | touch p now =>
    cases hstep
    exact h.touch p now
  | packet p =>
    obtain ⟨c, r, s₁, hc, hhandled, rfl⟩ := step_packet hstep
    rw [Lawful, hc] at hlawful
    exact (h.handled hc hlawful hhandled).same (same_answer s₁ p r)
  | idle id now =>
    have hwell := h.wellFormed.step hstep
    cases hstep
    rcases checkClient_cases cfg s now id with
      ⟨-, heq⟩ | ⟨p, c, hp, hc, hidle, heq⟩
    · rwa [heq]
    · rw [heq] at hwell ⊢
      have hmay := hlawful hidle
      rw [entry_eq_some.mpr ⟨hp, hc⟩] at hmay
      have hid := h.wellFormed.id_eq hp hc
      refine ⟨hwell, ?_, ?_⟩
      · refine h.leased_release hc hmay fun q x => ?_
        exact holds_dropClient rfl rfl hp
      · exact (h.gone.dropClient hc hid).of_eq rfl rfl rfl
  | add => exact hlawful.elim
  | remove id =>
    have hwell := h.wellFormed.step hstep
    obtain ⟨p, c, hp, hc, rfl⟩ := removeClient_eq_some hstep
    rw [Lawful, entry_eq_some.mpr ⟨hp, hc⟩] at hlawful
    obtain ⟨-, hfree⟩ := hlawful
    have hid := h.wellFormed.id_eq hp hc
    refine ⟨hwell, ?_, (h.gone.dropClient hc hid).of_eq rfl rfl rfl⟩
    have howner := (h.leased.release_free hfree).1
    refine howner ▸ h.leased_release hc (.inr hfree) fun q x => ?_
    exact holds_dropClient rfl rfl hp
  | tun => exact h.same (same_step_tun hstep)

end

end Server.Accounted

/-! ## Events that break the books -/

def Server.Held (s : Server IP) : Prop := ∀ p c, s.Live p c → c.assignedIP ∈ s.ipPool.allocated

section

omit [DecidableEq IP]

theorem exists_of_configuredIP (h : configuredIP env data = some ip) :
    ∃ packet username password, Carries data .auth packet ∧
      parseAuthData packet = some (username, password) ∧
      env.authenticate username password = true ∧ env.clientInfo username = some (some ip) := by
  rw [configuredIP] at h
  split at h
  next packet hparsed =>
    split at h
    next username password hcredentials =>
      split at h
      next haccepted =>
        refine ⟨packet, username, password, ⟨hparsed, ?_⟩, hcredentials, haccepted,
          join_eq_some_iff.mp h⟩
        rw [parseAuthData] at hcredentials
        split at hcredentials
        · cases hcredentials
        next htype =>
          rw [not_not.mp htype]
          rfl
      · cases h
    · cases h
  · cases h

theorem Server.Accounted.exists_holder (h : s.Accounted) (hc : s.objects p = some c)
    (hmay : ¬s.MayRelease p c) : ∃ q, s.Holds q c.assignedIP ∧ q ≠ p := by
  rw [MayRelease, not_or, not_not] at hmay
  obtain ⟨q, hq⟩ := (h.leased.taken_iff _).mp hmay.2
  refine ⟨q, hq, ?_⟩
  rintro rfl
  obtain ⟨d, hlive, -⟩ := hq
  grind [Live.unique, Live.entry, Live.status]

end

theorem exists_step_auth (hc : s.objects p = some c) (hstate : s.stateOf c.id = .handshaking)
    (hip : configuredIP env data = some ip) :
    ∃ s', step cfg prim s (.packet p data env) = some s' ∧
      s'.objects p = some { c with status := .authenticated, assignedIP := ip } ∧
      s'.ipToClient = s.ipToClient := by
  obtain ⟨packet, username, password, hcarries, hparsed, haccepted, hinfo⟩ :=
    exists_of_configuredIP hip
  refine ⟨_, step_of_dispatch hc hcarries
    (dispatch_auth hcarries hstate hparsed haccepted hinfo), ?_, ?_⟩
  · rw [(same_answer ..).objects]
    exact object_updateClient hc _
  · rw [(same_answer ..).ipToClient]
    rfl

theorem lawful_of_exclusive {event : Event IP} (h : s.Accounted)
    (hstep : step cfg prim s event = some s') (hexclusive : s'.Exclusive) (hheld : s'.Held) :
    Lawful cfg s event := by
  cases event with
  | arrive | touch | tun => trivial
  | packet p data env =>
    obtain ⟨c, -, -, hc, -, -⟩ := step_packet hstep
    rw [Lawful, hc]
    refine ⟨fun hentry hstate => ?_, ?_⟩
    · cases hip : configuredIP env data with
      | none => exact .inl rfl
      | some =>
        obtain ⟨s₁, hstep₁, hobject, howner⟩ := exists_step_auth hc hstate hip
        obtain rfl := some.inj (hstep.symm.trans hstep₁)
        have hstatus := h.not_disconnected hc hentry (by rw [hstate]; decide)
        have hmap := (h.leased.owner_iff _ p).mpr ⟨c, ⟨hc, hentry, hstatus⟩, rfl⟩
        rw [← howner, hexclusive.forwards] at hmap
        obtain ⟨d, hlive, heq⟩ := hmap
        grind [Live.unique]
    · rintro ⟨packet, hcarries⟩
      by_contra hmay
      obtain ⟨q, hq, hne⟩ := h.exists_holder hc hmay
      obtain rfl := some.inj (hstep.symm.trans (step_disconnect hc hcarries))
      have hholds : (handleDisconnect s p c).2.Holds q c.assignedIP ↔
          s.Holds q c.assignedIP ∧ q ≠ p :=
        holds_update_disconnected rfl rfl hc rfl
      have hmap := (hexclusive.forwards _ q).mpr (hholds.mpr ⟨hq, hne⟩)
      exact nomatch (update_self ..).symm.trans hmap
  | idle id now =>
    intro hidle
    rcases checkClient_cases cfg s now id with
      ⟨hnot, -⟩ | ⟨p, c, hp, hc, -, heq⟩
    · exact absurd hidle hnot
    · rw [entry_eq_some.mpr ⟨hp, hc⟩]
      by_contra hmay
      obtain ⟨q, hq, hne⟩ := h.exists_holder hc hmay
      obtain rfl := (some.inj hstep).symm.trans heq
      have hholds : (expire s id p c).Holds q c.assignedIP ↔
          s.Holds q c.assignedIP ∧ q ≠ p := holds_dropClient rfl rfl hp
      have hmap := (hexclusive.forwards _ q).mpr (hholds.mpr ⟨hq, hne⟩)
      exact nomatch (update_self ..).symm.trans hmap
  | add id remoteAddr ip now =>
    -- The new client is not in the map, whoever its address belongs to.
    obtain ⟨ip', pool, rfl⟩ := addClient_eq_some hstep
    have hmap := (hexclusive.forwards ip' s.created).mpr ⟨⟨id, remoteAddr, ip', now, .connecting⟩,
        ⟨update_self .., update_self .., nofun⟩, rfl⟩
    obtain ⟨c, hlive, -⟩ := (h.leased.owner_iff ip' s.created).mp hmap
    exact lt_irrefl _ (h.wellFormed.created _ c hlive.object)
  | remove id =>
    obtain ⟨p, c, hp, hc, heq⟩ := removeClient_eq_some hstep
    have hid := h.wellFormed.id_eq hp hc
    have hholds : ∀ q ip, s'.Holds q ip ↔ s.Holds q ip ∧ q ≠ p := by
      intro q ip
      rw [heq]
      exact holds_dropClient rfl rfl hp
    rw [Lawful, entry_eq_some.mpr ⟨hp, hc⟩]
    have hstatus : c.status = .disconnected := by
      by_contra hstatus
      have hmap := (h.leased.owner_iff _ p).mpr ⟨c, ⟨hc, hid.symm ▸ hp, hstatus⟩, rfl⟩
      have howner : s'.ipToClient = s.ipToClient := by
        rw [heq]
        rfl
      rw [← howner, hexclusive.forwards, hholds] at hmap
      exact hmap.2 rfl
    refine ⟨hstatus, fun hallocated => ?_⟩
    obtain ⟨q, hq, hne⟩ := h.exists_holder hc
      (not_or.mpr ⟨fun hlive => hlive.2 hstatus, not_not.mpr hallocated⟩)
    obtain ⟨d, hlive, hip⟩ := (hholds q _).mpr ⟨hq, hne⟩
    have hmem := hheld q d hlive
    rw [hip, heq] at hmem
    exact Finset.notMem_erase _ _ hmem

end Step

section Runs

variable [DecidableEq IP] {cfg : Config IP} {prim : Primitives}
  {available : List IP} {events : List (Event IP)}

theorem accounted_of_run (hrun : Run (step cfg prim) (Lawful cfg)
    { ipPool := { available := available } } events s) : s.Accounted := by
  refine hrun.invariant (fun h hlawful hstep => h.step hlawful hstep) ⟨?_, ?_, ?_⟩
  · exact ⟨fun _ _ h => (nomatch h), fun _ _ h => (nomatch h)⟩
  · refine ⟨fun _ _ => ⟨fun h => (nomatch h), ?_⟩, fun _ => ⟨?_, ?_⟩⟩
    · rintro ⟨c, hlive, -⟩
      exact nomatch hlive.object
    · exact fun h => absurd h (Finset.notMem_empty _)
    · rintro ⟨p, c, hlive, -⟩
      exact nomatch hlive.object
  · exact fun _ _ h => (nomatch h)

/-- Addresses are exclusive in every run of lawful events; and such a run goes on
so, with every held address marked as allocated, exactly by a lawful event. -/
theorem addresses_exclusive
    (hrun : Run (step cfg prim) (Lawful cfg)
    { ipPool := { available := available } } events s) :
    s.Exclusive ∧ ∀ event s', step cfg prim s event = some s' →
      (s'.Exclusive ∧ s'.Held ↔ Lawful cfg s event) := by
  have haccounted := accounted_of_run hrun
  refine ⟨haccounted.exclusive, fun event s' hstep => ⟨?_, fun hlawful => ?_⟩⟩
  · rintro ⟨hexclusive, hheld⟩
    exact lawful_of_exclusive haccounted hstep hexclusive hheld
  · have haccounted' := haccounted.step hlawful hstep
    exact ⟨haccounted'.exclusive, fun _ _ hlive => haccounted'.mem_allocated hlive⟩

end Runs

/-- The address of a client that disconnects goes to the next one, and an idle one is removed. -/
theorem addresses_exclusive_reused : ∃ s : Server ℕ,
    Run (step sampleConfig samplePrimitives) (Lawful sampleConfig)
      { ipPool := { available := [7, 8] } }
      [.arrive (.udp "a") 0, .arrive (.udp "b") 0,
        .packet 0 (datagram .disconnect []) sampleEnv, .arrive (.udp "c") 0,
        .idle "b" 10] s ∧
    s.ipToClient 7 = some 2 ∧ s.ipPool.allocated = {7} ∧ s.Exclusive := by
  refine exists_run_of _
      (fun s => s.ipToClient 7 = some 2 ∧ s.ipPool.allocated = {7}) (by decide +kernel) ?_
  rintro s hrun ⟨howner, hallocated⟩
  exact ⟨howner, hallocated, (addresses_exclusive hrun).1⟩

/-- A client that disconnects a second time gives up an address that another client
has got since, and a third gets it as well. -/
theorem address_assigned_twice : ∃ s : Server ℕ, Run (step sampleConfig samplePrimitives) anyStep
      { ipPool := { available := [7, 8] } }
      [.arrive (.udp "a") 0, .packet 0 (datagram .disconnect []) sampleEnv,
        .arrive (.udp "b") 0, .packet 0 (datagram .disconnect []) sampleEnv,
        .arrive (.udp "c") 0] s ∧
    ¬s.Exclusive := by
  refine exists_run_of _ (fun s => s.Holds 1 7 ∧ s.Holds 2 7) (by decide +kernel) ?_
  rintro s - ⟨hb, hc⟩ hexclusive
  obtain ⟨c, hlive, heq⟩ := hb
  obtain ⟨c', hlive', heq'⟩ := hc
  grind [Exclusive.distinct]

end Fluxor.Vpn
