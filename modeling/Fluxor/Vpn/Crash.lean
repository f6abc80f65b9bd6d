import Fluxor.Vpn.Steps

/-!
# Datagrams that crash the server

Every index and slice of the handlers is in range, whatever the datagram. What
remains are two pointers that may be nil: the client, if the pool is exhausted,
and the remote address of a client that `AddClient` has put into the table.
-/

namespace Fluxor.Vpn

open Support Transition

variable {IP : Type}

section Handlers

variable (cfg : Config IP) (prim : Primitives) (env : Env IP) (s : Server IP)
  (p : ℕ) (c : Client IP) (packet : VPNPacket)

theorem safe_answerData (seq : ℕ) (data : Bytes) : Safe (answerData cfg prim env s c seq data) := by
  rw [answerData, isEchoRequest]
  split
  next hlength =>
    refine safe_bind ?_ fun echo _ => ?_
    · refine safe_bind (safe_index (by omega)) fun protocol _ => ?_
      refine safe_bind (safe_index (by omega)) fun kind _ => ?_
      exact safe_pure _
    · cases echo with
      | false => exact safe_pure _
      | true => exact safe_bind (safe_icmpReply hlength) fun reply _ => safe_pure _
  · exact safe_pure _

theorem safe_processData (seq : ℕ) (data : Bytes) :
    Safe (processData cfg prim env s c seq data) := by
  rw [processData]
  split
  · exact safe_pure _
  · refine safe_bind (safe_index (by omega)) fun version _ => ?_
    split
    · exact safe_pure _
    · refine safe_bind (safe_slice (by omega) (by omega)) fun dst _ => ?_
      rw [routeData]
      split
      · exact safe_pure _
      · split
        · exact safe_pure _
        · exact safe_answerData ..

theorem safe_decryptPayload (id : String) (payload : Bytes) :
    Safe (decryptPayload prim s id payload) := by
  rw [decryptPayload]
  split
  · exact safe_pure _
  · exact safe_decryptData ..

theorem safe_handleData : Safe (handleData cfg prim env s p c packet) := by
  refine safe_bind (safe_decryptPayload ..) fun plain _ => ?_
  cases plain with
  | none => exact safe_pure _
  | some => exact safe_processData ..

variable [DecidableEq IP]

/-- A config packet that is expected, from a client without an address. -/
def Nameless : Prop :=
  PacketType.ofByte packet.type = some .config ∧
    s.stateOf c.id = .configuring ∧ cfg.eventBus = true ∧ c.remoteAddr = none

theorem safe_dispatch_iff : Safe (dispatch cfg prim env s p c packet) ↔
    ¬Nameless cfg s c packet := by
  rw [dispatch, Nameless]
  split
  case h_1 htype | h_2 htype | h_4 htype | h_5 htype => simp [htype, safe_pure]
  next htype =>
    rw [handleConfig]
    split
    next hstate => simp [hstate, safe_pure]
    next hstate =>
      rw [not_not] at hstate
      dsimp only
      split
      next hnil => simp [htype, hstate, hnil, Safe]
      next hnil => simp [htype, hstate, hnil, safe_pure]
  next htype =>
    split
    · simp [htype, safe_pure]
    · simp [htype, safe_handleData]
  all_goals
    rename_i htype
    simp [htype, safe_pure]

theorem safe_handleVPNPacket_iff {data : Bytes} (hobject : s.objects p = some c) :
    Safe (handleVPNPacket cfg prim env s p data) ↔ ∀ packet, parsePacket data = .ok (.ok packet) →
        ¬Nameless cfg s c packet := by
  obtain ⟨parsed, hparsed⟩ := safe_parsePacket data
  rw [handleVPNPacket, hobject, hparsed]
  cases parsed with
  | error => exact iff_of_true ⟨_, rfl⟩ fun _ h => by cases h
  | ok packet =>
    refine (safe_dispatch_iff cfg prim env s p c packet).trans ?_
    simp

end Handlers

section Reachable

variable {cfg : Config IP} {prim : Primitives} {env : Env IP} {s s' : Server IP} {pool : IPPool IP}
  {events : List (Event IP)} [DecidableEq IP]

theorem wellFormed_of_run (hrun : Run (step cfg prim) anyStep { ipPool := pool } events s) :
    s.WellFormed :=
  hrun.invariant (fun h _ hstep => h.step hstep)
    ⟨fun _ _ h => (nomatch h), fun _ _ h => (nomatch h)⟩

/-- The client is known, or there is an address for it. -/
def Server.HasRoom (s : Server IP) (addr : String) : Prop :=
  s.clients addr ≠ none ∨ ∃ ip ∈ s.ipPool.available, ip ∉ s.ipPool.allocated

/-- The datagram completes the exchange of a client without a remote address, with
an event bus to tell. -/
def Untellable (cfg : Config IP) (s : Server IP) (addr : String) (data : Bytes) : Prop :=
  ∃ p c packet, s.entry addr = some (p, c) ∧
    parsePacket data = .ok (.ok packet) ∧ Nameless cfg s c packet

theorem hasRoom_iff {addr : String} (hnone : s.clients addr = none) :
    s.HasRoom addr ↔ s.ipPool.allocate ≠ none := by
  simp [Server.HasRoom, hnone, IPPool.allocate]

theorem safe_touched_iff {p : ℕ} {c : Client IP} (hobject : s.objects p = some c) (env : Env IP)
    (data : Bytes) :
    Safe (handleVPNPacket cfg prim env (s.touch p env.now) p data) ↔
      ∀ packet, parsePacket data = .ok (.ok packet) → ¬Nameless cfg s c packet := by
  have htouched : (s.touch p env.now).objects p = some { c with lastSeen := env.now } := by
    rw [Server.touch, objects_updateClient, if_pos rfl, hobject]
    rfl
  exact safe_handleVPNPacket_iff cfg prim env _ p { c with lastSeen := env.now } htouched

/-- A datagram is handled to its end exactly if its client is known or gets an
address, and it is not a config packet that cannot be told to the event bus. -/
theorem handleUDPPacket_safe_iff (hrun : Run (step cfg prim) anyStep { ipPool := pool } events s)
    (env : Env IP) (addr : String) (data : Bytes) :
    Safe (handleUDPPacket cfg prim env s addr data) ↔
      s.HasRoom addr ∧ ¬Untellable cfg s addr data := by
  have hwell := wellFormed_of_run hrun
  rw [handleUDPPacket, getOrCreateClient]
  cases hclient : s.clients addr with
  | some p =>
    obtain ⟨c, hc, -⟩ := hwell.pointed addr p hclient
    have hentry : s.entry addr = some (p, c) := entry_eq_some.mpr ⟨hclient, hc⟩
    have hroom : s.HasRoom addr := .inl (by simp [hclient])
    simp only [Addr.string, hclient, safe_map, safe_touched_iff hc, hroom,
      true_and, Untellable, hentry]
    constructor
    · rintro h ⟨_, _, packet, heq, hparse, hnameless⟩
      cases heq
      exact h packet hparse hnameless
    · intro h packet hparse hnameless
      exact h ⟨p, c, packet, rfl, hparse, hnameless⟩
  | none =>
    have htell : ¬Untellable cfg s addr data := by
      rintro ⟨p, c, packet, hentry, -⟩
      rw [(entry_eq_some.mp hentry).1] at hclient
      cases hclient
    simp only [Addr.string, hclient, hasRoom_iff hclient, htell, not_false_iff, and_true]
    cases hallocate : s.ipPool.allocate with
    | none => simp [Safe]
    | some allocated =>
      obtain ⟨ip, pool⟩ := allocated
      simp only [safe_map, ne_eq, reduceCtorEq, not_false_iff, iff_true]
      refine (safe_touched_iff (Function.update_self ..) env data).mpr ?_
      rintro packet - ⟨-, -, -, hnil⟩
      cases hnil

end Reachable

/-- A known client can shake hands, though the pool has no address left. -/
theorem handleUDPPacket_safe_known :
    ∃ s : Server ℕ, Run (step sampleConfig samplePrimitives) anyStep { ipPool := ⟨[7], ∅⟩ }
        [.arrive (.udp "a") 0] s ∧
      s.ipPool.allocate = none ∧
      Safe (handleUDPPacket sampleConfig samplePrimitives sampleEnv s "a"
        (datagram .handshake [])) := by
  refine exists_run_of _ (fun s => s.ipPool.allocate.isNone = true ∧ s.clients "a" ≠ none ∧
      ((s.entry "a").all fun (_, c) => c.remoteAddr.isSome) = true) (by decide +kernel) ?_
  rintro s hrun ⟨hpool, hknown, hnamed⟩
  refine ⟨Option.isNone_iff_eq_none.mp hpool, ?_⟩
  refine (handleUDPPacket_safe_iff hrun sampleEnv "a" _).mpr ⟨.inl hknown, ?_⟩
  rintro ⟨p, c, packet, hentry, -, -, -, -, hnil⟩
  simp [hentry, hnil] at hnamed

/-- With the only address taken, the next client is nil. -/
theorem pool_exhausted_crash :
    ∃ s : Server ℕ, Run (step sampleConfig samplePrimitives) anyStep { ipPool := ⟨[7], ∅⟩ }
        [.arrive (.udp "a") 0] s ∧
      ¬Safe (handleUDPPacket sampleConfig samplePrimitives sampleEnv s "b"
        (datagram .handshake [])) :=
  exists_run _ _ _ _ _ (by decide +kernel)

end Fluxor.Vpn
