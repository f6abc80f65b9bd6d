import Fluxor.Platform.UnitOfWork
import Fluxor.Platform.Deployment
import Fluxor.Support.Registry

/-!
# Links and monitors

`LinkManager` of `pkg/core/link.go`. The history of a manager consists of its
successful calls, with what `Monitor` returned; the three maps are described by
it. `NotifyExit` ranges over two maps, in any order.
-/

namespace Fluxor.Platform

open Registry Transition List AList

structure MonitorRef where
  (monitorerID targetID : String)
  ref : UInt64
  deriving DecidableEq

structure ExitSignal (ε : Type*) where
  from_ : String
  state : DeploymentState
  err : ε

/-- `LinkManager`. The event bus only gets what `NotifyExit` publishes. -/
structure LinkManager where
  links : AList fun _ : String => Finset String := ∅
  monitorsByTarget : AList fun _ : String => Finset MonitorRef := ∅
  monitorRefs : AList fun _ : MonitorRef => String := ∅
  nextRef : UInt64 := 1

def exitAddress (deploymentID : String) : String :=
  "core.exit." ++ deploymentID

namespace LinkManager

variable (m : LinkManager) (selfID targetID : String)

def link : Except EventBusError LinkManager :=
  if selfID = "" ∨ targetID = "" then
    .error ⟨"INVALID_ID", "Link: deployment ID cannot be empty"⟩
  else if selfID = targetID then .error ⟨"INVALID_LINK", "cannot link to self"⟩
  else .ok { m with links := add (add m.links selfID targetID) targetID selfID }

def unlink : LinkManager :=
  { m with links := remove (remove m.links selfID targetID) targetID selfID }

def monitor : Except EventBusError (MonitorRef × LinkManager) :=
  if selfID = "" ∨ targetID = "" then
    .error ⟨"INVALID_ID", "Monitor: deployment ID cannot be empty"⟩
  else
    let ref : MonitorRef := ⟨selfID, targetID, m.nextRef⟩
    .ok (ref, { m with
      nextRef := m.nextRef + 1
      monitorsByTarget := add m.monitorsByTarget targetID ref
      monitorRefs := m.monitorRefs.insert ref targetID })

def demonitor (ref : MonitorRef) : LinkManager :=
  match m.monitorRefs.lookup ref with
  | none => m
  | some targetID =>
    { m with
      monitorRefs := m.monitorRefs.erase ref
      monitorsByTarget := remove m.monitorsByTarget targetID ref }

def peers (deploymentID : String) : Finset String := members m.links deploymentID

def references (deploymentID : String) : Finset MonitorRef :=
  members m.monitorsByTarget deploymentID

/-- An order in which `range` comes upon the keys of a map. -/
structure RangeOrder (α : Type*) where
  order : Finset α → List α
  keys : ∀ s, (order s : Multiset α) = s.val

/-- `NotifyExit`: the signals that it publishes, with their addresses. -/
def notifyExit {ε : Type*} (m : LinkManager) (ids : RangeOrder String)
    (refs : RangeOrder MonitorRef) (deploymentID : String)
    (state : DeploymentState) (err : ε) : List (String × ExitSignal ε) :=
  let signal : ExitSignal ε := ⟨deploymentID, state, err⟩
  let linked := ids.order (m.peers deploymentID)
  let monitorers := (refs.order (m.references deploymentID)).map (·.monitorerID)
  linked.map (fun id => (exitAddress id, signal)) ++
    monitorers.map (fun id => (exitAddress id, signal))

/-! ## Histories -/

/-- A successful call; a call of `Monitor` with the reference it returned. -/
inductive Event
  | link (selfID targetID : String)
  | unlink (selfID targetID : String)
  | monitor (ref : MonitorRef)
  | demonitor (ref : MonitorRef)

def step : Event → Option LinkManager
  | .link selfID targetID => (m.link selfID targetID).toOption
  | .unlink selfID targetID => some (m.unlink selfID targetID)
  | .monitor ref =>
    match m.monitor ref.monitorerID ref.targetID with
    | .ok (returned, m') => if returned = ref then some m' else none
    | .error _ => none
  | .demonitor ref => some (m.demonitor ref)

/-- The last `Link` of the pair is not followed by an `Unlink`. -/
def Linked (events : List Event) (a b : String) : Prop :=
  Since (fun e => e = .link a b ∨ e = .link b a) (fun e => e = .unlink a b ∨ e = .unlink b a) events

/-- `Monitor` has returned the reference and `Demonitor` has not got it
since. -/
def Live (events : List Event) (ref : MonitorRef) : Prop :=
  Since (· = .monitor ref) (· = .demonitor ref) events

def Event.returned : Event → Option MonitorRef
  | .monitor ref => some ref
  | _ => none

section Step

variable {m m' : LinkManager} {event : Event} {events : List Event}

inductive Writes (m : LinkManager) : Event → LinkManager → Prop
  | link {selfID targetID : String} (differ : selfID ≠ targetID) : Writes m (.link selfID targetID)
        { m with links := add (add m.links selfID targetID) targetID selfID }
  | unlink {selfID targetID : String} : Writes m (.unlink selfID targetID)
        { m with links := remove (remove m.links selfID targetID) targetID selfID }
  | monitor {ref : MonitorRef} (number : ref.ref = m.nextRef) : Writes m (.monitor ref) { m with
          nextRef := m.nextRef + 1
          monitorsByTarget := add m.monitorsByTarget ref.targetID ref
          monitorRefs := m.monitorRefs.insert ref ref.targetID }
  | stale {ref : MonitorRef} (unknown : m.monitorRefs.lookup ref = none) :
      Writes m (.demonitor ref) m
  | demonitor {ref : MonitorRef} {targetID : String}
      (known : m.monitorRefs.lookup ref = some targetID) :
      Writes m (.demonitor ref) { m with
          monitorRefs := m.monitorRefs.erase ref
          monitorsByTarget := remove m.monitorsByTarget targetID ref }

open LinkManager

theorem writes_of_step (h : m.step event = some m') : Writes m event m' := by
  cases event with
  | link =>
    simp only [step, link] at h
    split at h
    · cases h
    · split at h
      · cases h
      next hdiffer =>
        cases h
        exact .link hdiffer
  | unlink =>
    cases h
    exact .unlink
  | monitor =>
    simp only [step, monitor] at h
    split at h
    next hmonitor =>
      split at hmonitor
      · cases hmonitor
      · obtain ⟨rfl, rfl⟩ := Prod.mk.inj (Except.ok.inj hmonitor)
        split at h
        next href =>
          cases h
          rw [href]
          exact .monitor (by rw [← href])
        · cases h
    · cases h
  | demonitor =>
    cases h
    rw [demonitor]
    split
    next hunknown => exact .stale hunknown
    next hknown => exact .demonitor hknown

/-! ## The maps describe the history -/

/-- The map of links contains exactly the linked pairs. -/
structure LinksDescribed (events : List Event) (m : LinkManager) : Prop where
  linked : ∀ a b, b ∈ m.peers a ↔ Linked events a b
  irreflexive : ∀ a, a ∉ m.peers a
  noEmpty : NoEmpty m.links

theorem linked_append {a b : String} : Linked (events ++ [event]) a b ↔
    (event = .link a b ∨ event = .link b a) ∨
      Linked events a b ∧ ¬(event = .unlink a b ∨ event = .unlink b a) :=
  since_append_singleton

theorem Linked.symm {a b : String} (h : Linked events a b) : Linked events b a := by
  simpa only [Linked, or_comm] using h

theorem LinksDescribed.same (h : LinksDescribed events m) (hlinks : m'.links = m.links)
    (hlink : ∀ a b, event ≠ .link a b) (hunlink : ∀ a b, event ≠ .unlink a b) :
    LinksDescribed (events ++ [event]) m' := by
  constructor
  · intro a b
    rw [linked_append, peers, hlinks, ← peers, h.linked]
    simp [hlink, hunlink]
  · intro a
    rw [peers, hlinks]
    exact h.irreflexive a
  · rw [hlinks]
    exact h.noEmpty

theorem LinksDescribed.step (h : LinksDescribed events m) (hwrites : Writes m event m') :
    LinksDescribed (events ++ [event]) m' := by
  cases hwrites with
  | @link selfID targetID hdiffer =>
    constructor
    · intro a b
      rw [linked_append, ← h.linked, peers, mem_members_add, mem_members_add, peers]
      grind [Event.link.injEq]
    · intro a
      have hirreflexive := h.irreflexive a
      grind [peers, mem_members_add]
    · exact h.noEmpty.add.add
  | @unlink selfID targetID =>
    constructor
    · intro a b
      rw [linked_append, ← h.linked, peers, mem_members_remove, mem_members_remove, peers]
      grind [Event.unlink.injEq]
    · intro a
      have hirreflexive := h.irreflexive a
      grind [peers, mem_members_remove]
    · exact h.noEmpty.remove.remove
  | _ => exact h.same rfl (by simp) (by simp)

/-- Both maps of the monitors contain exactly the live references. -/
structure MonitorsDescribed (events : List Event) (m : LinkManager) : Prop where
  live : ∀ ref, m.monitorRefs.lookup ref = some ref.targetID ↔ Live events ref
  target : ∀ ref targetID, m.monitorRefs.lookup ref = some targetID → targetID = ref.targetID
  same : ∀ ref targetID, ref ∈ m.references targetID ↔ m.monitorRefs.lookup ref = some targetID
  noEmpty : NoEmpty m.monitorsByTarget

variable {ref : MonitorRef}

theorem live_append : Live (events ++ [event]) ref ↔
    event = .monitor ref ∨ Live events ref ∧ event ≠ .demonitor ref :=
  since_append_singleton

section

variable (h : MonitorsDescribed events m)

include h

theorem MonitorsDescribed.unchanged
    (htargets : m'.monitorsByTarget = m.monitorsByTarget) (hrefs : m'.monitorRefs = m.monitorRefs)
    (hevent : ∀ ref, Live (events ++ [event]) ref ↔ Live events ref) :
    MonitorsDescribed (events ++ [event]) m' := by
  constructor
  · intro ref
    rw [hevent, hrefs]
    exact h.live ref
  · rw [hrefs]
    exact h.target
  · intro ref targetID
    rw [references, htargets, hrefs]
    exact h.same ref targetID
  · rw [htargets]
    exact h.noEmpty

theorem MonitorsDescribed.monitor : MonitorsDescribed (events ++ [.monitor ref]) { m with
        nextRef := m.nextRef + 1
        monitorsByTarget := add m.monitorsByTarget ref.targetID ref
        monitorRefs := m.monitorRefs.insert ref ref.targetID } := by
  have hlookup : ∀ ref', (m.monitorRefs.insert ref ref.targetID).lookup ref' =
      if ref' = ref then some ref.targetID else m.monitorRefs.lookup ref' := by
    intro ref'
    split
    next heq => rw [heq, lookup_insert]
    next hne => rw [lookup_insert_ne hne]
  constructor
  · grind [live_append, live]
  · grind [target]
  · intro ref' targetID
    rw [references, mem_members_add, hlookup, ← references, h.same]
    have hold := h.target ref' targetID
    grind
  · exact h.noEmpty.add

theorem MonitorsDescribed.demonitor {targetID : String}
    (hknown : m.monitorRefs.lookup ref = some targetID) :
    MonitorsDescribed (events ++ [.demonitor ref]) { m with
        monitorRefs := m.monitorRefs.erase ref
        monitorsByTarget := remove m.monitorsByTarget targetID ref } := by
  have hlookup : ∀ ref', (m.monitorRefs.erase ref).lookup ref' =
      if ref' = ref then none else m.monitorRefs.lookup ref' := by
    intro ref'
    split
    next heq => rw [heq, lookup_erase]
    next hne => rw [lookup_erase_ne hne]
  constructor
  · grind [live_append, live]
  · grind [target]
  · intro ref' targetID'
    rw [references, mem_members_remove, hlookup, ← references, h.same]
    grind
  · exact h.noEmpty.remove

theorem MonitorsDescribed.step (hwrites : Writes m event m') :
    MonitorsDescribed (events ++ [event]) m' := by
  cases hwrites with
  | link | unlink => exact h.unchanged rfl rfl fun ref => by simp [live_append]
  | monitor => exact h.monitor
  | @stale ref hunknown =>
    refine h.unchanged rfl rfl fun ref' => ?_
    rw [live_append, ← h.live]
    simp only [reduceCtorEq, false_or, ne_eq, Event.demonitor.injEq, and_iff_left_iff_imp]
    rintro hlive rfl
    rw [hunknown] at hlive
    cases hlive
  | demonitor hknown => exact h.demonitor hknown

end

/-! ## The numbers of the references -/

def returned (events : List Event) : List MonitorRef := events.filterMap Event.returned

/-- The references are numbered from 1 on, modulo `2 ^ 64`. -/
structure Numbered (events : List Event) (m : LinkManager) : Prop where
  numbers : (returned events).map (·.ref) =
    (range (returned events).length).map fun i => UInt64.ofNat (i + 1)
  next : m.nextRef = UInt64.ofNat ((returned events).length + 1)

theorem Numbered.step (h : Numbered events m) (hwrites : Writes m event m') :
    Numbered (events ++ [event]) m' := by
  have hother : event.returned = none → returned (events ++ [event]) = returned events := by
    intro hnone
    simp [returned, hnone]
  cases hwrites with
  | link | unlink | stale | demonitor => exact ⟨hother rfl ▸ h.numbers, hother rfl ▸ h.next⟩
  | @monitor ref hnumber =>
    have hreturned : returned (events ++ [.monitor ref]) = returned events ++ [ref] := by
      simp [returned, Event.returned]
    constructor
    · rw [hreturned, map_append, h.numbers, length_append, length_singleton, range_succ, map_append,
        map_singleton, map_singleton, hnumber, h.next]
    · rw [hreturned, length_append, length_singleton]
      change m.nextRef + 1 = _
      rw [h.next]
      exact (UInt64.ofNat_add _ 1).symm

/-- Up to `2 ^ 64` calls of `Monitor` return different numbers. -/
theorem Numbered.nodup (h : Numbered events m) (hcount : (returned events).length ≤ 2 ^ 64) :
    ((returned events).map (·.ref)).Nodup := by
  rw [h.numbers]
  refine List.Nodup.map_on ?_ nodup_range
  intro i hi j hj hij
  rw [mem_range] at hi hj
  have hmod := congrArg UInt64.toNat hij
  rw [UInt64.toNat_ofNat', UInt64.toNat_ofNat'] at hmod
  omega

end Step

/-! ## Every history -/

structure Described (events : List Event) (m : LinkManager) : Prop where
  irreflexive : ∀ a, a ∉ m.peers a
  symmetric : ∀ a b, b ∈ m.peers a → a ∈ m.peers b
  linked : ∀ a b, b ∈ m.peers a ↔ Linked events a b
  noEmpty : NoEmpty m.links ∧ NoEmpty m.monitorsByTarget
  same : ∀ ref targetID, ref ∈ m.references targetID ↔ m.monitorRefs.lookup ref = some targetID
  live : ∀ ref, ref ∈ m.monitorRefs ↔ Live events ref
  distinct : m.monitorRefs.keys.Nodup
  numbers : (returned events).length ≤ 2 ^ 64 → ((returned events).map (·.ref)).Nodup

/-- One signal for each linked deployment and one for each live reference on the
deployment. -/
def SignalsExactly {ε : Type*} (events : List Event) (deploymentID : String)
    (signal : ExitSignal ε) (published : List (String × ExitSignal ε)) : Prop :=
  ∃ (linked : List String) (refs : List MonitorRef), linked.Nodup ∧ refs.Nodup ∧
    (∀ id, id ∈ linked ↔ Linked events deploymentID id) ∧
    (∀ ref, ref ∈ refs ↔ Live events ref ∧ ref.targetID = deploymentID) ∧
    published = linked.map (fun id => (exitAddress id, signal)) ++
      refs.map (fun ref => (exitAddress ref.monitorerID, signal))

theorem RangeOrder.nodup {α : Type*} (r : RangeOrder α) (s : Finset α) : (r.order s).Nodup := by
  rw [← Multiset.coe_nodup, r.keys]
  exact s.nodup

theorem RangeOrder.mem {α : Type*} (r : RangeOrder α) {s : Finset α} {a : α} :
    a ∈ r.order s ↔ a ∈ s := by
  rw [← Multiset.mem_coe, r.keys, Finset.mem_val]

open MonitorsDescribed

theorem described_of_run {events : List Event} {m : LinkManager}
    (hrun : Run step anyStep {} events m) :
    LinksDescribed events m ∧ MonitorsDescribed events m ∧ Numbered events m := by
  induction hrun with
  | nil =>
    refine ⟨⟨fun a b => ?_, fun a => ?_, fun _ _ h => (nomatch h)⟩,
      ⟨fun ref => ?_, fun _ _ h => (nomatch h), fun ref targetID => ?_,
        fun _ _ h => (nomatch h)⟩, ⟨rfl, rfl⟩⟩
    · exact iff_of_false (Finset.notMem_empty b) not_since_nil
    · exact Finset.notMem_empty a
    · exact iff_of_false (fun h => nomatch h) not_since_nil
    · exact iff_of_false (Finset.notMem_empty ref) fun h => nomatch h
  | snoc => grind [writes_of_step, LinksDescribed.step, MonitorsDescribed.step, Numbered.step]

/-- After every sequence of successful calls the maps describe the history, and
`NotifyExit` publishes the signals it calls for, in whatever order it meets the
keys. -/
theorem links_monitors_described {events : List Event} {m : LinkManager}
    (hrun : Run step anyStep {} events m) :
    Described events m ∧ ∀ {ε : Type} (ids : RangeOrder String) (refs : RangeOrder MonitorRef)
        (deploymentID : String) (state : DeploymentState) (err : ε),
        SignalsExactly events deploymentID ⟨deploymentID, state, err⟩
          (m.notifyExit ids refs deploymentID state err) := by
  obtain ⟨hlinks, hmonitors, hnumbered⟩ := described_of_run hrun
  have hlive : ∀ ref, ref ∈ m.monitorRefs ↔ Live events ref := by
    intro ref
    rw [← hmonitors.live, ← AList.lookup_isSome, Option.isSome_iff_exists]
    constructor
    · rintro ⟨targetID, htarget⟩
      rw [← hmonitors.target ref targetID htarget]
      exact htarget
    · intro htarget
      exact ⟨_, htarget⟩
  refine ⟨⟨hlinks.irreflexive, fun a b h => ?_, hlinks.linked,
    ⟨hlinks.noEmpty, hmonitors.noEmpty⟩, hmonitors.same, hlive,
    m.monitorRefs.keys_nodup, hnumbered.nodup⟩, fun ids refs deploymentID state err => ?_⟩
  · rw [hlinks.linked] at h ⊢
    exact h.symm
  · refine ⟨ids.order (m.peers deploymentID),
      refs.order (m.references deploymentID), ids.nodup _, refs.nodup _,
      fun id => ?_, fun ref => ?_, ?_⟩
    · rw [ids.mem, hlinks.linked]
    · rw [refs.mem, hmonitors.same, ← hmonitors.live]
      constructor
      · intro htarget
        have heq := hmonitors.target ref deploymentID htarget
        exact ⟨heq ▸ htarget, heq.symm⟩
      · rintro ⟨htarget, rfl⟩
        exact htarget
    · rw [notifyExit, List.map_map]
      rfl

/-- Two deployments that are linked, and one that monitors one of them. -/
theorem links_monitors_described_linked :
    ∃ m, Run step anyStep {} [.link "a" "b", .monitor ⟨"c", "a", 1⟩,
        .monitor ⟨"c", "a", 2⟩, .demonitor ⟨"c", "a", 1⟩] m ∧
      Described [.link "a" "b", .monitor ⟨"c", "a", 1⟩,
        .monitor ⟨"c", "a", 2⟩, .demonitor ⟨"c", "a", 1⟩] m ∧
      m.peers "a" = {"b"} ∧ m.references "a" = {⟨"c", "a", 2⟩} := by
  refine exists_run_of _
      (fun m => m.peers "a" = {"b"} ∧ m.references "a" = {⟨"c", "a", 2⟩}) (by decide +kernel) ?_
  rintro m hrun ⟨hpeers, hreferences⟩
  exact ⟨(links_monitors_described hrun).1, hpeers, hreferences⟩

end LinkManager

end Fluxor.Platform
