import Hispar.Library.Dictionary
import Hispar.Library.Runs

/-!
# The exchange and its configuration

A configuration lists the ports and the peers of each participant. Reading it
makes the port objects, the maps between ports, participants and state
variables, and the participant objects. Addresses are kept as their texts.
-/
namespace Hispar.Exchange
open Library

structure PhysicalPort where
  id : ℕ
  mac : String
  ip : String
  deriving DecidableEq

structure VirtualPort where
  participant : String
  id : ℕ
  deriving DecidableEq

structure SDXParticipant where
  id : String
  vport : VirtualPort
  physPorts : List PhysicalPort
  peers : Dict String VirtualPort
  deriving DecidableEq

structure SDX where
  participants : Dict String SDXParticipant
  sdxPorts : Dict String (List PhysicalPort)
  participantIdToInVar : Dict String String
  outVarToPort : Dict String PhysicalPort
  portIdToOutVar : Dict ℕ String
  participant2Port : Dict String (Dict String (List ℕ))
  port2Participant : Dict ℕ String
  deriving DecidableEq

def SDX.init : SDX := ⟨.empty, .empty, .empty, .empty, .empty, .empty, .empty⟩

section names
variable (upper : String → String)

def inVar (name : String) : String := "in" ++ upper name

def outVar (name : String) (i : ℕ) : String := "out" ++ upper name ++ "_" ++ toString i

def addPort (participant : SDXParticipant) (sdx : SDX) (port : PhysicalPort × ℕ) : SDX :=
  { sdx with
    portIdToOutVar := sdx.portIdToOutVar.set port.1.id (outVar upper participant.id port.2)
    outVarToPort := sdx.outVarToPort.set (outVar upper participant.id port.2) port.1 }

def addParticipant (sdx : SDX) (participant : SDXParticipant) (name : String) : SDX :=
  participant.physPorts.zipIdx.foldl (addPort upper participant) { sdx with
    participants := sdx.participants.set name participant
    participantIdToInVar :=
      sdx.participantIdToInVar.set participant.id (inVar upper participant.id) }

structure ParticipantConfig where
  ports : List PhysicalPort
  peers : List String

/-- The first loop: the ports of a participant, which needs one for its virtual port. -/
def addPorts (acc : SDX × Dict String VirtualPort) (kv : String × ParticipantConfig) :
    Option (SDX × Dict String VirtualPort) :=
  kv.2.ports.head?.map fun first =>
    ({ acc.1 with
        sdxPorts := acc.1.sdxPorts.set kv.1 kv.2.ports
        participant2Port := acc.1.participant2Port.set kv.1
          (.single kv.1 (kv.2.ports.map PhysicalPort.id))
        port2Participant := kv.2.ports.foldl (fun d port => d.set port.id kv.1)
          acc.1.port2Participant },
      acc.2.set kv.1 ⟨kv.1, first.id⟩)

def addPeer (vports : Dict String VirtualPort)
    (acc : Dict String VirtualPort × Dict String (List ℕ)) (peerName : String) :
    Option (Dict String VirtualPort × Dict String (List ℕ)) :=
  (vports.get? peerName).map fun vport =>
    (acc.1.set peerName vport, acc.2.set peerName [vport.id])

/-- The second loop: the peers of a participant, and the participant itself. -/
def addConfigured (vports : Dict String VirtualPort) (sdx : SDX) (kv : String × ParticipantConfig) :
    Option SDX :=
  (sdx.participant2Port.get? kv.1).bind fun own =>
    (kv.2.peers.foldlM (addPeer vports) (.empty, own)).bind fun acc =>
      (vports.get? kv.1).bind fun vport => (sdx.sdxPorts.get? kv.1).map fun ports =>
        addParticipant upper { sdx with participant2Port := sdx.participant2Port.set kv.1 acc.2 }
          ⟨kv.1, vport, ports, acc.1⟩ kv.1

def sdxParseConfig (sdxConfig : Dict String ParticipantConfig) : Option SDX :=
  (sdxConfig.items.foldlM addPorts (SDX.init, .empty)).bind fun acc =>
    sdxConfig.items.foldlM (addConfigured upper acc.2) acc.1

def getParticipantsPortsList (participants : Dict String SDXParticipant) :
    Dict String (List String) :=
  participants.mapValues fun _ participant => participant.physPorts.map PhysicalPort.ip

end names

section parsed
variable {upper : String → String} {config : Dict String ParticipantConfig} {sdx sdx' : SDX}

theorem addPorts_fold (upper : String → String) (sdx : SDX) (participant : SDXParticipant)
    (ports : List (PhysicalPort × ℕ)) :
    (ports.foldl (addPort upper participant) sdx).participants = sdx.participants ∧
      (ports.foldl (addPort upper participant) sdx).sdxPorts = sdx.sdxPorts ∧
      (ports.foldl (addPort upper participant) sdx).participantIdToInVar =
        sdx.participantIdToInVar ∧
      (ports.foldl (addPort upper participant) sdx).outVarToPort =
        (ports.map fun port => (outVar upper participant.id port.2, port.1)).foldl
          (fun d kv => d.set kv.1 kv.2) sdx.outVarToPort := by
  induction ports generalizing sdx with
  | nil => exact ⟨rfl, rfl, rfl, rfl⟩
  | cons port ports ih => exact ih _

theorem addParticipant_frame (upper : String → String) (sdx : SDX) (participant : SDXParticipant)
    (name : String) :
    (addParticipant upper sdx participant name).participants =
      sdx.participants.set name participant ∧
    (addParticipant upper sdx participant name).sdxPorts = sdx.sdxPorts :=
  let h := addPorts_fold upper _ participant participant.physPorts.zipIdx
  ⟨h.1, h.2.1⟩

structure PortsOf (done : List (String × ParticipantConfig)) (acc : SDX × Dict String VirtualPort) :
    Prop where
  participants : acc.1.participants = .empty
  ports : ∀ kv ∈ done, acc.1.sdxPorts.get? kv.1 = some kv.2.ports
  vports : ∀ name, name ∈ acc.2.keys ↔ name ∈ done.map Prod.fst

theorem addPorts_portsOf {acc : SDX × Dict String VirtualPort}
    (h : config.items.foldlM addPorts (SDX.init, .empty) = some acc) : PortsOf config.items acc := by
  refine Runs.foldlM_visited_invariant (Q := PortsOf) ?_
    ⟨rfl, by simp, by simp [Dict.keys, Dict.empty]⟩ h
  intro done kv rest acc acc' hl hacc hstep
  obtain ⟨first, -, rfl⟩ := Option.map_eq_some_iff.mp hstep
  refine ⟨hacc.participants, fun kv' hkv' => ?_, fun name => ?_⟩
  · rcases List.mem_append.mp hkv' with hkv' | hkv'
    · -- an earlier participant has another name
      have hne : kv'.1 ≠ kv.1 := fun e =>
        Dict.notMem_visited hl (e ▸ List.mem_map_of_mem hkv')
      rw [Dict.get?_set_of_ne _ _ hne]
      exact hacc.ports kv' hkv'
    · rw [List.mem_singleton.mp hkv', Dict.get?_set_self]
  · rw [Dict.mem_keys_set, hacc.vports, List.map_append, List.mem_append, or_comm]
    simp

structure Configured (name : String) (c : ParticipantConfig) (participant : SDXParticipant) : Prop where
  id : participant.id = name
  physPorts : participant.physPorts = c.ports
  peers : ∀ q, q ∈ participant.peers.keys ↔ q ∈ c.peers

theorem addPeers_spec {vports : Dict String VirtualPort} {peers : List String}
    {acc acc' : Dict String VirtualPort × Dict String (List ℕ)}
    (h : peers.foldlM (addPeer vports) acc = some acc') :
    (∀ Q, acc'.1.get? Q = if Q ∈ peers then vports.get? Q else acc.1.get? Q) ∧
    (∀ Q, acc'.2.get? Q = if Q ∈ peers then (vports.get? Q).map fun vport => [vport.id]
      else acc.2.get? Q) ∧ ∀ q ∈ peers, q ∈ vports.keys := by
  induction peers generalizing acc with
  | nil =>
    obtain rfl := Option.some.inj h
    simp
  | cons peerName peers ih =>
    rw [List.foldlM_cons] at h
    obtain ⟨acc₁, h₁, h⟩ := Option.bind_eq_some_iff.mp h
    obtain ⟨vport, hvport, rfl⟩ := Option.map_eq_some_iff.mp h₁
    obtain ⟨hports, hids, hmem⟩ := ih h
    refine ⟨fun Q => ?_, fun Q => ?_,
      List.forall_mem_cons.mpr ⟨Dict.mem_keys_iff.mpr ⟨vport, hvport⟩, hmem⟩⟩
    · rw [hports, Dict.get?_set]
      by_cases hQ : Q = peerName <;> simp [hQ, hvport]
    · rw [hids, Dict.get?_set]
      by_cases hQ : Q = peerName <;> simp [hQ, hvport]

theorem addConfigured_cases {vports : Dict String VirtualPort} {sdx sdx' : SDX}
    {kv : String × ParticipantConfig} (h : addConfigured upper vports sdx kv = some sdx') :
    ∃ own acc vport ports, sdx.participant2Port.get? kv.1 = some own ∧
      kv.2.peers.foldlM (addPeer vports) (.empty, own) = some acc ∧
      sdx.sdxPorts.get? kv.1 = some ports ∧ sdx' = addParticipant upper
        { sdx with participant2Port := sdx.participant2Port.set kv.1 acc.2 }
        ⟨kv.1, vport, ports, acc.1⟩ kv.1 := by
  obtain ⟨own, hown, h⟩ := Option.bind_eq_some_iff.mp h
  obtain ⟨acc, hacc, h⟩ := Option.bind_eq_some_iff.mp h
  obtain ⟨vport, -, h⟩ := Option.bind_eq_some_iff.mp h
  obtain ⟨ports, hports, rfl⟩ := Option.map_eq_some_iff.mp h
  exact ⟨own, acc, vport, ports, hown, hacc, hports, rfl⟩

structure ParticipantsOf (first : SDX) (vports : Dict String VirtualPort)
    (done : List (String × ParticipantConfig)) (sdx : SDX) : Prop where
  sdxPorts : sdx.sdxPorts = first.sdxPorts
  keys : sdx.participants.keys = done.map Prod.fst
  configured : ∀ kv ∈ done, ∃ participant, sdx.participants.get? kv.1 = some participant ∧
    Configured kv.1 kv.2 participant
  peers : ∀ kv ∈ done, ∀ q ∈ kv.2.peers, q ∈ vports.keys

theorem addConfigured_participantsOf {first : SDX} {vports : Dict String VirtualPort}
    (hfirst : PortsOf config.items (first, vports))
    (h : config.items.foldlM (addConfigured upper vports) first = some sdx) :
    ParticipantsOf first vports config.items sdx := by
  refine Runs.foldlM_visited_invariant (Q := ParticipantsOf first vports) ?_
    ⟨rfl, by rw [hfirst.participants]; rfl, by simp, by simp⟩ h
  intro done kv rest sdx sdx' hl hsdx hstep
  obtain ⟨own, acc, vport, ports, -, hacc, hports, rfl⟩ := addConfigured_cases hstep
  obtain ⟨hpart, hsdxPorts⟩ := addParticipant_frame upper
    { sdx with participant2Port := sdx.participant2Port.set kv.1 acc.2 }
    ⟨kv.1, vport, ports, acc.1⟩ kv.1
  obtain ⟨hget, -, hpeers⟩ := addPeers_spec hacc
  have hmem : kv ∈ config.items := hl ▸ List.mem_append_right done List.mem_cons_self
  have hnew := Dict.notMem_visited hl
  rw [hsdx.sdxPorts, hfirst.ports kv hmem] at hports
  obtain rfl := Option.some.inj hports
  refine ⟨hsdxPorts.trans hsdx.sdxPorts, ?_, fun kv' hkv' => ?_, fun kv' hkv' => ?_⟩
  · rw [hpart, Dict.keys_set_of_notMem (hsdx.keys ▸ hnew), hsdx.keys, List.map_append]
    rfl
  · rw [hpart]
    rcases List.mem_append.mp hkv' with hkv' | hkv'
    · have hne : kv'.1 ≠ kv.1 := fun e => hnew (e ▸ List.mem_map_of_mem hkv')
      rw [Dict.get?_set_of_ne _ _ hne]
      exact hsdx.configured kv' hkv'
    · rw [List.mem_singleton.mp hkv', Dict.get?_set_self]
      refine ⟨_, rfl, rfl, rfl, fun q => ?_⟩
      have hvport : ∀ h : q ∈ kv.2.peers, ∃ vport, vports.get? q = some vport := fun h =>
        Dict.mem_keys_iff.mp (hpeers q h)
      rw [Dict.mem_keys_iff, hget]
      by_cases hq : q ∈ kv.2.peers
      · simp [hq, hvport hq]
      · simp [hq]
  · rcases List.mem_append.mp hkv' with hkv' | hkv'
    · exact hsdx.peers kv' hkv'
    · exact List.mem_singleton.mp hkv' ▸ hpeers

structure Parsed (config : Dict String ParticipantConfig) (sdx : SDX) : Prop where
  keys : sdx.participants.keys = config.keys
  sdxPorts : ∀ name c, config.get? name = some c → sdx.sdxPorts.get? name = some c.ports
  configured : ∀ name c, config.get? name = some c → ∃ participant,
    sdx.participants.get? name = some participant ∧ Configured name c participant
  peers : ∀ name c, config.get? name = some c → ∀ q ∈ c.peers, q ∈ config.keys

theorem sdxParseConfig_parsed (h : sdxParseConfig upper config = some sdx) : Parsed config sdx := by
  obtain ⟨⟨first, vports⟩, hfirst, h⟩ := Option.bind_eq_some_iff.mp h
  have hports := addPorts_portsOf hfirst
  have hparts := addConfigured_participantsOf hports h
  refine ⟨hparts.keys, fun name c hc => ?_, fun name c hc => ?_, fun name c hc q hq => ?_⟩
  · rw [hparts.sdxPorts]
    exact hports.ports (name, c) (Dict.get?_eq_some.mp hc)
  · exact hparts.configured (name, c) (Dict.get?_eq_some.mp hc)
  · exact (hports.vports q).mp (hparts.peers (name, c) (Dict.get?_eq_some.mp hc) q hq)

def OwnSeen (acc : SDX × Dict String VirtualPort) (kv : String × ParticipantConfig) : Prop :=
  acc.1.participant2Port.get? kv.1 = some (.single kv.1 (kv.2.ports.map PhysicalPort.id)) ∧
    ∃ first, kv.2.ports.head? = some first ∧ acc.2.get? kv.1 = some ⟨kv.1, first.id⟩

theorem addPorts_ownSeen {acc : SDX × Dict String VirtualPort}
    (h : config.items.foldlM addPorts (SDX.init, .empty) = some acc) :
    ∀ kv ∈ config.items, OwnSeen acc kv := by
  refine Runs.foldlM_visited_invariant (Q := fun done acc => ∀ kv ∈ done, OwnSeen acc kv) ?_
    (fun kv hkv => absurd hkv List.not_mem_nil) h
  intro done kv rest acc acc' hl hacc hstep kv' hkv'
  obtain ⟨first, hfirst, rfl⟩ := Option.map_eq_some_iff.mp hstep
  rcases List.mem_append.mp hkv' with hkv' | hkv'
  · have hne : kv'.1 ≠ kv.1 := fun e => Dict.notMem_visited hl (e ▸ List.mem_map_of_mem hkv')
    obtain ⟨hown, first', hfirst', hvport⟩ := hacc kv' hkv'
    exact ⟨by rw [Dict.get?_set_of_ne _ _ hne, hown], first', hfirst',
      by rw [Dict.get?_set_of_ne _ _ hne, hvport]⟩
  · obtain rfl := List.mem_singleton.mp hkv'
    exact ⟨Dict.get?_set_self _ _ _, first, hfirst, Dict.get?_set_self _ _ _⟩

def seenPorts (config : Dict String ParticipantConfig) (name : String) (c : ParticipantConfig)
    (Q : String) : Option (List ℕ) :=
  if Q ∈ c.peers then (config.get? Q).bind fun e => e.ports.head?.map fun first => [first.id]
  else if Q = name then some (c.ports.map PhysicalPort.id) else none

theorem sdxParseConfig_ports (h : sdxParseConfig upper config = some sdx) {name : String}
    {c : ParticipantConfig} (hc : config.get? name = some c) :
    ∃ first, c.ports.head? = some first := by
  obtain ⟨acc, hfirst, -⟩ := Option.bind_eq_some_iff.mp h
  obtain ⟨-, first, hport, -⟩ := addPorts_ownSeen hfirst (name, c) (Dict.get?_eq_some.mp hc)
  exact ⟨first, hport⟩

theorem addParticipant_participant2Port (upper : String → String) (sdx : SDX)
    (participant : SDXParticipant) (name : String) :
    (addParticipant upper sdx participant name).participant2Port = sdx.participant2Port := by
  have hfold : ∀ (ports : List (PhysicalPort × ℕ)) (sdx : SDX),
      (ports.foldl (addPort upper participant) sdx).participant2Port = sdx.participant2Port := by
    intro ports
    induction ports with
    | nil => exact fun _ => rfl
    | cons port ports ih => exact fun sdx => ih _
  exact hfold _ _

theorem sdxParseConfig_participant2Port (h : sdxParseConfig upper config = some sdx)
    {name : String} {c : ParticipantConfig} (hc : config.get? name = some c) :
    ∃ peers, sdx.participant2Port.get? name = some peers ∧
      ∀ Q, peers.get? Q = seenPorts config name c Q := by
  obtain ⟨⟨first, vports⟩, hfirst, h⟩ := Option.bind_eq_some_iff.mp h
  have hown := addPorts_ownSeen hfirst
  have hports := addPorts_portsOf hfirst
  have hvport : ∀ Q, (vports.get? Q).map (fun vport => [vport.id]) =
      (config.get? Q).bind fun e => e.ports.head?.map fun first => [first.id] := by
    intro Q
    cases he : config.get? Q with
    | none =>
      have hnone : vports.get? Q = none := by
        rw [Dict.get?_eq_none, hports.vports]
        exact Dict.get?_eq_none.mp he
      rw [hnone]
      rfl
    | some e =>
      obtain ⟨-, port, hport, hv⟩ := hown (Q, e) (Dict.get?_eq_some.mp he)
      rw [hv, Option.bind_some, hport]
      rfl
  -- the second loop writes what a participant sees, and nothing about the others
  have hrun := @Runs.foldlM_visited_invariant _ _ (addConfigured upper vports) config.items
    (fun done sdx => ∀ kv ∈ config.items, ∃ peers, sdx.participant2Port.get? kv.1 = some peers ∧
      (kv ∉ done → peers = .single kv.1 (kv.2.ports.map PhysicalPort.id)) ∧
      (kv ∈ done → ∀ Q, peers.get? Q = seenPorts config kv.1 kv.2 Q)) ?_ first sdx ?_ h
  · obtain ⟨peers, hpeers, -, hseen⟩ := hrun (name, c) (Dict.get?_eq_some.mp hc)
    exact ⟨peers, hpeers, hseen (Dict.get?_eq_some.mp hc)⟩
  · intro done kv rest sdx sdx' hl hsdx hstep kv' hkv'
    obtain ⟨own, acc, vport, ports, hown, hacc, -, rfl⟩ := addConfigured_cases hstep
    have hkv : kv ∈ config.items := hl ▸ List.mem_append_right done List.mem_cons_self
    have hnew : kv ∉ done := fun hd => Dict.notMem_visited hl (List.mem_map_of_mem hd)
    obtain ⟨own', hown', hfresh, -⟩ := hsdx kv hkv
    obtain rfl : own = own' := Option.some.inj (hown.symm.trans hown')
    obtain rfl := hfresh hnew
    rw [addParticipant_participant2Port]
    by_cases hname : kv'.1 = kv.1
    · obtain rfl : kv' = kv := by
        have hv := Dict.get?_eq_some.mpr hkv'
        rw [hname, Dict.get?_eq_some.mpr hkv] at hv
        exact Prod.ext hname (Option.some.inj hv).symm
      refine ⟨acc.2, Dict.get?_set_self _ _ _, fun hd => absurd (by simp) hd, fun _ Q => ?_⟩
      rw [(addPeers_spec hacc).2.1, hvport, seenPorts, Dict.get?_single]
      simp only [eq_comm]
    · obtain ⟨peers, hpeers, h₁, h₂⟩ := hsdx kv' hkv'
      have hne : kv' ≠ kv := fun e => hname (congrArg Prod.fst e)
      refine ⟨peers, by rw [Dict.get?_set_of_ne _ _ hname, hpeers], fun hd => h₁ fun hd' => hd ?_,
        fun hd => h₂ ?_⟩
      · exact List.mem_append_left _ hd'
      · exact (List.mem_append.mp hd).resolve_right fun he => hne (List.mem_singleton.mp he)
  · exact fun kv hkv => ⟨_, (hown kv hkv).1, fun _ => rfl, fun hd => absurd hd List.not_mem_nil⟩

end parsed
end Hispar.Exchange
