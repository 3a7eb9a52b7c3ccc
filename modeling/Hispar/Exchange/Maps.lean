import Hispar.Exchange.Composition
import Hispar.Exchange.Forwarding
import Hispar.VnhAssignment.Collect

/-!
# The maps of the exchange agree

Reading a configuration fills six maps between participants, ports and state
variables. A variable is named after its participant in upper case, so the maps
lead back to where they started only as long as no two participants have the
same name in upper case.
-/
namespace Hispar.Exchange
open Library VnhAssignment

def PeersConfigured (config : Dict String ParticipantConfig) : Prop :=
  ∀ kv ∈ config.items, ∀ Q ∈ kv.2.peers, Q ∈ config.keys

def ApartInUpper (upper : String → String) (config : Dict String ParticipantConfig) : Prop :=
  ∀ P ∈ config.keys, ∀ Q ∈ config.keys, upper P = upper Q → P = Q

/-- What the maps of a configuration are to say of one another. -/
structure MapsAgree (config : Dict String ParticipantConfig) (sdx : SDX) : Prop where
  owners : ∀ P ∈ config.keys, ∃ seen own, sdx.participant2Port.get? P = some seen ∧
    seen.get? P = some own ∧ ∀ i, sdx.port2Participant.get? i = some P ↔ i ∈ own
  configured : ∀ i P, sdx.port2Participant.get? i = some P → P ∈ config.keys
  fwdPeers : ∀ P c, config.get? P = some c → ∀ Q ∈ c.peers, ∃ seen first rest,
    sdx.participant2Port.get? P = some seen ∧ seen.get? Q = some (first :: rest) ∧
    getFwdPeer seen first = Q
  inVars : ∀ P ∈ config.keys, ∃ v, sdx.participantIdToInVar.get? P = some v ∧
    ∀ Q ∈ config.keys, sdx.participantIdToInVar.get? Q = some v → P = Q
  outVars : ∀ P c, config.get? P = some c → ∀ port ∈ c.ports, ∃ v,
    sdx.portIdToOutVar.get? port.id = some v ∧ sdx.outVarToPort.get? v = some port ∧
    ∀ Q ∈ config.keys, sdx.participantIdToInVar.get? Q ≠ some v

section maps
variable {upper : String → String} {config : Dict String ParticipantConfig} {sdx : SDX}

theorem addPeers_complete {vports : Dict String VirtualPort} {peers : List String}
    (h : ∀ Q ∈ peers, Q ∈ vports.keys) (acc : Dict String VirtualPort × Dict String (List ℕ)) :
    ∃ acc', peers.foldlM (addPeer vports) acc = some acc' := by
  have hone : ∀ acc, ∀ Q ∈ peers, True → ∃ acc', addPeer vports acc Q = some acc' ∧ True := by
    intro acc Q hQ _
    obtain ⟨vport, hvport⟩ := Dict.mem_keys_iff.mp (h Q hQ)
    exact ⟨_, by rw [addPeer, hvport, Option.map_some], trivial⟩
  obtain ⟨acc', hacc', -⟩ := Runs.foldlM_total (s := acc) hone trivial
  exact ⟨acc', hacc'⟩

theorem addPorts_complete (hports : ∀ kv ∈ config.items, kv.2.ports ≠ []) :
    ∃ acc, config.items.foldlM addPorts (SDX.init, .empty) = some acc := by
  have hone : ∀ acc, ∀ kv ∈ config.items, True → ∃ acc', addPorts acc kv = some acc' ∧ True := by
    intro acc kv hkv _
    obtain ⟨first, rest, hlist⟩ := List.exists_cons_of_ne_nil (hports kv hkv)
    exact ⟨_, by rw [addPorts, hlist]; rfl, trivial⟩
  obtain ⟨acc, hacc, -⟩ := Runs.foldlM_total (s := (SDX.init, Dict.empty)) hone trivial
  exact ⟨acc, hacc⟩

theorem sdxParseConfig_completes (upper : String → String)
    (hports : ∀ kv ∈ config.items, kv.2.ports ≠ []) (hpeers : PeersConfigured config) :
    ∃ sdx, sdxParseConfig upper config = some sdx := by
  obtain ⟨⟨first, vports⟩, hfirst⟩ := addPorts_complete hports
  have hown := addPorts_ownSeen hfirst
  have hportsOf := addPorts_portsOf hfirst
  -- the second loop finds what the first one wrote for each participant
  have hone : ∀ sdx : SDX, ∀ kv ∈ config.items, ((∀ kv' ∈ config.items,
      kv'.1 ∈ sdx.participant2Port.keys) ∧ sdx.sdxPorts = first.sdxPorts) →
      ∃ sdx', addConfigured upper vports sdx kv = some sdx' ∧ (∀ kv' ∈ config.items,
        kv'.1 ∈ sdx'.participant2Port.keys) ∧ sdx'.sdxPorts = first.sdxPorts := by
    rintro sdx kv hkv ⟨hkeys, hsame⟩
    obtain ⟨own, hown'⟩ := Dict.mem_keys_iff.mp (hkeys kv hkv)
    have hvports : ∀ Q ∈ kv.2.peers, Q ∈ vports.keys := fun Q hQ =>
      (hportsOf.vports Q).mpr (hpeers kv hkv Q hQ)
    obtain ⟨acc, hacc⟩ := addPeers_complete hvports (.empty, own)
    obtain ⟨-, port, -, hvport⟩ := hown kv hkv
    have hstored : sdx.sdxPorts.get? kv.1 = some kv.2.ports := by
      rw [hsame]
      exact hportsOf.ports kv hkv
    refine ⟨_, by rw [addConfigured, hown', Option.bind_some, hacc, Option.bind_some, hvport,
      Option.bind_some, hstored, Option.map_some], fun kv' hkv' => ?_, ?_⟩
    · rw [addParticipant_participant2Port, Dict.mem_keys_set]
      exact Or.inr (hkeys kv' hkv')
    · exact (addParticipant_frame upper _ _ _).2.trans hsame
  obtain ⟨sdx, hsdx, -⟩ := Runs.foldlM_total (s := first) hone
    ⟨fun kv hkv => Dict.mem_keys_iff.mpr ⟨_, (hown kv hkv).1⟩, rfl⟩
  exact ⟨sdx, by rw [sdxParseConfig, hfirst]; exact hsdx⟩

theorem addPorts_ownedBy {acc : SDX × Dict String VirtualPort}
    (h : config.items.foldlM addPorts (SDX.init, .empty) = some acc) {n : ℕ} {P : String}
    (hn : acc.1.port2Participant.get? n = some P) :
    ∃ kv ∈ config.items, kv.1 = P ∧ n ∈ kv.2.ports.map PhysicalPort.id := by
  refine Runs.foldlM_visited_invariant (Q := fun done acc =>
    ∀ n P, acc.1.port2Participant.get? n = some P → ∃ kv ∈ done, kv.1 = P ∧
      n ∈ kv.2.ports.map PhysicalPort.id) ?_ (fun n P hn => by cases hn) h n P hn
  intro done kv rest acc acc' hl hacc hstep n P hn
  obtain ⟨first, -, rfl⟩ := Option.map_eq_some_iff.mp hstep
  rw [get?_setOwner] at hn
  split_ifs at hn with hown
  · exact ⟨kv, List.mem_append_right _ (List.mem_singleton_self kv), Option.some.inj hn, hown⟩
  · obtain ⟨kv', hkv', hmem⟩ := hacc n P hn
    exact ⟨kv', List.mem_append_left _ hkv', hmem⟩

theorem sdxParseConfig_ownedBy (hids : DistinctPortIds config)
    (h : sdxParseConfig upper config = some sdx) {n : ℕ} {P : String}
    (hn : sdx.port2Participant.get? n = some P) :
    ∃ c, config.get? P = some c ∧ n ∈ c.ports.map PhysicalPort.id := by
  obtain ⟨⟨first, vports⟩, hfirst, h⟩ := Option.bind_eq_some_iff.mp h
  rw [(addConfigured_mapsOf hids (addPorts_portsOf hfirst) h).owners] at hn
  obtain ⟨kv, hkv, rfl, hown⟩ := addPorts_ownedBy hfirst hn
  exact ⟨kv.2, Dict.get?_eq_some.mpr hkv, hown⟩

theorem getFwdPeer_eq {peers : Dict String (List ℕ)} {ind : ℕ} {Q : String} {own : List ℕ}
    (hQ : peers.get? Q = some own) (hind : ind ∈ own)
    (hother : ∀ P seen, peers.get? P = some seen → ind ∈ seen → P = Q) :
    getFwdPeer peers ind = Q := by
  obtain ⟨kv, hkv⟩ : ∃ kv, peers.items.find? (fun kv => ind ∈ kv.2) = some kv :=
    Option.isSome_iff_exists.mp (List.find?_isSome.mpr
      ⟨(Q, own), Dict.get?_eq_some.mp hQ, decide_eq_true hind⟩)
  have hseen : ind ∈ kv.2 := by simpa using List.find?_some hkv
  rw [getFwdPeer, hkv, Option.map_some, Option.getD_some]
  exact hother kv.1 kv.2 (Dict.get?_eq_some.mpr (List.mem_of_find?_eq_some hkv)) hseen

theorem owner_of_seenPorts (hids : DistinctPortIds config) {P Q R : String} {c e : ParticipantConfig}
    (hc : config.get? P = some c) (he : config.get? Q = some e) {n : ℕ}
    (hn : n ∈ e.ports.map PhysicalPort.id) {seen : List ℕ}
    (hseen : seenPorts config P c R = some seen) (hmem : n ∈ seen) : R = Q := by
  have howner : ∀ f, config.get? R = some f → n ∈ f.ports.map PhysicalPort.id → R = Q :=
    fun f hf hnf => congrArg Prod.fst (hids.eq_of_mem (Dict.get?_eq_some.mp hf)
      (Dict.get?_eq_some.mp he) hnf hn)
  rw [seenPorts] at hseen
  split_ifs at hseen with hpeer hself
  · obtain ⟨f, hf, hseen⟩ := Option.bind_eq_some_iff.mp hseen
    obtain ⟨first, hfirst, rfl⟩ := Option.map_eq_some_iff.mp hseen
    refine howner f hf ?_
    rw [List.mem_singleton.mp hmem]
    exact List.mem_map_of_mem (List.mem_of_head? hfirst)
  · obtain rfl := hself
    obtain rfl := Option.some.inj hseen
    exact howner c hc hmem

def ExitsOf (upper : String → String) (done : List (String × ParticipantConfig)) (sdx : SDX) : Prop :=
  ∀ kv ∈ done, ∀ i port, kv.2.ports[i]? = some port →
    sdx.outVarToPort.get? (outVar upper kv.1 i) = some port

theorem addConfigured_exitsOf (hupper : ApartInUpper upper config) {first : SDX}
    {vports : Dict String VirtualPort} (hfirst : PortsOf config.items (first, vports))
    (h : config.items.foldlM (addConfigured upper vports) first = some sdx) :
    ExitsOf upper config.items sdx := by
  refine (Runs.foldlM_visited_invariant (Q := fun done sdx =>
    ExitsOf upper done sdx ∧ sdx.sdxPorts = first.sdxPorts) ?_
    ⟨fun kv hkv => absurd hkv List.not_mem_nil, rfl⟩ h).1
  rintro done kv rest sdx sdx' hl ⟨hsdx, hsame⟩ hstep
  obtain ⟨own, acc, vport, ports, -, -, hports, rfl⟩ := addConfigured_cases hstep
  have hkv : kv ∈ config.items := hl ▸ List.mem_append_right done List.mem_cons_self
  rw [hsame, hfirst.ports kv hkv] at hports
  obtain rfl := Option.some.inj hports
  refine ⟨fun kv' hkv' i port hport => ?_, (addParticipant_frame upper _ _ _).2.trans hsame⟩
  rw [addParticipant, (addPorts_fold upper _ _ _).2.2.2, Dict.get?_foldl_set]
  rcases List.mem_append.mp hkv' with hkv' | hkv'
  · -- the exits of an earlier participant have other names
    have hnone : Dict.lastValue (kv.2.ports.zipIdx.map fun port => (outVar upper kv.1 port.2, port.1))
        (outVar upper kv'.1 i) = none := by
      rw [Dict.lastValue_eq_none, List.map_map, List.mem_map]
      rintro ⟨⟨port', j⟩, -, he⟩
      have hmem' : kv' ∈ config.items := hl ▸ List.mem_append_left _ hkv'
      have hname := hupper kv.1 (List.mem_map_of_mem hkv) kv'.1 (List.mem_map_of_mem hmem')
        (outVar_injective he).1
      exact Dict.notMem_visited hl (hname ▸ List.mem_map_of_mem hkv')
    rw [hnone, Option.none_or]
    exact hsdx kv' hkv' i port hport
  · obtain rfl := List.mem_singleton.mp hkv'
    have hwritten : (outVar upper kv'.1 i, port) ∈ kv'.2.ports.zipIdx.map fun port =>
        (outVar upper kv'.1 port.2, port.1) :=
      List.mem_map.mpr ⟨(port, i), List.mem_zipIdx_iff_getElem?.mpr hport, rfl⟩
    rw [Dict.lastValue_of_mem (exitVars_nodup upper kv'.1 kv'.2.ports) hwritten, Option.some_or]

theorem sdxParseConfig_mapsAgree (hids : DistinctPortIds config)
    (hself : ∀ kv ∈ config.items, kv.1 ∉ kv.2.peers) (hupper : ApartInUpper upper config)
    (h : sdxParseConfig upper config = some sdx) : MapsAgree config sdx := by
  have hparsed := sdxParseConfig_parsed h
  have hmapped := sdxParseConfig_mapped hids h
  have hitem : ∀ {P c}, config.get? P = some c → (P, c) ∈ config.items := Dict.get?_eq_some.mp
  have hexits : ExitsOf upper config.items sdx := by
    obtain ⟨⟨first, vports⟩, hfirst, h⟩ := Option.bind_eq_some_iff.mp h
    exact addConfigured_exitsOf hupper (addPorts_portsOf hfirst) h
  refine ⟨fun P hP => ?_, fun i P hi => ?_, fun P c hc Q hQ => ?_, fun P hP => ?_,
    fun P c hc port hport => ?_⟩
  · obtain ⟨c, hc⟩ := Dict.mem_keys_iff.mp hP
    obtain ⟨seen, hseen, hports⟩ := sdxParseConfig_participant2Port h hc
    refine ⟨seen, c.ports.map PhysicalPort.id, hseen, ?_,
      fun i => ⟨fun hi => ?_, hmapped.owners P c hc i⟩⟩
    · rw [hports, seenPorts, if_neg (hself _ (hitem hc)), if_pos rfl]
    · obtain ⟨c', hc', hown⟩ := sdxParseConfig_ownedBy hids h hi
      obtain rfl := Option.some.inj (hc.symm.trans hc')
      exact hown
  · obtain ⟨c, hc, -⟩ := sdxParseConfig_ownedBy hids h hi
    exact Dict.mem_keys_iff.mpr ⟨c, hc⟩
  · obtain ⟨e, he⟩ := Dict.mem_keys_iff.mp (hparsed.peers P c hc Q hQ)
    obtain ⟨first, rest, hfirst⟩ := List.exists_cons_of_ne_nil (hmapped.ports Q e he)
    obtain ⟨seen, hseen, hports⟩ := sdxParseConfig_participant2Port h hc
    have hQseen : seen.get? Q = some [first.id] := by
      rw [hports, seenPorts, if_pos hQ, he, Option.bind_some, hfirst]
      rfl
    have hn : first.id ∈ e.ports.map PhysicalPort.id := by simp [hfirst]
    refine ⟨seen, first.id, [], hseen, hQseen, ?_⟩
    exact getFwdPeer_eq hQseen (List.mem_singleton_self _) fun R own hR hmem =>
      owner_of_seenPorts hids hc he hn (hports R ▸ hR) hmem
  · refine ⟨inVar upper P, hmapped.inVars P hP, fun Q hQ hv => hupper P hP Q hQ ?_⟩
    rw [hmapped.inVars Q hQ] at hv
    exact (inVar_injective (Option.some.inj hv)).symm
  · obtain ⟨i, hi⟩ := List.mem_iff_getElem?.mp hport
    refine ⟨outVar upper P i, hmapped.outVars P c i port hc hi, hexits _ (hitem hc) i port hi,
      fun Q hQ hv => ?_⟩
    rw [hmapped.inVars Q hQ] at hv
    exact inVar_ne_outVar Q P i (Option.some.inj hv)

theorem MapsAgree.apartInUpper (hids : DistinctPortIds config)
    (h : sdxParseConfig upper config = some sdx) (hagree : MapsAgree config sdx) :
    ApartInUpper upper config := by
  have hmapped := sdxParseConfig_mapped hids h
  intro P hP Q hQ hname
  obtain ⟨v, hv, hunique⟩ := hagree.inVars P hP
  have hsame : inVar upper Q = v := by
    rw [hmapped.inVars P hP] at hv
    rw [← Option.some.inj hv, inVar, inVar, hname]
  exact hunique Q hQ (hsame ▸ hmapped.inVars Q hQ)

/-- The maps of a configuration agree exactly if its peers are participants and no two names are
the same in upper case. -/
theorem mapsAgree_iff (upper : String → String) (hports : ∀ kv ∈ config.items, kv.2.ports ≠ [])
    (hids : DistinctPortIds config) (hself : ∀ kv ∈ config.items, kv.1 ∉ kv.2.peers) :
    (∃ sdx, sdxParseConfig upper config = some sdx ∧ MapsAgree config sdx) ↔
      PeersConfigured config ∧ ApartInUpper upper config := by
  constructor
  · rintro ⟨sdx, h, hagree⟩
    refine ⟨fun kv hkv Q hQ => ?_, hagree.apartInUpper hids h⟩
    exact (sdxParseConfig_parsed h).peers kv.1 kv.2 (Dict.get?_eq_some.mpr hkv) Q hQ
  · rintro ⟨hpeers, hupper⟩
    obtain ⟨sdx, h⟩ := sdxParseConfig_completes upper hports hpeers
    exact ⟨sdx, h, sdxParseConfig_mapsAgree hids hself hupper h⟩

end maps

def pairConfig (P Q : String) (hne : P ≠ Q) : Dict String ParticipantConfig :=
  ⟨[(P, ⟨[⟨1, "08:00:27:89:3b:9f", "172.0.0.1"⟩], [Q]⟩),
    (Q, ⟨[⟨2, "08:00:27:92:18:1f", "172.0.0.2"⟩], [P]⟩)], by simp [hne]⟩

theorem pairConfig_wellFormed {P Q : String} (hne : P ≠ Q) :
    (∀ kv ∈ (pairConfig P Q hne).items, kv.2.ports ≠ []) ∧ DistinctPortIds (pairConfig P Q hne) ∧
      (∀ kv ∈ (pairConfig P Q hne).items, kv.1 ∉ kv.2.peers) ∧
      PeersConfigured (pairConfig P Q hne) := by
  simp [pairConfig, DistinctPortIds, PeersConfigured, hne, hne.symm, Dict.keys]

def pairAB : Dict String ParticipantConfig := pairConfig "A" "B" (by decide)

theorem mapsAgree_iff_pairAB :
    (∃ sdx, sdxParseConfig asciiUpper pairAB = some sdx ∧ MapsAgree pairAB sdx) ↔
      PeersConfigured pairAB ∧ ApartInUpper asciiUpper pairAB := by
  have hne : "A" ≠ "B" := by decide
  obtain ⟨hports, hids, hself, -⟩ := pairConfig_wellFormed hne
  exact mapsAgree_iff asciiUpper hports hids hself

def pairAa : Dict String ParticipantConfig := pairConfig "A" "a" (by decide)

theorem mapsAgree_pairAa_aliased : (∀ kv ∈ pairAa.items, kv.2.ports ≠ []) ∧ DistinctPortIds pairAa ∧
    (∀ kv ∈ pairAa.items, kv.1 ∉ kv.2.peers) ∧ PeersConfigured pairAa ∧
    ¬ ∃ sdx, sdxParseConfig asciiUpper pairAa = some sdx ∧ MapsAgree pairAa sdx := by
  have hne : "A" ≠ "a" := by decide
  obtain ⟨hports, hids, hself, hpeers⟩ := pairConfig_wellFormed hne
  refine ⟨hports, hids, hself, hpeers, ?_⟩
  rintro ⟨sdx, h, hagree⟩
  exact hne (hagree.apartInUpper hids h "A" List.mem_cons_self "a"
    (List.mem_cons_of_mem _ List.mem_cons_self) rfl)

end Hispar.Exchange
