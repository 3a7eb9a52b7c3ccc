import Hispar.Bgp.LocalRoutes
import Hispar.Exchange.Config

/-!
# Routes as the policies see them

The default routes of a participant are looked up peer by peer, by the
addresses of the peer's ports, in a local table that was chosen among the
routes of all participants.
-/
namespace Hispar.Bgp
open Library Exchange

def addPortRoutes (localRib : Rib) (peerName : String) (bestRoutes : Dict String (List String))
    (port : PhysicalPort) : Dict String (List String) :=
  let routes := localRib.filterNextHop port.ip
  if routes.isEmpty then bestRoutes
  else bestRoutes.set peerName (((bestRoutes.get? peerName).getD []) ++ routes.map Row.pfx)

def addPeerRoutes (sdx : SDX) (localRib : Rib) (bestRoutes : Dict String (List String))
    (peerName : String) : Option (Dict String (List String)) :=
  (sdx.sdxPorts.get? peerName).map fun ports =>
    ports.foldl (addPortRoutes localRib peerName) bestRoutes

def bgpGetBestRoutes (sdx : SDX) (rsClients : Participants) (participantName : String) :
    Option (Dict String (List String)) :=
  (sdx.participants.get? participantName).bind fun participant =>
    (rsClients.get? participantName).bind fun rsClient =>
      participant.peers.keys.foldlM (addPeerRoutes sdx rsClient.localRib) .empty

def bgpGetAnnouncedRoutes (rsClients : Participants) (participantName : String) :
    Option (List String) :=
  (rsClients.get? participantName).map fun rsClient => rsClient.inputRib.map Row.pfx

def Listed (bestRoutes : Dict String (List String)) (Q p : String) : Prop :=
  ∃ l, bestRoutes.get? Q = some l ∧ p ∈ l

def LeadsTo (localRib : Rib) (ports : List PhysicalPort) (p : String) : Prop :=
  ∃ port ∈ ports, ∃ r ∈ localRib, r.nextHop = port.ip ∧ r.pfx = p

variable {sdx : SDX} {rib : Rib} {bestRoutes bestRoutes' : Dict String (List String)}
  {name Q p : String} {ports : List PhysicalPort}

theorem listed_addPortRoutes {port : PhysicalPort} :
    Listed (addPortRoutes rib name bestRoutes port) Q p ↔
      Listed bestRoutes Q p ∨ Q = name ∧ LeadsTo rib [port] p := by
  have hmem : p ∈ (rib.filterNextHop port.ip).map Row.pfx ↔ LeadsTo rib [port] p := by
    simp [LeadsTo, Rib.filterNextHop, and_assoc]
  simp only [addPortRoutes]
  split_ifs with hroutes
  · rw [List.isEmpty_iff.mp hroutes] at hmem
    simp [← hmem]
  · by_cases hQ : Q = name
    · subst hQ
      simp only [Listed, Dict.get?_set_self, Option.some.injEq, exists_eq_left', List.mem_append,
        hmem, true_and]
      refine or_congr_left ?_
      cases bestRoutes.get? Q <;> simp
    · simp only [Listed, Dict.get?_set_of_ne _ _ hQ, hQ, false_and, or_false]

theorem listed_ports : Listed (ports.foldl (addPortRoutes rib name) bestRoutes) Q p ↔
    Listed bestRoutes Q p ∨ Q = name ∧ LeadsTo rib ports p := by
  induction ports generalizing bestRoutes with
  | nil => simp [LeadsTo]
  | cons port ports ih =>
    rw [List.foldl_cons, ih, listed_addPortRoutes, or_assoc, ← and_or_left]
    simp [LeadsTo]

theorem listed_peers {peers : List String}
    (h : peers.foldlM (addPeerRoutes sdx rib) bestRoutes = some bestRoutes') :
    Listed bestRoutes' Q p ↔ Listed bestRoutes Q p ∨
      Q ∈ peers ∧ ∃ ports, sdx.sdxPorts.get? Q = some ports ∧ LeadsTo rib ports p := by
  induction peers generalizing bestRoutes with
  | nil =>
    obtain rfl := Option.some.inj h
    simp
  | cons name peers ih =>
    rw [List.foldlM_cons] at h
    obtain ⟨best₁, h₁, h⟩ := Option.bind_eq_some_iff.mp h
    obtain ⟨ports, hports, rfl⟩ := Option.map_eq_some_iff.mp h₁
    have hname : (Q = name ∧ LeadsTo rib ports p) ↔
        Q = name ∧ ∃ ports, sdx.sdxPorts.get? Q = some ports ∧ LeadsTo rib ports p := by
      refine and_congr_right fun hQ => ?_
      simp [hQ, hports]
    rw [ih h, listed_ports, hname, or_assoc, ← or_and_right, List.mem_cons]

section parsed
variable {config : Dict String ParticipantConfig} {rs : Participants}

def ListedUnder (sdx : SDX) (rs : Participants) (P p Q : String) : Prop :=
  ∃ bestRoutes, bgpGetBestRoutes sdx rs P = some bestRoutes ∧ Listed bestRoutes Q p

/-- Each route has the address of a port of its announcer as next hop. -/
def OwnNextHops (rs : Participants) : Prop := ∀ Q, ∀ r ∈ inputOf rs Q, r.nextHop ∈ ipsOf rs Q

def OwnPorts (config : Dict String ParticipantConfig) (rs : Participants) : Prop :=
  rs.keys = config.keys ∧
    ∀ Q, ipsOf rs Q = (config.get? Q).elim [] fun c => c.ports.map PhysicalPort.ip

def DistinctPortIPs (config : Dict String ParticipantConfig) : Prop :=
  (config.items.flatMap fun kv => kv.2.ports.map PhysicalPort.ip).Nodup

theorem DistinctPortIPs.owner_unique (h : DistinctPortIPs config) (hports : OwnPorts config rs)
    {R ip : String} (hQ : ip ∈ ipsOf rs Q) (hR : ip ∈ ipsOf rs R) : Q = R := by
  have hconf : ∀ Q, ip ∈ ipsOf rs Q →
      ∃ c, (Q, c) ∈ config.items ∧ ip ∈ c.ports.map PhysicalPort.ip := by
    intro Q hQ
    rw [hports.2] at hQ
    cases hc : config.get? Q with
    | none => simp [hc] at hQ
    | some c => exact ⟨c, Dict.get?_eq_some.mp hc, by simpa [hc] using hQ⟩
  obtain ⟨c, hc, hipc⟩ := hconf Q hQ
  obtain ⟨e, he, hipe⟩ := hconf R hR
  exact congrArg Prod.fst (Runs.eq_of_mem_of_nodup_flatMap h hc he hipc hipe)

theorem bgpGetBestRoutes_total (hparse : Parsed config sdx) (hkeys : rs.keys = config.keys)
    {P : String} (hP : P ∈ config.keys) : ∃ participant bestRoutes,
      sdx.participants.get? P = some participant ∧
      bgpGetBestRoutes sdx rs P = some bestRoutes ∧
      participant.peers.keys.foldlM (addPeerRoutes sdx (localOf rs P)) .empty = some bestRoutes := by
  obtain ⟨c, hc⟩ := Dict.mem_keys_iff.mp hP
  obtain ⟨participant, hpart, hconf⟩ := hparse.configured P c hc
  obtain ⟨peer, hpeer⟩ := Dict.mem_keys_iff.mp (hkeys ▸ hP : P ∈ rs.keys)
  obtain ⟨bestRoutes, hbest, -⟩ := Runs.foldlM_total (P := fun _ => True)
    (f := addPeerRoutes sdx peer.localRib) (l := participant.peers.keys)
    (fun best Q hQ _ => by
      have hQ : Q ∈ config.keys := hparse.peers P c hc Q ((hconf.peers Q).mp hQ)
      obtain ⟨e, he⟩ := Dict.mem_keys_iff.mp hQ
      exact ⟨_, by rw [addPeerRoutes, hparse.sdxPorts Q e he]; rfl, trivial⟩)
    (s := .empty) trivial
  refine ⟨participant, bestRoutes, hpart, ?_, ?_⟩
  · rw [bgpGetBestRoutes, hpart, Option.bind_some, hpeer, Option.bind_some, hbest]
  · rwa [localOf, hpeer, Option.elim_some]

theorem listedUnder_iff (hparse : Parsed config sdx) (hports : OwnPorts config rs) {P : String}
    {c : ParticipantConfig} (hc : config.get? P = some c) : ListedUnder sdx rs P p Q ↔
      Q ∈ c.peers ∧ ∃ r ∈ (localOf rs P).getAll p, r.nextHop ∈ ipsOf rs Q := by
  have hP := Dict.mem_keys_iff.mpr ⟨c, hc⟩
  obtain ⟨participant, bestRoutes, hpart, hbest, hfold⟩ := bgpGetBestRoutes_total hparse hports.1 hP
  obtain ⟨participant', hpart', hconf⟩ := hparse.configured P c hc
  obtain rfl := Option.some.inj (hpart.symm.trans hpart')
  have hlisted : ListedUnder sdx rs P p Q ↔ Listed bestRoutes Q p := by
    simp only [ListedUnder, hbest, Option.some.injEq, exists_eq_left']
  rw [hlisted, listed_peers hfold, hconf.peers]
  have hempty : ¬ Listed .empty Q p := fun ⟨_, hl, _⟩ => absurd hl nofun
  rw [or_iff_right hempty]
  refine and_congr_right fun hQ => ?_
  obtain ⟨e, he⟩ := Dict.mem_keys_iff.mp (hparse.peers P c hc Q hQ)
  rw [hports.2, he, Option.elim_some]
  simp only [hparse.sdxPorts Q e he, Option.some.injEq, exists_eq_left', LeadsTo, List.mem_map,
    Rib.mem_getAll]
  constructor
  · rintro ⟨port, hport, r, hr, hnext, rfl⟩
    exact ⟨r, ⟨hr, rfl⟩, port, hport, hnext.symm⟩
  · rintro ⟨r, ⟨hr, rfl⟩, port, hport, hnext⟩
    exact ⟨port, hport, r, hr, hnext.symm, rfl⟩

theorem listedUnder_unique_iff (hparse : Parsed config sdx) (hports : OwnPorts config rs)
    (hips : DistinctPortIPs config) (hnext : OwnNextHops rs) (hrs : Consistent rs) {P : String}
    {c : ParticipantConfig} (hc : config.get? P = some c) :
    (∃! Q, ListedUnder sdx rs P p Q) ↔ ∃ Q ∈ c.peers, ∃ best,
      bestPathSelection (othersRoutes rs P p) = some best ∧ best ∈ inputOf rs Q := by
  have hP : P ∈ rs.keys := hports.1 ▸ Dict.mem_keys_iff.mpr ⟨c, hc⟩
  obtain ⟨hnone, hsome⟩ := hrs.localOf_eq hP p
  have hiff : ∀ Q, ListedUnder sdx rs P p Q ↔ Q ∈ c.peers ∧ ∃ best,
      bestPathSelection (othersRoutes rs P p) = some best ∧ best ∈ inputOf rs Q := by
    intro Q
    rw [listedUnder_iff hparse hports hc]
    refine and_congr_right fun _ => ?_
    constructor
    · rintro ⟨r, hr, hrQ⟩
      obtain ⟨best, hbest, hrow⟩ := hsome fun e => by simp [hnone e] at hr
      obtain rfl := List.mem_singleton.mp (hrow ▸ hr)
      obtain ⟨R, -, -, hR, -⟩ := mem_othersRoutes (mem_of_bestPathSelection hbest)
      exact ⟨r, hbest, hips.owner_unique hports (hnext R r hR) hrQ ▸ hR⟩
    · rintro ⟨best, hbest, hQ⟩
      obtain ⟨best', hbest', hrow⟩ := hsome (ne_nil_of_bestPathSelection hbest)
      obtain rfl := Option.some.inj (hbest.symm.trans hbest')
      exact ⟨best, hrow ▸ List.mem_singleton_self best, hnext Q best hQ⟩
  constructor
  · rintro ⟨Q, hQ, -⟩
    obtain ⟨hpeer, hbest⟩ := (hiff Q).mp hQ
    exact ⟨Q, hpeer, hbest⟩
  · rintro ⟨Q, hpeer, best, hbest, hQ⟩
    refine ⟨Q, (hiff Q).mpr ⟨hpeer, best, hbest, hQ⟩, fun R hR => ?_⟩
    obtain ⟨-, best', hbest', hR⟩ := (hiff R).mp hR
    obtain rfl := Option.some.inj (hbest.symm.trans hbest')
    exact hips.owner_unique hports (hnext R best hR) (hnext Q best hQ)

theorem nodup_getParticipantsPortsList {upper : String → String}
    (hparse : sdxParseConfig upper config = some sdx) (hips : DistinctPortIPs config) :
    (getParticipantsPortsList sdx.participants).values.Nodup := by
  have hparsed := sdxParseConfig_parsed hparse
  rw [getParticipantsPortsList, Dict.values, Dict.mapValues, List.map_map]
  refine List.Nodup.map_on (fun kv hkv kw hkw hsame => ?_) (List.Nodup.of_map _ sdx.participants.nodup)
  have hconf : ∀ kv ∈ sdx.participants.items, ∃ c, (kv.1, c) ∈ config.items ∧
      kv.2.physPorts = c.ports ∧ ∃ first, c.ports.head? = some first := by
    intro kv hkv
    have hmem : kv.1 ∈ sdx.participants.keys := List.mem_map_of_mem hkv
    obtain ⟨c, hc⟩ := Dict.mem_keys_iff.mp (hparsed.keys ▸ hmem)
    obtain ⟨participant, hpart, hconf⟩ := hparsed.configured kv.1 c hc
    obtain rfl := Option.some.inj ((Dict.get?_eq_some.mpr hkv).symm.trans hpart)
    exact ⟨c, Dict.get?_eq_some.mp hc, hconf.physPorts, sdxParseConfig_ports hparse hc⟩
  obtain ⟨c, hc, hports, first, hfirst⟩ := hconf kv hkv
  obtain ⟨e, he, hports', -⟩ := hconf kw hkw
  simp only [Function.comp_apply, hports, hports'] at hsame
  have hip : first.ip ∈ c.ports.map PhysicalPort.ip := List.mem_map_of_mem (List.mem_of_head? hfirst)
  have hname : kv.1 = kw.1 := by
    have h := Runs.eq_of_mem_of_nodup_flatMap hips hc he hip (hsame ▸ hip)
    exact (Prod.mk.inj h).1
  have hvalue := Dict.get?_eq_some.mpr hkv
  rw [hname, Dict.get?_eq_some.mpr hkw] at hvalue
  exact Prod.ext hname (Option.some.inj hvalue).symm

def portsList {upper : String → String} (hparse : sdxParseConfig upper config = some sdx)
    (hips : DistinctPortIPs config) : PortsList :=
  ⟨getParticipantsPortsList sdx.participants, nodup_getParticipantsPortsList hparse hips⟩

theorem ownPorts_routeServer {upper : String → String} (h : sdxParseConfig upper config = some sdx)
    (hips : DistinctPortIPs config) : OwnPorts config (routeServer (portsList h hips)) := by
  have hparse := sdxParseConfig_parsed h
  constructor
  · have hkeys : (portsList h hips).keys = sdx.participants.keys := Dict.keys_mapValues _ _
    rw [routeServer, Dict.keys_mapValues, hkeys, hparse.keys]
  · intro Q
    have hget : (portsList h hips).get? Q = (sdx.participants.get? Q).map fun participant =>
        participant.physPorts.map PhysicalPort.ip := Dict.get?_mapValues _ _ _
    rw [(inputOf_routeServer _ Q).2.2, hget]
    cases hc : config.get? Q with
    | none =>
      have hnone : sdx.participants.get? Q = none := by
        rw [Dict.get?_eq_none, hparse.keys]
        exact Dict.get?_eq_none.mp hc
      rw [hnone]
      rfl
    | some c =>
      obtain ⟨participant, hpart, hconf⟩ := hparse.configured Q c hc
      rw [hpart, Option.map_some, Option.getD_some, Option.elim_some, hconf.physPorts]

def Message.AnnouncesOwn (config : Dict String ParticipantConfig) (msg : Message) : Prop :=
  ∀ n, msg.neighbor = some n → ∀ Q c, config.get? Q = some c →
    n.isFrom (c.ports.map PhysicalPort.ip) = true → ∀ r, n.Announces r →
      r.nextHop ∈ c.ports.map PhysicalPort.ip

theorem processAll_ownNextHops {msgs : List Message} (hports : OwnPorts config rs)
    (hmsgs : ∀ m ∈ msgs, m.IsUpdate ∧ m.AnnouncesOwn config) (hnext : OwnNextHops rs)
    {rs' : Participants} (h : processAll rs msgs = some rs') :
    OwnPorts config rs' ∧ OwnNextHops rs' := by
  refine Runs.foldlM_invariant (P := fun rs => OwnPorts config rs ∧ OwnNextHops rs) ?_
    ⟨hports, hnext⟩ h
  intro s s' m hm ⟨hports, hnext⟩ hstep
  obtain ⟨⟨_, items⟩, hproc, rfl⟩ := Option.map_eq_some_iff.mp hstep
  obtain ⟨⟨n, hn, hstate, -⟩, hown⟩ := hmsgs m hm
  have hp := processMessage_cases hn hstate hproc
  refine ⟨⟨hp.keys.trans hports.1, fun Q => (hp.ips Q).trans (hports.2 Q)⟩, fun Q r hr => ?_⟩
  rw [hp.ips]
  rcases hp.rows Q r hr with hr | ⟨hfrom, hr⟩
  · exact hnext Q r hr
  · cases hc : config.get? Q with
    | none =>
      rw [hports.2, hc] at hfrom
      cases hn' : n.ip <;> simp [Neighbor.isFrom, hn'] at hfrom
    | some c =>
      rw [hports.2, hc, Option.elim_some] at hfrom ⊢
      exact hown n hn Q c hc hfrom r hr

/-- After any updates a participant finds a prefix under exactly one peer if and only if
the best of the others' routes for it is a peer's. -/
theorem bgpGetBestRoutes_unique_iff {upper : String → String}
    (hparse : sdxParseConfig upper config = some sdx) (hips : DistinctPortIPs config)
    {msgs : List Message} (hmsgs : ∀ m ∈ msgs, m.IsUpdate ∧ m.AnnouncesOwn config)
    (hrun : processAll (routeServer (portsList hparse hips)) msgs = some rs)
    {P : String} {c : ParticipantConfig} (hc : config.get? P = some c) (p : String) :
    (∃! Q, ∃ bestRoutes, bgpGetBestRoutes sdx rs P = some bestRoutes ∧
        ∃ prefixes, bestRoutes.get? Q = some prefixes ∧ p ∈ prefixes) ↔
      ∃ Q ∈ c.peers, ∃ best,
        bestPathSelection (othersRoutes rs P p) = some best ∧ best ∈ inputOf rs Q := by
  have hparsed := sdxParseConfig_parsed hparse
  have hinit : OwnNextHops (routeServer (portsList hparse hips)) := by
    intro Q r hr
    rw [(inputOf_routeServer _ Q).1] at hr
    exact absurd hr List.not_mem_nil
  obtain ⟨hports, hnext⟩ := processAll_ownNextHops (ownPorts_routeServer hparse hips) hmsgs hinit hrun
  have hconsistent : Consistent rs := processAll_consistent (fun m hm => (hmsgs m hm).1)
    (consistent_routeServer _) hrun
  exact listedUnder_unique_iff hparsed hports hips hnext hconsistent hc

end parsed

def threeConfig : Dict String ParticipantConfig where
  items := [
    ("A", ⟨[⟨1, "08:00:27:89:3b:9f", "172.0.0.1"⟩], ["B"]⟩),
    ("B", ⟨[⟨2, "08:00:27:92:18:1f", "172.0.0.2"⟩], ["A"]⟩),
    ("C", ⟨[⟨3, "08:00:27:54:56:eb", "172.0.0.3"⟩], ["A", "B"]⟩)]
  nodup := by decide

def announceBC : List Message :=
  [announceFrom "172.0.0.2" [200, 400], announceFrom "172.0.0.3" [300]]

theorem announceFrom_announcesOwn (ip : String) (path : List ℕ)
    (config : Dict String ParticipantConfig) : (announceFrom ip path).AnnouncesOwn config := by
  intro n hn Q c _ hfrom r ⟨u, announce, hu, hannounce, kv, hkv, hrow⟩
  obtain rfl := Option.some.inj hn
  obtain rfl := Option.some.inj hu
  obtain rfl : Dict.single "10.0.0.0/8" ip = announce := by simpa using hannounce
  obtain rfl := List.mem_singleton.mp hkv
  rw [(announcedRow_pfx hrow).2]
  simpa [Neighbor.isFrom] using hfrom

theorem announceBC_updates : ∀ m ∈ announceBC, m.IsUpdate ∧ m.AnnouncesOwn threeConfig := by
  intro m hm
  rcases List.mem_cons.mp hm with rfl | hm
  · exact ⟨announceFrom_isUpdate _ _, announceFrom_announcesOwn _ _ _⟩
  · obtain rfl := List.mem_singleton.mp hm
    exact ⟨announceFrom_isUpdate _ _, announceFrom_announcesOwn _ _ _⟩

theorem distinct_threeConfig : DistinctPortIPs threeConfig := by
  unfold DistinctPortIPs
  decide

theorem announceBC_run : ∃ sdx rs, ∃ hsdx : sdxParseConfig id threeConfig = some sdx,
    processAll (routeServer (portsList hsdx distinct_threeConfig)) announceBC = some rs ∧
    bgpGetBestRoutes sdx rs "A" = some .empty ∧ (inputOf rs "B").getAll "10.0.0.0/8" ≠ [] := by
  have hrun : ((sdxParseConfig id threeConfig).bind fun sdx =>
      (processAll ((getParticipantsPortsList sdx.participants).mapValues fun _ ips => Peer.init ips)
        announceBC).map fun rs => (bgpGetBestRoutes sdx rs "A", ((inputOf rs "B").getAll "10.0.0.0/8").isEmpty)) =
      some (some .empty, false) := by decide
  obtain ⟨sdx, hsdx, h⟩ := Option.bind_eq_some_iff.mp hrun
  obtain ⟨rs, hrs, he⟩ := Option.map_eq_some_iff.mp h
  obtain ⟨hbest, hheld⟩ := Prod.mk.inj he
  exact ⟨sdx, rs, hsdx, hrs, hbest, List.isEmpty_eq_false_iff.mp hheld⟩

theorem bgpGetBestRoutes_unique_iff_announceBC : ∃ sdx rs,
    ∃ hsdx : sdxParseConfig id threeConfig = some sdx,
    processAll (routeServer (portsList hsdx distinct_threeConfig)) announceBC = some rs ∧
    ((∃! Q, ∃ bestRoutes, bgpGetBestRoutes sdx rs "A" = some bestRoutes ∧
        ∃ prefixes, bestRoutes.get? Q = some prefixes ∧ "10.0.0.0/8" ∈ prefixes) ↔
      ∃ Q ∈ ["B"], ∃ best, bestPathSelection (othersRoutes rs "A" "10.0.0.0/8") = some best ∧
        best ∈ inputOf rs Q) := by
  obtain ⟨sdx, rs, hsdx, hrs, -⟩ := announceBC_run
  exact ⟨sdx, rs, hsdx, hrs, bgpGetBestRoutes_unique_iff hsdx distinct_threeConfig
    announceBC_updates hrs (P := "A") (c := ⟨[⟨1, "08:00:27:89:3b:9f", "172.0.0.1"⟩], ["B"]⟩) rfl _⟩

theorem bgpGetBestRoutes_announceBC_none : DistinctPortIPs threeConfig ∧
    (∀ m ∈ announceBC, m.IsUpdate ∧ m.AnnouncesOwn threeConfig) ∧ ∃ sdx rs,
    ∃ hsdx : sdxParseConfig id threeConfig = some sdx,
    processAll (routeServer (portsList hsdx distinct_threeConfig)) announceBC = some rs ∧
    (∃ participant, sdx.participants.get? "A" = some participant ∧ "B" ∈ participant.peers.keys) ∧
    (inputOf rs "B").getAll "10.0.0.0/8" ≠ [] ∧
    ¬ ∃! Q, ∃ bestRoutes, bgpGetBestRoutes sdx rs "A" = some bestRoutes ∧
      ∃ prefixes, bestRoutes.get? Q = some prefixes ∧ "10.0.0.0/8" ∈ prefixes := by
  refine ⟨distinct_threeConfig, announceBC_updates, ?_⟩
  obtain ⟨sdx, rs, hsdx, hrs, hbest, hheld⟩ := announceBC_run
  obtain ⟨participant, hpart, hconf⟩ := (sdxParseConfig_parsed hsdx).configured "A" _ rfl
  refine ⟨sdx, rs, hsdx, hrs, ⟨participant, hpart, (hconf.peers "B").mpr ?_⟩, hheld, ?_⟩
  · exact List.mem_singleton_self "B"
  · rintro ⟨Q, ⟨bestRoutes, hbest', prefixes, hprefixes, -⟩, -⟩
    obtain rfl := Option.some.inj (hbest.symm.trans hbest')
    cases hprefixes

end Hispar.Bgp
