import Hispar.Exchange.Config
import Hispar.Exchange.Traces
import Hispar.Library.Texts

/-!
# Forwarding by state

A policy of a participant forwards a packet by setting its state: to an exit of
the participant, with the address of the port, or to the entrance of a peer.
-/
namespace Hispar.Exchange
open Library

inductive Port
  | physical (port : PhysicalPort)
  | virtual (vport : VirtualPort)

def exitMap (state mac : String) : Dict String Value :=
  ⟨[("state", .text state), ("dstmac", .text mac)], by simp⟩

def entranceMap (state : String) : Dict String Value := .single "state" (.text state)

def SDX.fwd (sdx : SDX) : Port → Option Policy
  | .physical port => (sdx.portIdToOutVar.get? port.id).map fun v => .modify (exitMap v port.mac)
  | .virtual vport => (sdx.participantIdToInVar.get? vport.participant).map fun v =>
      .modify (entranceMap v)

def SDX.Forwards (sdx : SDX) (participant : SDXParticipant) (policy : Policy) : Prop :=
  (∃ port ∈ participant.physPorts, sdx.fwd (.physical port) = some policy) ∨
    ∃ vport ∈ participant.peers.values, sdx.fwd (.virtual vport) = some policy

def DistinctPortIds (config : Dict String ParticipantConfig) : Prop :=
  (config.items.flatMap fun kv => kv.2.ports.map PhysicalPort.id).Nodup

instance (config : Dict String ParticipantConfig) : Decidable (DistinctPortIds config) :=
  inferInstanceAs (Decidable (config.items.flatMap fun kv => kv.2.ports.map PhysicalPort.id).Nodup)

section maps
variable {upper : String → String} {config : Dict String ParticipantConfig} {sdx : SDX}

theorem DistinctPortIds.nodup (h : DistinctPortIds config) {kv : String × ParticipantConfig}
    (hkv : kv ∈ config.items) : (kv.2.ports.map PhysicalPort.id).Nodup :=
  (List.nodup_flatMap.mp h).1 kv hkv

theorem DistinctPortIds.eq_of_mem (h : DistinctPortIds config) {kv kv' : String × ParticipantConfig}
    (hkv : kv ∈ config.items) (hkv' : kv' ∈ config.items) {n : ℕ}
    (hn : n ∈ kv.2.ports.map PhysicalPort.id) (hn' : n ∈ kv'.2.ports.map PhysicalPort.id) :
    kv = kv' :=
  Runs.eq_of_mem_of_nodup_flatMap h hkv hkv' hn hn'

theorem get?_setOwner (ports : List PhysicalPort) (name : String) (d : Dict ℕ String) (n : ℕ) :
    (ports.foldl (fun d port => d.set port.id name) d).get? n =
      if n ∈ ports.map PhysicalPort.id then some name else d.get? n := by
  induction ports generalizing d with
  | nil => rfl
  | cons port ports ih =>
    rw [List.foldl_cons, ih, Dict.get?_set]
    by_cases hport : n = port.id <;> simp [hport]

theorem addPorts_owners (hids : DistinctPortIds config) {acc : SDX × Dict String VirtualPort}
    (h : config.items.foldlM addPorts (SDX.init, .empty) = some acc) : ∀ kv ∈ config.items,
    ∀ n ∈ kv.2.ports.map PhysicalPort.id, acc.1.port2Participant.get? n = some kv.1 := by
  refine Runs.foldlM_visited_invariant (Q := fun done acc => ∀ kv ∈ done,
    ∀ n ∈ kv.2.ports.map PhysicalPort.id, acc.1.port2Participant.get? n = some kv.1) ?_
    (fun kv hkv => absurd hkv List.not_mem_nil) h
  intro done kv rest acc acc' hl hacc hstep kv' hkv' n hn
  obtain ⟨first, -, rfl⟩ := Option.map_eq_some_iff.mp hstep
  rw [get?_setOwner]
  by_cases hown : n ∈ kv.2.ports.map PhysicalPort.id
  · have hmem : kv' ∈ config.items := by
      rw [hl]
      exact List.mem_append.mpr ((List.mem_append.mp hkv').imp_right fun h => by simp_all)
    have hmem' : kv ∈ config.items := hl ▸ List.mem_append_right done List.mem_cons_self
    rw [if_pos hown, hids.eq_of_mem hmem hmem' hn hown]
  · rw [if_neg hown]
    refine hacc kv' ((List.mem_append.mp hkv').resolve_right fun h => hown ?_) n hn
    rwa [List.mem_singleton.mp h] at hn

theorem addParticipant_maps (upper : String → String) (sdx : SDX) (participant : SDXParticipant)
    (name : String) :
    (addParticipant upper sdx participant name).port2Participant = sdx.port2Participant ∧
    (addParticipant upper sdx participant name).participantIdToInVar =
      sdx.participantIdToInVar.set participant.id (inVar upper participant.id) ∧
    (addParticipant upper sdx participant name).portIdToOutVar =
      (participant.physPorts.zipIdx.map fun port =>
        (port.1.id, outVar upper participant.id port.2)).foldl
        (fun d kv => d.set kv.1 kv.2) sdx.portIdToOutVar := by
  have hfold : ∀ (ports : List (PhysicalPort × ℕ)) (sdx : SDX),
      (ports.foldl (addPort upper participant) sdx).port2Participant = sdx.port2Participant ∧
      (ports.foldl (addPort upper participant) sdx).portIdToOutVar =
        (ports.map fun port => (port.1.id, outVar upper participant.id port.2)).foldl
          (fun d kv => d.set kv.1 kv.2) sdx.portIdToOutVar := by
    intro ports
    induction ports with
    | nil => exact fun _ => ⟨rfl, rfl⟩
    | cons port ports ih => exact fun sdx => ih _
  obtain ⟨howners, hvars⟩ := hfold participant.physPorts.zipIdx { sdx with
    participants := sdx.participants.set name participant
    participantIdToInVar := sdx.participantIdToInVar.set participant.id (inVar upper participant.id) }
  exact ⟨howners, (addPorts_fold upper _ participant participant.physPorts.zipIdx).2.2.1, hvars⟩

structure MapsOf (upper : String → String) (first : SDX) (vports : Dict String VirtualPort)
    (done : List (String × ParticipantConfig)) (sdx : SDX) : Prop where
  sdxPorts : sdx.sdxPorts = first.sdxPorts
  owners : sdx.port2Participant = first.port2Participant
  outVars : ∀ kv ∈ done, ∀ i port, kv.2.ports[i]? = some port →
    sdx.portIdToOutVar.get? port.id = some (outVar upper kv.1 i)
  inVars : ∀ kv ∈ done, sdx.participantIdToInVar.get? kv.1 = some (inVar upper kv.1)
  peers : ∀ kv ∈ done, ∃ participant, sdx.participants.get? kv.1 = some participant ∧
    participant.physPorts = kv.2.ports ∧
    ∀ Q, participant.peers.get? Q = if Q ∈ kv.2.peers then vports.get? Q else none

theorem addConfigured_mapsOf (hids : DistinctPortIds config) {first : SDX}
    {vports : Dict String VirtualPort} (hfirst : PortsOf config.items (first, vports))
    (h : config.items.foldlM (addConfigured upper vports) first = some sdx) :
    MapsOf upper first vports config.items sdx := by
  refine Runs.foldlM_visited_invariant (Q := MapsOf upper first vports) ?_
    ⟨rfl, rfl, by simp, by simp, by simp⟩ h
  intro done kv rest sdx sdx' hl hsdx hstep
  obtain ⟨own, acc, vport, ports, -, hacc, hports, rfl⟩ := addConfigured_cases hstep
  have hmem : kv ∈ config.items := hl ▸ List.mem_append_right done List.mem_cons_self
  rw [hsdx.sdxPorts, hfirst.ports kv hmem] at hports
  obtain rfl := Option.some.inj hports
  obtain ⟨hpart, hsdxPorts⟩ := addParticipant_frame upper
    { sdx with participant2Port := sdx.participant2Port.set kv.1 acc.2 }
    ⟨kv.1, vport, kv.2.ports, acc.1⟩ kv.1
  obtain ⟨howners, hin, hout⟩ := addParticipant_maps upper
    { sdx with participant2Port := sdx.participant2Port.set kv.1 acc.2 }
    ⟨kv.1, vport, kv.2.ports, acc.1⟩ kv.1
  have hbefore : ∀ kv' ∈ done, kv'.1 ≠ kv.1 := fun kv' hkv' e =>
    Dict.notMem_visited hl (e ▸ List.mem_map_of_mem hkv')
  refine ⟨hsdxPorts.trans hsdx.sdxPorts, howners.trans hsdx.owners, fun kv' hkv' i port hport => ?_,
    fun kv' hkv' => ?_, fun kv' hkv' => ?_⟩
  · have hkeys : (kv.2.ports.zipIdx.map fun port => (port.1.id, outVar upper kv.1 port.2)).map
        Prod.fst = kv.2.ports.map PhysicalPort.id := by
      rw [List.map_map]
      exact (List.map_map (g := PhysicalPort.id) (f := Prod.fst)).symm.trans
        (by rw [List.zipIdx_map_fst])
    rw [hout, Dict.get?_foldl_set]
    rcases List.mem_append.mp hkv' with hkv' | hkv'
    · have hnone : Dict.lastValue (kv.2.ports.zipIdx.map fun port =>
          (port.1.id, outVar upper kv.1 port.2)) port.id = none := by
        rw [Dict.lastValue_eq_none, hkeys]
        intro hid
        have hmem' : kv' ∈ config.items := hl ▸ List.mem_append_left _ hkv'
        have hid' : port.id ∈ kv'.2.ports.map PhysicalPort.id :=
          List.mem_map_of_mem (List.mem_of_getElem? hport)
        exact hbefore kv' hkv' (congrArg Prod.fst (hids.eq_of_mem hmem' hmem hid' hid))
      rw [hnone, Option.none_or]
      exact hsdx.outVars kv' hkv' i port hport
    · obtain rfl := List.mem_singleton.mp hkv'
      have hwritten : (port.id, outVar upper kv'.1 i) ∈ kv'.2.ports.zipIdx.map fun port =>
          (port.1.id, outVar upper kv'.1 port.2) :=
        List.mem_map.mpr ⟨(port, i), List.mem_zipIdx_iff_getElem?.mpr hport, rfl⟩
      rw [Dict.lastValue_of_mem (hkeys ▸ hids.nodup hmem) hwritten, Option.some_or]
  · rw [hin]
    rcases List.mem_append.mp hkv' with hkv' | hkv'
    · rw [Dict.get?_set_of_ne _ _ (hbefore kv' hkv')]
      exact hsdx.inVars kv' hkv'
    · rw [List.mem_singleton.mp hkv', Dict.get?_set_self]
  · rw [hpart]
    rcases List.mem_append.mp hkv' with hkv' | hkv'
    · rw [Dict.get?_set_of_ne _ _ (hbefore kv' hkv')]
      exact hsdx.peers kv' hkv'
    · rw [List.mem_singleton.mp hkv', Dict.get?_set_self]
      exact ⟨_, rfl, rfl, fun Q => (addPeers_spec hacc).1 Q⟩

structure Mapped (upper : String → String) (config : Dict String ParticipantConfig) (sdx : SDX) :
    Prop where
  owners : ∀ Q e, config.get? Q = some e → ∀ n ∈ e.ports.map PhysicalPort.id,
    sdx.port2Participant.get? n = some Q
  outVars : ∀ Q e i port, config.get? Q = some e → e.ports[i]? = some port →
    sdx.portIdToOutVar.get? port.id = some (outVar upper Q i)
  inVars : ∀ Q ∈ config.keys, sdx.participantIdToInVar.get? Q = some (inVar upper Q)
  peers : ∀ Q e, config.get? Q = some e → ∃ participant, sdx.participants.get? Q = some participant ∧
    participant.physPorts = e.ports ∧ ∀ P, participant.peers.get? P = if P ∈ e.peers then
      (config.get? P).bind fun f => f.ports.head?.map fun first => ⟨P, first.id⟩ else none
  ports : ∀ Q e, config.get? Q = some e → e.ports ≠ []

theorem sdxParseConfig_mapped (hids : DistinctPortIds config)
    (h : sdxParseConfig upper config = some sdx) : Mapped upper config sdx := by
  obtain ⟨⟨first, vports⟩, hfirst, h⟩ := Option.bind_eq_some_iff.mp h
  have howners := addPorts_owners hids hfirst
  have hseen := addPorts_ownSeen hfirst
  have hports := addPorts_portsOf hfirst
  have hmaps := addConfigured_mapsOf hids hports h
  have hitem : ∀ {Q e}, config.get? Q = some e → (Q, e) ∈ config.items := Dict.get?_eq_some.mp
  have hvport : ∀ P, vports.get? P =
      (config.get? P).bind fun f => f.ports.head?.map fun first => ⟨P, first.id⟩ := by
    intro P
    cases hf : config.get? P with
    | none =>
      rw [Option.bind_none, Dict.get?_eq_none, hports.vports]
      exact Dict.get?_eq_none.mp hf
    | some f =>
      obtain ⟨-, port, hport, hv⟩ := hseen (P, f) (hitem hf)
      rw [Option.bind_some, hport]
      exact hv
  refine ⟨fun Q e he n hn => ?_, fun Q e i port he => hmaps.outVars (Q, e) (hitem he) i port,
    fun Q hQ => ?_, fun Q e he => ?_, fun Q e he hnil => ?_⟩
  · rw [hmaps.owners]
    exact howners (Q, e) (hitem he) n hn
  · obtain ⟨e, he⟩ := Dict.mem_keys_iff.mp hQ
    exact hmaps.inVars (Q, e) (hitem he)
  · obtain ⟨participant, hpart, hphys, hpeers⟩ := hmaps.peers (Q, e) (hitem he)
    exact ⟨participant, hpart, hphys, fun P => by rw [hpeers, hvport]⟩
  · obtain ⟨-, port, hport, -⟩ := hseen (Q, e) (hitem he)
    rw [show (Q, e).2.ports = [] from hnil] at hport
    exact absurd hport (by simp)

theorem SDX.forwards_iff (hparsed : Parsed config sdx) (hmapped : Mapped upper config sdx)
    {X : String} {c : ParticipantConfig} (hc : config.get? X = some c) {participant : SDXParticipant}
    (hpart : sdx.participants.get? X = some participant) {policy : Policy} :
    sdx.Forwards participant policy ↔
      (∃ i port, c.ports[i]? = some port ∧
        policy = .modify (exitMap (outVar upper X i) port.mac)) ∨
      ∃ P ∈ c.peers, policy = .modify (entranceMap (inVar upper P)) := by
  obtain ⟨participant', hpart', hphys, hpeers⟩ := hmapped.peers X c hc
  obtain rfl := Option.some.inj (hpart.symm.trans hpart')
  refine or_congr ?_ ?_
  · rw [hphys]
    constructor
    · rintro ⟨port, hport, hfwd⟩
      obtain ⟨i, hi⟩ := List.mem_iff_getElem?.mp hport
      rw [SDX.fwd, hmapped.outVars X c i port hc hi] at hfwd
      exact ⟨i, port, hi, (Option.some.inj hfwd).symm⟩
    · rintro ⟨i, port, hi, rfl⟩
      refine ⟨port, List.mem_of_getElem? hi, ?_⟩
      rw [SDX.fwd, hmapped.outVars X c i port hc hi, Option.map_some]
  · have hvalues : ∀ vport, vport ∈ participant.peers.values ↔
        ∃ P, participant.peers.get? P = some vport := by
      intro vport
      simp only [Dict.values, List.mem_map, Prod.exists, exists_eq_right, Dict.get?_eq_some]
    have hvport : ∀ P ∈ c.peers, ∃ id, participant.peers.get? P = some ⟨P, id⟩ := by
      intro P hP
      obtain ⟨e, he⟩ := Dict.mem_keys_iff.mp (hparsed.peers X c hc P hP)
      obtain ⟨first, rest, hports⟩ := List.exists_cons_of_ne_nil (hmapped.ports P e he)
      exact ⟨first.id, by rw [hpeers, if_pos hP, he, Option.bind_some, hports]; rfl⟩
    have hin : ∀ P ∈ c.peers, sdx.participantIdToInVar.get? P = some (inVar upper P) :=
      fun P hP => hmapped.inVars P (hparsed.peers X c hc P hP)
    constructor
    · rintro ⟨vport, hmem, hfwd⟩
      obtain ⟨P, hP⟩ := (hvalues vport).mp hmem
      have hpeer : P ∈ c.peers := by
        by_contra hnot
        rw [hpeers, if_neg hnot] at hP
        cases hP
      obtain ⟨id, hid⟩ := hvport P hpeer
      obtain rfl := Option.some.inj (hid.symm.trans hP)
      rw [SDX.fwd, hin P hpeer] at hfwd
      exact ⟨P, hpeer, (Option.some.inj hfwd).symm⟩
    · rintro ⟨P, hP, rfl⟩
      obtain ⟨id, hid⟩ := hvport P hP
      refine ⟨⟨P, id⟩, (hvalues _).mpr ⟨P, hid⟩, ?_⟩
      rw [SDX.fwd, hin P hP, Option.map_some]

end maps

section marks
variable {ρ : Type*} [DecidableEq ρ] (H : Header ρ)

/-- A packet, with the last `sdx.fwd` on its path, and the packet that this was given. -/
abbrev Marked (ρ : Type*) := Frame ρ × Option (Dict String Value × Frame ρ)

def markLeaf : Policy → PacketPolicy (Marked ρ)
  | .modify map => fun x =>
    {(x.1.writeAll H map, if "state" ∈ map.keys then some (map, x.1) else x.2)}
  | p => fun x => (p.eval H x.1).image fun out => (out, x.2)

def Policy.marked (p : Policy) (pkt : Frame ρ) : Finset (Marked ρ) :=
  p.trace (markLeaf H) (fun _ x => x) (pkt, none)

def Policy.forwarded (p : Policy) (pkt : Frame ρ) : Finset (Frame ρ) :=
  ((p.marked H pkt).filter fun x => x.2.isSome).image Prod.fst

section leaves
variable {H} {p : Policy}

theorem markLeaf_of_unmarked (h : ∀ map, p = .modify map → "state" ∉ map.keys) (x : Marked ρ) :
    markLeaf H p x = (p.eval H x.1).image fun out => (out, x.2) := by
  cases p with
  | modify map =>
    simp only [markLeaf, if_neg (h map rfl)]
    exact (Finset.image_singleton _ _).symm
  | _ => rfl

theorem markLeaf_of_marked {map : Dict String Value} (h : "state" ∈ map.keys) (x : Marked ρ) :
    markLeaf H (.modify map) x = {(x.1.writeAll H map, some (map, x.1))} := by
  simp only [markLeaf, if_pos h]

end leaves

theorem Policy.image_marked (p : Policy) (pkt : Frame ρ) :
    (p.marked H pkt).image Prod.fst = p.eval H pkt := by
  refine Policy.image_trace Prod.fst (fun p _ x => ?_) (fun _ _ => rfl) p (pkt, none)
  by_cases hmarked : ∃ map, p = .modify map ∧ "state" ∈ map.keys
  · obtain ⟨map, rfl, hstate⟩ := hmarked
    rw [markLeaf_of_marked hstate]
    rfl
  · rw [markLeaf_of_unmarked fun map hp hstate => hmarked ⟨map, hp, hstate⟩, Finset.image_image]
    exact Finset.image_id

theorem Policy.mem_forwarded {p : Policy} {pkt out : Frame ρ} :
    out ∈ p.forwarded H pkt ↔ ∃ map before, (out, some (map, before)) ∈ p.marked H pkt := by
  rw [Policy.forwarded, Finset.mem_image]
  constructor
  · rintro ⟨⟨out, mark⟩, hmem, rfl⟩
    obtain ⟨hmem, hmark⟩ := Finset.mem_filter.mp hmem
    obtain ⟨⟨map, before⟩, rfl⟩ := Option.isSome_iff_exists.mp hmark
    exact ⟨map, before, hmem⟩
  · rintro ⟨map, before, hmem⟩
    exact ⟨_, Finset.mem_filter.mpr ⟨hmem, rfl⟩, rfl⟩

end marks

def Ordinary : Policy → Prop
  | .modify map => "state" ∉ map.keys
  | .fwd _ => False
  | _ => True

/-- Policies in which an `sdx.fwd` is the last action of its chain. -/
inductive ForwardsLast (isFwd : Policy → Prop) : Policy → Prop
  | forward {p : Policy} (h : isFwd p) : ForwardsLast isFwd p
  | ordinary {p : Policy} (h : p.Leaves Ordinary) : ForwardsLast isFwd p
  | parallel {policies : List Policy} (h : ∀ p ∈ policies, ForwardsLast isFwd p) :
    ForwardsLast isFwd (.parallel policies)
  | sequential {init : List Policy} {last : Policy} (hinit : ∀ p ∈ init, p.Leaves Ordinary)
    (hlast : ForwardsLast isFwd last) : ForwardsLast isFwd (.sequential (init ++ [last]))
  | ifThenElse {pred t f : Policy} (hpred : pred.Leaves Ordinary) (ht : ForwardsLast isFwd t)
    (hf : ForwardsLast isFwd f) : ForwardsLast isFwd (.ifThenElse pred t f)

def Occurs (leaf p : Policy) : Prop := ¬ p.Leaves (· ≠ leaf)

section occurs
variable {leaf p pred t f : Policy} {policies : List Policy}

theorem occurs_leaf (h : p.IsLeaf) : Occurs leaf p ↔ leaf = p := by
  rw [Occurs, Policy.leaves_leaf h, not_ne_iff, eq_comm]

theorem occursList : ¬ Policy.LeavesList (· ≠ leaf) policies ↔ ∃ p ∈ policies, Occurs leaf p := by
  rw [Policy.leavesList_iff]
  simp only [Occurs, not_forall, exists_prop]

theorem occurs_parallel : Occurs leaf (.parallel policies) ↔ ∃ p ∈ policies, Occurs leaf p :=
  occursList

theorem occurs_sequential : Occurs leaf (.sequential policies) ↔ ∃ p ∈ policies, Occurs leaf p :=
  occursList

theorem occurs_ifThenElse :
    Occurs leaf (.ifThenElse pred t f) ↔ Occurs leaf pred ∨ Occurs leaf t ∨ Occurs leaf f := by
  simp only [Occurs, Policy.Leaves, not_and_or]

theorem leaves_iff_occurs {q : Policy → Prop} : p.Leaves q ↔ ∀ leaf, Occurs leaf p → q leaf := by
  have hmembers : ∀ policies : List Policy,
      (∀ p ∈ policies, p.Leaves q ↔ ∀ leaf, Occurs leaf p → q leaf) →
      (Policy.LeavesList q policies ↔ ∀ leaf, (∃ p ∈ policies, Occurs leaf p) → q leaf) := by
    intro policies h
    rw [Policy.leavesList_iff]
    constructor
    · rintro hall leaf ⟨p, hp, hleaf⟩
      exact (h p hp).mp (hall p hp) leaf hleaf
    · exact fun hall p hp => (h p hp).mpr fun leaf hleaf => hall leaf ⟨p, hp, hleaf⟩
  induction p using Policy.leafInduct with
  | leaf p hleaf =>
    simp only [Policy.leaves_leaf hleaf, occurs_leaf hleaf, forall_eq]
  | parallel policies ih =>
    simp only [occurs_parallel]
    exact hmembers policies ih
  | sequential policies ih =>
    simp only [occurs_sequential]
    exact hmembers policies ih
  | ifThenElse pred t f hpred ht hf =>
    simp only [occurs_ifThenElse, or_imp, forall_and, Policy.Leaves, hpred, ht, hf]

end occurs

section last
variable {ρ : Type*} [DecidableEq ρ] {H : Header ρ} {p : Policy} {pkt out : Frame ρ}

theorem mem_trace_ordinary (h : p.Leaves Ordinary) (x y : Marked ρ) :
    y ∈ p.trace (markLeaf H) (fun _ x => x) x ↔ y.1 ∈ p.eval H x.1 ∧ y.2 = x.2 := by
  induction p using Policy.leafInduct generalizing x y with
  | leaf p hleaf =>
    have hordinary := (Policy.leaves_leaf hleaf).mp h
    have hmark : ∀ map, p = .modify map → "state" ∉ map.keys := fun map hp => by
      rw [hp] at hordinary
      exact hordinary
    rw [Policy.trace_leaf hleaf, markLeaf_of_unmarked hmark]
    simp only [Finset.mem_image, Prod.ext_iff]
    constructor
    · rintro ⟨out, hout, h₁, h₂⟩
      exact ⟨h₁ ▸ hout, h₂.symm⟩
    · rintro ⟨hout, h₂⟩
      exact ⟨y.1, hout, rfl, h₂.symm⟩
  | parallel policies ih =>
    rw [Policy.mem_trace_parallel, Policy.mem_eval_parallel, ← exists_and_right]
    refine exists_congr fun p => ?_
    rw [and_assoc]
    exact and_congr_right fun hp => ih p hp (Policy.leavesList_iff.mp h p hp) x y
  | sequential policies ih =>
    induction policies generalizing x with
    | nil =>
      rw [Policy.trace_sequential_nil, Policy.eval_sequential_nil, Finset.mem_singleton,
        Finset.mem_singleton, Prod.ext_iff]
    | cons q policies ihps =>
      obtain ⟨hq, hrest⟩ := h
      have ihq := ih q List.mem_cons_self hq
      have ihrest := ihps (fun r hr => ih r (List.mem_cons_of_mem q hr)) hrest
      simp only [Policy.trace_sequential_cons, Policy.eval_sequential_cons, Finset.mem_biUnion, ihq,
        ihrest]
      constructor
      · rintro ⟨mid, ⟨hmid, hmark⟩, hy, hmark'⟩
        exact ⟨⟨mid.1, hmid, hy⟩, hmark'.trans hmark⟩
      · rintro ⟨⟨mid, hmid, hy⟩, hmark⟩
        exact ⟨(mid, x.2), ⟨hmid, rfl⟩, hy, hmark⟩
  | ifThenElse pred t f hpred ht hf =>
    obtain ⟨hp, ht', hf'⟩ := h
    have hempty : pred.trace (markLeaf H) (fun _ x => x) x = ∅ ↔ pred.eval H x.1 = ∅ := by
      simp only [Finset.eq_empty_iff_forall_notMem, hpred hp]
      exact ⟨fun h out hout => h (out, x.2) ⟨hout, rfl⟩, fun h y hy => h y.1 hy.1⟩
    rw [Policy.trace_ifThenElse, Policy.eval_ifThenElse]
    by_cases he : pred.eval H x.1 = ∅
    · rw [if_pos (hempty.mpr he), if_pos he]
      exact hf hf' x y
    · rw [if_neg (mt hempty.mp he), if_neg he]
      exact ht ht' x y

theorem mem_marked_ordinary (h : p.Leaves Ordinary) {y : Marked ρ} :
    y ∈ p.marked H pkt ↔ y.1 ∈ p.eval H pkt ∧ y.2 = none :=
  mem_trace_ordinary h (pkt, none) y

theorem marked_forward {map : Dict String Value} (h : "state" ∈ map.keys) :
    (Policy.modify map).marked H pkt = {(pkt.writeAll H map, some (map, pkt))} :=
  markLeaf_of_marked h (pkt, none)

theorem mem_marked_chain {init : List Policy} (h : ∀ p ∈ init, p.Leaves Ordinary) {y : Marked ρ} :
    y ∈ (Policy.sequential (init ++ [p])).marked H pkt ↔
      ∃ mid ∈ (Policy.sequential init).eval H pkt, y ∈ p.marked H mid := by
  have hinit : (Policy.sequential init).Leaves Ordinary := Policy.leavesList_iff.mpr h
  rw [Policy.marked, Policy.mem_trace_chain]
  constructor
  · rintro ⟨⟨mid, mark⟩, hmid, hy⟩
    obtain ⟨hmem, hmark⟩ := (mem_trace_ordinary hinit _ _).mp hmid
    obtain rfl : mark = none := hmark
    exact ⟨mid, hmem, hy⟩
  · rintro ⟨mid, hmid, hy⟩
    exact ⟨(mid, none), (mem_trace_ordinary hinit _ _).mpr ⟨hmid, rfl⟩, hy⟩

theorem marked_ifThenElse {pred t f : Policy} (h : pred.Leaves Ordinary) :
    (Policy.ifThenElse pred t f).marked H pkt =
      if pred.eval H pkt = ∅ then f.marked H pkt else t.marked H pkt := by
  have hempty : pred.trace (markLeaf H) (fun _ x => x) (pkt, none) = ∅ ↔ pred.eval H pkt = ∅ := by
    simp only [Finset.eq_empty_iff_forall_notMem, mem_trace_ordinary h]
    exact ⟨fun h out hout => h (out, none) ⟨hout, rfl⟩, fun h y hy => h y.1 hy.1⟩
  rw [Policy.marked, Policy.trace_ifThenElse]
  exact if_congr hempty rfl rfl

theorem ForwardsLast.produced {isFwd : Policy → Prop} (h : ForwardsLast isFwd p)
    (hfwd : ∀ q, isFwd q → ∃ map, q = .modify map ∧ "state" ∈ map.keys) {map : Dict String Value}
    {before : Frame ρ} (hmem : (out, some (map, before)) ∈ p.marked H pkt) :
    out = before.writeAll H map ∧ isFwd (.modify map) ∧ Occurs (.modify map) p := by
  induction h generalizing pkt with
  | forward hp =>
    obtain ⟨map', rfl, hstate⟩ := hfwd _ hp
    rw [marked_forward hstate, Finset.mem_singleton] at hmem
    cases hmem
    have hleaf : (Policy.modify map).IsLeaf := trivial
    exact ⟨rfl, hp, (occurs_leaf hleaf).mpr rfl⟩
  | ordinary hp => cases ((mem_marked_ordinary hp).mp hmem).2
  | parallel _ ih =>
    obtain ⟨p, hp, hmem⟩ := Policy.mem_trace_parallel.mp hmem
    obtain ⟨hout, hmap, hoccurs⟩ := ih p hp hmem
    exact ⟨hout, hmap, occurs_parallel.mpr ⟨p, hp, hoccurs⟩⟩
  | sequential hinit _ ih =>
    obtain ⟨mid, -, hmem⟩ := (mem_marked_chain hinit).mp hmem
    obtain ⟨hout, hmap, hoccurs⟩ := ih hmem
    exact ⟨hout, hmap, occurs_sequential.mpr ⟨_, List.mem_append_right _ List.mem_cons_self, hoccurs⟩⟩
  | ifThenElse hpred _ _ iht ihf =>
    rw [marked_ifThenElse hpred] at hmem
    split_ifs at hmem
    · obtain ⟨hout, hmap, hoccurs⟩ := ihf hmem
      exact ⟨hout, hmap, occurs_ifThenElse.mpr (Or.inr (Or.inr hoccurs))⟩
    · obtain ⟨hout, hmap, hoccurs⟩ := iht hmem
      exact ⟨hout, hmap, occurs_ifThenElse.mpr (Or.inr (Or.inl hoccurs))⟩

theorem ForwardsLast.leaves {isFwd : Policy → Prop} (h : ForwardsLast isFwd p)
    (hfwd : ∀ q, isFwd q → q.IsLeaf) : p.Leaves fun q => isFwd q ∨ Ordinary q := by
  have hordinary : ∀ q : Policy, q.Leaves Ordinary → q.Leaves fun q => isFwd q ∨ Ordinary q :=
    fun q hq => hq.imp fun _ => Or.inr
  induction h with
  | forward hp => exact (Policy.leaves_leaf (hfwd _ hp)).mpr (Or.inl hp)
  | ordinary hp => exact hordinary _ hp
  | parallel _ ih => exact Policy.leavesList_iff.mpr ih
  | sequential hinit _ ih =>
    refine Policy.leavesList_iff.mpr fun q hq => ?_
    rcases List.mem_append.mp hq with hq | hq
    · exact hordinary q (hinit q hq)
    · exact List.mem_singleton.mp hq ▸ ih
  | ifThenElse hpred _ _ iht ihf => exact ⟨hordinary _ hpred, iht, ihf⟩

end last
end Hispar.Exchange
