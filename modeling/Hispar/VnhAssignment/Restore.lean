import Hispar.Exchange.Composition
import Hispar.VnhAssignment.StateRules

/-!
# What the two passes give back

A packet that is forwarded gets the port for its state, and from the table the
state for this port. The table reads any other packet too that carries one of
its ports, wherever this port comes from.
-/
namespace Hispar.VnhAssignment
open Library Exchange

section outport
variable {ρ : Type*} {H : Header ρ} {a b : Frame ρ}

def withoutOutport (pkt : Frame ρ) : Frame ρ := { pkt with outport := none }

theorem withoutOutport_inj : withoutOutport a = withoutOutport b ↔
    a.state = b.state ∧ a.dstmac = b.dstmac ∧ a.header = b.header := by
  simp [withoutOutport]

theorem withoutOutport_write (h : withoutOutport a = withoutOutport b) (field : String) (v : Value) :
    withoutOutport (a.write H field v) = withoutOutport (b.write H field v) := by
  rw [withoutOutport_inj] at h ⊢
  obtain ⟨hstate, hdstmac, hheader⟩ := h
  simp only [Frame.write]
  split_ifs
  · exact ⟨hstate, hdstmac, hheader⟩
  · exact ⟨rfl, hdstmac, hheader⟩
  · exact ⟨hstate, rfl, hheader⟩
  · exact ⟨hstate, hdstmac, by rw [hheader]⟩

theorem withoutOutport_writeAll (h : withoutOutport a = withoutOutport b) (map : Dict String Value) :
    withoutOutport (a.writeAll H map) = withoutOutport (b.writeAll H map) := by
  rw [Frame.writeAll, Frame.writeAll]
  induction map.items generalizing a b with
  | nil => exact h
  | cons kv items ih => exact ih (withoutOutport_write h kv.1 kv.2)

theorem withoutOutport_writeOutport (pkt : Frame ρ) (v : Value) :
    withoutOutport (pkt.write H "outport" v) = withoutOutport pkt := rfl

end outport

section restore
variable {upper : String → String} {config : Dict String ParticipantConfig} {sdx : Exchange.SDX}
  {X : String} {c : ParticipantConfig} {participant : SDXParticipant} {policy p q : Policy}

theorem labelled_iff {n : ℕ} {map : Dict String Value} : Labelled upper config X c policy n map ↔
    (∃ Q, Q ≠ X ∧ Enters upper c policy Q ∧ firstPort config Q = some n ∧
      map = entranceMap (inVar upper Q)) ∨
    (Exits upper X c policy ∨ Enters upper c policy X) ∧ ∃ i port, c.ports[i]? = some port ∧
      (X ∈ c.peers → i = 0) ∧ port.id = n ∧ map = exitMap (outVar upper X i) port.mac := by
  constructor
  · intro h
    cases h with
    | entrance hne henters hn => exact Or.inl ⟨_, hne, henters, hn, rfl⟩
    | exit hexits hi hpeer => exact Or.inr ⟨hexits, _, _, hi, hpeer, rfl, rfl⟩
  · rintro (⟨Q, hne, henters, hn, rfl⟩ | ⟨hexits, i, port, hi, hpeer, rfl, rfl⟩)
    · exact .entrance hne henters hn
    · exact .exit hexits hi hpeer

namespace Participating
variable (h : Participating upper config sdx X c participant)
include h

theorem labelled_unique {n : ℕ} {map map' : Dict String Value}
    (hmap : Labelled upper config X c policy n map) (hmap' : Labelled upper config X c policy n map') :
    map = map' := by
  rcases labelled_iff.mp hmap with ⟨Q, hne, -, hn, rfl⟩ | ⟨-, i, port, hi, -, rfl, rfl⟩
  · have howner := h.owner_firstPort hn
    rcases labelled_iff.mp hmap' with ⟨Q', -, -, hn', rfl⟩ | ⟨-, i, port, hi, -, rfl, rfl⟩
    · rw [Option.some.inj (howner.symm.trans (h.owner_firstPort hn'))]
    · exact absurd (Option.some.inj (howner.symm.trans (h.owner_port hi))) hne
  · rcases labelled_iff.mp hmap' with ⟨Q', hne', -, hn', rfl⟩ | ⟨-, i', port', hi', -, hid, rfl⟩
    · exact absurd (Option.some.inj ((h.owner_firstPort hn').symm.trans (h.owner_port hi))) hne'
    · have hnodup := h.ids.nodup (Dict.get?_eq_some.mp h.configured)
      have hlt : i < (c.ports.map PhysicalPort.id).length := by
        rw [List.length_map]
        exact (List.getElem?_eq_some_iff.mp hi).1
      have hsame : (c.ports.map PhysicalPort.id)[i]? = (c.ports.map PhysicalPort.id)[i']? := by
        rw [List.getElem?_map, List.getElem?_map, hi, hi', Option.map_some, Option.map_some, hid]
      obtain rfl := (List.getElem?_inj hlt hnodup).mp hsame
      obtain rfl := Option.some.inj (hi.symm.trans hi')
      rfl

end Participating

theorem Labelled.writes {n : ℕ} {map : Dict String Value}
    (h : Labelled upper config X c policy n map) {ρ : Type*} (H : Header ρ) (pkt : Frame ρ) :
    (pkt.writeAll H map).state = map.get? "state" := by
  cases h <;> rfl

theorem Labelled.exits {n i : ℕ} {map : Dict String Value}
    (h : Labelled upper config X c policy n map)
    (hstate : map.get? "state" = some (.text (outVar upper X i))) : X ∈ c.peers → i = 0 := by
  rcases labelled_iff.mp h with ⟨Q, -, -, -, rfl⟩ | ⟨-, j, port, -, hpeer, -, rfl⟩
  · exact absurd (Value.text.inj (Option.some.inj hstate)) (inVar_ne_outVar Q X i)
  · obtain ⟨-, rfl⟩ := outVar_injective (Value.text.inj (Option.some.inj hstate))
    exact hpeer

theorem Participating.labelled_entrances (h : Participating upper config sdx X c participant)
    (henters : ∀ Q, Enters upper c policy Q → Q ∈ c.peers) {n : ℕ} {map : Dict String Value}
    (hlabel : Labelled upper config X c policy n map) {P : String}
    (hstate : map.get? "state" = some (.text (inVar upper P))) :
    IsAscii (upper P) ∧ upper P ≠ X := by
  rcases labelled_iff.mp hlabel with ⟨Q, hne, henter, -, rfl⟩ | ⟨-, j, port, -, -, -, rfl⟩
  · obtain ⟨hascii, hvar, -⟩ := h.inVar_of_enters henter (henters Q henter)
    have hname : upper P = Q := by
      have hsame : inVar upper Q = inVar upper P := Value.text.inj (Option.some.inj hstate)
      rw [hvar, inVar] at hsame
      exact ((String.append_right_inj "in").mp hsame).symm
    exact hname ▸ ⟨hascii, hne⟩
  · exact absurd (Value.text.inj (Option.some.inj hstate)).symm (inVar_ne_outVar P X j)

section condition
variable {ρ : Type*} [DecidableEq ρ] (H : Header ρ) (pkt : Frame ρ)

def Reaches (policy : Policy) (map : Dict String Value) : Prop :=
  ∃ out before, (out, some (map, before)) ∈ policy.marked H pkt

variable (upper config X c policy)

/-- The names can be read as ASCII texts; where the packet is forwarded, the participant is not
taken for its own peer; and a packet that no `sdx.fwd` produced carries no port of the table,
unless what the table makes of it was forwarded as well. -/
structure Restorable : Prop where
  ascii : Exits upper X c policy → IsAscii X
  named : ∀ Q, Enters upper c policy Q → Q ∈ c.peers
  exits : ∀ i port, c.ports[i]? = some port →
    Reaches H pkt policy (exitMap (outVar upper X i) port.mac) → X ∈ c.peers → i = 0
  entrances : ∀ P ∈ c.peers, Reaches H pkt policy (entranceMap (inVar upper P)) →
    IsAscii (upper P) ∧ upper P ≠ X
  unforwarded : ∀ out n map, (out, none) ∈ policy.marked H pkt → out.outport = some (.num n) →
    Labelled upper config X c policy n map →
    ∃ y ∈ policy.forwarded H pkt, withoutOutport y = withoutOutport (out.writeAll H map)

end condition

section passes
variable {ρ : Type*} [DecidableEq ρ] {H : Header ρ} {pkt y : Frame ρ}

theorem Participating.mem_restored (h : Participating upper config sdx X c participant)
    (hpolicy : ForwardsLast (sdx.Forwards participant) policy)
    (hp : preVNH sdx X participant policy = some p) (hq : Relabels upper config X c policy H p q) :
    y ∈ (q.eval H pkt).image withoutOutport ↔
      (∃ out n map, (out, none) ∈ policy.marked H pkt ∧ out.outport = some (.num n) ∧
        Labelled upper config X c policy n map ∧ withoutOutport (out.writeAll H map) = y) ∨
      ∃ out map before n map', (out, some (map, before)) ∈ policy.marked H pkt ∧
        preVNHLeaf sdx X participant (.modify map) = some (.fwd n) ∧
        Labelled upper config X c policy n map' ∧
        withoutOutport (before.writeAll H map') = y := by
  simp only [Finset.mem_image, hq pkt, mem_eval_preVNH hpolicy h.marked_of_forwards hp]
  constructor
  · rintro ⟨_, ⟨mid, hmid | ⟨out, map, before, n, hmem, hn, rfl⟩, m, map', hlabel, hport, rfl⟩, rfl⟩
    · exact Or.inl ⟨mid, m, map', hmid, hport, hlabel, rfl⟩
    · obtain rfl : n = m := Value.num.inj (Option.some.inj hport)
      exact Or.inr ⟨out, map, before, n, map', hmem, hn, hlabel,
        (withoutOutport_writeAll (withoutOutport_writeOutport before (.num n)) map').symm⟩
  · rintro (⟨out, n, map, hmem, hport, hlabel, rfl⟩ |
      ⟨out, map, before, n, map', hmem, hn, hlabel, rfl⟩)
    · exact ⟨_, ⟨out, Or.inl hmem, n, map, hlabel, hport, rfl⟩, rfl⟩
    · exact ⟨_, ⟨_, Or.inr ⟨out, map, before, n, hmem, hn, rfl⟩, n, map', hlabel, rfl, rfl⟩,
        withoutOutport_writeAll (withoutOutport_writeOutport before (.num n)) map'⟩

theorem Participating.labelled_of_reaches (h : Participating upper config sdx X c participant)
    (hpolicy : ForwardsLast (sdx.Forwards participant) policy)
    (hr : Restorable upper config X c policy H pkt) {map : Dict String Value}
    (hreach : Reaches H pkt policy map) :
    ∃ n, preVNHLeaf sdx X participant (.modify map) = some (.fwd n) ∧
      Labelled upper config X c policy n map := by
  obtain ⟨out, before, hmem⟩ := hreach
  obtain ⟨-, hfwd, hoccurs⟩ := hpolicy.produced h.marked_of_forwards hmem
  rcases h.forwards_iff.mp hfwd with ⟨i, port, hi, hmap⟩ | ⟨P, hP, hmap⟩
  · obtain rfl := Policy.modify.inj hmap
    have hexits : Exits upper X c policy := ⟨i, port, hi, hoccurs⟩
    refine ⟨port.id, ?_, .exit (Or.inl hexits) hi (hr.exits i port hi ⟨out, before, hmem⟩)⟩
    rw [h.preVNHLeaf_exit hi, if_pos (hr.ascii hexits)]
  · obtain rfl := Policy.modify.inj hmap
    obtain ⟨hascii, hne⟩ := hr.entrances P hP ⟨out, before, hmem⟩
    have hread : asciiIgnore (upper P) = upper P := asciiIgnore_of_isAscii hascii
    have henters : Enters upper c policy (upper P) := ⟨P, hP, hread, hoccurs⟩
    have hpeer := hr.named _ henters
    obtain ⟨n, hn⟩ := h.firstPort_isSome hpeer
    have hvar : inVar upper (upper P) = inVar upper P := (h.inVar_of_enters henters hpeer).2.1
    refine ⟨n, ?_, hvar ▸ .entrance hne henters hn⟩
    rw [h.preVNHLeaf_entrance, hread, if_pos hpeer, hn, Option.map_some]

theorem Participating.labelled_of_restored (h : Participating upper config sdx X c participant)
    (hpolicy : ForwardsLast (sdx.Forwards participant) policy)
    (hp : preVNH sdx X participant policy = some p) (hq : Relabels upper config X c policy H p q)
    (heq : (q.eval H pkt).image withoutOutport = (policy.forwarded H pkt).image withoutOutport)
    {map : Dict String Value} (hreach : Reaches H pkt policy map) {s : Value}
    (hs : ∀ pkt : Frame ρ, (pkt.writeAll H map).state = some s) :
    ∃ n map', Labelled upper config X c policy n map' ∧ map'.get? "state" = some s := by
  obtain ⟨out, before, hmem⟩ := hreach
  obtain ⟨rfl, -, -⟩ := hpolicy.produced h.marked_of_forwards hmem
  have hy := Finset.mem_image_of_mem withoutOutport
    ((Policy.mem_forwarded H).mpr ⟨map, before, hmem⟩)
  rw [← heq, h.mem_restored hpolicy hp hq] at hy
  have hstate : ∀ (mid : Frame ρ) {n : ℕ} {map' : Dict String Value},
      Labelled upper config X c policy n map' →
      withoutOutport (mid.writeAll H map') = withoutOutport (before.writeAll H map) →
      map'.get? "state" = some s := by
    intro mid n map' hlabel hsame
    rw [← hlabel.writes H mid, (withoutOutport_inj.mp hsame).1, hs before]
  rcases hy with ⟨out, n, map', -, -, hlabel, hsame⟩ | ⟨-, -, mid, n, map', -, -, hlabel, hsame⟩
  · exact ⟨n, map', hlabel, hstate out hlabel hsame⟩
  · exact ⟨n, map', hlabel, hstate mid hlabel hsame⟩

theorem Participating.restorable (h : Participating upper config sdx X c participant)
    (hpolicy : ForwardsLast (sdx.Forwards participant) policy)
    (hp : preVNH sdx X participant policy = some p) (hq : Relabels upper config X c policy H p q)
    (heq : (q.eval H pkt).image withoutOutport = (policy.forwarded H pkt).image withoutOutport) :
    Restorable upper config X c policy H pkt := by
  obtain ⟨hascii, hnamed⟩ := (h.preVNH_completes_iff hpolicy).mp ⟨p, hp⟩
  refine ⟨hascii, hnamed, fun i port _ hreach => ?_, fun P _ hreach => ?_,
    fun out n map hout hport hlabel => ?_⟩
  · obtain ⟨n, map', hlabel, hstate⟩ := h.labelled_of_restored hpolicy hp hq heq hreach fun _ => rfl
    exact hlabel.exits hstate
  · obtain ⟨n, map', hlabel, hstate⟩ := h.labelled_of_restored hpolicy hp hq heq hreach fun _ => rfl
    exact h.labelled_entrances hnamed hlabel hstate
  · have hy := (h.mem_restored hpolicy hp hq).mpr (Or.inl ⟨out, n, map, hout, hport, hlabel, rfl⟩)
    rw [heq] at hy
    exact Finset.mem_image.mp hy

theorem Participating.restored (h : Participating upper config sdx X c participant)
    (hpolicy : ForwardsLast (sdx.Forwards participant) policy)
    (hp : preVNH sdx X participant policy = some p) (hq : Relabels upper config X c policy H p q)
    (hr : Restorable upper config X c policy H pkt) :
    (q.eval H pkt).image withoutOutport = (policy.forwarded H pkt).image withoutOutport := by
  ext y
  rw [h.mem_restored hpolicy hp hq, Finset.mem_image]
  constructor
  · rintro (⟨out, n, map, hout, hport, hlabel, rfl⟩ |
      ⟨out, map, before, n, map', hmem, hn, hlabel, rfl⟩)
    · exact hr.unforwarded out n map hout hport hlabel
    · obtain ⟨m, hm, hown⟩ := h.labelled_of_reaches hpolicy hr ⟨out, before, hmem⟩
      obtain rfl := Policy.fwd.inj (Option.some.inj (hm.symm.trans hn))
      obtain rfl := h.labelled_unique hown hlabel
      obtain ⟨rfl, -, -⟩ := hpolicy.produced h.marked_of_forwards hmem
      exact ⟨_, (Policy.mem_forwarded H).mpr ⟨map, before, hmem⟩, rfl⟩
  · rintro ⟨out, hout, rfl⟩
    obtain ⟨map, before, hmem⟩ := (Policy.mem_forwarded H).mp hout
    obtain ⟨n, hn, hlabel⟩ := h.labelled_of_reaches hpolicy hr ⟨out, before, hmem⟩
    obtain ⟨rfl, -, -⟩ := hpolicy.produced h.marked_of_forwards hmem
    exact Or.inr ⟨_, map, before, n, map, hmem, hn, hlabel, rfl⟩

/-- The marks only observe, and the two passes give the forwarded packets back, up to the outport,
for just these packets. -/
theorem postVNH_restores_iff (hupper : UpperCase upper) (hids : DistinctPortIds config)
    (hnames : ∀ n ∈ config.keys, NoLower n) (hsdx : sdxParseConfig upper config = some sdx)
    (hc : config.get? X = some c) (hX : sdx.participants.get? X = some participant)
    (hpolicy : ForwardsLast (sdx.Forwards participant) policy) (hm : Hashing ℕ) (H : Header ρ)
    (pkt : Frame ρ) :
    (policy.marked H pkt).image Prod.fst = policy.eval H pkt ∧
    ((∃ p q, preVNH sdx X participant policy = some p ∧ postVNH sdx X hm p = some q ∧
      (q.eval H pkt).image withoutOutport = (policy.forwarded H pkt).image withoutOutport) ↔
    Restorable upper config X c policy H pkt) := by
  refine ⟨Policy.image_marked H policy pkt, ?_⟩
  obtain ⟨c', h⟩ := participating_of_parse hupper hids hnames hsdx hX
  obtain rfl := Option.some.inj (hc.symm.trans h.configured)
  constructor
  · rintro ⟨p, q, hp, hq, heq⟩
    obtain ⟨q', hq', hrelabels⟩ := h.postVNH_spec hpolicy hp hm H
    obtain rfl := Option.some.inj (hq.symm.trans hq')
    exact h.restorable hpolicy hp hrelabels heq
  · intro hr
    obtain ⟨p, hp⟩ := (h.preVNH_completes_iff hpolicy).mpr ⟨hr.ascii, hr.named⟩
    obtain ⟨q, hq, hrelabels⟩ := h.postVNH_spec hpolicy hp hm H
    exact ⟨p, q, hp, hq, h.restored hpolicy hp hrelabels hr⟩

end passes
end restore

theorem upperCase_asciiUpper : UpperCase asciiUpper :=
  ⟨fun _ _ => asciiUpper_of_noLower, noLower_asciiUpper⟩

def peeringConfig : Dict String ParticipantConfig :=
  ⟨[("A", ⟨[⟨1, "08:00:27:89:3b:9f", "172.0.0.1"⟩], ["B"]⟩),
    ("B", ⟨[⟨2, "08:00:27:92:18:1f", "172.0.0.2"⟩, ⟨3, "08:00:27:54:56:eb", "172.0.0.3"⟩],
      ["A"]⟩)],
    List.nodup_cons.mpr ⟨by decide, List.nodup_singleton _⟩⟩

def peeringSdx : Exchange.SDX := (sdxParseConfig asciiUpper peeringConfig).getD .init

def peeringB : SDXParticipant :=
  ⟨"B", ⟨"B", 2⟩, [⟨2, "08:00:27:92:18:1f", "172.0.0.2"⟩, ⟨3, "08:00:27:54:56:eb", "172.0.0.3"⟩],
    .single "A" ⟨"A", 1⟩⟩

def webOut : Policy := .parallel
  [.sequential ([.matching (.single "dstport" (.num 80))] ++
    [.modify (exitMap "outB_0" "08:00:27:92:18:1f")]), .matching (.single "dstport" (.num 22))]

def dstportHeader : Header ℕ :=
  ⟨fun field v port => field = "dstport" ∧ v = .num port, fun _ _ port => port, fun _ => ""⟩

theorem forwardsLast_webOut : ForwardsLast (peeringSdx.Forwards peeringB) webOut := by
  refine .parallel (List.forall_mem_cons.mpr ⟨.sequential ?_ (.forward ?_),
    List.forall_mem_singleton.mpr (.ordinary trivial)⟩)
  · exact List.forall_mem_singleton.mpr trivial
  · exact Or.inl ⟨⟨2, "08:00:27:92:18:1f", "172.0.0.2"⟩, List.mem_cons_self, rfl⟩

theorem noLower_peeringConfig : ∀ n ∈ peeringConfig.keys, NoLower n := by
  have hnames : ∀ n ∈ ["A", "B"], NoLower n := by simp [NoLower]
  exact hnames

theorem postVNH_restores_iff_webOut :
    (webOut.marked dstportHeader ⟨none, some (.text "inB"), none, 80⟩).image Prod.fst =
      webOut.eval dstportHeader ⟨none, some (.text "inB"), none, 80⟩ ∧
    ((∃ p q, preVNH peeringSdx "B" peeringB webOut = some p ∧
      postVNH peeringSdx "B" .ascending p = some q ∧
      (q.eval dstportHeader ⟨none, some (.text "inB"), none, 80⟩).image withoutOutport =
        (webOut.forwarded dstportHeader ⟨none, some (.text "inB"), none, 80⟩).image withoutOutport) ↔
    Restorable asciiUpper peeringConfig "B" ⟨peeringB.physPorts, ["A"]⟩ webOut dstportHeader
      ⟨none, some (.text "inB"), none, 80⟩) :=
  postVNH_restores_iff upperCase_asciiUpper (by decide) noLower_peeringConfig rfl rfl rfl
    forwardsLast_webOut .ascending dstportHeader _

theorem postVNH_webOut_relabelled : sdxParseConfig asciiUpper peeringConfig = some peeringSdx ∧
    DistinctPortIds peeringConfig ∧ (∀ n ∈ peeringConfig.keys, NoLower n) ∧
    peeringSdx.participants.get? "B" = some peeringB ∧
    ForwardsLast (peeringSdx.Forwards peeringB) webOut ∧
    ¬ ∃ p q, preVNH peeringSdx "B" peeringB webOut = some p ∧
      postVNH peeringSdx "B" .ascending p = some q ∧
      (q.eval dstportHeader ⟨some (.num 2), some (.text "inB"), none, 22⟩).image withoutOutport =
        (webOut.forwarded dstportHeader
          ⟨some (.num 2), some (.text "inB"), none, 22⟩).image withoutOutport := by
  refine ⟨rfl, by decide, noLower_peeringConfig, rfl, forwardsLast_webOut, ?_⟩
  rintro ⟨p, q, hp, hq, heq⟩
  obtain ⟨c, h⟩ := participating_of_parse upperCase_asciiUpper (by decide) noLower_peeringConfig
    (show sdxParseConfig asciiUpper peeringConfig = some peeringSdx from rfl)
    (show peeringSdx.participants.get? "B" = some peeringB from rfl)
  obtain rfl : ⟨peeringB.physPorts, ["A"]⟩ = c := Option.some.inj h.configured
  obtain ⟨q', hq', hrelabels⟩ := h.postVNH_spec forwardsLast_webOut hp .ascending dstportHeader
  obtain rfl := Option.some.inj (hq.symm.trans hq')
  have hr := h.restorable forwardsLast_webOut hp hrelabels heq
  have hexit : Occurs (.modify (exitMap (outVar asciiUpper "B" 0) "08:00:27:92:18:1f")) webOut :=
    fun hnot => hnot.1.2.1 rfl
  have hlabel : Labelled asciiUpper peeringConfig "B" ⟨peeringB.physPorts, ["A"]⟩ webOut 2
      (exitMap (outVar asciiUpper "B" 0) "08:00:27:92:18:1f") :=
    labelled_iff.mpr (Or.inr ⟨Or.inl ⟨0, _, rfl, hexit⟩, 0, _, rfl, fun _ => rfl, rfl, rfl⟩)
  obtain ⟨y, hy, -⟩ := hr.unforwarded ⟨some (.num 2), some (.text "inB"), none, 22⟩ 2 _ (by decide)
    rfl hlabel
  exact Finset.notMem_empty y hy

end Hispar.VnhAssignment
