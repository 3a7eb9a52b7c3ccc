import Hispar.VnhAssignment.StatePorts

/-!
# The table from ports back to states

A port is turned back into the state of its owner: the exit that it is, or the
entrance of the peer. The table has entries for the peers that a policy forwards
to and, where it forwards to one of its own ports, for all of these.
-/
namespace Hispar.VnhAssignment
open Library Exchange

/-- Upper case, as far as the state variables rely on it. -/
structure UpperCase (upper : String → String) : Prop where
  same : ∀ s, IsAscii s → NoLower s → upper s = s
  noLower : ∀ s, NoLower (upper s)

structure Participating (upper : String → String) (config : Dict String ParticipantConfig)
    (sdx : Exchange.SDX) (X : String) (c : ParticipantConfig) (participant : SDXParticipant) :
    Prop where
  upperCase : UpperCase upper
  parsed : Parsed config sdx
  mapped : Mapped upper config sdx
  ids : DistinctPortIds config
  names : ∀ n ∈ config.keys, NoLower n
  configured : config.get? X = some c
  participant : sdx.participants.get? X = some participant
  seen : ∃ seen, sdx.participant2Port.get? X = some seen ∧ ∀ Q, seen.get? Q = seenPorts config X c Q

def firstPort (config : Dict String ParticipantConfig) (Q : String) : Option ℕ :=
  (config.get? Q).bind fun e => e.ports.head?.map PhysicalPort.id

section participating
variable {upper : String → String} {config : Dict String ParticipantConfig} {sdx : Exchange.SDX}
  {X : String} {c : ParticipantConfig} {participant : SDXParticipant}

theorem participating_of_parse (hupper : UpperCase upper) (hids : DistinctPortIds config)
    (hnames : ∀ n ∈ config.keys, NoLower n) (h : sdxParseConfig upper config = some sdx)
    (hX : sdx.participants.get? X = some participant) :
    ∃ c, Participating upper config sdx X c participant := by
  have hparsed := sdxParseConfig_parsed h
  obtain ⟨c, hc⟩ := Dict.mem_keys_iff.mp (hparsed.keys ▸ Dict.mem_keys_iff.mpr ⟨participant, hX⟩)
  exact ⟨c, hupper, hparsed, sdxParseConfig_mapped hids h, hids, hnames, hc, hX,
    sdxParseConfig_participant2Port h hc⟩

namespace Participating
variable (h : Participating upper config sdx X c participant)
include h

theorem physPorts : participant.physPorts = c.ports := by
  obtain ⟨participant', hpart, hphys, -⟩ := h.mapped.peers X c h.configured
  obtain rfl := Option.some.inj (h.participant.symm.trans hpart)
  exact hphys

theorem noLower : NoLower X := h.names X (Dict.mem_keys_iff.mpr ⟨c, h.configured⟩)

theorem peer_mem {Q : String} (hQ : Q ∈ c.peers) : Q ∈ config.keys :=
  h.parsed.peers X c h.configured Q hQ

theorem firstPort_isSome {Q : String} (hQ : Q ∈ c.peers) : ∃ n, firstPort config Q = some n := by
  obtain ⟨e, he⟩ := Dict.mem_keys_iff.mp (h.peer_mem hQ)
  obtain ⟨first, rest, hports⟩ := List.exists_cons_of_ne_nil (h.mapped.ports Q e he)
  exact ⟨first.id, by rw [firstPort, he, Option.bind_some, hports]; rfl⟩

theorem owner_firstPort {Q : String} {n : ℕ} (hn : firstPort config Q = some n) :
    sdx.port2Participant.get? n = some Q := by
  obtain ⟨e, he, hn⟩ := Option.bind_eq_some_iff.mp hn
  obtain ⟨first, hfirst, rfl⟩ := Option.map_eq_some_iff.mp hn
  exact h.mapped.owners Q e he _ (List.mem_map_of_mem (List.mem_of_head? hfirst))

theorem owner_port {i : ℕ} {port : PhysicalPort} (hi : c.ports[i]? = some port) :
    sdx.port2Participant.get? port.id = some X :=
  h.mapped.owners X c h.configured _ (List.mem_map_of_mem (List.mem_of_getElem? hi))

theorem peerPort_eq (Q : String) : peerPort sdx participant Q =
    if Q ∈ c.peers then firstPort config Q else none := by
  obtain ⟨participant', hpart, -, hpeers⟩ := h.mapped.peers X c h.configured
  obtain rfl := Option.some.inj (h.participant.symm.trans hpart)
  rw [peerPort, hpeers]
  split_ifs with hQ
  · obtain ⟨e, he⟩ := Dict.mem_keys_iff.mp (h.peer_mem hQ)
    obtain ⟨first, rest, hports⟩ := List.exists_cons_of_ne_nil (h.mapped.ports Q e he)
    obtain ⟨peer, hpeer, hphys, -⟩ := h.mapped.peers Q e he
    rw [firstPort, he, Option.bind_some, Option.bind_some, hports, List.head?_cons, Option.map_some,
      Option.bind_some, hpeer, Option.bind_some, hphys, hports]
    rfl
  · rfl

theorem statePort_exit {i : ℕ} {port : PhysicalPort} (hi : c.ports[i]? = some port) :
    statePort sdx X participant (.text (outVar upper X i)) =
      if IsAscii X then some port.id else none := by
  have hstate : asciiIgnore (outVar upper X i) =
      "out" ++ asciiIgnore (upper X) ++ "_" ++ toString i := by
    rw [outVar, asciiIgnore_append, asciiIgnore_append, asciiIgnore_append,
      asciiIgnore_of_isAscii (isAscii_toString i)]
    rfl
  have hin : ¬ Contains "in" (asciiIgnore (outVar upper X i)) := by
    refine not_contains_of_notMem (show 'i' ∈ "in".toList by decide) ?_
    have hname := (h.upperCase.noLower X).asciiIgnore.notMem (show 'i'.isLower = true by decide)
    have hnum := (noLower_toString i).notMem (show 'i'.isLower = true by decide)
    rw [hstate, String.toList_append, String.toList_append, String.toList_append]
    simp only [List.mem_append, hname, hnum, or_false]
    decide
  simp only [statePort, if_neg hin]
  split_ifs with hX
  · have hsplit : split ("out" ++ X ++ "_") (asciiIgnore (outVar upper X i)) = ["", toString i] := by
      rw [hstate, h.upperCase.same X hX h.noLower, asciiIgnore_of_isAscii hX]
      refine split_append (by simp) (not_contains_of_notMem (show 'o' ∈ _ by simp) ?_)
      exact (noLower_toString i).notMem (by decide)
    rw [hsplit, h.physPorts]
    simp [hi]
  · obtain ⟨x, hx, hbig⟩ : ∃ x ∈ X.toList, ¬ x.toNat < 128 := by
      simpa only [IsAscii, not_forall, exists_prop] using hX
    have hout : ¬ Contains ("out" ++ X ++ "_") (asciiIgnore (outVar upper X i)) :=
      not_contains_of_notMem (by simp [hx]) fun hmem => hbig (isAscii_asciiIgnore _ x hmem)
    rw [split_of_not_contains hout]
    rfl

theorem statePort_entrance (P : String) :
    statePort sdx X participant (.text (inVar upper P)) = if asciiIgnore (upper P) ∈ c.peers then
      firstPort config (asciiIgnore (upper P)) else none := by
  have hstate : asciiIgnore (inVar upper P) = "in" ++ asciiIgnore (upper P) := by
    rw [inVar, asciiIgnore_append]
    rfl
  have hname : ¬ Contains "in" (asciiIgnore (upper P)) :=
    not_contains_of_notMem (show 'i' ∈ "in".toList by decide)
      ((h.upperCase.noLower P).asciiIgnore.notMem (by decide))
  simp only [statePort, hstate, if_pos (contains_append "in" _)]
  rw [split_append (by decide) hname, ← h.peerPort_eq]
  rfl

theorem preVNHLeaf_exit {i : ℕ} {port : PhysicalPort} (hi : c.ports[i]? = some port) :
    preVNHLeaf sdx X participant (.modify (exitMap (outVar upper X i) port.mac)) =
      if IsAscii X then some (.fwd port.id) else none := by
  have hstate : (exitMap (outVar upper X i) port.mac).get? "state" =
      some (.text (outVar upper X i)) := rfl
  rw [preVNHLeaf, hstate]
  simp only [h.statePort_exit hi]
  split_ifs <;> rfl

theorem preVNHLeaf_entrance (P : String) :
    preVNHLeaf sdx X participant (.modify (entranceMap (inVar upper P))) =
      if asciiIgnore (upper P) ∈ c.peers then
        (firstPort config (asciiIgnore (upper P))).map .fwd else none := by
  have hstate : (entranceMap (inVar upper P)).get? "state" = some (.text (inVar upper P)) := rfl
  rw [preVNHLeaf, hstate]
  simp only [h.statePort_entrance]
  split_ifs <;> rfl

theorem forwards_iff {p : Policy} : sdx.Forwards participant p ↔
    (∃ i port, c.ports[i]? = some port ∧ p = .modify (exitMap (outVar upper X i) port.mac)) ∨
    ∃ P ∈ c.peers, p = .modify (entranceMap (inVar upper P)) :=
  SDX.forwards_iff h.parsed h.mapped h.configured h.participant

theorem marked_of_forwards (p : Policy) (hp : sdx.Forwards participant p) :
    ∃ map, p = .modify map ∧ "state" ∈ map.keys := by
  rcases h.forwards_iff.mp hp with ⟨i, port, -, rfl⟩ | ⟨P, -, rfl⟩
  · exact ⟨_, rfl, List.mem_cons_self⟩
  · exact ⟨_, rfl, List.mem_cons_self⟩

end Participating

section policy
variable (upper X c) (policy : Policy)

def Exits : Prop := ∃ i port, c.ports[i]? = some port ∧
  Occurs (.modify (exitMap (outVar upper X i) port.mac)) policy

def Enters (Q : String) : Prop := ∃ P ∈ c.peers, asciiIgnore (upper P) = Q ∧
  Occurs (.modify (entranceMap (inVar upper P))) policy

end policy

variable {policy p : Policy}

theorem Participating.occurs_forwards (h : Participating upper config sdx X c participant)
    (hpolicy : ForwardsLast (sdx.Forwards participant) policy) {leaf : Policy}
    (hleaf : Occurs leaf policy) : sdx.Forwards participant leaf ∨ Ordinary leaf := by
  refine leaves_iff_occurs.mp (hpolicy.leaves fun q hq => ?_) leaf hleaf
  obtain ⟨map, rfl, -⟩ := h.marked_of_forwards q hq
  exact trivial

theorem Participating.preVNH_completes_iff (h : Participating upper config sdx X c participant)
    (hpolicy : ForwardsLast (sdx.Forwards participant) policy) :
    (∃ p, preVNH sdx X participant policy = some p) ↔
      (Exits upper X c policy → IsAscii X) ∧ ∀ Q, Enters upper c policy Q → Q ∈ c.peers := by
  constructor
  · rintro ⟨p, hp⟩
    have hleaves := leaves_iff_occurs.mp (Policy.leaves_of_traverse hp)
    constructor
    · rintro ⟨i, port, hi, hoccurs⟩
      obtain ⟨p', hp'⟩ := hleaves _ hoccurs
      rw [h.preVNHLeaf_exit hi] at hp'
      by_contra hX
      rw [if_neg hX] at hp'
      cases hp'
    · rintro Q ⟨P, -, rfl, hoccurs⟩
      obtain ⟨p', hp'⟩ := hleaves _ hoccurs
      rw [h.preVNHLeaf_entrance] at hp'
      by_contra hQ
      rw [if_neg hQ] at hp'
      cases hp'
  · rintro ⟨hexits, henters⟩
    refine Policy.traverse_total (leaves_iff_occurs.mpr fun leaf hleaf => ?_)
    rcases h.occurs_forwards hpolicy hleaf with hfwd | hordinary
    · rcases h.forwards_iff.mp hfwd with ⟨i, port, hi, rfl⟩ | ⟨P, hP, rfl⟩
      · exact ⟨_, by rw [h.preVNHLeaf_exit hi, if_pos (hexits ⟨i, port, hi, hleaf⟩)]⟩
      · have hQ := henters _ ⟨P, hP, rfl, hleaf⟩
        obtain ⟨n, hn⟩ := h.firstPort_isSome hQ
        exact ⟨_, by rw [h.preVNHLeaf_entrance, if_pos hQ, hn]; rfl⟩
    · exact ⟨leaf, preVNHLeaf_ordinary hordinary⟩

theorem Participating.mem_extractAll (h : Participating upper config sdx X c participant)
    (hpolicy : ForwardsLast (sdx.Forwards participant) policy)
    (hp : preVNH sdx X participant policy = some p) (n : ℕ) :
    n ∈ extractAllForwardActionsFromPolicy p ↔
      (∃ i port, c.ports[i]? = some port ∧ port.id = n ∧
        Occurs (.modify (exitMap (outVar upper X i) port.mac)) policy) ∨
      ∃ Q, Enters upper c policy Q ∧ firstPort config Q = some n := by
  obtain ⟨hexits, henters⟩ := (h.preVNH_completes_iff hpolicy).mp ⟨p, hp⟩
  rw [mem_extractAll_preVNH hpolicy h.marked_of_forwards hp]
  constructor
  · rintro ⟨leaf, hleaf, hn⟩
    rcases h.occurs_forwards hpolicy hleaf with hfwd | hordinary
    · rcases h.forwards_iff.mp hfwd with ⟨i, port, hi, rfl⟩ | ⟨P, hP, rfl⟩
      · rw [h.preVNHLeaf_exit hi, if_pos (hexits ⟨i, port, hi, hleaf⟩), Option.some.injEq,
          Policy.fwd.injEq] at hn
        exact Or.inl ⟨i, port, hi, hn, hleaf⟩
      · have hQ : Enters upper c policy (asciiIgnore (upper P)) := ⟨P, hP, rfl, hleaf⟩
        rw [h.preVNHLeaf_entrance, if_pos (henters _ hQ), Option.map_eq_some_iff] at hn
        obtain ⟨m, hm, hn⟩ := hn
        exact Or.inr ⟨_, hQ, Policy.fwd.inj hn ▸ hm⟩
    · rw [preVNHLeaf_ordinary hordinary, Option.some.injEq] at hn
      rw [hn] at hordinary
      exact hordinary.elim
  · rintro (⟨i, port, hi, rfl, hleaf⟩ | ⟨Q, hQ, hn⟩)
    · exact ⟨_, hleaf, by rw [h.preVNHLeaf_exit hi, if_pos (hexits ⟨i, port, hi, hleaf⟩)]⟩
    · have hpeer := henters Q hQ
      obtain ⟨P, hP, rfl, hleaf⟩ := hQ
      exact ⟨_, hleaf, by rw [h.preVNHLeaf_entrance, if_pos hpeer, hn, Option.map_some]⟩

theorem Participating.own (h : Participating upper config sdx X c participant) :
    ∃ seen own, sdx.participant2Port.get? X = some seen ∧ seen.get? X = some own ∧ own.Nodup ∧
      ∀ i n : ℕ, own[i]? = some n ↔
        ∃ port, c.ports[i]? = some port ∧ port.id = n ∧ (X ∈ c.peers → i = 0) := by
  obtain ⟨seen, hseen, hports⟩ := h.seen
  have hnodup := h.ids.nodup (Dict.get?_eq_some.mp h.configured)
  by_cases hX : X ∈ c.peers
  · obtain ⟨first, rest, hfirst⟩ := List.exists_cons_of_ne_nil (h.mapped.ports X c h.configured)
    refine ⟨seen, [first.id], hseen, ?_, List.nodup_singleton _, fun i n => ?_⟩
    · rw [hports, seenPorts, if_pos hX, h.configured, Option.bind_some, hfirst]
      rfl
    · cases i with
      | zero => simp [hfirst]
      | succ i => simp [hX]
  · refine ⟨seen, c.ports.map PhysicalPort.id, hseen, ?_, hnodup, fun i n => ?_⟩
    · rw [hports, seenPorts, if_neg hX, if_pos rfl]
    · rw [List.getElem?_map, Option.map_eq_some_iff]
      simp [hX]

theorem addOwnPorts_spec {ports : List PhysicalPort} (hports : sdx.sdxPorts.get? X = some ports)
    {l : List ℕ} (hl : l.Nodup) (k : ℕ)
    (hin : ∀ j n, l[j]? = some n → ∃ port, ports[k + j]? = some port) (t : PortStates) :
    ∃ t', (l.zipIdx k).foldlM (addOwnPort sdx X X) t = some t' ∧
      (∀ n ∉ l, t'.port2State.get? n = t.port2State.get? n ∧
        t'.port2Mac.get? n = t.port2Mac.get? n) ∧
      ∀ j n, l[j]? = some n →
        t'.port2State.get? n = some ("out" ++ X ++ "_" ++ toString (k + j)) ∧
        ∃ port, ports[k + j]? = some port ∧ t'.port2Mac.get? n = some port.mac := by
  induction l generalizing k t with
  | nil => exact ⟨t, rfl, fun _ _ => ⟨rfl, rfl⟩, fun j n hj => absurd hj (by simp)⟩
  | cons m l ih =>
    obtain ⟨hm, hl⟩ := List.nodup_cons.mp hl
    obtain ⟨port, hport⟩ := hin 0 m rfl
    have hshift : ∀ j, k + 1 + j = k + (j + 1) := fun j => by omega
    obtain ⟨t', hrun, hsame, hset⟩ := ih hl (k + 1) (fun j n hj => hshift j ▸ hin (j + 1) n hj)
      ⟨t.port2State.set m ("out" ++ X ++ "_" ++ toString k), t.port2Mac.set m port.mac⟩
    refine ⟨t', ?_, fun n hn => ?_, fun j n hj => ?_⟩
    · rw [List.zipIdx_cons, List.foldlM_cons, addOwnPort, hports, Option.bind_some]
      simp only [Nat.add_zero] at hport
      rw [hport]
      exact hrun
    · obtain ⟨hne, hn⟩ := not_or.mp (mt List.mem_cons.mpr hn)
      obtain ⟨hstate, hmac⟩ := hsame n hn
      rw [hstate, hmac, Dict.get?_set_of_ne _ _ hne, Dict.get?_set_of_ne _ _ hne]
      exact ⟨rfl, rfl⟩
    · cases j with
      | zero =>
        obtain rfl : m = n := Option.some.inj hj
        obtain ⟨hstate, hmac⟩ := hsame m hm
        rw [hstate, hmac, Dict.get?_set_self, Dict.get?_set_self]
        exact ⟨rfl, port, hport, rfl⟩
      | succ j => exact hshift j ▸ hset j n hj

section table
variable (sdx X) (ports : List PhysicalPort) (own : List ℕ)

def StateFor (done : List ℕ) (n : ℕ) (s : String) : Prop :=
  (∃ Q, sdx.port2Participant.get? n = some Q ∧ Q ≠ X ∧ n ∈ done ∧ s = "in" ++ Q) ∨
    (∃ k ∈ done, sdx.port2Participant.get? k = some X) ∧
      ∃ i : ℕ, own[i]? = some n ∧ s = "out" ++ X ++ "_" ++ toString i

structure TableOf (done : List ℕ) (t : PortStates) : Prop where
  states : ∀ n s, t.port2State.get? n = some s ↔ StateFor sdx X own done n s
  macs : ∀ i n : ℕ, own[i]? = some n → (∃ k ∈ done, sdx.port2Participant.get? k = some X) →
    ∃ port, ports[i]? = some port ∧ t.port2Mac.get? n = some port.mac

end table

section visit
variable {ports : List PhysicalPort} {own done : List ℕ} {t : PortStates} {k : ℕ}

theorem addPortState_peer (hin : ∀ i n : ℕ, own[i]? = some n → sdx.port2Participant.get? n = some X)
    (ht : TableOf sdx X ports own done t) {Q : String} (hQ : sdx.port2Participant.get? k = some Q)
    (hascii : IsAscii Q) (hne : Q ≠ X) :
    ∃ t', addPortState sdx X t k = some t' ∧ TableOf sdx X ports own (done ++ [k]) t' := by
  have hvisited : (∃ j ∈ done ++ [k], sdx.port2Participant.get? j = some X) ↔
      ∃ j ∈ done, sdx.port2Participant.get? j = some X := by
    simp [or_and_right, exists_or, hQ, hne]
  refine ⟨{ t with port2State := t.port2State.set k ("in" ++ Q) }, ?_, fun n s => ?_,
    fun i n hi hk => ?_⟩
  · rw [addPortState, hQ, Option.bind_some, if_neg (not_not.mpr hascii), if_pos hne]
  · rw [StateFor, hvisited]
    by_cases hn : n = k
    · subst hn
      rw [Dict.get?_set_self]
      constructor
      · intro hs
        exact Or.inl ⟨Q, hQ, hne, List.mem_append_right _ List.mem_cons_self,
          (Option.some.inj hs).symm⟩
      · rintro (⟨R, hR, -, -, rfl⟩ | ⟨-, i, hi, -⟩)
        · rw [Option.some.inj (hR.symm.trans hQ)]
        · exact absurd (Option.some.inj (hQ.symm.trans (hin i n hi))) hne
    · rw [Dict.get?_set_of_ne _ _ hn, ht.states, StateFor]
      simp only [List.mem_append, List.mem_singleton, hn, or_false]
  · exact ht.macs i n hi (hvisited.mp hk)

theorem addPortState_own (hports : sdx.sdxPorts.get? X = some ports)
    {seen : Dict String (List ℕ)} (hseen : sdx.participant2Port.get? X = some seen)
    (hown : seen.get? X = some own) (hnodup : own.Nodup)
    (hin : ∀ i n : ℕ, own[i]? = some n → sdx.port2Participant.get? n = some X)
    (hindex : ∀ i n : ℕ, own[i]? = some n → ∃ port, ports[i]? = some port)
    (ht : TableOf sdx X ports own done t) (hk : sdx.port2Participant.get? k = some X)
    (hascii : IsAscii X) :
    ∃ t', addPortState sdx X t k = some t' ∧ TableOf sdx X ports own (done ++ [k]) t' := by
  have hindex₀ : ∀ j n : ℕ, own[j]? = some n → ∃ port, ports[0 + j]? = some port := by
    intro j n hj
    rw [Nat.zero_add]
    exact hindex j n hj
  obtain ⟨t', hrun, hsame, hset⟩ := addOwnPorts_spec hports hnodup 0 hindex₀ t
  simp only [Nat.zero_add] at hset
  have hvisited : ∃ j ∈ done ++ [k], sdx.port2Participant.get? j = some X :=
    ⟨k, List.mem_append_right _ List.mem_cons_self, hk⟩
  refine ⟨t', ?_, fun n s => ?_, fun i n hi _ => (hset i n hi).2⟩
  · rw [addPortState, hk, Option.bind_some, if_neg (not_not.mpr hascii), if_neg (not_not.mpr rfl),
      hseen, Option.bind_some, hown, Option.bind_some]
    exact hrun
  · by_cases hn : n ∈ own
    · obtain ⟨i, hi⟩ := List.mem_iff_getElem?.mp hn
      rw [(hset i n hi).1]
      constructor
      · intro hs
        exact Or.inr ⟨hvisited, i, hi, (Option.some.inj hs).symm⟩
      · rintro (⟨R, hR, hRne, -⟩ | ⟨-, j, hj, rfl⟩)
        · exact absurd (Option.some.inj (hR.symm.trans (hin i n hi))) hRne
        · obtain rfl : i = j :=
            (List.getElem?_inj (List.getElem?_eq_some_iff.mp hi).1 hnodup).mp (hi.trans hj.symm)
          rfl
    · have hnone : ∀ i : ℕ, own[i]? ≠ some n := fun i hi => hn (List.mem_of_getElem? hi)
      rw [(hsame n hn).1, ht.states, StateFor, StateFor]
      simp only [hnone, false_and, exists_false, and_false, or_false]
      refine exists_congr fun R => and_congr_right fun hR => and_congr_right fun hRne => ?_
      have hnk : n ≠ k := by
        rintro rfl
        exact hRne (Option.some.inj (hR.symm.trans hk))
      simp only [List.mem_append, List.mem_singleton, hnk, or_false]

end visit

def ruleMap (t : PortStates) (port : ℕ) : Option (Dict String Value) :=
  (t.port2State.get? port).bind fun state =>
    if Contains "out" state then (t.port2Mac.get? port).map (exitMap state)
    else some (entranceMap state)

theorem ruleMap_exit {t : PortStates} {n : ℕ} {state mac : String}
    (hstate : t.port2State.get? n = some state) (hout : Contains "out" state)
    (hmac : t.port2Mac.get? n = some mac) : ruleMap t n = some (exitMap state mac) := by
  rw [ruleMap, hstate, Option.bind_some, if_pos hout, hmac, Option.map_some]

theorem ruleMap_entrance {t : PortStates} {n : ℕ} {state : String}
    (hstate : t.port2State.get? n = some state) (hout : ¬ Contains "out" state) :
    ruleMap t n = some (entranceMap state) := by
  rw [ruleMap, hstate, Option.bind_some, if_neg hout]

theorem addStateRule_eq (t : PortStates) (pol : Policy) (port : ℕ) :
    addStateRule t pol port =
      (ruleMap t port).map fun map => .parallel [pol, stateRule port map] := by
  rw [addStateRule, ruleMap]
  cases t.port2State.get? port with
  | none => rfl
  | some state =>
    rw [Option.bind_some, Option.bind_some]
    split_ifs
    · rw [Option.map_map]
      rfl
    · rfl

section rules
variable {ρ : Type*} [DecidableEq ρ] (H : Header ρ)

theorem mem_eval_stateRule {n : ℕ} {map : Dict String Value} {pkt out : Frame ρ} :
    out ∈ (stateRule n map).eval H pkt ↔ pkt.outport = some (.num n) ∧ out = pkt.writeAll H map := by
  have htest : Frame.testAll H (.single "outport" (.num n)) pkt = true ↔
      pkt.outport = some (.num n) := by
    simp [Frame.testAll, Frame.test, Dict.single]
  rw [stateRule, Policy.eval_sequential_cons, Finset.mem_biUnion]
  constructor
  · rintro ⟨mid, hmid, hout⟩
    obtain ⟨hpass, rfl⟩ := PacketPolicy.mem_filter.mp hmid
    rw [Policy.eval_sequential_cons, Finset.mem_biUnion] at hout
    obtain ⟨mid', hmid', hout⟩ := hout
    rw [Finset.mem_singleton.mp hmid'] at hout
    exact ⟨htest.mp hpass, Finset.mem_singleton.mp hout⟩
  · rintro ⟨hpass, rfl⟩
    refine ⟨pkt, PacketPolicy.mem_filter.mpr ⟨htest.mpr hpass, rfl⟩, ?_⟩
    rw [Policy.eval_sequential_cons, Finset.mem_biUnion]
    exact ⟨_, Finset.mem_singleton_self _, Finset.mem_singleton_self _⟩

theorem addStateRules_spec {t : PortStates} {ports : List ℕ}
    (hall : ∀ n ∈ ports, ∃ map, ruleMap t n = some map) (pol : Policy) :
    ∃ pol', ports.foldlM (addStateRule t) pol = some pol' ∧ ∀ pkt out : Frame ρ,
      out ∈ pol'.eval H pkt ↔ out ∈ pol.eval H pkt ∨ ∃ n ∈ ports, ∃ map,
        ruleMap t n = some map ∧ pkt.outport = some (.num n) ∧ out = pkt.writeAll H map := by
  induction ports generalizing pol with
  | nil => exact ⟨pol, rfl, fun pkt out => by simp⟩
  | cons n ports ih =>
    obtain ⟨⟨map, hmap⟩, hall⟩ := List.forall_mem_cons.mp hall
    obtain ⟨pol', hrun, heval⟩ := ih hall (.parallel [pol, stateRule n map])
    refine ⟨pol', ?_, fun pkt out => ?_⟩
    · rw [List.foldlM_cons, addStateRule_eq, hmap]
      exact hrun
    · rw [heval, Policy.mem_eval_parallel, List.exists_mem_cons_iff, List.exists_mem_cons_iff,
        mem_eval_stateRule H, List.exists_mem_cons_iff, hmap, or_assoc]
      simp

end rules

section labels
variable (upper config X c) (policy : Policy)

/-- The ports of the table, with what is set for each. -/
inductive Labelled : ℕ → Dict String Value → Prop
  | entrance {Q : String} {n : ℕ} (hne : Q ≠ X) (henters : Enters upper c policy Q)
    (hn : firstPort config Q = some n) : Labelled n (entranceMap (inVar upper Q))
  | exit {i : ℕ} {port : PhysicalPort}
    (hexits : Exits upper X c policy ∨ Enters upper c policy X) (hi : c.ports[i]? = some port)
    (hpeer : X ∈ c.peers → i = 0) : Labelled port.id (exitMap (outVar upper X i) port.mac)

def Relabels {ρ : Type*} [DecidableEq ρ] (H : Header ρ) (p q : Policy) : Prop :=
  ∀ pkt out, out ∈ q.eval H pkt ↔ ∃ mid ∈ p.eval H pkt, ∃ n map,
    Labelled upper config X c policy n map ∧ mid.outport = some (.num n) ∧ out = mid.writeAll H map

end labels

namespace Participating
variable (h : Participating upper config sdx X c participant)
include h

theorem inVar_of_enters {Q : String} (hQ : Enters upper c policy Q) (hpeer : Q ∈ c.peers) :
    IsAscii Q ∧ inVar upper Q = "in" ++ Q ∧ ¬ Contains "out" ("in" ++ Q) := by
  have hlower : NoLower Q := h.names Q (h.peer_mem hpeer)
  obtain ⟨P, -, rfl, -⟩ := hQ
  have hascii := isAscii_asciiIgnore (upper P)
  refine ⟨hascii, by rw [inVar, h.upperCase.same _ hascii hlower], ?_⟩
  refine not_contains_of_notMem (show 'o' ∈ "out".toList by decide) ?_
  have hname := hlower.notMem (show 'o'.isLower = true by decide)
  rw [String.toList_append]
  simp only [List.mem_append, hname, or_false]
  decide

theorem outVar_of_isAscii (hX : IsAscii X) (i : ℕ) :
    outVar upper X i = "out" ++ X ++ "_" ++ toString i ∧
      Contains "out" ("out" ++ X ++ "_" ++ toString i) := by
  refine ⟨by rw [outVar, h.upperCase.same X hX h.noLower], ?_⟩
  rw [String.append_assoc, String.append_assoc]
  exact contains_append "out" _

end Participating

structure Visits (upper : String → String) (config : Dict String ParticipantConfig)
    (sdx : Exchange.SDX) (X : String) (c : ParticipantConfig) (policy : Policy)
    (visited : List ℕ) : Prop where
  entered : ∀ Q, Enters upper c policy Q → Q ∈ c.peers
  ascii : Exits upper X c policy ∨ Enters upper c policy X → IsAscii X
  owned : ∀ n ∈ visited, ∃ Q, sdx.port2Participant.get? n = some Q ∧ IsAscii Q ∧
    (Q ≠ X → Enters upper c policy Q ∧ firstPort config Q = some n)
  own : (∃ k ∈ visited, sdx.port2Participant.get? k = some X) ↔
    Exits upper X c policy ∨ Enters upper c policy X
  first : ∀ Q n, Enters upper c policy Q → firstPort config Q = some n → n ∈ visited

def OwnList (X : String) (c : ParticipantConfig) (own : List ℕ) : Prop :=
  ∀ i n : ℕ, own[i]? = some n ↔
    ∃ port, c.ports[i]? = some port ∧ port.id = n ∧ (X ∈ c.peers → i = 0)

namespace Participating
variable {own visited : List ℕ} {t : PortStates}

theorem visits (h : Participating upper config sdx X c participant)
    (hpolicy : ForwardsLast (sdx.Forwards participant) policy)
    (hp : preVNH sdx X participant policy = some p) (hm : Hashing ℕ) :
    Visits upper config sdx X c policy (hm.enum (extractAllForwardActionsFromPolicy p)) := by
  obtain ⟨hexits, henters⟩ := (h.preVNH_completes_iff hpolicy).mp ⟨p, hp⟩
  have hmem : ∀ n, n ∈ hm.enum (extractAllForwardActionsFromPolicy p) ↔
      (∃ i port, c.ports[i]? = some port ∧ port.id = n ∧
        Occurs (.modify (exitMap (outVar upper X i) port.mac)) policy) ∨
      ∃ Q, Enters upper c policy Q ∧ firstPort config Q = some n :=
    fun n => (hm.mem_enum _ n).trans (h.mem_extractAll hpolicy hp n)
  have hascii : ∀ Q, Enters upper c policy Q → IsAscii Q :=
    fun Q hQ => (h.inVar_of_enters hQ (henters Q hQ)).1
  refine ⟨henters, fun hX => hX.elim hexits (hascii X), fun n hn => ?_, ⟨?_, ?_⟩,
    fun Q n hQ hn => (hmem n).mpr (Or.inr ⟨Q, hQ, hn⟩)⟩
  · rcases (hmem n).mp hn with ⟨i, port, hi, rfl, hoccurs⟩ | ⟨Q, hQ, hn⟩
    · exact ⟨X, h.owner_port hi, hexits ⟨i, port, hi, hoccurs⟩, fun hne => absurd rfl hne⟩
    · exact ⟨Q, h.owner_firstPort hn, hascii Q hQ, fun _ => ⟨hQ, hn⟩⟩
  · rintro ⟨k, hk, hX⟩
    rcases (hmem k).mp hk with ⟨i, port, hi, -, hoccurs⟩ | ⟨Q, hQ, hn⟩
    · exact Or.inl ⟨i, port, hi, hoccurs⟩
    · exact Or.inr (Option.some.inj ((h.owner_firstPort hn).symm.trans hX) ▸ hQ)
  · rintro (⟨i, port, hi, hoccurs⟩ | hX)
    · exact ⟨port.id, (hmem _).mpr (Or.inl ⟨i, port, hi, rfl, hoccurs⟩), h.owner_port hi⟩
    · obtain ⟨n, hn⟩ := h.firstPort_isSome (henters X hX)
      exact ⟨n, (hmem n).mpr (Or.inr ⟨X, hX, hn⟩), h.owner_firstPort hn⟩

theorem addPortStates_spec (h : Participating upper config sdx X c participant)
    (hv : Visits upper config sdx X c policy visited) : ∃ t own, OwnList X c own ∧
      visited.foldlM (addPortState sdx X) .init = some t ∧ TableOf sdx X c.ports own visited t := by
  obtain ⟨seen, own, hseen, hown, hnodup, hindex⟩ := h.own
  have hownX : ∀ i n : ℕ, own[i]? = some n → sdx.port2Participant.get? n = some X := by
    intro i n hi
    obtain ⟨port, hport, rfl, -⟩ := (hindex i n).mp hi
    exact h.owner_port hport
  have hownPort : ∀ i n : ℕ, own[i]? = some n → ∃ port, c.ports[i]? = some port := by
    intro i n hi
    obtain ⟨port, hport, -⟩ := (hindex i n).mp hi
    exact ⟨port, hport⟩
  obtain ⟨t, hrun, ht⟩ := Runs.foldlM_visited (Q := TableOf sdx X c.ports own)
    (f := addPortState sdx X) (l := visited) (s := .init) (fun done k rest t hdone ht => by
      obtain ⟨Q, hQ, hascii, -⟩ := hv.owned k (hdone ▸ List.mem_append_right done List.mem_cons_self)
      by_cases hne : Q = X
      · subst hne
        exact addPortState_own (h.parsed.sdxPorts Q c h.configured) hseen hown hnodup hownX hownPort
          ht hQ hascii
      · exact addPortState_peer hownX ht hQ hascii hne)
    ⟨fun n s => by simp [StateFor, PortStates.init], fun i n _ hk => by simp at hk⟩
  exact ⟨t, own, hindex, hrun, ht⟩

theorem labelled_of_state (h : Participating upper config sdx X c participant)
    (hv : Visits upper config sdx X c policy visited) (hown : OwnList X c own)
    (ht : TableOf sdx X c.ports own visited t) {n : ℕ} {s : String}
    (hs : t.port2State.get? n = some s) :
    ∃ map, ruleMap t n = some map ∧ Labelled upper config X c policy n map := by
  rcases (ht.states n s).mp hs with ⟨Q, hQ, hne, hn, rfl⟩ | ⟨hk, i, hi, rfl⟩
  · obtain ⟨R, hR, -, hpeer⟩ := hv.owned n hn
    obtain rfl := Option.some.inj (hQ.symm.trans hR)
    obtain ⟨henter, hfirst⟩ := hpeer hne
    obtain ⟨-, hvar, hout⟩ := h.inVar_of_enters henter (hv.entered Q henter)
    exact ⟨_, ruleMap_entrance hs hout, hvar ▸ .entrance hne henter hfirst⟩
  · have hor := hv.own.mp hk
    obtain ⟨port, hport, rfl, hpeer⟩ := (hown i n).mp hi
    obtain ⟨hvar, hout⟩ := h.outVar_of_isAscii (hv.ascii hor) i
    obtain ⟨port', hport', hmac⟩ := ht.macs i _ hi hk
    obtain rfl := Option.some.inj (hport.symm.trans hport')
    exact ⟨_, ruleMap_exit hs hout hmac, hvar ▸ .exit hor hport hpeer⟩

theorem ruleMap_of_labelled (h : Participating upper config sdx X c participant)
    (hv : Visits upper config sdx X c policy visited) (hown : OwnList X c own)
    (ht : TableOf sdx X c.ports own visited t) {n : ℕ} {map : Dict String Value}
    (hlabel : Labelled upper config X c policy n map) : ruleMap t n = some map := by
  cases hlabel with
  | @entrance Q n hne henter hfirst =>
    obtain ⟨-, hvar, hout⟩ := h.inVar_of_enters henter (hv.entered Q henter)
    have hs : t.port2State.get? n = some ("in" ++ Q) := (ht.states n _).mpr
      (Or.inl ⟨Q, h.owner_firstPort hfirst, hne, hv.first Q n henter hfirst, rfl⟩)
    rw [ruleMap_entrance hs hout, hvar]
  | @exit i port hor hport hpeer =>
    obtain ⟨hvar, hout⟩ := h.outVar_of_isAscii (hv.ascii hor) i
    have hi : own[i]? = some port.id := (hown i _).mpr ⟨port, hport, rfl, hpeer⟩
    have hs : t.port2State.get? port.id = some ("out" ++ X ++ "_" ++ toString i) :=
      (ht.states _ _).mpr (Or.inr ⟨hv.own.mpr hor, i, hi, rfl⟩)
    obtain ⟨port', hport', hmac⟩ := ht.macs i _ hi (hv.own.mpr hor)
    obtain rfl := Option.some.inj (hport.symm.trans hport')
    rw [ruleMap_exit hs hout hmac, hvar]

theorem table (h : Participating upper config sdx X c participant)
    (hpolicy : ForwardsLast (sdx.Forwards participant) policy)
    (hp : preVNH sdx X participant policy = some p) (hm : Hashing ℕ) :
    ∃ t, (hm.enum (extractAllForwardActionsFromPolicy p)).foldlM (addPortState sdx X) .init = some t ∧
      (∀ n ∈ t.port2State.keys, ∃ map, ruleMap t n = some map) ∧
      ∀ n map, Labelled upper config X c policy n map ↔ ruleMap t n = some map := by
  have hv := h.visits hpolicy hp hm
  obtain ⟨t, own, hown, hrun, ht⟩ := h.addPortStates_spec hv
  refine ⟨t, hrun, fun n hn => ?_, fun n map => ⟨h.ruleMap_of_labelled hv hown ht, fun hmap => ?_⟩⟩
  · obtain ⟨s, hs⟩ := Dict.mem_keys_iff.mp hn
    obtain ⟨map, hmap, -⟩ := h.labelled_of_state hv hown ht hs
    exact ⟨map, hmap⟩
  · obtain ⟨s, hs, -⟩ := Option.bind_eq_some_iff.mp hmap
    obtain ⟨map', hmap', hlabel⟩ := h.labelled_of_state hv hown ht hs
    exact Option.some.inj (hmap'.symm.trans hmap) ▸ hlabel

end Participating

theorem Participating.postVNH_spec (h : Participating upper config sdx X c participant)
    (hpolicy : ForwardsLast (sdx.Forwards participant) policy)
    (hp : preVNH sdx X participant policy = some p) (hm : Hashing ℕ) {ρ : Type*} [DecidableEq ρ]
    (H : Header ρ) :
    ∃ q, postVNH sdx X hm p = some q ∧ Relabels upper config X c policy H p q := by
  obtain ⟨t, ht, hrules, hlabelled⟩ := h.table hpolicy hp hm
  have hports : ∀ n ∈ hm.arrange t.port2State.keys, ∃ map, ruleMap t n = some map :=
    fun n hn => hrules n ((hm.mem_arrange _ n).mp hn)
  obtain ⟨pol, hpol, heval⟩ := addStateRules_spec H hports .drop
  refine ⟨.sequential [p, pol], by rw [postVNH, ht, Option.bind_some, hpol, Option.map_some],
    fun pkt out => ?_⟩
  rw [Policy.eval_sequential_cons, Finset.mem_biUnion]
  refine exists_congr fun mid => and_congr_right fun _ => ?_
  have hlast : out ∈ (Policy.sequential [pol]).eval H mid ↔ out ∈ pol.eval H mid := by
    rw [Policy.eval_sequential_cons, Finset.mem_biUnion]
    simp only [Policy.eval_sequential_nil, Finset.mem_singleton, exists_eq_right']
  rw [hlast, heval]
  constructor
  · rintro (hdrop | ⟨n, -, map, hmap, hport, hout⟩)
    · exact absurd hdrop (Finset.notMem_empty out)
    · exact ⟨n, map, (hlabelled n map).mpr hmap, hport, hout⟩
  · rintro ⟨n, map, hlabel, hport, hout⟩
    have hmap := (hlabelled n map).mp hlabel
    obtain ⟨s, hs, -⟩ := Option.bind_eq_some_iff.mp hmap
    have hn : n ∈ hm.arrange t.port2State.keys :=
      (hm.mem_arrange _ n).mpr (Dict.mem_keys_iff.mpr ⟨s, hs⟩)
    exact Or.inr ⟨n, hn, map, hmap, hport, hout⟩

end participating
end Hispar.VnhAssignment
