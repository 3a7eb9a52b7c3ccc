import Hispar.Exchange.Forwarding

/-!
# States as port numbers

The assignment of next hops reads forwarding actions as port numbers. One pass
turns the states that a policy sets into ports, another appends a table that
turns the ports of its forwarding actions back into states.
-/
namespace Hispar.VnhAssignment
open Library Exchange

section passes
variable (sdx : Exchange.SDX) (participantName : String) (participant : SDXParticipant)

def peerPort (peer : String) : Option ℕ :=
  (participant.peers.get? peer).bind fun vport =>
    (sdx.participants.get? vport.participant).bind fun p => p.physPorts.head?.map PhysicalPort.id

def statePort : Value → Option ℕ
  | .num _ => none
  | .text state =>
    let state := asciiIgnore state
    if Contains "in" state then (split "in" state)[1]?.bind (peerPort sdx participant)
    else (split ("out" ++ participantName ++ "_") state)[1]?.bind fun pn =>
      pn.toNat?.bind fun i => participant.physPorts[i]?.map PhysicalPort.id

def preVNHLeaf : Policy → Option Policy
  | .modify map =>
    match map.get? "state" with
    | some state => (statePort sdx participantName participant state).map .fwd
    | none => some (.modify map)
  | policy => some policy

def preVNH (policy : Policy) : Option Policy :=
  policy.traverse (preVNHLeaf sdx participantName participant)

mutual
def extractAllForwardActionsFromPolicy : Policy → Finset ℕ
  | .parallel policies => extractAllForwardActionsFromPolicies policies
  | .sequential policies => extractAllForwardActionsFromPolicies policies
  | .ifThenElse _ t f =>
    extractAllForwardActionsFromPolicy t ∪ extractAllForwardActionsFromPolicy f
  | .fwd outport => {outport}
  | _ => ∅

def extractAllForwardActionsFromPolicies : List Policy → Finset ℕ
  | [] => ∅
  | p :: policies =>
    extractAllForwardActionsFromPolicy p ∪ extractAllForwardActionsFromPolicies policies
end

structure PortStates where
  port2State : Dict ℕ String
  port2Mac : Dict ℕ String

def PortStates.init : PortStates := ⟨.empty, .empty⟩

def addOwnPort (peer : String) (t : PortStates) (port : ℕ × ℕ) : Option PortStates :=
  (sdx.sdxPorts.get? participantName).bind fun ports => ports[port.2]?.map fun sdxPort =>
    ⟨t.port2State.set port.1 ("out" ++ peer ++ "_" ++ toString port.2),
      t.port2Mac.set port.1 sdxPort.mac⟩

/-- A forwarding action to one own port adds all that the participant sees as its own. -/
def addPortState (t : PortStates) (port : ℕ) : Option PortStates :=
  (sdx.port2Participant.get? port).bind fun peer =>
    if ¬ IsAscii peer then none
    else if peer ≠ participantName then
      some { t with port2State := t.port2State.set port ("in" ++ peer) }
    else (sdx.participant2Port.get? participantName).bind fun seen => (seen.get? peer).bind fun ports =>
      ports.zipIdx.foldlM (addOwnPort sdx participantName peer) t

def stateRule (port : ℕ) (map : Dict String Value) : Policy :=
  .sequential [.matching (.single "outport" (.num port)), .modify map]

def addStateRule (t : PortStates) (pol : Policy) (port : ℕ) : Option Policy :=
  (t.port2State.get? port).bind fun state =>
    if Contains "out" state then (t.port2Mac.get? port).map fun mac =>
      .parallel [pol, stateRule port (exitMap state mac)]
    else some (.parallel [pol, stateRule port (entranceMap state)])

def postVNH (hm : Hashing ℕ) (policy : Policy) : Option Policy :=
  ((hm.enum (extractAllForwardActionsFromPolicy policy)).foldlM
      (addPortState sdx participantName) .init).bind fun t =>
    ((hm.arrange t.port2State.keys).foldlM (addStateRule t) .drop).map fun pol =>
      .sequential [policy, pol]

end passes

section first
variable {sdx : Exchange.SDX} {X : String} {participant : SDXParticipant} {p p' : Policy}

theorem preVNHLeaf_ordinary (h : Ordinary p) : preVNHLeaf sdx X participant p = some p := by
  cases p with
  | modify map =>
    have hnone : map.get? "state" = none := Dict.get?_eq_none.mpr h
    rw [preVNHLeaf, hnone]
  | _ => rfl

theorem preVNH_ordinary (h : p.Leaves Ordinary) : preVNH sdx X participant p = some p :=
  Policy.traverse_eq_self (h.imp fun _ => preVNHLeaf_ordinary)

theorem preVNHLeaf_marked {map : Dict String Value} (hstate : "state" ∈ map.keys)
    (h : preVNHLeaf sdx X participant (.modify map) = some p') : ∃ n, p' = .fwd n := by
  obtain ⟨state, hstate⟩ := Dict.mem_keys_iff.mp hstate
  rw [preVNHLeaf, hstate] at h
  obtain ⟨n, -, rfl⟩ := Option.map_eq_some_iff.mp h
  exact ⟨n, rfl⟩

theorem preVNH_chain {init : List Policy} (hinit : ∀ q ∈ init, q.Leaves Ordinary)
    (h : preVNH sdx X participant (.sequential (init ++ [p])) = some p') :
    ∃ last, preVNH sdx X participant p = some last ∧ p' = .sequential (init ++ [last]) := by
  obtain ⟨policies, hpolicies, rfl⟩ := Option.map_eq_some_iff.mp h
  have hrest : ∀ init : List Policy, (∀ q ∈ init, q.Leaves Ordinary) → ∀ policies,
      Policy.traverseList (preVNHLeaf sdx X participant) (init ++ [p]) = some policies →
      ∃ last, preVNH sdx X participant p = some last ∧ policies = init ++ [last] := by
    intro init
    induction init with
    | nil =>
      intro _ policies hpolicies
      obtain ⟨last, hlast, hpolicies⟩ := Option.bind_eq_some_iff.mp hpolicies
      exact ⟨last, hlast, (Option.some.inj hpolicies).symm⟩
    | cons q init ih =>
      intro hinit policies hpolicies
      obtain ⟨hq, hinit⟩ := List.forall_mem_cons.mp hinit
      obtain ⟨q', hq', hpolicies⟩ := Option.bind_eq_some_iff.mp hpolicies
      obtain ⟨rest, hrest, rfl⟩ := Option.map_eq_some_iff.mp hpolicies
      obtain rfl : q = q' := Option.some.inj ((preVNH_ordinary hq).symm.trans hq')
      obtain ⟨last, hlast, rfl⟩ := ih hinit rest hrest
      exact ⟨last, hlast, rfl⟩
  obtain ⟨last, hlast, rfl⟩ := hrest init hinit policies hpolicies
  exact ⟨last, hlast, rfl⟩

theorem preVNH_ifThenElse {pred t f : Policy} (hpred : pred.Leaves Ordinary)
    (h : preVNH sdx X participant (.ifThenElse pred t f) = some p') :
    ∃ t' f', preVNH sdx X participant t = some t' ∧ preVNH sdx X participant f = some f' ∧
      p' = .ifThenElse pred t' f' := by
  obtain ⟨pred', hpred', h⟩ := Option.bind_eq_some_iff.mp h
  obtain ⟨t', ht', h⟩ := Option.bind_eq_some_iff.mp h
  obtain ⟨f', hf', rfl⟩ := Option.map_eq_some_iff.mp h
  obtain rfl : pred = pred' := Option.some.inj ((preVNH_ordinary hpred).symm.trans hpred')
  exact ⟨t', f', ht', hf', rfl⟩

section eval
variable {ρ : Type*} [DecidableEq ρ] {H : Header ρ} {isFwd : Policy → Prop} {pkt q : Frame ρ}

/-- What the policy with ports does: where the policy forwards, the packet that was given to
the `sdx.fwd` goes to the port for it. -/
theorem mem_eval_preVNH (h : ForwardsLast isFwd p)
    (hfwd : ∀ q, isFwd q → ∃ map, q = .modify map ∧ "state" ∈ map.keys)
    (hpre : preVNH sdx X participant p = some p') :
    q ∈ p'.eval H pkt ↔ (q, none) ∈ p.marked H pkt ∨ ∃ out map before n,
      (out, some (map, before)) ∈ p.marked H pkt ∧
      preVNHLeaf sdx X participant (.modify map) = some (.fwd n) ∧
      q = before.write H "outport" (.num n) := by
  induction h generalizing p' pkt with
  | forward hp =>
    obtain ⟨map, rfl, hstate⟩ := hfwd _ hp
    have hleaf : (Policy.modify map).IsLeaf := trivial
    rw [preVNH, Policy.traverse_leaf hleaf] at hpre
    obtain ⟨n, rfl⟩ := preVNHLeaf_marked hstate hpre
    rw [marked_forward hstate]
    constructor
    · intro hq
      exact Or.inr ⟨_, map, pkt, n, Finset.mem_singleton_self _, hpre, Finset.mem_singleton.mp hq⟩
    · rintro (hq | ⟨out, map', before, n', hmem, hpre', rfl⟩)
      · cases Finset.mem_singleton.mp hq
      · obtain ⟨-, hmark⟩ := Prod.mk.inj (Finset.mem_singleton.mp hmem)
        obtain ⟨rfl, rfl⟩ := Prod.mk.inj (Option.some.inj hmark)
        obtain rfl := Policy.fwd.inj (Option.some.inj (hpre.symm.trans hpre'))
        exact Finset.mem_singleton_self _
  | ordinary hp =>
    obtain rfl := Option.some.inj ((preVNH_ordinary hp).symm.trans hpre)
    simp only [mem_marked_ordinary hp]
    simp
  | @parallel policies _ ih =>
    obtain ⟨policies', hpolicies, rfl⟩ := Option.map_eq_some_iff.mp hpre
    rw [Policy.mem_eval_parallel, Runs.exists_iff_of_forall₂ (Policy.traverseList_eq_some.mp hpolicies)
      fun p hp p' hp' => ih p hp hp']
    simp only [Policy.marked, Policy.mem_trace_parallel]
    constructor
    · rintro ⟨p, hp, hq | ⟨out, map, before, n, hmem, hn, hq⟩⟩
      · exact Or.inl ⟨p, hp, hq⟩
      · exact Or.inr ⟨out, map, before, n, ⟨p, hp, hmem⟩, hn, hq⟩
    · rintro (⟨p, hp, hq⟩ | ⟨out, map, before, n, ⟨p, hp, hmem⟩, hn, hq⟩)
      · exact ⟨p, hp, Or.inl hq⟩
      · exact ⟨p, hp, Or.inr ⟨out, map, before, n, hmem, hn, hq⟩⟩
  | sequential hinit _ ih =>
    obtain ⟨last, hlast, rfl⟩ := preVNH_chain hinit hpre
    simp only [Policy.mem_eval_chain, mem_marked_chain hinit, ih hlast]
    constructor
    · rintro ⟨mid, hmid, hq | ⟨out, map, before, n, hmem, hn, hq⟩⟩
      · exact Or.inl ⟨mid, hmid, hq⟩
      · exact Or.inr ⟨out, map, before, n, ⟨mid, hmid, hmem⟩, hn, hq⟩
    · rintro (⟨mid, hmid, hq⟩ | ⟨out, map, before, n, ⟨mid, hmid, hmem⟩, hn, hq⟩)
      · exact ⟨mid, hmid, Or.inl hq⟩
      · exact ⟨mid, hmid, Or.inr ⟨out, map, before, n, hmem, hn, hq⟩⟩
  | ifThenElse hpred _ _ iht ihf =>
    obtain ⟨t', f', ht', hf', rfl⟩ := preVNH_ifThenElse hpred hpre
    rw [Policy.eval_ifThenElse, marked_ifThenElse hpred]
    split_ifs
    · exact ihf hf'
    · exact iht ht'

end eval

theorem extractAll_members (policies : List Policy) (n : ℕ) :
    n ∈ extractAllForwardActionsFromPolicies policies ↔
      ∃ p ∈ policies, n ∈ extractAllForwardActionsFromPolicy p := by
  induction policies with
  | nil => simp [extractAllForwardActionsFromPolicies]
  | cons p policies ih =>
    rw [extractAllForwardActionsFromPolicies, Finset.mem_union, ih, List.exists_mem_cons_iff]

theorem extractAll_ordinary (h : p.Leaves Ordinary) (n : ℕ) :
    n ∉ extractAllForwardActionsFromPolicy p := by
  induction p using Policy.leafInduct with
  | leaf p hleaf =>
    have hordinary := (Policy.leaves_leaf hleaf).mp h
    cases p with
    | fwd => exact hordinary.elim
    | parallel | sequential | ifThenElse => exact hleaf.elim
    | _ => exact Finset.notMem_empty n
  | parallel policies ih =>
    rw [extractAllForwardActionsFromPolicy, extractAll_members]
    rintro ⟨p, hp, hn⟩
    exact ih p hp (Policy.leavesList_iff.mp h p hp) hn
  | sequential policies ih =>
    rw [extractAllForwardActionsFromPolicy, extractAll_members]
    rintro ⟨p, hp, hn⟩
    exact ih p hp (Policy.leavesList_iff.mp h p hp) hn
  | ifThenElse pred t f _ ht hf =>
    rw [extractAllForwardActionsFromPolicy, Finset.mem_union, not_or]
    exact ⟨ht h.2.1, hf h.2.2⟩

theorem no_port_of_ordinary (h : p.Leaves Ordinary) (n : ℕ) :
    ¬ ∃ leaf, Occurs leaf p ∧ preVNHLeaf sdx X participant leaf = some (.fwd n) := by
  rintro ⟨leaf, hleaf, hn⟩
  have hordinary := leaves_iff_occurs.mp h leaf hleaf
  rw [preVNHLeaf_ordinary hordinary, Option.some.injEq] at hn
  rw [hn] at hordinary
  exact hordinary

theorem mem_extractAll_preVNH {isFwd : Policy → Prop} (h : ForwardsLast isFwd p)
    (hfwd : ∀ q, isFwd q → ∃ map, q = .modify map ∧ "state" ∈ map.keys)
    (hpre : preVNH sdx X participant p = some p') (n : ℕ) :
    n ∈ extractAllForwardActionsFromPolicy p' ↔
      ∃ leaf, Occurs leaf p ∧ preVNHLeaf sdx X participant leaf = some (.fwd n) := by
  have hswap : ∀ policies : List Policy, (∃ leaf, (∃ p ∈ policies, Occurs leaf p) ∧
      preVNHLeaf sdx X participant leaf = some (.fwd n)) ↔
      ∃ p ∈ policies, ∃ leaf, Occurs leaf p ∧
        preVNHLeaf sdx X participant leaf = some (.fwd n) := by
    intro policies
    constructor
    · rintro ⟨leaf, ⟨p, hp, hleaf⟩, hn⟩
      exact ⟨p, hp, leaf, hleaf, hn⟩
    · rintro ⟨p, hp, leaf, hleaf, hn⟩
      exact ⟨leaf, ⟨p, hp, hleaf⟩, hn⟩
  induction h generalizing p' with
  | forward hp =>
    obtain ⟨map, rfl, hstate⟩ := hfwd _ hp
    have hleaf : (Policy.modify map).IsLeaf := trivial
    rw [preVNH, Policy.traverse_leaf hleaf] at hpre
    obtain ⟨m, rfl⟩ := preVNHLeaf_marked hstate hpre
    simp only [occurs_leaf hleaf, exists_eq_left, hpre, extractAllForwardActionsFromPolicy,
      Finset.mem_singleton, Option.some.injEq, Policy.fwd.injEq, eq_comm]
  | ordinary hp =>
    obtain rfl := Option.some.inj ((preVNH_ordinary hp).symm.trans hpre)
    exact iff_of_false (extractAll_ordinary hp n) (no_port_of_ordinary hp n)
  | @parallel policies _ ih =>
    obtain ⟨policies', hpolicies, rfl⟩ := Option.map_eq_some_iff.mp hpre
    simp only [occurs_parallel, hswap]
    rw [extractAllForwardActionsFromPolicy, extractAll_members]
    exact Runs.exists_iff_of_forall₂ (Policy.traverseList_eq_some.mp hpolicies)
      fun p hp p' hp' => ih p hp hp'
  | @sequential init last hinit _ ih =>
    obtain ⟨last', hlast, rfl⟩ := preVNH_chain hinit hpre
    simp only [occurs_sequential, hswap]
    rw [extractAllForwardActionsFromPolicy, extractAll_members]
    constructor
    · rintro ⟨q, hq, hn⟩
      rcases List.mem_append.mp hq with hq | hq
      · exact absurd hn (extractAll_ordinary (hinit q hq) n)
      · rw [List.mem_singleton.mp hq] at hn
        exact ⟨last, List.mem_append_right _ List.mem_cons_self, (ih hlast).mp hn⟩
    · rintro ⟨q, hq, hn⟩
      rcases List.mem_append.mp hq with hq | hq
      · exact absurd hn (no_port_of_ordinary (hinit q hq) n)
      · rw [List.mem_singleton.mp hq] at hn
        exact ⟨last', List.mem_append_right _ List.mem_cons_self, (ih hlast).mpr hn⟩
  | ifThenElse hpred _ _ iht ihf =>
    obtain ⟨t', f', ht', hf', rfl⟩ := preVNH_ifThenElse hpred hpre
    rw [extractAllForwardActionsFromPolicy, Finset.mem_union]
    simp only [occurs_ifThenElse, or_and_right, exists_or]
    rw [or_iff_right (no_port_of_ordinary hpred n)]
    exact or_congr (iht ht') (ihf hf')

end first
end Hispar.VnhAssignment
