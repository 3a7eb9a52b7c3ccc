import Hispar.Bgp.Interface
import Hispar.Exchange.Policy
import Hispar.SetOperations.Parallel

/-!
# The prefix sets of the policies

A walk over each policy collects a prefix set for every forwarding action. The
accumulator that should carry the set of a preceding `match_prefixes_set` is
assigned in the call for that leaf only, so the next member of the chain does
not see it.
-/
namespace Hispar.VnhAssignment
open Library Exchange SetOperations

/-- What the passes over the policies read of an SDX object. -/
structure Setting where
  sdx : Exchange.SDX
  rsClients : Bgp.Participants

def getFwdPeer (peers : Dict String (List ℕ)) (ind : ℕ) : String :=
  ((peers.items.find? fun kv => ind ∈ kv.2).map Prod.fst).getD ""

def Setting.announcedBy (s : Setting) (part : String) (outport : ℕ) : Option (List String) :=
  (s.sdx.participant2Port.get? part).bind fun peers =>
    Bgp.bgpGetAnnouncedRoutes s.rsClients (getFwdPeer peers outport)

section walk
variable (s : Setting) (part : String)

mutual
def getPrefix : Policy → List String → List (List String) → Option (Policy × List (List String))
  | .parallel policies, _, pfxlist => getPrefixes policies [] (.parallel policies) pfxlist
  | .sequential policies, _, pfxlist => getPrefixes policies [] (.sequential policies) pfxlist
  | .ifThenElse pred t f, acc, pfxlist =>
    (getPrefix pred acc pfxlist).bind fun r₁ => (getPrefix t acc r₁.2).bind fun r₂ =>
      (getPrefix f acc r₂.2).map fun r₃ => (.ifThenElse r₁.1 r₂.1 r₃.1, r₃.2)
  | .fwd outport, acc, pfxlist =>
    (if acc.length = 0 then s.announcedBy part outport else some acc).map fun acc =>
      (.fwd outport, pfxlist ++ [acc])
  -- a match assigns the accumulator of its own call, which ends here
  | policy, _, pfxlist => some (policy, pfxlist)

def getPrefixes : List Policy → List String → Policy → List (List String) →
    Option (Policy × List (List String))
  | [], _, policy, pfxlist => some (policy, pfxlist)
  | pol :: policies, acc, _, pfxlist =>
    (getPrefix pol acc pfxlist).bind fun r => getPrefixes policies acc r.1 r.2
end

end walk

def collected (s : Setting) (policies : Dict String Policy) (participant : String) :
    Option (List (List String)) :=
  (policies.get? participant).bind fun policy =>
    (getPrefix s participant policy [] []).map fun r => r.2.filter fun item => !item.isEmpty

def getPart2prefixes (hκ : DictOrder Key) (s : Setting) (policies : Dict String Policy) :
    Option (Part2Prefix Key String) :=
  (s.sdx.participants.keys.mapM fun participant => (collected s policies participant).map
    (Key.str participant, ·)).map fun l => Dict.ofItems hκ
      ((l.filter fun kv => !kv.2.isEmpty).map fun kv => (kv.1, kv.2.map Coll.list))

variable {s : Setting} {part : String}

theorem getPrefix_spec (policy : Policy) (pfxlist : List (List String)) :
    (getPrefix s part policy [] pfxlist).map Prod.snd =
      (policy.outports.mapM (s.announcedBy part)).map (pfxlist ++ ·) := by
  have hloop : ∀ (policies : List Policy), (∀ p ∈ policies, ∀ pfxlist,
      (getPrefix s part p [] pfxlist).map Prod.snd =
        (p.outports.mapM (s.announcedBy part)).map (pfxlist ++ ·)) → ∀ policy pfxlist,
      (getPrefixes s part policies [] policy pfxlist).map Prod.snd =
        ((Policy.outportsList policies).mapM (s.announcedBy part)).map (pfxlist ++ ·) := by
    intro policies
    induction policies with
    | nil => intro _ policy pfxlist; simp [getPrefixes, Policy.outportsList]
    | cons p policies ih =>
      intro h policy pfxlist
      have hp := h p List.mem_cons_self pfxlist
      rw [getPrefixes, Policy.outportsList, List.mapM_append]
      cases hr : getPrefix s part p [] pfxlist with
      | none =>
        rw [hr, Option.map_none, eq_comm, Option.map_eq_none_iff] at hp
        simp [hp]
      | some r =>
        rw [hr, Option.map_some, eq_comm, Option.map_eq_some_iff] at hp
        obtain ⟨l, hl, hr₂⟩ := hp
        rw [Option.bind_some, ih (fun q hq => h q (List.mem_cons_of_mem p hq)), hl, ← hr₂]
        cases (Policy.outportsList policies).mapM (s.announcedBy part) <;> simp
  induction policy generalizing pfxlist with
  | parallel policies ih => exact hloop policies ih _ _
  | sequential policies ih => exact hloop policies ih _ _
  | ifThenElse pred t f hpred ht hf =>
    have h := hloop [pred, t, f] (by simpa using ⟨hpred, ht, hf⟩) .drop pfxlist
    have hports : Policy.outportsList [pred, t, f] = (Policy.ifThenElse pred t f).outports := by
      simp [Policy.outportsList, Policy.outports]
    rw [← hports, ← h]
    simp [getPrefix, getPrefixes, Option.map_bind, Function.comp_def]
  | fwd outport =>
    cases hports : s.announcedBy part outport <;> simp [getPrefix, Policy.outports, hports]
  | _ => simp [getPrefix, Policy.outports]

mutual
/-- The forwarding actions, each with the set of the nearest `match_prefixes_set`
before it in its own chain. -/
def forwardings (last : Option (Finset String)) : Policy → List (Option (Finset String) × ℕ)
  | .fwd outport => [(last, outport)]
  | .parallel policies => forwardingsList none policies
  | .sequential policies => forwardingsChain none policies
  | .ifThenElse pred t f => forwardings none pred ++ forwardings none t ++ forwardings none f
  | _ => []

def forwardingsList (last : Option (Finset String)) :
    List Policy → List (Option (Finset String) × ℕ)
  | [] => []
  | p :: policies => forwardings last p ++ forwardingsList last policies

def forwardingsChain (last : Option (Finset String)) :
    List Policy → List (Option (Finset String) × ℕ)
  | [] => []
  | .matchPrefixesSet pfxes :: policies => forwardingsChain (some pfxes) policies
  | p :: policies => forwardings last p ++ forwardingsChain last policies
end

/-- The list has the prefixes of the set, where there is one, and else those the peer announced. -/
def Selects (s : Setting) (part : String) (f : Option (Finset String) × ℕ) (acc : List String) :
    Prop :=
  match f.1 with
  | some pfxes => acc.toFinset = pfxes
  | none => s.announcedBy part f.2 = some acc

theorem map_snd_forwardings (policy : Policy) (last : Option (Finset String)) :
    (forwardings last policy).map Prod.snd = policy.outports := by
  induction policy generalizing last with
  | parallel policies ih =>
    have hlist : ∀ ps : List Policy, (∀ p ∈ ps, ∀ last,
        (forwardings last p).map Prod.snd = p.outports) → ∀ last,
        (forwardingsList last ps).map Prod.snd = Policy.outportsList ps := by
      intro ps
      induction ps with
      | nil => intro _ _; rfl
      | cons p ps ihps =>
        intro h last
        rw [forwardingsList, List.map_append, h p List.mem_cons_self,
          ihps fun q hq => h q (List.mem_cons_of_mem p hq), Policy.outportsList]
    exact hlist policies ih none
  | sequential policies ih =>
    have hchain : ∀ ps : List Policy, (∀ p ∈ ps, ∀ last,
        (forwardings last p).map Prod.snd = p.outports) → ∀ last,
        (forwardingsChain last ps).map Prod.snd = Policy.outportsList ps := by
      intro ps
      induction ps with
      | nil => intro _ _; rfl
      | cons p ps ihps =>
        intro h last
        have hps := ihps fun q hq => h q (List.mem_cons_of_mem p hq)
        have hp := h p List.mem_cons_self
        cases p
        case matchPrefixesSet pfxes => exact hps _
        all_goals
          rw [forwardingsChain, List.map_append, hp, hps, Policy.outportsList]
          exact fun pfxes he => Policy.noConfusion he
    exact hchain policies ih none
  | ifThenElse pred t f hpred ht hf =>
    rw [forwardings, List.map_append, List.map_append, hpred, ht, hf, Policy.outports]
  | fwd outport => rfl
  | _ => rfl

/-- The walk appends one list for each forwarding action, and they are the right
ones exactly when no set in front of a forwarding action differs from what the
peer behind the port announced. -/
theorem getPrefix_selects_iff (s : Setting) (part : String) (policy : Policy)
    (pfxlist : List (List String)) :
    (∃ policy' accs, getPrefix s part policy [] pfxlist = some (policy', pfxlist ++ accs) ∧
      List.Forall₂ (Selects s part) (forwardings none policy) accs) ↔
    ∀ f ∈ forwardings none policy, ∃ announced, s.announcedBy part f.2 = some announced ∧
      ∀ pfxes, f.1 = some pfxes → announced.toFinset = pfxes := by
  have hspec := @getPrefix_spec s part policy pfxlist
  rw [← map_snd_forwardings policy none, List.mapM_map] at hspec
  have hselects : ∀ f acc, s.announcedBy part f.2 = some acc →
      (Selects s part f acc ↔ ∀ pfxes, f.1 = some pfxes → acc.toFinset = pfxes) := by
    rintro ⟨last, outport⟩ acc hacc
    cases last with
    | none => simpa [Selects] using hacc
    | some pfxes => simp [Selects]
  have hiff : (∃ accs, (forwardings none policy).mapM (fun f => s.announcedBy part f.2) = some accs ∧
      List.Forall₂ (Selects s part) (forwardings none policy) accs) ↔
      ∀ f ∈ forwardings none policy, ∃ announced, s.announcedBy part f.2 = some announced ∧
        ∀ pfxes, f.1 = some pfxes → announced.toFinset = pfxes := by
    rw [Runs.mapM_forall₂_iff]
    refine forall₂_congr fun f _ => exists_congr fun acc => and_congr_right fun hacc => ?_
    exact hselects f acc hacc
  rw [← hiff]
  constructor
  · rintro ⟨policy', accs, hrun, hall⟩
    rw [hrun, Option.map_some, eq_comm, Option.map_eq_some_iff] at hspec
    obtain ⟨accs', haccs, he⟩ := hspec
    obtain rfl := List.append_cancel_left he
    exact ⟨accs', haccs, hall⟩
  · rintro ⟨accs, haccs, hall⟩
    have haccs' : (forwardings none policy).mapM (s.announcedBy part ∘ Prod.snd) = some accs := haccs
    rw [haccs', Option.map_some, Option.map_eq_some_iff] at hspec
    obtain ⟨r, hr, he⟩ := hspec
    exact ⟨r.1, accs, by rw [hr, ← he], hall⟩

def twoParticipants : Setting where
  sdx := (sdxParseConfig id
    ⟨[("A", ⟨[⟨1, "08:00:27:89:3b:9f", "172.0.0.1"⟩], ["B"]⟩),
      ("B", ⟨[⟨2, "08:00:27:92:18:1f", "172.0.0.2"⟩], ["A"]⟩)], by decide⟩).getD .init
  rsClients := ⟨[("A", .init ["172.0.0.1"]), ("B", ⟨["172.0.0.2"],
    [⟨"10.0.0.0/8", "172.0.0.2", "igp", "200", .int 0, some false⟩,
      ⟨"20.0.0.0/8", "172.0.0.2", "igp", "200", .int 0, some false⟩], []⟩)], by decide⟩

def restrictedToOne : Policy := .sequential [.matchPrefixesSet {"10.0.0.0/8"}, .fwd 2]

theorem getPrefix_restrictedToOne : ∃ policy',
    getPrefix twoParticipants "A" restrictedToOne [] [] =
      some (policy', [["10.0.0.0/8", "20.0.0.0/8"]]) ∧
    ¬ List.Forall₂ (Selects twoParticipants "A") (forwardings none restrictedToOne)
      [["10.0.0.0/8", "20.0.0.0/8"]] := by
  have hrun : (getPrefix twoParticipants "A" restrictedToOne [] []).map Prod.snd =
      some [["10.0.0.0/8", "20.0.0.0/8"]] := by decide
  obtain ⟨⟨policy', accs⟩, hr, rfl⟩ := Option.map_eq_some_iff.mp hrun
  refine ⟨policy', hr, fun hall => ?_⟩
  have hselects := (List.forall₂_cons.mp hall).1
  exact absurd hselects (by unfold Selects; decide)

end Hispar.VnhAssignment
