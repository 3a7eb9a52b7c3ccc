import Hispar.VnhAssignment.Lookup
import Hispar.VnhAssignment.Rules

/-!
# From the policies to what is installed

The whole of `vnh_assignment`: the sets are decomposed, the groups get addresses, and
every policy is expanded, translated to these addresses and put in front of the
participant's default routes. On packets that carry the address of a group of the
participant, the result sends where the rules of the policy say, and where no rule takes
the packet, where the default routes say.
-/
namespace Hispar.VnhAssignment
open Library Library.Atoms Exchange SetOperations

section assignment
variable (hα : Hashing String) (hκ : DictOrder Key) (hm : Hashing ℕ) (s : Setting)

/-- Step 5 for all participants in turn. Each policy is replaced before the next is read. -/
def step5 (tables : SDX String) (policies : Dict String Policy) (shared : List String) :
    Option (Dict String Policy × List String) :=
  s.sdx.participants.keys.foldlM (fun acc participant => (acc.1.get? participant).bind fun policy =>
    (step5a s policy participant false acc.2).bind fun r =>
      (step5b hα hm s tables r.1 participant).map fun p => (acc.1.set participant p, r.2))
    (policies, shared)

def vnhAssignment (policies : Dict String Policy) (old : Assigned) (shared : List String) :
    Option Assigned :=
  (participant2Prefix hκ s policies).bind fun p2p =>
    let part2prefixOld := p2p.items.foldl (fun d kv => d.set kv.1 kv.2) old.part2prefixOld
    if p2p.items.isEmpty then
      some { old with
        part2prefixOld
        expanded := s.sdx.participants.keys.foldl (fun d participant => d.set participant .drop)
          policies }
    else (lcsParallel hα hκ p2p.keys.length p2p).bind fun r =>
      (step4 hα r.1 r.2 old.tables).bind fun tables =>
        if tables.part2VNH.items.isEmpty then some ⟨part2prefixOld, r.1, r.2, tables, policies⟩
        else (step5 hα hm s tables policies shared).map fun e =>
          ⟨part2prefixOld, r.1, r.2, tables, e.1⟩

end assignment

def Setting.portTo (s : Setting) (X Q : String) : Option ℕ :=
  (s.sdx.participant2Port.get? X).bind fun ports => (ports.get? Q).bind List.head?

section meaning
variable {ρ : Type*} [DecidableEq ρ] (H : Header ρ)

/-- Where the rules send the packet, or else the default routes. -/
def Delivers (s : Setting) (X : String) (policy : Policy) (bestRoutes : Dict String (List String))
    (pkt out : Frame ρ) : Prop :=
  (∃ rule ∈ rules policy, rule.Takes H s X pkt ∧
      out = pkt.write H "outport" (.num rule.outport)) ∨
    (∀ rule ∈ rules policy, ¬ rule.Takes H s X pkt) ∧
      ∃ Q l n, bestRoutes.get? Q = some l ∧ H.prefixOf pkt.header ∈ l ∧ s.portTo X Q = some n ∧
        out = pkt.write H "outport" (.num n)

end meaning

section defaults
variable {ρ : Type*} [DecidableEq ρ] {H : Header ρ} {s : Setting} {X : String}
  {bestRoutes : Dict String (List String)}

theorem bestRoutes_keys {sdx : Exchange.SDX} {rib : Bgp.Rib} {peers : List String}
    {start : Dict String (List String)}
    (h : peers.foldlM (Bgp.addPeerRoutes sdx rib) start = some bestRoutes) :
    ∀ Q ∈ bestRoutes.keys, Q ∈ start.keys ∨ Q ∈ peers := by
  have hport : ∀ (name : String) (ports : List PhysicalPort) (best : Dict String (List String)),
      ∀ Q ∈ (ports.foldl (Bgp.addPortRoutes rib name) best).keys, Q ∈ best.keys ∨ Q = name := by
    intro name ports
    induction ports with
    | nil => exact fun best Q hQ => Or.inl hQ
    | cons port ports ih =>
      intro best Q hQ
      rcases ih _ Q hQ with hQ | hQ
      · simp only [Bgp.addPortRoutes] at hQ
        split_ifs at hQ
        · exact Or.inl hQ
        · rw [Dict.mem_keys_set] at hQ
          exact hQ.symm
      · exact Or.inr hQ
  induction peers generalizing start with
  | nil =>
    obtain rfl := Option.some.inj h
    exact fun Q hQ => Or.inl hQ
  | cons name peers ih =>
    rw [List.foldlM_cons] at h
    obtain ⟨best₁, h₁, h⟩ := Option.bind_eq_some_iff.mp h
    obtain ⟨ports, -, rfl⟩ := Option.map_eq_some_iff.mp h₁
    intro Q hQ
    rcases ih h Q hQ with hQ | hQ
    · rcases hport name ports start Q hQ with hQ | rfl
      · exact Or.inl hQ
      · exact Or.inr List.mem_cons_self
    · exact Or.inr (List.mem_cons_of_mem name hQ)

theorem Installed.portTo {upper : String → String} {config : Dict String ParticipantConfig}
    {policies : Dict String Policy} (h : Installed upper config s policies) (hX : X ∈ config.keys)
    (hbest : Bgp.bgpGetBestRoutes s.sdx s.rsClients X = some bestRoutes) :
    ∀ Q ∈ bestRoutes.keys, IsAscii Q ∧ ∃ n, s.portTo X Q = some n := by
  have hparsed := sdxParseConfig_parsed h.parsed
  obtain ⟨c, hc⟩ := Dict.mem_keys_iff.mp hX
  obtain ⟨participant, best, hpart, hbest', hfold⟩ :=
    Bgp.bgpGetBestRoutes_total hparsed h.clients hX
  obtain rfl : bestRoutes = best := Option.some.inj (hbest.symm.trans hbest')
  obtain ⟨participant', hpart', hconf⟩ := hparsed.configured X c hc
  obtain rfl := Option.some.inj (hpart.symm.trans hpart')
  obtain ⟨peers, hpeers, hseen⟩ := sdxParseConfig_participant2Port h.parsed hc
  intro Q hQ
  have hpeer : Q ∈ c.peers := by
    rcases bestRoutes_keys hfold Q hQ with hQ | hQ
    · exact absurd hQ List.not_mem_nil
    · exact (hconf.peers Q).mp hQ
  have hQ : Q ∈ config.keys := hparsed.peers X c hc Q hpeer
  obtain ⟨e, he⟩ := Dict.mem_keys_iff.mp hQ
  obtain ⟨first, hfirst⟩ := sdxParseConfig_ports h.parsed he
  refine ⟨h.ascii Q hQ, first.id, ?_⟩
  rw [Setting.portTo, hpeers, Option.bind_some, hseen, seenPorts, if_pos hpeer, he, Option.bind_some,
    hfirst]
  rfl

theorem getDefaultForwardingPolicy_spec
    (hports : ∀ Q ∈ bestRoutes.keys, IsAscii Q ∧ ∃ n, s.portTo X Q = some n) :
    ∃ p, getDefaultForwardingPolicy bestRoutes X s.sdx.participant2Port = some p ∧ Plain p ∧
      (∀ S ∈ p.prefixSets, ∃ Q l, bestRoutes.get? Q = some l ∧ S = l.toFinset) ∧
      ∀ pkt out : Frame ρ, out ∈ p.eval H pkt ↔ ∃ Q l n, bestRoutes.get? Q = some l ∧
        H.prefixOf pkt.header ∈ l ∧ s.portTo X Q = some n ∧
        out = pkt.write H "outport" (.num n) := by
  let send : String × List String → Policy := fun kv =>
    .sequential [.matchPrefixesSet kv.2.toFinset, .fwd ((s.portTo X kv.1).getD 0)]
  have hsend : ∀ kv ∈ bestRoutes.items, (if ¬ IsAscii kv.1 then none
      else (s.sdx.participant2Port.get? X).bind fun ports =>
        ((ports.get? kv.1).bind List.head?).map fun port =>
          Policy.sequential [.matchPrefixesSet kv.2.toFinset, .fwd port]) = some (send kv) := by
    intro kv hkv
    obtain ⟨hascii, n, hn⟩ := hports kv.1 (List.mem_map_of_mem hkv)
    obtain ⟨ports, hp, hhead⟩ := Option.bind_eq_some_iff.mp hn
    rw [if_neg (not_not_intro hascii), hp, Option.bind_some, hhead, Option.map_some]
    simp only [send, hn, Option.getD_some]
  refine ⟨.parallel (bestRoutes.items.map send), by
    rw [getDefaultForwardingPolicy, Runs.mapM_eq_map hsend, Option.map_some], ?_, fun S hS => ?_,
    fun pkt out => ?_⟩
  · refine Policy.leavesList_iff.mpr fun p hp => ?_
    obtain ⟨kv, -, rfl⟩ := List.mem_map.mp hp
    exact ⟨trivial, trivial, trivial⟩
  · rw [Policy.prefixSets, Policy.prefixSetsList_eq] at hS
    obtain ⟨p, hp, hS⟩ := List.mem_flatMap.mp hS
    obtain ⟨kv, hkv, rfl⟩ := List.mem_map.mp hp
    obtain rfl := List.mem_singleton.mp hS
    exact ⟨kv.1, kv.2, Dict.get?_eq_some.mpr hkv, rfl⟩
  · rw [Policy.mem_eval_parallel]
    constructor
    · rintro ⟨p, hp, hout⟩
      obtain ⟨kv, hkv, rfl⟩ := List.mem_map.mp hp
      obtain ⟨-, n, hn⟩ := hports kv.1 (List.mem_map_of_mem hkv)
      rw [eval_guard] at hout
      split_ifs at hout with hpfx
      · rw [Finset.mem_singleton, hn, Option.getD_some] at hout
        exact ⟨kv.1, kv.2, n, Dict.get?_eq_some.mpr hkv, hpfx, hn, hout⟩
      · exact absurd hout (Finset.notMem_empty out)
    · rintro ⟨Q, l, n, hl, hpfx, hn, rfl⟩
      refine ⟨_, List.mem_map_of_mem (Dict.get?_eq_some.mp hl), ?_⟩
      rw [eval_guard, if_pos hpfx, hn, Option.getD_some]
      exact Finset.mem_singleton_self _

end defaults

section vnhops
variable {ρ : Type*} [DecidableEq ρ] {H : Header ρ} {hα : Hashing String} {hm : Hashing ℕ}
  {sdx : SDX String} {X : String} {groups : Dict String (Coll String)} {policy p : Policy}

theorem plain_of_rules {s : Setting} {p : Policy} (hp : MadeOfRules p) {a : Accs} {r : Policy × Accs}
    (h : step5aExpandPolicyWithPrefixes s X p a = some r) : Plain r.1 := by
  induction p, hp using rulesInduct generalizing a r with
  | rule policies rule hrule =>
    obtain ⟨last, hlast, hguard⟩ := step5aExpand_rule hrule h
    rw [hlast]
    refine Policy.leavesList_iff.mpr fun q hq => ?_
    rcases List.mem_append.mp hq with hq | hq
    · have htest := (chainRule_spec hrule).2 q hq
      cases q with
      | matching map => trivial
      | matchPrefixesSet pfxes => trivial
      | _ => exact absurd htest Bool.false_ne_true
    · obtain rfl := List.mem_singleton.mp hq
      rcases hguard with ⟨-, rfl⟩ | ⟨-, routes, -, rfl⟩
      · trivial
      · exact ⟨trivial, trivial, trivial⟩
  | parallel policies hne hall ih =>
    obtain ⟨r, hr, rfl⟩ := Option.map_eq_some_iff.mp h
    refine Policy.leavesList_iff.mpr fun p' hp' => ?_
    obtain ⟨p, hmem, a, r, hr, rfl⟩ := Runs.exists_of_forall₂ (step5aExpandAll_forall₂ hr).flip hp'
    exact ih p hmem hr

end vnhops

section install
variable {ρ : Type*} [DecidableEq ρ] {H : Header ρ} {hα : Hashing String} {hm : Hashing ℕ}
  {s : Setting} {tables : SDX String} {X : String}

theorem step5b_of_decided {policy p bgp : Policy} (hX : X ∈ s.sdx.participants.keys)
    (hexp : step5bExpandPolicyWithVnhop hα hm tables X policy = some p) (hp : Decided H p)
    (hbgp : defaultVnhopPolicy hα hm s tables X = some bgp) :
    ∃ r, step5b hα hm s tables policy X = some r ∧ ∀ pkt, r.eval H pkt =
      if p.eval H pkt = ∅ then bgp.eval H pkt else p.eval H pkt := by
  have hspec := extractAllMatches_spec (H := H) p
  rw [Extracted] at hspec
  simp only [step5b, hexp, Option.bind_some, hX, if_true]
  cases ho : extractAllMatchesFromPolicy p with
  | none =>
    rw [ho] at hspec
    exact absurd hp.first hspec
  | some o =>
    rw [ho] at hspec
    cases o with
    | none => exact absurd (hp.matched.symm.trans hspec.2) (Bool.false_ne_true ·.symm)
    | some q =>
      refine ⟨.ifThenElse q p bgp, by rw [Option.bind_some, hbgp]; rfl, fun pkt => ?_⟩
      rw [Policy.eval_ifThenElse, hspec.2.2]
      exact if_congr (hp.takes pkt) rfl rfl

def InstalledAs (hα : Hashing String) (hm : Hashing ℕ) (s : Setting) (tables : SDX String)
    (X : String) (policy p : Policy) : Prop :=
  ∃ shared r, step5a s policy X false shared = some r ∧ step5b hα hm s tables r.1 X = some p

theorem step5_spec (hα : Hashing String) (hm : Hashing ℕ) {s : Setting} {tables : SDX String}
    {policies : Dict String Policy} (h : ∀ X ∈ s.sdx.participants.keys,
      ∃ policy, policies.get? X = some policy ∧ ∀ shared, ∃ r p,
        step5a s policy X false shared = some r ∧ step5b hα hm s tables r.1 X = some p)
    (shared : List String) : ∃ e, step5 hα hm s tables policies shared = some e ∧
      ∀ X ∈ s.sdx.participants.keys, ∃ policy p, policies.get? X = some policy ∧
        e.1.get? X = some p ∧ InstalledAs hα hm s tables X policy p := by
  have hrun := Runs.foldlM_visited (l := s.sdx.participants.keys)
    (f := fun (acc : Dict String Policy × List String) participant =>
      (acc.1.get? participant).bind fun policy =>
        (step5a s policy participant false acc.2).bind fun r =>
          (step5b hα hm s tables r.1 participant).map fun p => (acc.1.set participant p, r.2))
    (Q := fun done acc => (∀ X ∈ done, ∃ policy p, policies.get? X = some policy ∧
        acc.1.get? X = some p ∧ InstalledAs hα hm s tables X policy p) ∧
      ∀ X, X ∉ done → acc.1.get? X = policies.get? X) (s := (policies, shared)) ?_
    ⟨fun _ hX => absurd hX List.not_mem_nil, fun _ _ => rfl⟩
  · obtain ⟨e, he, hdone, -⟩ := hrun
    exact ⟨e, he, hdone⟩
  intro done X rest acc hl hacc
  obtain ⟨hdone, hleft⟩ := hacc
  have hX : X ∈ s.sdx.participants.keys := hl ▸ List.mem_append_right done List.mem_cons_self
  have hnew : X ∉ done := fun hd => (List.nodup_append.mp
    (hl ▸ s.sdx.participants.nodup_keys)).2.2 X hd X List.mem_cons_self rfl
  obtain ⟨policy, hpolicy, hsteps⟩ := h X hX
  obtain ⟨r, p, hr, hp⟩ := hsteps acc.2
  refine ⟨_, by rw [hleft X hnew, hpolicy, Option.bind_some, hr, Option.bind_some, hp,
    Option.map_some], fun Y hY => ?_, fun Y hY => ?_⟩
  · rw [Dict.get?_set]
    split_ifs with hYX
    · exact ⟨policy, p, hYX ▸ hpolicy, rfl, acc.2, r, hYX ▸ hr, hYX ▸ hp⟩
    · exact hdone Y ((List.mem_append.mp hY).resolve_right fun h => hYX (List.mem_singleton.mp h))
  · rw [List.mem_append, not_or, List.mem_singleton] at hY
    rw [Dict.get?_set_of_ne _ _ hY.2, hleft Y hY.1]

end install

/-- An exchange whose policies are made of rules and name prefixes that their groups keep
whole. More than one participant has routes, and there are addresses for the groups. -/
structure Assignable (hα : Hashing String) (hκ : DictOrder Key) (upper : String → String)
    (config : Dict String ParticipantConfig) (s : Setting) (policies : Dict String Policy)
    (d : Part2Prefix Key String) : Prop where
  installed : Installed upper config s policies
  collected : participant2Prefix hκ s policies = some d
  ruled : ∀ X policy, policies.get? X = some policy → MadeOfRules policy
  named : ∀ X policy, policies.get? X = some policy → ∀ S ∈ policy.prefixSets, S.Nonempty →
    ∃ l, CollectedList s policies X l
  whole : NamesWhole hα hκ policies d
  collision : NoCollision d.keys
  many : 1 < d.keys.length
  fits : FitsPool hα hκ d

section assignable
variable {ρ : Type*} [DecidableEq ρ] {H : Header ρ} {hα : Hashing String} {hκ : DictOrder Key}
  {hm : Hashing ℕ} {upper : String → String} {config : Dict String ParticipantConfig} {s : Setting}
  {policies : Dict String Policy} {d m : Part2Prefix Key String} {lcs : List (Coll String)}
  {tables : SDX String} {X : String} {policy : Policy} (h : Assignable hα hκ upper config s policies d)

include h

theorem Assignable.families : NonemptySets d ∧
    ∀ X S, S ∈ families d (.str X) ↔ ∃ l, CollectedList s policies X l ∧ l.toFinset = S := by
  obtain ⟨d', hd', hne, hfamilies⟩ := h.installed.participant2Prefix_spec hκ
  obtain rfl : d = d' := Option.some.inj (h.collected.symm.trans hd')
  exact ⟨hne, hfamilies⟩

theorem Assignable.groups (hg : Grouped hα hκ d tables) {l : List String}
    (hl : CollectedList s policies X l) : ∃ groups, tables.part2VNH.get? (.str X) = some groups := by
  obtain ⟨p, hp⟩ := List.exists_mem_of_ne_nil l hl.1
  have hmem : p ∈ prefixesOf d (.str X) := mem_prefixesOf.mpr
    ⟨l.toFinset, (h.families.2 X _).mpr ⟨l, hl, rfl⟩, List.mem_toFinset.mpr hp⟩
  obtain ⟨v, c, hc, -⟩ := (hg.joined _ p p).mpr (joined_self_of_many h.collision h.many hmem)
  obtain ⟨groups, hgroups, -⟩ := Option.bind_eq_some_iff.mp hc
  exact ⟨groups, hgroups⟩

theorem Assignable.expandedSets (hpolicy : policies.get? X = some policy) {a : Accs}
    {r : Policy × Accs} (hr : step5aExpandPolicyWithPrefixes s X policy a = some r)
    {S : Finset String} (hS : S ∈ r.1.prefixSets) (hne : S.Nonempty) :
    ∃ l, CollectedList s policies X l := by
  rcases (step5aExpand_prefixSets policy hr).2 S hS with hS | ⟨n, hn, routes, hroutes, rfl⟩
  · exact h.named X policy hpolicy S hS hne
  · refine ⟨routes, fun hnil => ?_, Or.inl ⟨policy, hpolicy, n, hn, hroutes⟩⟩
    rw [hnil] at hne
    exact Finset.not_nonempty_empty hne

section tables
variable (hround : Round hκ (planOf hκ d) d d.keys m lcs) (ht : Numbered hα m lcs tables)
  (hg : Grouped hα hκ d tables)
include hround ht hg

theorem Assignable.macs {l : List String} (hl : CollectedList s policies X l) :
    ∃ groups, tables.part2VNH.get? (.str X) = some groups ∧
      ∀ v ∈ groups.keys, ∃ mac, tables.vnh2MAC.get? v = some mac := by
  obtain ⟨groups, hgroups⟩ := h.groups hg hl
  refine ⟨groups, hgroups, fun v hv => ?_⟩
  obtain ⟨mac, hmac, -⟩ := (noneCut_of_numbered hround ht hgroups).mac v hv
  exact ⟨mac, hmac⟩

theorem Assignable.noneCut {groups : Dict String (Coll String)}
    (hX : tables.part2VNH.get? (.str X) = some groups) {expanded : Dict String Policy}
    (hexp : Expanded s policies expanded) (sets : List (Finset String))
    (hsets : ∀ S ∈ sets, SelectedOn s expanded X S) : NoneCut groups tables.vnh2MAC sets := by
  have hfit := noneCut_of_numbered hround ht hX
  have hnever : NeverSeparated s ⟨.empty, m, lcs, tables, expanded⟩ :=
    (neverSeparated_iff hg (fun X l hl => (h.families.2 X _).mpr ⟨l, hl, rfl⟩)
      fun _ _ _ _ => hexp).mpr h.whole
  refine ⟨hfit.disjoint, fun S hS v c hc => ?_, hfit.mac, hfit.distinct⟩
  exact hnever X v c ((vnhEntry_of_get? hX v).trans hc) S (hsets S hS)

theorem Assignable.defaultRoutes (hm : Hashing ℕ) (hconf : X ∈ config.keys) {bestRoutes : Dict String (List String)}
    (hbest : Bgp.bgpGetBestRoutes s.sdx s.rsClients X = some bestRoutes) :
    ∃ bgp, defaultVnhopPolicy hα hm s tables X = some bgp ∧ ∀ groups expanded,
      tables.part2VNH.get? (.str X) = some groups → Expanded s policies expanded →
      ∀ pkt : Frame ρ, Tagged H groups tables.vnh2MAC pkt → ∀ out, out ∈ bgp.eval H pkt ↔
        ∃ Q l n, bestRoutes.get? Q = some l ∧ H.prefixOf pkt.header ∈ l ∧ s.portTo X Q = some n ∧
          out = pkt.write H "outport" (.num n) := by
  obtain ⟨dflt, hdflt, hplain, hsets, hmeaning⟩ := getDefaultForwardingPolicy_spec (H := H)
    (h.installed.portTo hconf hbest)
  obtain ⟨bgp, hbgp⟩ := step5bExpand_total hα hm dflt fun S hS hne => by
      obtain ⟨Q, l, hQ, rfl⟩ := hsets S hS
      refine h.macs hround ht hg (l := l) ⟨fun hnil => ?_, Or.inr ⟨bestRoutes, hbest, Q, hQ⟩⟩
      rw [hnil] at hne
      exact Finset.not_nonempty_empty hne
  refine ⟨bgp, ?_, fun groups expanded hX hexp pkt hpkt out => ?_⟩
  · rw [defaultVnhopPolicy, hbest, Option.bind_some, hdflt, Option.bind_some, hbgp]
  · have hcut := h.noneCut hround ht hg hX hexp dflt.prefixSets fun S hS => by
      obtain ⟨Q, l, hQ, hS⟩ := hsets S hS
      exact Or.inr ⟨bestRoutes, hbest, Q, l, hQ, hS⟩
    rw [step5bExpand_eval_of_noneCut hX hcut hplain hbgp hpkt, hmeaning]

theorem Assignable.steps (hm : Hashing ℕ) (hpolicy : policies.get? X = some policy) (shared : List String) :
    ∃ r p, step5a s policy X false shared = some r ∧ step5b hα hm s tables r.1 X = some p ∧
      ∀ bestRoutes groups, Bgp.bgpGetBestRoutes s.sdx s.rsClients X = some bestRoutes →
        tables.part2VNH.get? (.str X) = some groups → ∀ pkt : Frame ρ,
        Tagged H groups tables.vnh2MAC pkt → ∀ out, out ∈ p.eval H pkt ↔
          Delivers H s X policy bestRoutes pkt out := by
  have hconf : X ∈ config.keys := h.installed.only X (Dict.mem_keys_iff.mpr ⟨policy, hpolicy⟩)
  have hruled := h.ruled X policy hpolicy
  obtain ⟨r, hr⟩ := step5aExpand_total policy (h.installed.known hpolicy) ⟨shared, none⟩
  obtain ⟨p', hp'⟩ := step5bExpand_total hα hm r.1 fun S hS hne => by
      obtain ⟨l, hl⟩ := h.expandedSets hpolicy hr hS hne
      exact h.macs hround ht hg hl
  obtain ⟨best, hbest⟩ := h.installed.routes hconf
  obtain ⟨bgp, hbgp, hdefault⟩ := h.defaultRoutes (H := H) hround ht hg hm hconf hbest
  obtain ⟨p, hp, heval⟩ := step5b_of_decided (H := H) (h.installed.keys ▸ hconf) hp'
    (decided_of_rules hruled hr hp') hbgp
  refine ⟨(r.1, r.2.shared), p, by rw [step5a_default, hr, Option.map_some], hp, ?_⟩
  intro bestRoutes groups hbest' hX pkt hpkt out
  obtain rfl : best = bestRoutes := Option.some.inj (hbest.symm.trans hbest')
  have hexp : Expanded s policies (policies.set X r.1) := by
    intro Y
    rw [Dict.get?_set]
    split_ifs with hY
    · rw [hY, hpolicy]
      exact .some (step5aExpand_prefixSets policy hr)
    · exact Expanded.refl s policies Y
  have hcut := h.noneCut hround ht hg hX hexp r.1.prefixSets fun S hS =>
    Or.inl ⟨r.1, Dict.get?_set_self _ _ _, hS⟩
  -- on this packet the addresses say what the sets say, and the sets what the rules say
  have hsame := step5bExpand_eval_of_noneCut hX hcut (plain_of_rules hruled hr) hp' hpkt
  have hmem : ∀ out, out ∈ r.1.eval H pkt ↔ ∃ rule ∈ rules policy, rule.Takes H s X pkt ∧
      out = pkt.write H "outport" (.num rule.outport) := fun out => mem_eval_step5aExpand hruled hr
  have hnone : r.1.eval H pkt = ∅ ↔ ∀ rule ∈ rules policy, ¬ rule.Takes H s X pkt := by
    rw [Finset.eq_empty_iff_forall_notMem]
    simp only [hmem, not_exists, not_and]
    exact ⟨fun hall rule hrule htakes => hall _ rule hrule htakes rfl,
      fun hall out rule hrule htakes => absurd htakes (hall rule hrule)⟩
  rw [heval, hsame, Delivers]
  split_ifs with hempty
  · rw [hdefault groups _ hX hexp pkt hpkt, and_iff_right (hnone.mp hempty)]
    refine (or_iff_right fun hex => ?_).symm
    obtain ⟨rule, hrule, htakes, -⟩ := hex
    exact hnone.mp hempty rule hrule htakes
  · rw [hmem]
    exact (or_iff_left fun hex => hempty (hnone.mpr hex.1)).symm

end tables

end assignable

/-- In one call, every policy is replaced by one that does with each packet that carries the
address of a group of the participant what its rules and its best routes say. -/
theorem vnhAssignment_delivers {ρ : Type*} [DecidableEq ρ] (H : Header ρ) (hα : Hashing String)
    (hκ : DictOrder Key) (hm : Hashing ℕ) {upper : String → String}
    {config : Dict String ParticipantConfig} {s : Setting} {policies : Dict String Policy}
    {d : Part2Prefix Key String} (h : Assignable hα hκ upper config s policies d)
    (shared : List String) : ∃ out, vnhAssignment hα hκ hm s policies .init shared = some out ∧
      ∀ X policy bestRoutes groups, policies.get? X = some policy →
        Bgp.bgpGetBestRoutes s.sdx s.rsClients X = some bestRoutes →
        out.tables.part2VNH.get? (.str X) = some groups → ∃ p, out.expanded.get? X = some p ∧
          ∀ pkt : Frame ρ, Tagged H groups out.tables.vnh2MAC pkt → ∀ frame,
            frame ∈ p.eval H pkt ↔ Delivers H s X policy bestRoutes pkt frame := by
  have hkeys : d.keys ≠ [] := fun hnil => by
    have hmany := h.many
    rw [hnil] at hmany
    exact absurd hmany (Nat.not_lt_zero 1)
  have hitems : ¬ d.items.isEmpty = true := by
    rw [List.isEmpty_iff]
    exact fun hnil => hkeys (by rw [Dict.keys, hnil, List.map_nil])
  obtain ⟨m, lcs, hrun, hround⟩ := lcsParallel_run hα hκ hkeys h.families.1
  have hrun := hrun _ le_rfl
  obtain ⟨tables, htables⟩ := step4_total hα m (h.fits _ _ _ hrun) .init
  have hgroups := step4_grouped hround htables
  have hinit : (Assigned.init).tables = .init := rfl
  rw [vnhAssignment, h.collected, Option.bind_some, if_neg hitems, hrun, Option.bind_some, hinit, htables,
    Option.bind_some]
  split_ifs with hnone
  · refine ⟨_, rfl, fun X policy bestRoutes groups _ _ hX => ?_⟩
    have hmem := Dict.get?_eq_some.mp hX
    rw [List.isEmpty_iff.mp hnone] at hmem
    exact absurd hmem List.not_mem_nil
  · have hsteps := fun X policy (hpolicy : policies.get? X = some policy) (shared : List String) =>
      h.steps (H := H) hround (numbered_of_step4 htables) hgroups hm hpolicy shared
    obtain ⟨e, he, hinstalled⟩ := step5_spec hα hm (fun X hX => by
        obtain ⟨policy, hpolicy, -⟩ := h.installed.installed X (h.installed.keys ▸ hX)
        refine ⟨policy, hpolicy, fun shared => ?_⟩
        obtain ⟨r, p, hr, hp, -⟩ := hsteps X policy hpolicy shared
        exact ⟨r, p, hr, hp⟩) shared
    refine ⟨_, by rw [he, Option.map_some], fun X policy bestRoutes groups hpolicy hbest hX => ?_⟩
    have hconf : X ∈ s.sdx.participants.keys :=
      h.installed.keys ▸ h.installed.only X (Dict.mem_keys_iff.mpr ⟨policy, hpolicy⟩)
    obtain ⟨policy', p, hpolicy', hp, shared', r, hr, hstep⟩ := hinstalled X hconf
    obtain rfl : policy = policy' := Option.some.inj (hpolicy.symm.trans hpolicy')
    obtain ⟨r', p', hr', hstep', hmeaning⟩ := hsteps X policy hpolicy shared'
    obtain rfl : r = r' := Option.some.inj (hr.symm.trans hr')
    obtain rfl : p = p' := Option.some.inj (hstep.symm.trans hstep')
    exact ⟨p, hp, hmeaning bestRoutes groups hbest hX⟩

def webRules (outport : ℕ) : Policy :=
  .parallel [.sequential [.matching (.single "dstport" (.num 80)), .fwd outport]]

def webPolicies : Dict String Policy := ⟨[("A", webRules 2), ("B", webRules 1)], by decide⟩

theorem webPolicies_get? {X : String} {policy : Policy} (h : webPolicies.get? X = some policy) :
    ∃ n, policy = webRules n := by
  have hmem := Dict.get?_eq_some.mp h
  rcases List.mem_cons.mp hmem with he | he
  · exact ⟨2, (Prod.mk.inj he).2⟩
  · exact ⟨1, (Prod.mk.inj (List.mem_singleton.mp he)).2⟩

theorem assignable_webPolicies : Assignable .sorted .insertion id twoConfig twoAnnouncers webPolicies
    collectedPrefixes where
  installed := by
    refine ⟨by decide, installed_restrictedPolicies.ascii, by decide, fun X hX => ?_, by decide⟩
    rcases List.mem_cons.mp hX with rfl | hX
    · refine ⟨webRules 2, rfl, fun n hn => ?_⟩
      obtain rfl := List.mem_singleton.mp hn
      exact ⟨⟨[("A", [1]), ("B", [2])], by decide⟩, by decide, ("B", [2]), by decide, by decide⟩
    · obtain rfl := List.mem_singleton.mp hX
      refine ⟨webRules 1, rfl, fun n hn => ?_⟩
      obtain rfl := List.mem_singleton.mp hn
      exact ⟨⟨[("B", [2]), ("A", [1])], by decide⟩, by decide, ("A", [1]), by decide, by decide⟩
  collected := by decide
  ruled X policy h := by
    obtain ⟨n, rfl⟩ := webPolicies_get? h
    exact ⟨List.cons_ne_nil _ _, rfl, trivial⟩
  named X policy h S hS := by
    obtain ⟨n, rfl⟩ := webPolicies_get? h
    exact absurd hS List.not_mem_nil
  whole X policy h S hS := by
    obtain ⟨n, rfl⟩ := webPolicies_get? h
    exact absurd hS List.not_mem_nil
  collision := by
    refine noCollision_of_length (L := 1) (by decide) fun k hk => ?_
    rcases List.mem_cons.mp hk with rfl | hk
    · exact ⟨"A", rfl, rfl⟩
    · exact ⟨"B", List.mem_singleton.mp hk, rfl⟩
  many := by decide
  fits := fitsPool_collectedPrefixes .sorted .insertion

theorem vnhAssignment_delivers_webPolicies : ∃ out,
    vnhAssignment .sorted .insertion .ascending twoAnnouncers webPolicies .init [] = some out ∧
    ∀ X policy bestRoutes groups, webPolicies.get? X = some policy →
      Bgp.bgpGetBestRoutes twoAnnouncers.sdx twoAnnouncers.rsClients X = some bestRoutes →
      out.tables.part2VNH.get? (.str X) = some groups → ∃ p, out.expanded.get? X = some p ∧
        ∀ pkt : Frame String, Tagged prefixHeader groups out.tables.vnh2MAC pkt → ∀ frame,
          frame ∈ p.eval prefixHeader pkt ↔
            Delivers prefixHeader twoAnnouncers X policy bestRoutes pkt frame :=
  vnhAssignment_delivers prefixHeader .sorted .insertion .ascending assignable_webPolicies []

end Hispar.VnhAssignment
