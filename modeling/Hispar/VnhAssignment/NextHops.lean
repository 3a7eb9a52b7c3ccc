import Hispar.VnhAssignment.Expand
import Hispar.VnhAssignment.Tables

/-!
# Prefix sets as virtual next hops

A set of prefixes becomes a test on the MAC addresses of the groups that hold
them. On a packet that carries the address of the group of its destination the
test says whether the destination is in the set, provided that the groups fit
the set.
-/
namespace Hispar.VnhAssignment
open Library Exchange SetOperations

/-- The address `A1:A1:A1:A1:A1:A1` of a prefix in no group. -/
def unassignedMac : ℕ := 0xa1a1a1a1a1a1

def returnVnhop ( vnh2prefix : Dict String (Coll String)) (vnh2mac : Dict String ℕ) (pfx : String) :
    Option ℕ :=
  match vnh2prefix.items.find? fun kv => pfx ∈ kv.2 with
  | some kv => vnh2mac.get? kv.1
  | none => some unassignedMac

def matchMac (mac : ℕ) : Policy := .matching (.single "dstmac" (.num mac))

/-- The test on several addresses. No packet has the base address. -/
def matchVnhops : List ℕ → Policy
  | [] => matchMac vnhMac
  | [mac] => matchMac mac
  | macs => .parallel (macs.map matchMac)

section expand
variable (hα : Hashing String) (hm : Hashing ℕ) (sdx : SDX String) (participantId : String)

def vnhopLeaf : Policy → Option Policy
  | .matchPrefixesSet pfxes => ((hα.enum pfxes).mapM fun pfx =>
      (sdx.part2VNH.get? (.str participantId)).bind fun vnh2prefix =>
        returnVnhop vnh2prefix sdx.vnh2MAC pfx).map fun macs => matchVnhops (hm.enum macs.toFinset)
  | policy => some policy

def step5bExpandPolicyWithVnhop : Policy → Option Policy :=
  Policy.traverse (vnhopLeaf hα hm sdx participantId)

end expand

def PlainLeaf : Policy → Prop
  | .negate _ | .modify _ => False
  | _ => True

def Plain : Policy → Prop := Policy.Leaves PlainLeaf

/-- Disjoint groups with addresses of their own, none of which is cut by a set. -/
structure NoneCut (groups : Dict String (Coll String)) (macs : Dict String ℕ)
    (sets : List (Finset String)) : Prop where
  disjoint : ∀ v w c e, v ≠ w → groups.get? v = some c → groups.get? w = some e →
    Disjoint c.toSet e.toSet
  whole : ∀ S ∈ sets, ∀ v c, groups.get? v = some c → c.toSet ⊆ S ∨ Disjoint c.toSet S
  mac : ∀ v ∈ groups.keys, ∃ m, macs.get? v = some m ∧ m ≠ vnhMac ∧ m ≠ unassignedMac
  distinct : ∀ v ∈ groups.keys, ∀ w ∈ groups.keys, macs.get? v = macs.get? w → v = w

structure GroupsFit (groups : Dict String (Coll String)) (macs : Dict String ℕ)
    (sets : List (Finset String)) : Prop extends NoneCut groups macs sets where
  cover : ∀ S ∈ sets, ∀ p ∈ S, ∃ v c, groups.get? v = some c ∧ p ∈ c

variable {ρ : Type*} [DecidableEq ρ] {H : Header ρ} {groups : Dict String (Coll String)}
  {macs : Dict String ℕ} {sets : List (Finset String)}

/-- The packet carries the address of the group of its destination. -/
def Tagged (H : Header ρ) (groups : Dict String (Coll String)) (macs : Dict String ℕ)
    (pkt : Frame ρ) : Prop :=
  ∃ v c m, groups.get? v = some c ∧ H.prefixOf pkt.header ∈ c ∧ macs.get? v = some m ∧
    pkt.dstmac = some (.num m)

theorem returnVnhop_of_disjoint (h : ∀ v w c e, v ≠ w → groups.get? v = some c →
    groups.get? w = some e → Disjoint c.toSet e.toSet) {v : String} {c : Coll String}
    (hc : groups.get? v = some c) {pfx : String} (hp : pfx ∈ c) :
    returnVnhop groups macs pfx = macs.get? v := by
  obtain ⟨kv, hkv⟩ : ∃ kv, groups.items.find? (fun kv => pfx ∈ kv.2) = some kv :=
    Option.isSome_iff_exists.mp (List.find?_isSome.mpr ⟨(v, c), Dict.get?_eq_some.mp hc, by simpa⟩)
  have hpfx : pfx ∈ kv.2 := by simpa using List.find?_some hkv
  have hget : groups.get? kv.1 = some kv.2 := Dict.get?_eq_some.mpr (List.mem_of_find?_eq_some hkv)
  have hv : kv.1 = v := by
    by_contra hne
    exact Finset.disjoint_left.mp (h _ _ _ _ hne hget hc) hpfx hp
  rw [returnVnhop, hkv, ← hv]

theorem eval_matchMac (mac : ℕ) (pkt : Frame ρ) : (matchMac mac).eval H pkt =
    if pkt.dstmac = some (.num mac) then {pkt} else ∅ := by
  have htest : Frame.testAll H (.single "dstmac" (.num mac)) pkt =
      decide (pkt.dstmac = some (.num mac)) := by
    simp [Frame.testAll, Dict.single, Frame.test]
  rw [matchMac, Policy.eval, PacketPolicy.filter, htest]
  simp only [decide_eq_true_eq]

theorem eval_matchVnhops {macs : List ℕ} (hne : macs ≠ []) (pkt : Frame ρ) :
    (matchVnhops macs).eval H pkt =
      if ∃ m ∈ macs, pkt.dstmac = some (.num m) then {pkt} else ∅ := by
  have hparallel : ∀ l : List ℕ, (Policy.parallel (l.map matchMac)).eval H pkt =
      if ∃ m ∈ l, pkt.dstmac = some (.num m) then {pkt} else ∅ := by
    intro l
    ext out
    simp only [Policy.mem_eval_parallel, List.mem_map, exists_exists_and_eq_and, eval_matchMac]
    by_cases h : ∃ m ∈ l, pkt.dstmac = some (.num m)
    · rw [if_pos h, Finset.mem_singleton]
      constructor
      · rintro ⟨m, -, hout⟩
        split_ifs at hout
        · exact Finset.mem_singleton.mp hout
        · exact absurd hout (Finset.notMem_empty out)
      · rintro rfl
        obtain ⟨m, hm, hmac⟩ := h
        exact ⟨m, hm, by rw [if_pos hmac]; exact Finset.mem_singleton_self _⟩
    · rw [if_neg h]
      refine iff_of_false ?_ (Finset.notMem_empty out)
      rintro ⟨m, hm, hout⟩
      rw [if_neg fun hmac => h ⟨m, hm, hmac⟩] at hout
      exact Finset.notMem_empty out hout
  cases macs with
  | nil => exact absurd rfl hne
  | cons mac rest =>
    cases rest with
    | nil => simp [matchVnhops, eval_matchMac]
    | cons => exact hparallel _

theorem eval_matchVnhops_enum (hm : Hashing ℕ) {macs : List ℕ} {m : ℕ} (hbase : m ≠ vnhMac)
    {pkt : Frame ρ} (hdst : pkt.dstmac = some (.num m)) :
    (matchVnhops (hm.enum macs.toFinset)).eval H pkt = if m ∈ macs then {pkt} else ∅ := by
  have hmem : ∀ x, x ∈ hm.enum macs.toFinset ↔ x ∈ macs := by
    intro x
    rw [hm.mem_enum, List.mem_toFinset]
  by_cases hne : macs = []
  · have henum : hm.enum macs.toFinset = [] := by
      apply List.eq_nil_iff_forall_not_mem.mpr
      intro x hx
      rw [hmem, hne] at hx
      exact List.not_mem_nil hx
    rw [henum, matchVnhops, eval_matchMac, hdst, if_neg (by simpa using hbase), if_neg (by simp [hne])]
  · have henum : hm.enum macs.toFinset ≠ [] := by
      obtain ⟨x, hx⟩ := List.exists_mem_of_ne_nil macs hne
      exact List.ne_nil_of_mem ((hmem x).mpr hx)
    rw [eval_matchVnhops henum]
    simp [hmem, hdst]

namespace NoneCut

theorem returnVnhop_cases (hfit : NoneCut groups macs sets) (p : String) :
    returnVnhop groups macs p = some unassignedMac ∨ ∃ v c m, groups.get? v = some c ∧ p ∈ c ∧
      macs.get? v = some m ∧ returnVnhop groups macs p = some m := by
  by_cases hp : ∃ v c, groups.get? v = some c ∧ p ∈ c
  · obtain ⟨v, c, hc, hpc⟩ := hp
    obtain ⟨m, hvm, -⟩ := hfit.mac v (Dict.mem_keys_iff.mpr ⟨c, hc⟩)
    exact Or.inr ⟨v, c, m, hc, hpc, hvm, (returnVnhop_of_disjoint hfit.disjoint hc hpc).trans hvm⟩
  · have hnone : groups.items.find? (fun kv => p ∈ kv.2) = none := by
      apply List.find?_eq_none.mpr
      intro kv hkv
      simpa using fun hpkv => hp ⟨kv.1, kv.2, Dict.get?_eq_some.mpr hkv, hpkv⟩
    exact Or.inl (by rw [returnVnhop, hnone])

theorem exists_macs (hfit : NoneCut groups macs sets) (l : List String) :
    ∃ ms, l.mapM (returnVnhop groups macs) = some ms := by
  have hmac : ∀ p ∈ l, ∃ m, returnVnhop groups macs p = some m ∧ True := by
    intro p _
    rcases hfit.returnVnhop_cases p with h | ⟨-, -, m, -, -, -, h⟩
    · exact ⟨_, h, trivial⟩
    · exact ⟨m, h, trivial⟩
  obtain ⟨ms, hms, -⟩ := (Runs.mapM_forall₂_iff (R := fun _ _ => True) l).mpr hmac
  exact ⟨ms, hms⟩

theorem mem_macs_iff (hfit : NoneCut groups macs sets) {hα : Hashing String} {S : Finset String}
    (hS : S ∈ sets) {ms : List ℕ} (hms : (hα.enum S).mapM (returnVnhop groups macs) = some ms)
    {v : String} {c : Coll String} {m : ℕ} (hc : groups.get? v = some c) (hvm : macs.get? v = some m)
    {p : String} (hp : p ∈ c) : m ∈ ms ↔ p ∈ S := by
  have hkey : v ∈ groups.keys := Dict.mem_keys_iff.mpr ⟨c, hc⟩
  rw [Runs.mem_mapM hms]
  constructor
  · rintro ⟨q, hq, hret⟩
    have hq := (hα.mem_enum S q).mp hq
    rcases hfit.returnVnhop_cases q with hun | ⟨w, e, m', he, hqe, hwm, hret'⟩
    · obtain ⟨m', hvm', -, hassigned⟩ := hfit.mac v hkey
      obtain rfl := Option.some.inj (hvm'.symm.trans hvm)
      exact absurd (Option.some.inj (hret.symm.trans hun)) hassigned
    · -- the same address is that of the same group, which lies in the set
      obtain rfl := Option.some.inj (hret.symm.trans hret')
      obtain rfl := hfit.distinct v hkey w (Dict.mem_keys_iff.mpr ⟨e, he⟩) (hvm.trans hwm.symm)
      obtain rfl := Option.some.inj (hc.symm.trans he)
      rcases hfit.whole S hS v c hc with hsub | hdisj
      · exact hsub hp
      · exact absurd hq (Finset.disjoint_left.mp hdisj hqe)
  · intro hpS
    exact ⟨p, (hα.mem_enum S p).mpr hpS, (returnVnhop_of_disjoint hfit.disjoint hc hp).trans hvm⟩

end NoneCut

theorem eval_vnhopLeaf_of_noneCut (hα : Hashing String) (hm : Hashing ℕ) {sdx : SDX String}
    {X : String} (hX : sdx.part2VNH.get? (.str X) = some groups)
    (hfit : NoneCut groups sdx.vnh2MAC sets) {S : Finset String} (hS : S ∈ sets) :
    ∃ p, vnhopLeaf hα hm sdx X (.matchPrefixesSet S) = some p ∧
      ∀ pkt, Tagged H groups sdx.vnh2MAC pkt →
        p.eval H pkt = (Policy.matchPrefixesSet S).eval H pkt := by
  obtain ⟨ms, hms⟩ := hfit.exists_macs (hα.enum S)
  have hleaf : vnhopLeaf hα hm sdx X (.matchPrefixesSet S) =
      some (matchVnhops (hm.enum ms.toFinset)) := by
    simp only [vnhopLeaf, hX, Option.bind_some]
    rw [hms, Option.map_some]
  refine ⟨_, hleaf, fun pkt htagged => ?_⟩
  obtain ⟨v, c, m, hc, hpc, hvm, hdst⟩ := htagged
  have hset : (Policy.matchPrefixesSet S).eval H pkt =
      if H.prefixOf pkt.header ∈ S then {pkt} else ∅ := by
    rw [Policy.eval, PacketPolicy.filter]
    simp only [decide_eq_true_eq]
  obtain ⟨m', hvm', hbase, -⟩ := hfit.mac v (Dict.mem_keys_iff.mpr ⟨c, hc⟩)
  obtain rfl := Option.some.inj (hvm'.symm.trans hvm)
  rw [hset, eval_matchVnhops_enum hm hbase hdst]
  exact if_congr (hfit.mem_macs_iff hS hms hc hvm hpc) rfl rfl

theorem Tagged.of_mem_eval {leaf : Policy} (hleaf : leaf.IsLeaf) (hplain : PlainLeaf leaf)
    {pkt out : Frame ρ} (h : Tagged H groups macs pkt) (hout : out ∈ leaf.eval H pkt) :
    Tagged H groups macs out := by
  cases leaf with
  | passthrough => exact PacketPolicy.mem_passthrough.mp hout ▸ h
  | drop => exact absurd hout PacketPolicy.notMem_drop
  | matching map => exact (PacketPolicy.mem_filter.mp hout).2 ▸ h
  | matchPrefixesSet pfxes => exact (PacketPolicy.mem_filter.mp hout).2 ▸ h
  | fwd outport =>
    obtain rfl := PacketPolicy.mem_modify.mp hout
    exact h
  | negate policy => exact hplain.elim
  | modify map => exact hplain.elim
  | parallel _ => exact hleaf.elim
  | sequential _ => exact hleaf.elim
  | ifThenElse _ _ _ => exact hleaf.elim

section vnhops
variable {hα : Hashing String} {hm : Hashing ℕ} {sdx : SDX String} {X : String} {policy p : Policy}

theorem step5bExpand_total (hα : Hashing String) (hm : Hashing ℕ) {sdx : SDX String} {X : String}
    (policy : Policy) (h : ∀ S ∈ policy.prefixSets, S.Nonempty → ∃ groups,
      sdx.part2VNH.get? (.str X) = some groups ∧
        ∀ v ∈ groups.keys, ∃ m, sdx.vnh2MAC.get? v = some m) :
    ∃ p, step5bExpandPolicyWithVnhop hα hm sdx X policy = some p := by
  refine Policy.traverse_total (Policy.leaves_prefixSets.imp fun leaf hsub => ?_)
  cases leaf with
  | matchPrefixesSet S =>
    have hlookup : ∀ pfx ∈ hα.enum S, ∃ m, ((sdx.part2VNH.get? (.str X)).bind fun vnh2prefix =>
        returnVnhop vnh2prefix sdx.vnh2MAC pfx) = some m := by
      intro pfx hpfx
      obtain ⟨groups, hX, hmac⟩ := h S (hsub (List.mem_singleton_self S))
        ⟨pfx, (hα.mem_enum S pfx).mp hpfx⟩
      rw [hX, Option.bind_some, returnVnhop]
      cases hfind : groups.items.find? (fun kv => pfx ∈ kv.2) with
      | none => exact ⟨_, rfl⟩
      | some kv => exact hmac kv.1 (List.mem_map_of_mem (List.mem_of_find?_eq_some hfind))
    obtain ⟨macs, hmacs, -⟩ := (Runs.mapM_forall₂_iff (R := fun _ _ => True) (hα.enum S)).mpr
      fun pfx hpfx => (hlookup pfx hpfx).imp fun _ h => ⟨h, trivial⟩
    exact ⟨_, by rw [vnhopLeaf, hmacs, Option.map_some]⟩
  | _ => exact ⟨_, rfl⟩

theorem step5bExpand_eval_of_noneCut (hX : sdx.part2VNH.get? (.str X) = some groups)
    (hcut : NoneCut groups sdx.vnh2MAC policy.prefixSets) (hplain : Plain policy)
    (h : step5bExpandPolicyWithVnhop hα hm sdx X policy = some p) {pkt : Frame ρ}
    (hpkt : Tagged H groups sdx.vnh2MAC pkt) : p.eval H pkt = policy.eval H pkt := by
  have hleaves := ((Policy.leaves_isLeaf policy).and hplain).and Policy.leaves_prefixSets
  refine (Policy.sameOn_traverse (H := H) (I := Tagged H groups sdx.vnh2MAC) h
    (hleaves.imp fun leaf hleaf leaf' hleaf' pkt hpkt => ⟨?_, fun out hout =>
      hpkt.of_mem_eval hleaf.1.1 hleaf.1.2 hout⟩) pkt hpkt).1
  cases leaf with
  | matchPrefixesSet S =>
    obtain ⟨p, hp, heval⟩ := eval_vnhopLeaf_of_noneCut (H := H) hα hm hX hcut
      (hleaf.2 (List.mem_singleton_self S))
    obtain rfl := Option.some.inj (hp.symm.trans hleaf')
    exact heval pkt hpkt
  | _ => exact Option.some.inj hleaf' ▸ rfl

end vnhops

theorem prefixSets_matchVnhops (macs : List ℕ) : (matchVnhops macs).prefixSets = [] := by
  have hall : ∀ l : List ℕ, Policy.prefixSetsList (l.map matchMac) = [] := by
    intro l
    rw [Policy.prefixSetsList_eq, List.flatMap_map, List.flatMap_eq_nil_iff]
    exact fun _ _ => rfl
  cases macs with
  | nil => rfl
  | cons mac rest =>
    cases rest with
    | nil => rfl
    | cons => exact hall _

theorem prefixSets_vnhopLeaf {hα : Hashing String} {hm : Hashing ℕ} {sdx : SDX String} {X : String}
    {leaf leaf' : Policy} (hleaf : leaf.IsLeaf) (hplain : PlainLeaf leaf)
    (h : vnhopLeaf hα hm sdx X leaf = some leaf') : leaf'.prefixSets = [] := by
  cases leaf with
  | matchPrefixesSet S =>
    obtain ⟨macs, -, rfl⟩ := Option.map_eq_some_iff.mp h
    exact prefixSets_matchVnhops _
  | negate policy => exact hplain.elim
  | parallel _ => exact hleaf.elim
  | sequential _ => exact hleaf.elim
  | ifThenElse _ _ _ => exact hleaf.elim
  | _ => exact Option.some.inj h ▸ rfl

/-- The expanded tree tests no prefixes, and does to tagged packets what the tree does, where the
groups fit its sets. -/
theorem step5bExpand_eval (hα : Hashing String) (hm : Hashing ℕ) (H : Header ρ) {sdx : SDX String}
    {X : String} (hX : sdx.part2VNH.get? (.str X) = some groups) {policy : Policy}
    (hplain : Plain policy) (hfit : GroupsFit groups sdx.vnh2MAC policy.prefixSets) :
    ∃ policy', step5bExpandPolicyWithVnhop hα hm sdx X policy = some policy' ∧
      policy'.prefixSets = [] ∧
      ∀ pkt, Tagged H groups sdx.vnh2MAC pkt → policy'.eval H pkt = policy.eval H pkt := by
  obtain ⟨policy', hpolicy'⟩ := step5bExpand_total hα hm policy fun S _ _ =>
    ⟨groups, hX, fun v hv => (hfit.mac v hv).imp fun _ h => h.1⟩
  have hnone : policy'.prefixSets = [] := by
    apply Policy.prefixSets_traverse hpolicy'
    exact ((Policy.leaves_isLeaf policy).and hplain).imp fun leaf hleaf _ h =>
      prefixSets_vnhopLeaf hleaf.1 hleaf.2 h
  exact ⟨policy', hpolicy', hnone, fun pkt hpkt =>
    step5bExpand_eval_of_noneCut hX hfit.toNoneCut hplain hpolicy' hpkt⟩

def twoGroups : SDX String where
  vnh2IP := .empty
  vnh2MAC := ⟨[("VNH1", vnhMac + 1), ("VNH2", vnhMac + 2)], by decide⟩
  vnh2pfx := .empty
  part2VNH := .single (.str "A") ⟨[("VNH1", .set {"10.0.0.0/8"}),
    ("VNH2", .set {"20.0.0.0/8", "30.0.0.0/8"})], by decide⟩

def threeSets : Policy :=
  .ifThenElse (.matchPrefixesSet {"10.0.0.0/8", "20.0.0.0/8", "30.0.0.0/8"})
    (.sequential [.matchPrefixesSet {"10.0.0.0/8"}, .fwd 2])
    (.parallel [.matchPrefixesSet ∅, .fwd 3])

def prefixHeader : Header String := ⟨fun _ _ _ => false, fun _ _ header => header, id⟩

theorem groupsFit_threeSets : ∃ groups, twoGroups.part2VNH.get? (.str "A") = some groups ∧
    GroupsFit groups twoGroups.vnh2MAC threeSets.prefixSets := by
  refine ⟨⟨[("VNH1", .set {"10.0.0.0/8"}), ("VNH2", .set {"20.0.0.0/8", "30.0.0.0/8"})],
    by decide⟩, rfl, ⟨fun v w c e hvw hc he => ?_, fun S hS v c hc => ?_, by decide, by decide⟩,
    fun S hS p hp => ?_⟩
  · have hall : ∀ kv ∈ [("VNH1", Coll.set {"10.0.0.0/8"}),
        ("VNH2", Coll.set {"20.0.0.0/8", "30.0.0.0/8"})], ∀ kw ∈ [("VNH1", Coll.set {"10.0.0.0/8"}),
        ("VNH2", Coll.set {"20.0.0.0/8", "30.0.0.0/8"})], kv.1 ≠ kw.1 →
        Disjoint kv.2.toSet kw.2.toSet := by decide
    exact hall _ (Dict.get?_eq_some.mp hc) _ (Dict.get?_eq_some.mp he) hvw
  · have hall : ∀ S ∈ threeSets.prefixSets, ∀ kv ∈ [("VNH1", Coll.set {"10.0.0.0/8"}),
        ("VNH2", Coll.set {"20.0.0.0/8", "30.0.0.0/8"})],
        kv.2.toSet ⊆ S ∨ Disjoint kv.2.toSet S := by decide
    exact hall S hS _ (Dict.get?_eq_some.mp hc)
  · have hall : ∀ S ∈ threeSets.prefixSets, ∀ p ∈ S, ∃ kv ∈ [("VNH1", Coll.set {"10.0.0.0/8"}),
        ("VNH2", Coll.set {"20.0.0.0/8", "30.0.0.0/8"})], p ∈ kv.2 := by decide
    obtain ⟨kv, hkv, hp⟩ := hall S hS p hp
    exact ⟨kv.1, kv.2, Dict.get?_eq_some.mpr hkv, hp⟩

theorem step5bExpand_eval_threeSets : ∃ groups policy',
    twoGroups.part2VNH.get? (.str "A") = some groups ∧
    step5bExpandPolicyWithVnhop .sorted .ascending twoGroups "A" threeSets = some policy' ∧
    policy'.prefixSets = [] ∧
    ∀ pkt, Tagged prefixHeader groups twoGroups.vnh2MAC pkt →
      policy'.eval prefixHeader pkt = threeSets.eval prefixHeader pkt := by
  obtain ⟨groups, hgroups, hfit⟩ := groupsFit_threeSets
  have hplain : Plain threeSets :=
    ⟨trivial, ⟨trivial, trivial, trivial⟩, trivial, trivial, trivial⟩
  obtain ⟨policy', hpolicy', hexpanded⟩ :=
    step5bExpand_eval .sorted .ascending prefixHeader hgroups hplain hfit
  exact ⟨groups, policy', hgroups, hpolicy', hexpanded⟩

end Hispar.VnhAssignment
