import Hispar.VnhAssignment.Guards
import Hispar.VnhAssignment.Matches

/-!
# Policies made of rules

A rule tests a packet and sends what passes to a port. The passes keep the shape
of a policy that puts rules next to one another: each rule gets its guard, each
set becomes a test on addresses, and the predicate in front of the default routes
takes the packets for which some rule does something.
-/
namespace Hispar.VnhAssignment
open Library Exchange

structure Rule where
  tests : List Policy
  outport : ℕ

def isTest : Policy → Bool
  | .matching _ | .matchPrefixesSet _ => true
  | _ => false

def chainRule : List Policy → Option Rule
  | [] => none
  | [.fwd outport] => some ⟨[], outport⟩
  | test :: policies => if isTest test then
      (chainRule policies).map fun r => { r with tests := test :: r.tests } else none

mutual
def rules : Policy → List Rule
  | .parallel policies => rulesList policies
  | .sequential policies => (chainRule policies).toList
  | _ => []

def rulesList : List Policy → List Rule
  | [] => []
  | p :: policies => rules p ++ rulesList policies
end

mutual
/-- Every chain is a rule, and every node has one. -/
def MadeOfRules : Policy → Prop
  | .parallel policies => policies ≠ [] ∧ AllMadeOfRules policies
  | .sequential policies => (chainRule policies).isSome
  | _ => False

def AllMadeOfRules : List Policy → Prop
  | [] => True
  | p :: policies => MadeOfRules p ∧ AllMadeOfRules policies
end

section takes
variable {ρ : Type*} [DecidableEq ρ] (H : Header ρ)

def Rule.Passes (r : Rule) (pkt : Frame ρ) : Prop := ∀ t ∈ r.tests, t.eval H pkt ≠ ∅

/-- A rule that tests no destination takes the prefixes that the peer announced. -/
def Rule.Takes (s : Setting) (X : String) (r : Rule) (pkt : Frame ρ) : Prop :=
  r.Passes H pkt ∧ (r.tests.any choosesDst = true ∨
    H.prefixOf pkt.header ∈ (s.announcedBy X r.outport).getD [])

end takes

section shape
variable {policies : List Policy} {p : Policy} {r : Rule}

theorem chainRule_spec (h : chainRule policies = some r) :
    policies = r.tests ++ [.fwd r.outport] ∧ ∀ t ∈ r.tests, isTest t = true := by
  fun_induction chainRule policies generalizing r with
  | case1 => cases h
  | case2 outport =>
    obtain rfl := Option.some.inj h
    exact ⟨rfl, fun t ht => absurd ht List.not_mem_nil⟩
  | case3 test policies _ htest ih =>
    obtain ⟨r, hr, rfl⟩ := Option.map_eq_some_iff.mp h
    obtain ⟨hpolicies, htests⟩ := ih hr
    exact ⟨congrArg (test :: ·) hpolicies, List.forall_mem_cons.mpr ⟨htest, htests⟩⟩
  | case4 => cases h

theorem rulesList_eq (policies : List Policy) : rulesList policies = policies.flatMap rules := by
  induction policies with
  | nil => rfl
  | cons p policies ih => rw [rulesList, ih, List.flatMap_cons]

theorem allMadeOfRules_iff : AllMadeOfRules policies ↔ ∀ p ∈ policies, MadeOfRules p := by
  induction policies with
  | nil => simp [AllMadeOfRules]
  | cons p policies ih => rw [AllMadeOfRules, ih, List.forall_mem_cons]

theorem rulesInduct {motive : (p : Policy) → MadeOfRules p → Prop}
    (rule : ∀ policies r (h : chainRule policies = some r),
      motive (.sequential policies) (Option.isSome_of_eq_some h))
    (parallel : ∀ policies (hne : policies ≠ []) (hall : ∀ p ∈ policies, MadeOfRules p),
      (∀ p (hp : p ∈ policies), motive p (hall p hp)) →
      motive (.parallel policies) ⟨hne, allMadeOfRules_iff.mpr hall⟩)
    (p : Policy) (h : MadeOfRules p) : motive p h := by
  induction p with
  | parallel policies ih =>
    have hall := allMadeOfRules_iff.mp h.2
    exact parallel policies h.1 hall fun p hp => ih p hp (hall p hp)
  | sequential policies =>
    obtain ⟨r, hr⟩ := Option.isSome_iff_exists.mp h
    exact rule policies r hr
  | _ => exact h.elim

end shape

section filters
variable {ρ : Type*} [DecidableEq ρ] {H : Header ρ} {p last : Policy} {policies tests : List Policy}
  {pkt out : Frame ρ}

def IsFilter (H : Header ρ) (p : Policy) : Prop := ∀ pkt, ∀ out ∈ p.eval H pkt, out = pkt

theorem isFilter_of_isTest (h : isTest p = true) : IsFilter H p := by
  intro pkt out hout
  cases p with
  | matching map => exact (PacketPolicy.mem_filter.mp hout).2
  | matchPrefixesSet pfxes => exact (PacketPolicy.mem_filter.mp hout).2
  | _ => exact absurd h Bool.false_ne_true

theorem IsFilter.eval_eq (h : IsFilter H p) (hpass : p.eval H pkt ≠ ∅) : p.eval H pkt = {pkt} := by
  refine (Finset.nonempty_iff_ne_empty.mpr hpass).subset_singleton_iff.mp fun out hout => ?_
  exact Finset.mem_singleton.mpr (h pkt out hout)

theorem IsFilter.eval_cons (h : IsFilter H p) : (Policy.sequential (p :: policies)).eval H pkt =
    if p.eval H pkt = ∅ then ∅ else (Policy.sequential policies).eval H pkt := by
  rw [Policy.eval_sequential_cons]
  split_ifs with hpass
  · rw [hpass, Finset.biUnion_empty]
  · rw [h.eval_eq hpass, Finset.singleton_biUnion]

theorem eval_tests (h : ∀ t ∈ tests, IsFilter H t) :
    out ∈ (Policy.sequential (tests ++ [last])).eval H pkt ↔
      (∀ t ∈ tests, t.eval H pkt ≠ ∅) ∧ out ∈ last.eval H pkt := by
  induction tests with
  | nil => simp
  | cons t tests ih =>
    obtain ⟨ht, htests⟩ := List.forall_mem_cons.mp h
    rw [List.cons_append, ht.eval_cons, List.forall_mem_cons]
    split_ifs with hpass
    · exact iff_of_false (Finset.notMem_empty out) fun hall => hall.1.1 hpass
    · rw [ih htests, and_assoc]
      exact (and_iff_right hpass).symm

end filters

section guards
variable {s : Setting} {X : String} {outport : ℕ} {tests : List Policy}

def GuardedEnd (s : Setting) (X : String) (outport : ℕ) (chosen : Prop) (last : Policy) : Prop :=
  chosen ∧ last = .fwd outport ∨ ¬ chosen ∧ ∃ routes, s.announcedBy X outport = some routes ∧
    last = .sequential [.matchPrefixesSet routes.toFinset, .fwd outport]

theorem step5aExpandAll_rule (htests : ∀ t ∈ tests, isTest t = true) {shared acc : List String}
    {r : List Policy × Accs}
    (h : step5aExpandAll s X (tests ++ [.fwd outport]) ⟨shared, some acc⟩ = some r) :
    ∃ last, r.1 = tests ++ [last] ∧
      GuardedEnd s X outport ("dstip" ∈ acc ∨ tests.any choosesDst = true) last := by
  induction tests generalizing acc r with
  | nil =>
    obtain ⟨r₁, h₁, h⟩ := Option.bind_eq_some_iff.mp h
    obtain ⟨r₂, h₂, rfl⟩ := Option.map_eq_some_iff.mp h
    obtain rfl := Option.some.inj h₂
    refine ⟨r₁.1, rfl, ?_⟩
    rw [step5aExpandPolicyWithPrefixes] at h₁
    split_ifs at h₁ with hacc
    · obtain rfl := Option.some.inj h₁
      exact Or.inl ⟨Or.inl hacc, rfl⟩
    · obtain ⟨routes, hroutes, rfl⟩ := Option.map_eq_some_iff.mp h₁
      refine Or.inr ⟨?_, routes, hroutes, rfl⟩
      rintro (hin | hany)
      · exact hacc hin
      · exact absurd hany Bool.false_ne_true
  | cons t tests ih =>
    obtain ⟨ht, htests⟩ := List.forall_mem_cons.mp htests
    obtain ⟨r₁, h₁, h⟩ := Option.bind_eq_some_iff.mp h
    obtain ⟨r₂, h₂, rfl⟩ := Option.map_eq_some_iff.mp h
    -- a test is left as it is, and is noted when it chooses a destination
    have hstep : ∃ acc', r₁ = (t, ⟨shared, some acc'⟩) ∧
        ("dstip" ∈ acc' ↔ "dstip" ∈ acc ∨ choosesDst t = true) := by
      cases t with
      | matching map =>
        obtain rfl := Option.some.inj h₁
        by_cases hd : "dstip" ∈ map.keys
        · exact ⟨acc ++ ["dstip"], by rw [if_pos hd]; rfl, by simp [choosesDst, hd]⟩
        · exact ⟨acc, by rw [if_neg hd], by simp [choosesDst, hd]⟩
      | matchPrefixesSet pfxes =>
        obtain rfl := Option.some.inj h₁
        exact ⟨acc ++ ["dstip"], rfl, by simp [choosesDst]⟩
      | _ => exact absurd ht Bool.false_ne_true
    obtain ⟨acc', rfl, hacc⟩ := hstep
    obtain ⟨last, hlast, hguard⟩ := ih htests h₂
    refine ⟨last, congrArg (t :: ·) hlast, ?_⟩
    rwa [hacc, or_assoc, ← Bool.or_eq_true, ← List.any_cons] at hguard

end guards

section expanded
variable {ρ : Type*} [DecidableEq ρ] {H : Header ρ} {s : Setting} {X : String}

theorem step5aExpand_rule {policies : List Policy} {rule : Rule} (hrule : chainRule policies = some rule)
    {a : Accs} {r : Policy × Accs}
    (h : step5aExpandPolicyWithPrefixes s X (.sequential policies) a = some r) :
    ∃ last, r.1 = .sequential (rule.tests ++ [last]) ∧
      GuardedEnd s X rule.outport (rule.tests.any choosesDst = true) last := by
  obtain ⟨rfl, htests⟩ := chainRule_spec hrule
  obtain ⟨r, hr, rfl⟩ := Option.map_eq_some_iff.mp h
  obtain ⟨last, hlast, hguard⟩ := step5aExpandAll_rule htests hr
  refine ⟨last, congrArg Policy.sequential hlast, ?_⟩
  rwa [or_iff_right List.not_mem_nil] at hguard

theorem GuardedEnd.mem_eval {outport : ℕ} {chosen : Prop} {last : Policy}
    (h : GuardedEnd s X outport chosen last) {pkt out : Frame ρ} : out ∈ last.eval H pkt ↔
      (chosen ∨ H.prefixOf pkt.header ∈ (s.announcedBy X outport).getD []) ∧
        out = pkt.write H "outport" (.num outport) := by
  rcases h with ⟨hchosen, rfl⟩ | ⟨hnot, routes, hroutes, rfl⟩
  · rw [Policy.eval, PacketPolicy.mem_modify]
    exact (and_iff_right (Or.inl hchosen)).symm
  · rw [eval_guard, hroutes, Option.getD_some, or_iff_right hnot]
    split_ifs with hpfx
    · rw [Finset.mem_singleton, and_iff_right hpfx]
    · exact iff_of_false (Finset.notMem_empty out) fun hall => hpfx hall.1

theorem step5aExpandAll_forall₂ {policies : List Policy} {a : Accs} {r : List Policy × Accs}
    (h : step5aExpandAll s X policies a = some r) : List.Forall₂ (fun p p' =>
      ∃ a r, step5aExpandPolicyWithPrefixes s X p a = some r ∧ r.1 = p') policies r.1 := by
  induction policies generalizing a r with
  | nil =>
    obtain rfl := Option.some.inj h
    exact .nil
  | cons p policies ih =>
    obtain ⟨r₁, h₁, h⟩ := Option.bind_eq_some_iff.mp h
    obtain ⟨r₂, h₂, rfl⟩ := Option.map_eq_some_iff.mp h
    exact .cons ⟨a, r₁, h₁, rfl⟩ (ih h₂)

theorem mem_eval_step5aExpand {p : Policy} (hp : MadeOfRules p) {a : Accs} {r : Policy × Accs}
    (h : step5aExpandPolicyWithPrefixes s X p a = some r) {pkt out : Frame ρ} :
    out ∈ r.1.eval H pkt ↔ ∃ rule ∈ rules p, rule.Takes H s X pkt ∧
      out = pkt.write H "outport" (.num rule.outport) := by
  induction p, hp using rulesInduct generalizing a r with
  | rule policies rule hrule =>
    obtain ⟨last, hlast, hguard⟩ := step5aExpand_rule hrule h
    have htests : ∀ t ∈ rule.tests, IsFilter H t := fun t ht =>
      isFilter_of_isTest ((chainRule_spec hrule).2 t ht)
    rw [hlast, eval_tests htests, hguard.mem_eval, rules, hrule, Option.toList_some]
    simp only [List.mem_singleton, exists_eq_left, Rule.Takes, Rule.Passes, and_assoc]
  | parallel policies hne hall ih =>
    obtain ⟨r, hr, rfl⟩ := Option.map_eq_some_iff.mp h
    rw [Policy.mem_eval_parallel, rules, rulesList_eq]
    have hpairs := step5aExpandAll_forall₂ hr
    constructor
    · rintro ⟨p', hp', hout⟩
      obtain ⟨p, hmem, a, r, hr, rfl⟩ := Runs.exists_of_forall₂ hpairs.flip hp'
      obtain ⟨rule, hrule, htakes⟩ := (ih p hmem hr).mp hout
      exact ⟨rule, List.mem_flatMap.mpr ⟨p, hmem, hrule⟩, htakes⟩
    · rintro ⟨rule, hrule, htakes⟩
      obtain ⟨p, hmem, hrule⟩ := List.mem_flatMap.mp hrule
      obtain ⟨p', hp', a, r, hr, rfl⟩ := Runs.exists_of_forall₂ hpairs hmem
      exact ⟨r.1, hp', (ih p hmem hr).mpr ⟨rule, hrule, htakes⟩⟩

end expanded

section decided
variable {ρ : Type*} [DecidableEq ρ] {H : Header ρ} {p last : Policy} {policies tests : List Policy}

structure Decided (H : Header ρ) (p : Policy) : Prop where
  first : FirstHasMatch p
  matched : hasMatch p = true
  takes : ∀ pkt, written H p pkt = ∅ ↔ p.eval H pkt = ∅

structure Tested (H : Header ρ) (p : Policy) : Prop where
  first : FirstHasMatch p
  matched : hasMatch p = true
  same : written H p = p.eval H
  filter : IsFilter H p

theorem tested_matching (map : Dict String Value) : Tested H (.matching map) :=
  ⟨trivial, rfl, rfl, fun _ _ hout => (PacketPolicy.mem_filter.mp hout).2⟩

theorem writtenList_eq (h : ∀ p ∈ policies, hasMatch p = true) :
    writtenList H policies = policies.map (written H) := by
  induction policies with
  | nil => rfl
  | cons p policies ih =>
    obtain ⟨hp, hall⟩ := List.forall_mem_cons.mp h
    rw [writtenList, if_pos hp, ih hall, List.map_cons]

theorem firstHasMatchAll_iff : FirstHasMatchAll policies ↔ ∀ p ∈ policies, FirstHasMatch p := by
  induction policies with
  | nil => simp [FirstHasMatchAll]
  | cons p policies ih => rw [FirstHasMatchAll, ih, List.forall_mem_cons]

theorem firstHasMatch_node (hfirst : ∀ p ∈ policies, FirstHasMatch p) {p : Policy}
    (hp : FirstHasMatch p) (hmatch : hasMatch p = true) :
    FirstHasMatch (.parallel (p :: policies)) ∧ FirstHasMatch (.sequential (p :: policies)) ∧
      hasMatchAny (p :: policies) = true := by
  have hrest : FirstHasMatchAll policies := firstHasMatchAll_iff.mpr hfirst
  refine ⟨⟨hp, hrest, fun _ => hmatch⟩, ⟨hp, hrest, fun _ => hmatch⟩, ?_⟩
  rw [hasMatchAny, hmatch, Bool.true_or]

theorem Decided.parallel (hne : policies ≠ []) (h : ∀ p ∈ policies, Decided H p) :
    Decided H (.parallel policies) := by
  obtain ⟨p, rest, rfl⟩ := List.exists_cons_of_ne_nil hne
  obtain ⟨hp, hrest⟩ := List.forall_mem_cons.mp h
  obtain ⟨hfirst, -, hany⟩ := firstHasMatch_node (fun q hq => (hrest q hq).first) hp.first hp.matched
  refine ⟨hfirst, hany, fun pkt => ?_⟩
  rw [written, writtenList_eq fun q hq => (h q hq).matched, Finset.eq_empty_iff_forall_notMem,
    Finset.eq_empty_iff_forall_notMem]
  simp only [PacketPolicy.mem_parallel, Policy.mem_eval_parallel, List.mem_map,
    exists_exists_and_eq_and, not_exists, not_and]
  have htakes : ∀ q ∈ p :: rest, (∀ out, out ∉ written H q pkt) ↔ ∀ out, out ∉ q.eval H pkt := by
    intro q hq
    rw [← Finset.eq_empty_iff_forall_notMem, ← Finset.eq_empty_iff_forall_notMem]
    exact (h q hq).takes pkt
  constructor
  · exact fun hall out q hq => (htakes q hq).mp (fun out => hall out q hq) out
  · exact fun hall out q hq => (htakes q hq).mpr (fun out => hall out q hq) out

theorem Tested.parallel (hne : policies ≠ []) (h : ∀ p ∈ policies, Tested H p) :
    Tested H (.parallel policies) := by
  obtain ⟨p, rest, rfl⟩ := List.exists_cons_of_ne_nil hne
  obtain ⟨hp, hrest⟩ := List.forall_mem_cons.mp h
  obtain ⟨hfirst, -, hany⟩ := firstHasMatch_node (fun q hq => (hrest q hq).first) hp.first hp.matched
  refine ⟨hfirst, hany, ?_, fun pkt out hout => ?_⟩
  · rw [written, writtenList_eq fun q hq => (h q hq).matched, Policy.eval, Policy.evalList_eq]
    exact congrArg PacketPolicy.parallel (List.map_congr_left fun q hq => (h q hq).same)
  · obtain ⟨q, hq, hout⟩ := Policy.mem_eval_parallel.mp hout
    exact (h q hq).filter pkt out hout

theorem tested_matchVnhops (macs : List ℕ) : Tested H (matchVnhops macs) := by
  cases macs with
  | nil => exact tested_matching _
  | cons mac rest =>
    cases rest with
    | nil => exact tested_matching _
    | cons mac' rest =>
      refine Tested.parallel (List.cons_ne_nil _ _) fun p hp => ?_
      obtain ⟨m, -, rfl⟩ := List.mem_map.mp hp
      exact tested_matching _

structure DecidedChain (H : Header ρ) (policies : List Policy) : Prop where
  first : FirstHasMatchAll policies
  takes : ∀ pkt, PacketPolicy.sequential (writtenList H policies) pkt = ∅ ↔
    (Policy.sequential policies).eval H pkt = ∅

theorem decidedChain_fwd (outport : ℕ) : DecidedChain H [.fwd outport] := by
  refine ⟨⟨trivial, trivial⟩, fun pkt => iff_of_false ?_ ?_⟩
  · exact Finset.singleton_ne_empty pkt
  · rw [Policy.eval_sequential_cons, Policy.eval, PacketPolicy.modify, Finset.singleton_biUnion]
    exact Finset.singleton_ne_empty _

theorem DecidedChain.cons (hp : Tested H p) (h : DecidedChain H policies) :
    DecidedChain H (p :: policies) := by
  refine ⟨⟨hp.first, h.first⟩, fun pkt => ?_⟩
  have hwritten : PacketPolicy.sequential (writtenList H (p :: policies)) pkt =
      if p.eval H pkt = ∅ then ∅ else PacketPolicy.sequential (writtenList H policies) pkt := by
    rw [writtenList, if_pos hp.matched, PacketPolicy.sequential_cons, PacketPolicy.andThen, hp.same]
    split_ifs with hpass
    · rw [hpass, Finset.biUnion_empty]
    · rw [hp.filter.eval_eq hpass, Finset.singleton_biUnion]
  rw [hwritten, hp.filter.eval_cons]
  split_ifs
  · exact Iff.rfl
  · exact h.takes pkt

theorem DecidedChain.decided (hp : Tested H p) (h : DecidedChain H policies) :
    Decided H (.sequential (p :: policies)) := by
  have hchain := h.cons hp
  refine ⟨⟨hp.first, h.first, fun _ => hp.matched⟩, ?_, hchain.takes⟩
  rw [hasMatch, hasMatchAny, hp.matched, Bool.true_or]

theorem Decided.chain (h : Decided H p) : DecidedChain H [p] := by
  refine ⟨⟨h.first, trivial⟩, fun pkt => ?_⟩
  have hone : ∀ q : PacketPolicy (Frame ρ), PacketPolicy.sequential [q] pkt = q pkt := by
    intro q
    rw [PacketPolicy.sequential_cons, PacketPolicy.andThen]
    exact Finset.biUnion_singleton_eq_self
  rw [writtenList, if_pos h.matched, writtenList, hone, Policy.eval, Policy.evalList, Policy.evalList,
    hone]
  exact h.takes pkt

theorem decidedChain_tests (htests : ∀ t ∈ tests, Tested H t) (hlast : DecidedChain H [last]) :
    DecidedChain H (tests ++ [last]) := by
  induction tests with
  | nil => exact hlast
  | cons t tests ih =>
    obtain ⟨ht, htests⟩ := List.forall_mem_cons.mp htests
    exact (ih htests).cons ht

theorem decided_tests (htests : ∀ t ∈ tests, Tested H t) (hlast : DecidedChain H [last])
    (hend : tests = [] → Decided H (.sequential [last])) : Decided H (.sequential (tests ++ [last])) := by
  cases tests with
  | nil => exact hend rfl
  | cons t tests =>
    obtain ⟨ht, htests⟩ := List.forall_mem_cons.mp htests
    exact (decidedChain_tests htests hlast).decided ht

theorem Decided.alone (h : Decided H p) : Decided H (.sequential [p]) := by
  refine ⟨⟨h.first, trivial, fun _ => h.matched⟩, ?_, h.chain.takes⟩
  rw [hasMatch, hasMatchAny, h.matched, Bool.true_or]

end decided

section vnhops
variable {ρ : Type*} [DecidableEq ρ] {H : Header ρ} {hα : Hashing String} {hm : Hashing ℕ}
  {s : Setting} {sdx : SDX String} {X : String} {tests : List Policy} {last p' : Policy}

theorem tested_vnhopLeaf {t t' : Policy} (ht : isTest t = true)
    (h : Policy.traverse (vnhopLeaf hα hm sdx X) t = some t') : Tested H t' := by
  cases t with
  | matching map =>
    obtain rfl := Option.some.inj h
    exact tested_matching map
  | matchPrefixesSet pfxes =>
    obtain ⟨macs, -, rfl⟩ := Option.map_eq_some_iff.mp h
    exact tested_matchVnhops _
  | _ => exact absurd ht Bool.false_ne_true

theorem traverseList_tests (htests : ∀ t ∈ tests, isTest t = true) {policies' : List Policy}
    (h : Policy.traverseList (vnhopLeaf hα hm sdx X) (tests ++ [last]) = some policies') :
    ∃ tests' last', policies' = tests' ++ [last'] ∧ (∀ t ∈ tests', Tested H t) ∧
      (tests' = [] → tests = []) ∧ Policy.traverse (vnhopLeaf hα hm sdx X) last = some last' := by
  induction tests generalizing policies' with
  | nil =>
    obtain ⟨last', hlast', h⟩ := Option.bind_eq_some_iff.mp h
    obtain ⟨rest, hrest, rfl⟩ := Option.map_eq_some_iff.mp h
    obtain rfl := Option.some.inj hrest
    exact ⟨[], last', rfl, fun t ht => absurd ht List.not_mem_nil, fun _ => rfl, hlast'⟩
  | cons t tests ih =>
    obtain ⟨ht, htests⟩ := List.forall_mem_cons.mp htests
    obtain ⟨t', ht', h⟩ := Option.bind_eq_some_iff.mp h
    obtain ⟨rest, hrest, rfl⟩ := Option.map_eq_some_iff.mp h
    obtain ⟨tests', last', rfl, htests', -, hlast'⟩ := ih htests hrest
    refine ⟨t' :: tests', last', rfl, List.forall_mem_cons.mpr ⟨tested_vnhopLeaf ht ht', htests'⟩,
      fun hnil => ?_, hlast'⟩
    cases hnil

theorem GuardedEnd.decided {outport : ℕ} {chosen : Prop} (h : GuardedEnd s X outport chosen last)
    {last' : Policy} (hlast : Policy.traverse (vnhopLeaf hα hm sdx X) last = some last') :
    DecidedChain H [last'] ∧ (¬ chosen → Decided H last') := by
  rcases h with ⟨hchosen, rfl⟩ | ⟨-, routes, -, rfl⟩
  · obtain rfl := Option.some.inj hlast
    exact ⟨decidedChain_fwd outport, fun hnot => absurd hchosen hnot⟩
  · obtain ⟨policies', h', rfl⟩ := Option.map_eq_some_iff.mp hlast
    obtain ⟨guard, hguard, h'⟩ := Option.bind_eq_some_iff.mp h'
    obtain ⟨rest, hrest, rfl⟩ := Option.map_eq_some_iff.mp h'
    obtain rfl : [Policy.fwd outport] = rest := Option.some.inj hrest
    have hdecided := (decidedChain_fwd (H := H) outport).decided
      (tested_vnhopLeaf (t := .matchPrefixesSet routes.toFinset) rfl hguard)
    exact ⟨hdecided.chain, fun _ => hdecided⟩

theorem decided_of_rules {p : Policy} (hp : MadeOfRules p) {a : Accs} {r : Policy × Accs}
    (h5a : step5aExpandPolicyWithPrefixes s X p a = some r)
    (h5b : step5bExpandPolicyWithVnhop hα hm sdx X r.1 = some p') : Decided H p' := by
  induction p, hp using rulesInduct generalizing a r p' with
  | rule policies rule hrule =>
    obtain ⟨last, hlast, hguard⟩ := step5aExpand_rule hrule h5a
    rw [hlast] at h5b
    obtain ⟨policies', h', rfl⟩ := Option.map_eq_some_iff.mp h5b
    obtain ⟨tests', last', rfl, htests', hnil, hlast'⟩ :=
      traverseList_tests (H := H) (chainRule_spec hrule).2 h'
    obtain ⟨hchain, hdecided⟩ := hguard.decided (H := H) hlast'
    refine decided_tests htests' hchain fun hempty => (hdecided ?_).alone
    rw [hnil hempty]
    exact Bool.false_ne_true
  | parallel policies hne hall ih =>
    obtain ⟨r, hr, rfl⟩ := Option.map_eq_some_iff.mp h5a
    obtain ⟨policies', h', rfl⟩ := Option.map_eq_some_iff.mp h5b
    have hpairs := step5aExpandAll_forall₂ hr
    have himages := Policy.traverseList_eq_some.mp h'
    refine Decided.parallel (fun hnil => hne ?_) fun q' hq' => ?_
    · rw [hnil, List.forall₂_nil_right_iff] at himages
      rwa [himages, List.forall₂_nil_right_iff] at hpairs
    · obtain ⟨q, hq, hqq'⟩ := Runs.exists_of_forall₂ himages.flip hq'
      obtain ⟨p, hmem, a, r, hr, rfl⟩ := Runs.exists_of_forall₂ hpairs.flip hq
      exact ih p hmem hr hqq'

end vnhops

end Hispar.VnhAssignment
