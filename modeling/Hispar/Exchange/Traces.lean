import Hispar.Exchange.Policy

/-!
# Packets that carry a record of their path

A tree is run on packets with a record that its leaves write. Forgetting the
record gives what the tree does to plain packets, so the record only observes.
-/
namespace Hispar.Exchange
open Library

namespace Policy
variable {π : Type*} [DecidableEq π] (leaf : Policy → PacketPolicy π) (enter : Finset π → π → π)

mutual
/-- A packet that a condition lets through enters the first branch with what it brings along. -/
def trace : Policy → PacketPolicy π
  | .parallel policies => PacketPolicy.parallel (traceList policies)
  | .sequential policies => PacketPolicy.sequential (traceList policies)
  | .ifThenElse pred t f => fun pkt =>
      if trace pred pkt = ∅ then trace f pkt else trace t (enter (trace pred pkt) pkt)
  | policy => leaf policy

def traceList : List Policy → List (PacketPolicy π)
  | [] => []
  | p :: policies => trace p :: traceList policies
end

variable {leaf enter} {p : Policy} {policies : List Policy} {pkt out : π}

theorem trace_leaf (h : p.IsLeaf) : trace leaf enter p = leaf p := by
  cases p <;> first | exact h.elim | rfl

theorem trace_parallel_nil : trace leaf enter (.parallel []) pkt = ∅ := rfl

theorem trace_parallel_cons : trace leaf enter (.parallel (p :: policies)) pkt =
    trace leaf enter p pkt ∪ trace leaf enter (.parallel policies) pkt := rfl

theorem trace_sequential_nil : trace leaf enter (.sequential []) pkt = {pkt} := rfl

theorem trace_sequential_cons : trace leaf enter (.sequential (p :: policies)) pkt =
    (trace leaf enter p pkt).biUnion (trace leaf enter (.sequential policies)) := by
  rw [trace, traceList, PacketPolicy.sequential_cons]
  rfl

theorem trace_ifThenElse {pred t f : Policy} : trace leaf enter (.ifThenElse pred t f) pkt =
    if trace leaf enter pred pkt = ∅ then trace leaf enter f pkt
    else trace leaf enter t (enter (trace leaf enter pred pkt) pkt) := rfl

theorem mem_trace_parallel :
    out ∈ trace leaf enter (.parallel policies) pkt ↔ ∃ p ∈ policies, out ∈ trace leaf enter p pkt := by
  induction policies with
  | nil => simp [trace_parallel_nil]
  | cons p policies ih => rw [trace_parallel_cons, Finset.mem_union, ih, List.exists_mem_cons_iff]

theorem mem_trace_chain : out ∈ trace leaf enter (.sequential (policies ++ [p])) pkt ↔
    ∃ mid ∈ trace leaf enter (.sequential policies) pkt, out ∈ trace leaf enter p mid := by
  induction policies generalizing pkt with
  | nil => simp [trace_sequential_cons, trace_sequential_nil]
  | cons q policies ih =>
    simp only [List.cons_append, trace_sequential_cons, Finset.mem_biUnion, ih]
    constructor
    · rintro ⟨a, ha, mid, hmid, hout⟩
      exact ⟨mid, ⟨a, ha, hmid⟩, hout⟩
    · rintro ⟨mid, ⟨a, ha, hmid⟩, hout⟩
      exact ⟨a, ha, mid, hmid, hout⟩

theorem image_trace {ρ : Type*} [DecidableEq ρ] {H : Header ρ} (forget : π → Frame ρ)
    (hleaf : ∀ p : Policy, p.IsLeaf → ∀ x, (leaf p x).image forget = eval H p (forget x))
    (henter : ∀ outs x, forget (enter outs x) = forget x) (p : Policy) (x : π) :
    (trace leaf enter p x).image forget = eval H p (forget x) := by
  induction p using leafInduct generalizing x with
  | leaf p h => rw [trace_leaf h, hleaf p h]
  | parallel policies ih =>
    induction policies with
    | nil => rfl
    | cons p policies ihps =>
      have hrest := ihps fun q hq => ih q (List.mem_cons_of_mem p hq)
      rw [trace_parallel_cons, Finset.image_union, ih p List.mem_cons_self, hrest]
      rfl
  | sequential policies ih =>
    induction policies generalizing x with
    | nil => rfl
    | cons p policies ihps =>
      have hrest := ihps fun q hq => ih q (List.mem_cons_of_mem p hq)
      rw [trace_sequential_cons, eval_sequential_cons, ← ih p List.mem_cons_self,
        Finset.image_biUnion, Finset.biUnion_image]
      exact Finset.biUnion_congr rfl fun mid _ => hrest mid
  | ifThenElse pred t f hpred ht hf =>
    have hempty : trace leaf enter pred x = ∅ ↔ eval H pred (forget x) = ∅ := by
      rw [← hpred, Finset.image_eq_empty]
    rw [trace_ifThenElse, eval_ifThenElse]
    by_cases h : trace leaf enter pred x = ∅
    · rw [if_pos h, if_pos (hempty.mp h), hf]
    · rw [if_neg h, if_neg fun he => h (hempty.mpr he), ht, henter]

end Policy
end Hispar.Exchange
