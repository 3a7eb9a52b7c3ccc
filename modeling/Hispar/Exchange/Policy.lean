import Hispar.Library.Dictionary
import Hispar.Library.PacketPolicy
import Hispar.Library.Runs

/-!
# Policies as syntax trees

The passes over a participant's policy read and rewrite its tree. What a tree
does to a packet is given by the set semantics of its constructors. The fields
that the passes themselves match or set are kept apart from the header, whose
fields are read and written by a parameter.
-/
namespace Hispar.Exchange
open Library

inductive Value
  | num (n : ℕ)
  | text (s : String)
  deriving DecidableEq

inductive Policy
  | passthrough
  | drop
  | matching (map : Dict String Value)
  | negate (policy : Policy)
  | matchPrefixesSet (pfxes : Finset String)
  | modify (map : Dict String Value)
  | fwd (outport : ℕ)
  | parallel (policies : List Policy)
  | sequential (policies : List Policy)
  | ifThenElse (pred tBranch fBranch : Policy)

namespace Policy

@[elab_as_elim, induction_eliminator]
theorem induct {motive : Policy → Prop} (passthrough : motive .passthrough)
    (drop : motive .drop) (matching : ∀ map, motive (.matching map))
    (negate : ∀ policy, motive policy → motive (.negate policy))
    (matchPrefixesSet : ∀ pfxes, motive (.matchPrefixesSet pfxes))
    (modify : ∀ map, motive (.modify map)) (fwd : ∀ outport, motive (.fwd outport))
    (parallel : ∀ policies, (∀ p ∈ policies, motive p) → motive (.parallel policies))
    (sequential : ∀ policies, (∀ p ∈ policies, motive p) → motive (.sequential policies))
    (ifThenElse : ∀ pred tBranch fBranch, motive pred → motive tBranch → motive fBranch →
      motive (.ifThenElse pred tBranch fBranch)) (policy : Policy) : motive policy := by
  refine @Policy.rec motive (fun policies => ∀ p ∈ policies, motive p) passthrough drop matching
    negate matchPrefixesSet modify fwd parallel sequential ifThenElse ?_ ?_ policy
  · exact fun p hp => absurd hp List.not_mem_nil
  · intro q policies hq hpolicies p hp
    rcases List.mem_cons.mp hp with rfl | hp
    · exact hq
    · exact hpolicies p hp

mutual
def outports : Policy → List ℕ
  | .fwd outport => [outport]
  | .parallel policies => outportsList policies
  | .sequential policies => outportsList policies
  | .ifThenElse pred t f => outports pred ++ outports t ++ outports f
  | _ => []

def outportsList : List Policy → List ℕ
  | [] => []
  | p :: policies => outports p ++ outportsList policies
end

mutual
def prefixSets : Policy → List (Finset String)
  | .matchPrefixesSet pfxes => [pfxes]
  | .negate policy => prefixSets policy
  | .parallel policies => prefixSetsList policies
  | .sequential policies => prefixSetsList policies
  | .ifThenElse pred t f => prefixSets pred ++ prefixSets t ++ prefixSets f
  | _ => []

def prefixSetsList : List Policy → List (Finset String)
  | [] => []
  | p :: policies => prefixSets p ++ prefixSetsList policies
end

theorem outportsList_eq (policies : List Policy) :
    outportsList policies = policies.flatMap outports := by
  induction policies with
  | nil => rfl
  | cons p policies ih => rw [outportsList, ih, List.flatMap_cons]

theorem prefixSetsList_eq (policies : List Policy) :
    prefixSetsList policies = policies.flatMap prefixSets := by
  induction policies with
  | nil => rfl
  | cons p policies ih => rw [prefixSetsList, ih, List.flatMap_cons]

end Policy

/-- How the fields of a header are matched and set, and its destination prefix. -/
structure Header (ρ : Type*) where
  test : String → Value → ρ → Bool
  write : String → Value → ρ → ρ
  prefixOf : ρ → String

/-- A packet, by the fields that the passes match or set, and its header. -/
structure Frame (ρ : Type*) where
  outport : Option Value
  state : Option Value
  dstmac : Option Value
  header : ρ
  deriving DecidableEq

namespace Frame
variable {ρ : Type*} (H : Header ρ)

def test (field : String) (v : Value) (pkt : Frame ρ) : Bool :=
  if field = "outport" then pkt.outport = some v
  else if field = "state" then pkt.state = some v
  else if field = "dstmac" then pkt.dstmac = some v
  else H.test field v pkt.header

def write (field : String) (v : Value) (pkt : Frame ρ) : Frame ρ :=
  if field = "outport" then { pkt with outport := some v }
  else if field = "state" then { pkt with state := some v }
  else if field = "dstmac" then { pkt with dstmac := some v }
  else { pkt with header := H.write field v pkt.header }

def testAll (map : Dict String Value) (pkt : Frame ρ) : Bool :=
  map.items.all fun kv => pkt.test H kv.1 kv.2

def writeAll (map : Dict String Value) (pkt : Frame ρ) : Frame ρ :=
  map.items.foldl (fun pkt kv => pkt.write H kv.1 kv.2) pkt

end Frame

namespace Policy
variable {ρ : Type*} [DecidableEq ρ] (H : Header ρ)

mutual
def eval : Policy → PacketPolicy (Frame ρ)
  | .passthrough => PacketPolicy.passthrough
  | .drop => PacketPolicy.drop
  | .matching map => PacketPolicy.filter (Frame.testAll H map)
  | .negate policy => PacketPolicy.filter fun pkt => eval policy pkt = ∅
  | .matchPrefixesSet pfxes => PacketPolicy.filter fun pkt => H.prefixOf pkt.header ∈ pfxes
  | .modify map => PacketPolicy.modify (Frame.writeAll H map)
  | .fwd outport => PacketPolicy.modify (Frame.write H "outport" (.num outport))
  | .parallel policies => PacketPolicy.parallel (evalList policies)
  | .sequential policies => PacketPolicy.sequential (evalList policies)
  | .ifThenElse pred t f => PacketPolicy.ifThenElse (eval pred) (eval t) (eval f)

def evalList : List Policy → List (PacketPolicy (Frame ρ))
  | [] => []
  | p :: policies => eval p :: evalList policies
end

theorem evalList_eq (policies : List Policy) : evalList H policies = policies.map (eval H) := by
  induction policies with
  | nil => rfl
  | cons p policies ih => rw [evalList, ih, List.map_cons]

variable {H} {pkt out : Frame ρ} {policies : List Policy}

@[simp] theorem mem_eval_parallel :
    out ∈ eval H (.parallel policies) pkt ↔ ∃ p ∈ policies, out ∈ eval H p pkt := by
  rw [eval, evalList_eq, PacketPolicy.mem_parallel]
  simp

@[simp] theorem eval_sequential_nil : eval H (.sequential []) pkt = {pkt} := rfl

@[simp] theorem eval_sequential_cons {p : Policy} : eval H (.sequential (p :: policies)) pkt =
    (eval H p pkt).biUnion (eval H (.sequential policies)) := by
  rw [eval, evalList, PacketPolicy.sequential_cons]
  rfl

theorem mem_eval_chain {p : Policy} : out ∈ eval H (.sequential (policies ++ [p])) pkt ↔
    ∃ mid ∈ eval H (.sequential policies) pkt, out ∈ eval H p mid := by
  induction policies generalizing pkt with
  | nil => simp
  | cons q policies ih =>
    simp only [List.cons_append, eval_sequential_cons, Finset.mem_biUnion, ih]
    constructor
    · rintro ⟨a, ha, mid, hmid, hout⟩
      exact ⟨mid, ⟨a, ha, hmid⟩, hout⟩
    · rintro ⟨mid, ⟨a, ha, hmid⟩, hout⟩
      exact ⟨a, ha, mid, hmid, hout⟩

theorem eval_ifThenElse {pred t f : Policy} : eval H (.ifThenElse pred t f) pkt =
    if eval H pred pkt = ∅ then eval H f pkt else eval H t pkt := rfl

def IsLeaf : Policy → Prop
  | .parallel _ | .sequential _ | .ifThenElse _ _ _ => False
  | _ => True

theorem leafInduct {motive : Policy → Prop} (leaf : ∀ p, p.IsLeaf → motive p)
    (parallel : ∀ policies, (∀ p ∈ policies, motive p) → motive (.parallel policies))
    (sequential : ∀ policies, (∀ p ∈ policies, motive p) → motive (.sequential policies))
    (ifThenElse : ∀ pred tBranch fBranch, motive pred → motive tBranch → motive fBranch →
      motive (.ifThenElse pred tBranch fBranch)) (policy : Policy) : motive policy := by
  induction policy with
  | parallel policies ih => exact parallel policies ih
  | sequential policies ih => exact sequential policies ih
  | ifThenElse pred t f hpred ht hf => exact ifThenElse pred t f hpred ht hf
  | _ => exact leaf _ trivial

mutual
def Leaves (q : Policy → Prop) : Policy → Prop
  | .parallel policies => LeavesList q policies
  | .sequential policies => LeavesList q policies
  | .ifThenElse pred t f => Leaves q pred ∧ Leaves q t ∧ Leaves q f
  | policy => q policy

def LeavesList (q : Policy → Prop) : List Policy → Prop
  | [] => True
  | p :: policies => Leaves q p ∧ LeavesList q policies
end

mutual
/-- A pass that rewrites each leaf, and raises where a leaf does. -/
def traverse (g : Policy → Option Policy) : Policy → Option Policy
  | .parallel policies => (traverseList g policies).map .parallel
  | .sequential policies => (traverseList g policies).map .sequential
  | .ifThenElse pred t f => (traverse g pred).bind fun pred => (traverse g t).bind fun t =>
      (traverse g f).map fun f => .ifThenElse pred t f
  | policy => g policy

def traverseList (g : Policy → Option Policy) : List Policy → Option (List Policy)
  | [] => some []
  | p :: policies => (traverse g p).bind fun p => (traverseList g policies).map (p :: ·)
end

section passes
variable {q q' : Policy → Prop} {g : Policy → Option Policy} {p : Policy}

theorem leaves_leaf (h : p.IsLeaf) : Leaves q p ↔ q p := by
  cases p <;> first | exact h.elim | exact Iff.rfl

theorem traverse_leaf (h : p.IsLeaf) : traverse g p = g p := by
  cases p <;> first | exact h.elim | rfl

theorem leavesList_iff : LeavesList q policies ↔ ∀ p ∈ policies, Leaves q p := by
  induction policies with
  | nil => simp [LeavesList]
  | cons p policies ih => rw [LeavesList, ih, List.forall_mem_cons]

theorem Leaves.imp (h : ∀ p, q p → q' p) (hp : Leaves q p) : Leaves q' p := by
  induction p using leafInduct with
  | leaf p hleaf => exact (leaves_leaf hleaf).mpr (h p ((leaves_leaf hleaf).mp hp))
  | parallel policies ih =>
    exact leavesList_iff.mpr fun p hmem => ih p hmem (leavesList_iff.mp hp p hmem)
  | sequential policies ih =>
    exact leavesList_iff.mpr fun p hmem => ih p hmem (leavesList_iff.mp hp p hmem)
  | ifThenElse pred t f hpred ht hf => exact ⟨hpred hp.1, ht hp.2.1, hf hp.2.2⟩

theorem Leaves.and (h : Leaves q p) (h' : Leaves q' p) : Leaves (fun p => q p ∧ q' p) p := by
  induction p using leafInduct with
  | leaf p hleaf =>
    exact (leaves_leaf hleaf).mpr ⟨(leaves_leaf hleaf).mp h, (leaves_leaf hleaf).mp h'⟩
  | parallel policies ih =>
    exact leavesList_iff.mpr fun p hp => ih p hp (leavesList_iff.mp h p hp) (leavesList_iff.mp h' p hp)
  | sequential policies ih =>
    exact leavesList_iff.mpr fun p hp => ih p hp (leavesList_iff.mp h p hp) (leavesList_iff.mp h' p hp)
  | ifThenElse pred t f hpred ht hf =>
    exact ⟨hpred h.1 h'.1, ht h.2.1 h'.2.1, hf h.2.2 h'.2.2⟩

theorem leaves_isLeaf (p : Policy) : Leaves IsLeaf p := by
  induction p using leafInduct with
  | leaf p hleaf => exact (leaves_leaf hleaf).mpr hleaf
  | parallel policies ih => exact leavesList_iff.mpr ih
  | sequential policies ih => exact leavesList_iff.mpr ih
  | ifThenElse pred t f hpred ht hf => exact ⟨hpred, ht, hf⟩

theorem leaves_prefixSets : Leaves (fun leaf => leaf.prefixSets ⊆ p.prefixSets) p := by
  have hmembers : ∀ (policies : List Policy), (∀ p ∈ policies,
      Leaves (fun leaf => leaf.prefixSets ⊆ p.prefixSets) p) →
      LeavesList (fun leaf => leaf.prefixSets ⊆ prefixSetsList policies) policies := by
    intro policies h
    refine leavesList_iff.mpr fun p hp => (h p hp).imp fun leaf hleaf => ?_
    rw [prefixSetsList_eq]
    exact List.Subset.trans hleaf fun S hS => List.mem_flatMap.mpr ⟨p, hp, hS⟩
  induction p using leafInduct with
  | leaf p hleaf => exact (leaves_leaf hleaf).mpr (List.Subset.refl _)
  | parallel policies ih => exact hmembers policies ih
  | sequential policies ih => exact hmembers policies ih
  | ifThenElse pred t f hpred ht hf =>
    refine ⟨hpred.imp fun _ h => ?_, ht.imp fun _ h => ?_, hf.imp fun _ h => ?_⟩
    · exact List.Subset.trans h fun S hS => List.mem_append_left _ (List.mem_append_left _ hS)
    · exact List.Subset.trans h fun S hS => List.mem_append_left _ (List.mem_append_right _ hS)
    · exact List.Subset.trans h fun S hS => List.mem_append_right _ hS

theorem traverseList_eq_some {policies' : List Policy} :
    traverseList g policies = some policies' ↔
      List.Forall₂ (fun p p' => traverse g p = some p') policies policies' := by
  induction policies generalizing policies' with
  | nil =>
    rw [traverseList, List.forall₂_nil_left_iff, Option.some.injEq, eq_comm]
  | cons p policies ih =>
    rw [traverseList, List.forall₂_cons_left_iff, Option.bind_eq_some_iff]
    constructor
    · rintro ⟨p', hp', h⟩
      obtain ⟨rest, hrest, rfl⟩ := Option.map_eq_some_iff.mp h
      exact ⟨p', rest, hp', ih.mp hrest, rfl⟩
    · rintro ⟨p', rest, hp', hrest, rfl⟩
      exact ⟨p', hp', Option.map_eq_some_iff.mpr ⟨rest, ih.mpr hrest, rfl⟩⟩

theorem traverse_total (h : Leaves (fun p => ∃ p', g p = some p') p) :
    ∃ p', traverse g p = some p' := by
  have hlist : ∀ policies : List Policy, (∀ p ∈ policies, ∃ p', traverse g p = some p') →
      ∃ policies', traverseList g policies = some policies' := by
    intro policies
    induction policies with
    | nil => exact fun _ => ⟨[], rfl⟩
    | cons p policies ih =>
      intro hall
      obtain ⟨⟨p', hp'⟩, hall⟩ := List.forall_mem_cons.mp hall
      obtain ⟨policies', hpolicies'⟩ := ih hall
      exact ⟨p' :: policies', by rw [traverseList, hp', Option.bind_some, hpolicies', Option.map_some]⟩
  induction p using leafInduct with
  | leaf p hleaf => rwa [traverse_leaf hleaf, ← leaves_leaf (q := fun p => ∃ p', g p = some p') hleaf]
  | parallel policies ih =>
    obtain ⟨policies', h'⟩ := hlist policies fun p hp => ih p hp (leavesList_iff.mp h p hp)
    exact ⟨_, by rw [traverse, h', Option.map_some]⟩
  | sequential policies ih =>
    obtain ⟨policies', h'⟩ := hlist policies fun p hp => ih p hp (leavesList_iff.mp h p hp)
    exact ⟨_, by rw [traverse, h', Option.map_some]⟩
  | ifThenElse pred t f hpred ht hf =>
    obtain ⟨pred', hpred'⟩ := hpred h.1
    obtain ⟨t', ht'⟩ := ht h.2.1
    obtain ⟨f', hf'⟩ := hf h.2.2
    exact ⟨_, by rw [traverse, hpred', Option.bind_some, ht', Option.bind_some, hf', Option.map_some]⟩

theorem leaves_of_traverse {p' : Policy} (h : traverse g p = some p') :
    Leaves (fun p => ∃ p', g p = some p') p := by
  have hlist : ∀ policies policies' : List Policy, traverseList g policies = some policies' →
      (∀ p ∈ policies, ∀ p', traverse g p = some p' → Leaves (fun p => ∃ p', g p = some p') p) →
      LeavesList (fun p => ∃ p', g p = some p') policies := by
    intro policies policies' h ih
    refine leavesList_iff.mpr fun p hp => ?_
    obtain ⟨p', -, hp'⟩ := Runs.exists_of_forall₂ (traverseList_eq_some.mp h) hp
    exact ih p hp p' hp'
  induction p using leafInduct generalizing p' with
  | leaf p hleaf =>
    rw [traverse_leaf hleaf] at h
    exact (leaves_leaf hleaf).mpr ⟨p', h⟩
  | parallel policies ih =>
    obtain ⟨policies', h', rfl⟩ := Option.map_eq_some_iff.mp h
    exact hlist policies policies' h' fun p hp p' => ih p hp
  | sequential policies ih =>
    obtain ⟨policies', h', rfl⟩ := Option.map_eq_some_iff.mp h
    exact hlist policies policies' h' fun p hp p' => ih p hp
  | ifThenElse pred t f hpred ht hf =>
    obtain ⟨pred', hpred', h⟩ := Option.bind_eq_some_iff.mp h
    obtain ⟨t', ht', h⟩ := Option.bind_eq_some_iff.mp h
    obtain ⟨f', hf', rfl⟩ := Option.map_eq_some_iff.mp h
    exact ⟨hpred hpred', ht ht', hf hf'⟩

theorem traverse_eq_self (h : Leaves (fun p => g p = some p) p) : traverse g p = some p := by
  have hlist : ∀ policies : List Policy, (∀ p ∈ policies, traverse g p = some p) →
      traverseList g policies = some policies := by
    intro policies hall
    rw [traverseList_eq_some, List.forall₂_same]
    exact hall
  induction p using leafInduct with
  | leaf p hleaf => rwa [traverse_leaf hleaf, ← leaves_leaf (q := fun p => g p = some p) hleaf]
  | parallel policies ih =>
    rw [traverse, hlist policies fun p hp => ih p hp (leavesList_iff.mp h p hp), Option.map_some]
  | sequential policies ih =>
    rw [traverse, hlist policies fun p hp => ih p hp (leavesList_iff.mp h p hp), Option.map_some]
  | ifThenElse pred t f hpred ht hf =>
    rw [traverse, hpred h.1, Option.bind_some, ht h.2.1, Option.bind_some, hf h.2.2, Option.map_some]

theorem prefixSets_traverse {p' : Policy} (h : traverse g p = some p')
    (hleaves : Leaves (fun p => ∀ p', g p = some p' → p'.prefixSets = []) p) :
    p'.prefixSets = [] := by
  have hlist : ∀ {policies policies' : List Policy}, traverseList g policies = some policies' →
      (∀ p ∈ policies, ∀ p', traverse g p = some p' → p'.prefixSets = []) →
      prefixSetsList policies' = [] := by
    intro policies policies' h hall
    rw [prefixSetsList_eq, List.flatMap_eq_nil_iff]
    intro p' hp'
    obtain ⟨p, hp, hpp'⟩ := Runs.exists_of_forall₂ (traverseList_eq_some.mp h).flip hp'
    exact hall p hp p' hpp'
  induction p using leafInduct generalizing p' with
  | leaf p hleaf =>
    rw [traverse_leaf hleaf] at h
    exact (leaves_leaf hleaf).mp hleaves p' h
  | parallel policies ih =>
    obtain ⟨policies', h', rfl⟩ := Option.map_eq_some_iff.mp h
    exact hlist h' fun p hp p' hp' => ih p hp hp' (leavesList_iff.mp hleaves p hp)
  | sequential policies ih =>
    obtain ⟨policies', h', rfl⟩ := Option.map_eq_some_iff.mp h
    exact hlist h' fun p hp p' hp' => ih p hp hp' (leavesList_iff.mp hleaves p hp)
  | ifThenElse pred t f hpred ht hf =>
    obtain ⟨pred', hpred', h⟩ := Option.bind_eq_some_iff.mp h
    obtain ⟨t', ht', h⟩ := Option.bind_eq_some_iff.mp h
    obtain ⟨f', hf', rfl⟩ := Option.map_eq_some_iff.mp h
    rw [prefixSets, hpred hpred' hleaves.1, ht ht' hleaves.2.1, hf hf' hleaves.2.2]
    rfl

def SameOn (H : Header ρ) (I : Frame ρ → Prop) (p p' : Policy) : Prop :=
  ∀ pkt, I pkt → eval H p' pkt = eval H p pkt ∧ ∀ out ∈ eval H p pkt, I out

theorem sameOn_parallel {I : Frame ρ → Prop} {policies' : List Policy}
    (h : List.Forall₂ (SameOn H I) policies policies') :
    SameOn H I (.parallel policies) (.parallel policies') := by
  intro pkt hI
  induction h with
  | nil => exact ⟨rfl, fun out hout => absurd hout (by simp)⟩
  | @cons p p' policies policies' hp _ ih =>
    obtain ⟨heq, hkeep⟩ := hp pkt hI
    have hcons : ∀ (p : Policy) (policies : List Policy),
        eval H (.parallel (p :: policies)) pkt = eval H p pkt ∪ eval H (.parallel policies) pkt :=
      fun _ _ => rfl
    rw [hcons, hcons, heq, ih.1]
    refine ⟨rfl, fun out hout => ?_⟩
    rcases Finset.mem_union.mp hout with hout | hout
    · exact hkeep out hout
    · exact ih.2 out hout

theorem sameOn_sequential {I : Frame ρ → Prop} {policies' : List Policy}
    (h : List.Forall₂ (SameOn H I) policies policies') :
    SameOn H I (.sequential policies) (.sequential policies') := by
  intro pkt hI
  induction h generalizing pkt with
  | nil => exact ⟨rfl, fun out hout => Finset.mem_singleton.mp hout ▸ hI⟩
  | @cons p p' policies policies' hp _ ih =>
    obtain ⟨heq, hkeep⟩ := hp pkt hI
    rw [eval_sequential_cons, eval_sequential_cons, heq]
    refine ⟨Finset.biUnion_congr rfl fun mid hmid => (ih mid (hkeep mid hmid)).1,
      fun out hout => ?_⟩
    obtain ⟨mid, hmid, hout⟩ := Finset.mem_biUnion.mp hout
    exact (ih mid (hkeep mid hmid)).2 out hout

theorem sameOn_ifThenElse {I : Frame ρ → Prop} {pred t f pred' t' f' : Policy}
    (hpred : SameOn H I pred pred') (ht : SameOn H I t t') (hf : SameOn H I f f') :
    SameOn H I (.ifThenElse pred t f) (.ifThenElse pred' t' f') := by
  intro pkt hI
  rw [eval_ifThenElse, eval_ifThenElse, (hpred pkt hI).1]
  split_ifs
  · exact hf pkt hI
  · exact ht pkt hI

theorem sameOn_traverse {I : Frame ρ → Prop} {p' : Policy} (h : traverse g p = some p')
    (hleaves : Leaves (fun p => ∀ p', g p = some p' → SameOn H I p p') p) : SameOn H I p p' := by
  have hlist : ∀ {policies policies' : List Policy},
      List.Forall₂ (fun p p' => traverse g p = some p') policies policies' →
      (∀ p ∈ policies, ∀ {p'}, traverse g p = some p' → SameOn H I p p') →
      List.Forall₂ (SameOn H I) policies policies' := by
    intro policies policies' h
    induction h with
    | nil => exact fun _ => .nil
    | cons hp _ ih =>
      intro hall
      exact .cons (hall _ List.mem_cons_self hp)
        (ih fun p hmem => hall p (List.mem_cons_of_mem _ hmem))
  induction p using leafInduct generalizing p' with
  | leaf p hleaf =>
    rw [traverse_leaf hleaf] at h
    exact (leaves_leaf hleaf).mp hleaves p' h
  | parallel policies ih =>
    obtain ⟨policies', h', rfl⟩ := Option.map_eq_some_iff.mp h
    refine sameOn_parallel (hlist (traverseList_eq_some.mp h') fun p hp p' hp' => ?_)
    exact ih p hp hp' (leavesList_iff.mp hleaves p hp)
  | sequential policies ih =>
    obtain ⟨policies', h', rfl⟩ := Option.map_eq_some_iff.mp h
    refine sameOn_sequential (hlist (traverseList_eq_some.mp h') fun p hp p' hp' => ?_)
    exact ih p hp hp' (leavesList_iff.mp hleaves p hp)
  | ifThenElse pred t f hpred ht hf =>
    obtain ⟨pred', hpred', h⟩ := Option.bind_eq_some_iff.mp h
    obtain ⟨t', ht', h⟩ := Option.bind_eq_some_iff.mp h
    obtain ⟨f', hf', rfl⟩ := Option.map_eq_some_iff.mp h
    exact sameOn_ifThenElse (hpred hpred' hleaves.1) (ht ht' hleaves.2.1) (hf hf' hleaves.2.2)

end passes

end Policy
end Hispar.Exchange
