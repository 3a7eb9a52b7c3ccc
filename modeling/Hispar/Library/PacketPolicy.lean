import Mathlib

/-!
# Policies as functions from packets to sets of packets

The combinators of a packet-processing language with set semantics: a policy
takes a packet to a finite set of packets, a filter to the packet itself or to
nothing.
-/
namespace Hispar.Library

abbrev PacketPolicy (π : Type*) := π → Finset π

namespace PacketPolicy
variable {π : Type*}

def passthrough : PacketPolicy π := fun pkt => {pkt}

def drop : PacketPolicy π := fun _ => ∅

def filter (test : π → Bool) : PacketPolicy π := fun pkt => if test pkt then {pkt} else ∅

def modify (f : π → π) : PacketPolicy π := fun pkt => {f pkt}

section filters
variable {test : π → Bool} {pkt out : π}

@[simp] theorem mem_passthrough : out ∈ (passthrough : PacketPolicy π) pkt ↔ out = pkt :=
  Finset.mem_singleton

@[simp] theorem notMem_drop : out ∉ (drop : PacketPolicy π) pkt := Finset.notMem_empty out

@[simp] theorem mem_filter : out ∈ filter test pkt ↔ test pkt = true ∧ out = pkt := by
  rw [filter]
  split_ifs with h <;> simp [h]

theorem filter_pass (h : test pkt = true) : filter test pkt = {pkt} := if_pos h

theorem filter_stop (h : test pkt = false) : filter test pkt = ∅ := if_neg (by simp [h])

@[simp] theorem mem_modify {f : π → π} : out ∈ modify f pkt ↔ out = f pkt := Finset.mem_singleton

end filters

variable [DecidableEq π]

def union (p q : PacketPolicy π) : PacketPolicy π := fun pkt => p pkt ∪ q pkt

def andThen (p q : PacketPolicy π) : PacketPolicy π := fun pkt => (p pkt).biUnion q

def parallel (ps : List (PacketPolicy π)) : PacketPolicy π := ps.foldr union drop

def sequential (ps : List (PacketPolicy π)) : PacketPolicy π := ps.foldl andThen passthrough

def ifThenElse (pred t f : PacketPolicy π) : PacketPolicy π := fun pkt =>
  if pred pkt = ∅ then f pkt else t pkt

variable {p q pred t f : PacketPolicy π} {ps : List (PacketPolicy π)} {pkt out : π}

@[simp] theorem mem_union : out ∈ union p q pkt ↔ out ∈ p pkt ∨ out ∈ q pkt := Finset.mem_union

@[simp] theorem mem_andThen : out ∈ andThen p q pkt ↔ ∃ mid ∈ p pkt, out ∈ q mid :=
  Finset.mem_biUnion

@[simp] theorem mem_parallel : out ∈ parallel ps pkt ↔ ∃ p ∈ ps, out ∈ p pkt := by
  induction ps with
  | nil => simp [parallel]
  | cons p ps ih =>
    rw [parallel, List.foldr_cons, mem_union, ← parallel, ih]
    simp

theorem ifThenElse_of_passes (h : pred pkt ≠ ∅) : ifThenElse pred t f pkt = t pkt := if_neg h

theorem ifThenElse_of_stopped (h : pred pkt = ∅) : ifThenElse pred t f pkt = f pkt := if_pos h

theorem passthrough_andThen : andThen passthrough p = p := by
  funext pkt
  exact Finset.singleton_biUnion

theorem filter_andThen {test : π → Bool} :
    andThen (filter test) q pkt = if test pkt then q pkt else ∅ := by
  rw [andThen]
  split_ifs with h
  · rw [filter_pass h, Finset.singleton_biUnion]
  · rw [filter_stop (by simpa using h), Finset.biUnion_empty]

theorem andThen_assoc (p q r : PacketPolicy π) :
    andThen (andThen p q) r = andThen p (andThen q r) := by
  funext pkt
  ext out
  simp only [mem_andThen]
  constructor
  · rintro ⟨y, ⟨x, hx, hy⟩, hout⟩
    exact ⟨x, hx, y, hy, hout⟩
  · rintro ⟨x, hx, y, hy, hout⟩
    exact ⟨y, ⟨x, hx, hy⟩, hout⟩

theorem foldl_andThen (p : PacketPolicy π) (ps : List (PacketPolicy π)) :
    ps.foldl andThen p = andThen p (sequential ps) := by
  induction ps generalizing p with
  | nil =>
    funext pkt
    exact (Finset.biUnion_singleton_eq_self).symm
  | cons q ps ih =>
    have hq : sequential (q :: ps) = andThen q (sequential ps) := by
      rw [← ih q, sequential, List.foldl_cons, passthrough_andThen]
    rw [List.foldl_cons, ih, andThen_assoc, hq]

theorem sequential_cons (p : PacketPolicy π) (ps : List (PacketPolicy π)) :
    sequential (p :: ps) = andThen p (sequential ps) := by
  rw [sequential, List.foldl_cons, passthrough_andThen, foldl_andThen]

theorem sequential_append (ps qs : List (PacketPolicy π)) :
    sequential (ps ++ qs) = andThen (sequential ps) (sequential qs) := by
  rw [sequential, List.foldl_append, foldl_andThen, ← sequential]

theorem parallel_of_unique {p : PacketPolicy π} (hp : p ∈ ps) (h : ∀ q ∈ ps, q pkt ⊆ p pkt) :
    parallel ps pkt = p pkt := by
  ext out
  rw [mem_parallel]
  exact ⟨fun ⟨q, hq, hout⟩ => h q hq hout, fun hout => ⟨p, hp, hout⟩⟩

theorem parallel_of_stopped (h : ∀ q ∈ ps, q pkt = ∅) : parallel ps pkt = ∅ := by
  rw [Finset.eq_empty_iff_forall_notMem]
  intro out hout
  obtain ⟨q, hq, hout⟩ := mem_parallel.mp hout
  exact Finset.notMem_empty out (h q hq ▸ hout)

theorem andThen_ne_empty : andThen p q pkt ≠ ∅ ↔ ∃ mid ∈ p pkt, q mid ≠ ∅ := by
  simp only [andThen, ← Finset.nonempty_iff_ne_empty, Finset.biUnion_nonempty]

theorem andThen_eq_empty : andThen p q pkt = ∅ ↔ ∀ mid ∈ p pkt, q mid = ∅ := by
  rw [← not_iff_not, ← ne_eq, andThen_ne_empty]
  push Not
  rfl

theorem exists_stop {ι : Type*} {f g : ι → PacketPolicy π} {l : List ι} {o c : π}
    (hf : sequential (l.map f) o = ∅) (hg : sequential (l.map g) c ≠ ∅) :
    ∃ before i after o' c', l = before ++ i :: after ∧ o' ∈ sequential (before.map f) o ∧
      c' ∈ sequential (before.map g) c ∧ f i o' = ∅ ∧ sequential ((i :: after).map g) c' ≠ ∅ := by
  induction l generalizing o c with
  | nil => exact absurd hf (Finset.singleton_ne_empty o)
  | cons i l ih =>
    by_cases hi : f i o = ∅
    · exact ⟨[], i, l, o, c, rfl, Finset.mem_singleton_self o, Finset.mem_singleton_self c, hi, hg⟩
    · rw [List.map_cons, sequential_cons, andThen_eq_empty] at hf
      rw [List.map_cons, sequential_cons, andThen_ne_empty] at hg
      obtain ⟨o₁, ho₁⟩ := Finset.nonempty_iff_ne_empty.mpr hi
      obtain ⟨c₁, hc₁, hrest⟩ := hg
      obtain ⟨before, j, after, o', c', rfl, ho', hc', hj⟩ := ih (hf o₁ ho₁) hrest
      refine ⟨i :: before, j, after, o', c', rfl, ?_, ?_, hj⟩
      · rw [List.map_cons, sequential_cons]
        exact mem_andThen.mpr ⟨o₁, ho₁, ho'⟩
      · rw [List.map_cons, sequential_cons]
        exact mem_andThen.mpr ⟨c₁, hc₁, hc'⟩

end PacketPolicy
end Hispar.Library
