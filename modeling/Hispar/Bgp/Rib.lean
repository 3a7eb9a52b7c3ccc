import Hispar.Library.Dictionary

/-!
# Routing tables

A table of a participant is the list of its rows, in the order in which they
were inserted: a query for a prefix returns its rows in that order, and a
fetch of one row returns the oldest.
-/
namespace Hispar.Bgp

/-- The MED column: a number, or the empty text written for a message that has none. -/
inductive Med where
  | int (n : ℤ)
  | empty
  deriving DecidableEq

def Med.gt : Med → Med → Bool
  | .int a, .int b => decide (b < a)
  | .empty, .int _ => true
  | _, .empty => false

structure Row where
  pfx : String
  nextHop : String
  origin : String
  asPath : String
  med : Med
  atomicAggregate : Option Bool
  deriving DecidableEq

abbrev Rib := List Row

namespace Rib

def add (rib : Rib) (key : String) (item : Row) : Rib := rib ++ [{ item with pfx := key }]

def get (rib : Rib) (key : String) : Option Row := rib.find? (·.pfx = key)

def getAll (rib : Rib) (key : String) : List Row := rib.filter (·.pfx = key)

def filterNextHop (rib : Rib) (value : String) : List Row := rib.filter (·.nextHop = value)

def delete (rib : Rib) (key : String) : Rib := rib.filter (·.pfx ≠ key)

def deleteAll (_ : Rib) : Rib := []

theorem mem_getAll {rib : Rib} {p : String} {r : Row} : r ∈ rib.getAll p ↔ r ∈ rib ∧ r.pfx = p := by
  rw [getAll, List.mem_filter, decide_eq_true_eq]

theorem get_eq_head? (rib : Rib) (p : String) : rib.get p = (rib.getAll p).head? :=
  List.head?_filter.symm

theorem get_eq_none {rib : Rib} {p : String} : rib.get p = none ↔ rib.getAll p = [] := by
  rw [get_eq_head?, List.head?_eq_none_iff]

theorem mem_of_get {rib : Rib} {p : String} {r : Row} (h : rib.get p = some r) :
    r ∈ rib ∧ r.pfx = p := by
  rw [get_eq_head?] at h
  exact mem_getAll.mp (List.mem_of_head? h)

@[simp] theorem getAll_nil (p : String) : getAll [] p = [] := rfl

theorem getAll_add (rib : Rib) (k p : String) (item : Row) :
    (rib.add k item).getAll p = rib.getAll p ++ if k = p then [{ item with pfx := k }] else [] := by
  rw [add, getAll, getAll, List.filter_append, List.filter_singleton]
  by_cases h : k = p <;> simp [h]

theorem getAll_delete (rib : Rib) (k p : String) :
    (rib.delete k).getAll p = if p = k then [] else rib.getAll p := by
  rw [delete, getAll, getAll, List.filter_filter]
  split_ifs with h
  · simp [h]
  · refine List.filter_congr fun r _ => ?_
    by_cases hr : r.pfx = p
    · simp [hr, h]
    · simp [hr]

end Rib
end Hispar.Bgp
