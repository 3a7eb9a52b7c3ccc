import Hispar.Library.Dictionary
import Hispar.Library.Runs

/-!
# Utilization of the ports

A sample of a port is recorded with the participant behind the port. The record
is looked up by the participant, whose name is taken for the list of the
parameters, and it is updated by the port; a first sample is inserted, and then
the call fails on a difference that only an update computes.
-/
namespace Hispar.Pending
open Library

/-- An interval, by which a number of bits is divided: the quotient of integers is their floor. -/
inductive Interval where
  | int (n : ℤ)
  | float (q : ℚ)

def Interval.divide (bits : ℤ) : Interval → Option ℚ
  | .int n => if n = 0 then none else some (Int.fdiv bits n)
  | .float q => if q = 0 then none else some (bits / q)

structure Sample where
  port : ℕ
  toAS : Option String
  byteCount : ℤ
  interval : Interval

structure UtilRow where
  port : ℕ
  toAS : String
  util : ℚ
  total : Option ℤ

abbrev Utilization := List UtilRow

def capacities : Dict ℕ ℤ :=
  ⟨[(1, 10485760), (2, 10485760), (3, 10485760), (4, 10485760)], by decide⟩

inductive Raised where
  /-- `old_record` without a value -/
  | unboundRecord
  /-- a number of parameters other than one -/
  | bindings
  | division
  | capacity
  /-- a statement that is no SQL -/
  | statement
  /-- `delta_bytes` without a value -/
  | unboundDelta
  deriving DecidableEq

def Sample.utilOf (c : Sample) (bytes : ℤ) : Except Raised ℚ :=
  match c.interval.divide (bytes * 8), capacities.get? c.port with
  | none, _ => .error .division
  | some _, none => .error .capacity
  | some rate, some capacity => .ok (rate / capacity * 100)

namespace Utilization

/-- The characters of the name are the parameters, of which the query has one. -/
def getUtilRecord (table : Utilization) (toAS : String) : Except Raised (Option UtilRow) :=
  if toAS.length = 1 then .ok (table.find? fun row => row.toAS = toAS) else .error .bindings

def addUtilRecord (table : Utilization) (port : ℕ) (toAS : String) (util : ℚ) (total : ℤ) :
    Utilization :=
  table ++ [⟨port, toAS, util, some total⟩]

/-- The name stands in quotes in the text of the statement, which a quote leaves open. -/
def updateUtilRecord (table : Utilization) (port : ℕ) (toAS : String) (util : ℚ) (total : ℤ) :
    Except Raised Utilization :=
  if ∃ c ∈ toAS.toList, c.toNat = 39 then .error .statement
  else .ok (table.map fun row => if row.port = port then ⟨port, toAS, util, some total⟩ else row)

def firstUtil (table : Utilization) (c : Sample) (toAS : String) : Utilization × Option Raised :=
  match c.utilOf c.byteCount with
  | .error e => (table, some e)
  | .ok util => (table.addUtilRecord c.port toAS util c.byteCount, some .unboundDelta)

def nextUtil (table : Utilization) (c : Sample) (toAS : String) (old : UtilRow) :
    Except Raised Utilization :=
  (c.utilOf (c.byteCount - old.total.getD 0)).bind fun util =>
    table.updateUtilRecord c.port toAS util c.byteCount

def addOrUpdateUtil (table : Utilization) (c : Sample) : Utilization × Option Raised :=
  match c.toAS with
  | none => (table, some .unboundRecord)
  | some toAS =>
    match table.getUtilRecord toAS with
    | .error e => (table, some e)
    | .ok none => table.firstUtil c toAS
    | .ok (some old) =>
      match table.nextUtil c toAS old with
      | .error e => (table, some e)
      | .ok table' => (table', none)

theorem getUtilRecord_eq_ok {table : Utilization} {toAS : String} {old : Option UtilRow} :
    table.getUtilRecord toAS = .ok old ↔
      toAS.length = 1 ∧ (table.find? fun row => row.toAS = toAS) = old := by
  rw [getUtilRecord]
  split_ifs with h
  · rw [Except.ok.injEq, and_iff_right h]
  · simp [h]

theorem firstUtil_raises (table : Utilization) (c : Sample) (toAS : String) :
    (table.firstUtil c toAS).2 ≠ none := by
  rw [firstUtil]
  split <;> exact Option.some_ne_none _

theorem addOrUpdateUtil_completes_iff {table table' : Utilization} {c : Sample} :
    table.addOrUpdateUtil c = (table', none) ↔ ∃ toAS old, c.toAS = some toAS ∧
      table.getUtilRecord toAS = .ok (some old) ∧ table.nextUtil c toAS old = .ok table' := by
  constructor
  · intro h
    rw [addOrUpdateUtil] at h
    split at h
    · simp at h
    · next toAS htoAS =>
      split at h
      · simp at h
      · exact absurd (congrArg Prod.snd h) (firstUtil_raises table c toAS)
      · next old hold =>
        split at h
        · simp at h
        · next table₁ hnext => exact ⟨toAS, old, htoAS, hold, (Prod.mk.inj h).1 ▸ hnext⟩
  · rintro ⟨toAS, old, htoAS, hold, hnext⟩
    simp only [addOrUpdateUtil, htoAS, hold, hnext]

theorem addOrUpdateUtil_new {table : Utilization} {c : Sample}
    (h : ∀ toAS, c.toAS = some toAS → ∀ row ∈ table, row.toAS ≠ toAS) :
    (table.addOrUpdateUtil c).2 ≠ none := by
  intro hnone
  have hcall : table.addOrUpdateUtil c = ((table.addOrUpdateUtil c).1, none) := by rw [← hnone]
  obtain ⟨toAS, old, htoAS, hold, -⟩ := addOrUpdateUtil_completes_iff.mp hcall
  obtain ⟨-, hfind⟩ := getUtilRecord_eq_ok.mp hold
  exact h toAS htoAS old (List.mem_of_find?_eq_some hfind) (by simpa using List.find?_some hfind)

end Utilization

def utilizationAfter (calls : List Sample) : Utilization :=
  calls.foldl (fun table c => (table.addOrUpdateUtil c).1) []

def latestOf (port : ℕ) (calls : List Sample) : Option Sample :=
  (calls.filter fun c => c.port = port).getLast?

/-- What the table is to hold after the calls: all of them complete, every sampled port has one
row, with its participant and its last count, and the utilization goes by the difference to the
port's own previous count. -/
structure Accounts (calls : List Sample) : Prop where
  completes : ∀ before c after, calls = before ++ c :: after →
    ((utilizationAfter before).addOrUpdateUtil c).2 = none
  rows : ∀ port c, latestOf port calls = some c → ∃ toAS util, c.toAS = some toAS ∧
    ((utilizationAfter calls).filter fun row => row.port = port) =
      [⟨port, toAS, util, some c.byteCount⟩]
  sampled : ∀ row ∈ utilizationAfter calls, ∃ c ∈ calls, c.port = row.port
  differences : ∀ before c after previous util, calls = before ++ c :: after →
    latestOf c.port before = some previous →
    c.utilOf (c.byteCount - previous.byteCount) = .ok util →
    ∀ row ∈ utilizationAfter (before ++ [c]), row.port = c.port → row.util = util

theorem eq_nil_of_completes {calls : List Sample} (h : ∀ before c after,
    calls = before ++ c :: after → ((utilizationAfter before).addOrUpdateUtil c).2 = none) :
    calls = [] := by
  cases calls with
  | nil => rfl
  | cons c calls =>
    exact absurd (h [] c calls rfl)
      (Utilization.addOrUpdateUtil_new fun _ _ row hrow => absurd hrow List.not_mem_nil)

/-- The calls never do what they are to do, except where there is none: the first one fails. -/
theorem accounts_iff (calls : List Sample) : Accounts calls ↔ calls = [] := by
  constructor
  · exact fun h => eq_nil_of_completes h.completes
  · rintro rfl
    refine ⟨fun before c after h => ?_, fun port c h => ?_, fun row hrow => ?_,
      fun before c after previous util h => ?_⟩
    · simp at h
    · simp [latestOf] at h
    · exact absurd hrow List.not_mem_nil
    · simp at h

def firstSample : Sample := ⟨3, some "A", 1000, .int 2⟩

theorem accounts_firstSample : firstSample.port ∈ capacities.keys ∧ ¬ Accounts [firstSample] :=
  ⟨by decide, fun h => List.cons_ne_nil _ _ (eq_nil_of_completes h.completes)⟩

end Hispar.Pending
