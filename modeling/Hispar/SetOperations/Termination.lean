import Hispar.SetOperations.Parallel

/-!
# The calls of a decomposition

A call on more than two participants calls itself on the two halves of them, and
then on the groups these two calls returned. No measure of the mapping bounds the
last of these calls, so that a call returns and what it returns go together. On the
empty mapping, whose first half is empty again, no call returns.
-/
namespace Hispar.SetOperations
open Library Library.Atoms

variable {α : Type*} [DecidableEq α]

def firstHalf (hκ : DictOrder Key) (d : Part2Prefix Key α) : Part2Prefix Key α :=
  dividePart2Prefixes hκ (everyOther d.keys) d

def secondHalf (hκ : DictOrder Key) (d : Part2Prefix Key α) : Part2Prefix Key α :=
  dividePart2Prefixes hκ (everyOther d.keys.tail) d

def mergedHalves (hκ : DictOrder Key) (d1 d2 : Part2Prefix Key α) : Part2Prefix Key α :=
  Dict.ofItems hκ (d1.items ++ d2.items)

def Recurses (d : Part2Prefix Key α) : Prop := d.keys.length ≠ 2 ∧ d.keys.length ≠ 1

variable (hα : Hashing α) (hκ : DictOrder Key)

def Returns (d : Part2Prefix Key α) (r : Part2Prefix Key α × Part2Prefix Key α) : Prop :=
  ∃ n, decmoposeParallel hα hκ n d = some r

/-- The calls that a call makes itself, each once the earlier ones have returned. -/
inductive Calls (d : Part2Prefix Key α) : Part2Prefix Key α → Prop
  | first (h : Recurses d) : Calls d (firstHalf hκ d)
  | second (h : Recurses d) {r₁ : Part2Prefix Key α × Part2Prefix Key α}
      (h₁ : Returns hα hκ (firstHalf hκ d) r₁) : Calls d (secondHalf hκ d)
  | merged (h : Recurses d) {r₁ r₂ : Part2Prefix Key α × Part2Prefix Key α}
      (h₁ : Returns hα hκ (firstHalf hκ d) r₁) (h₂ : Returns hα hκ (secondHalf hκ d) r₂) :
      Calls d (mergedHalves hκ r₁.2 r₂.2)

/-- What is to hold of a call for the recursion to end with it. -/
structure Ends (d : Part2Prefix Key α) : Prop where
  nonempty : d.keys ≠ []
  returns : ∃ r, Returns hα hκ d r
  oneKey : ∀ r, Returns hα hκ d r → ∃ k, r.2.keys = [k]
  first : Recurses d → (firstHalf hκ d).keys ≠ [] ∧
    (firstHalf hκ d).keys.length < d.keys.length
  second : Recurses d → (secondHalf hκ d).keys ≠ [] ∧
    (secondHalf hκ d).keys.length < d.keys.length
  merged : Recurses d → ∀ r₁ r₂, Returns hα hκ (firstHalf hκ d) r₁ →
    Returns hα hκ (secondHalf hκ d) r₂ →
    ((mergedHalves hκ r₁.2 r₂.2).keys.length = 1 ∨ (mergedHalves hκ r₁.2 r₂.2).keys.length = 2) ∧
      ∀ e, ¬ Calls hα hκ (mergedHalves hκ r₁.2 r₂.2) e

structure Callable (d : Part2Prefix Key α) : Prop where
  nonempty : d.keys ≠ []
  sets : NonemptySets d

variable {hα hκ} {d e : Part2Prefix Key α} {r r₁ r₂ : Part2Prefix Key α × Part2Prefix Key α}

theorem Returns.unique (h₁ : Returns hα hκ d r₁) (h₂ : Returns hα hκ d r₂) : r₁ = r₂ := by
  obtain ⟨n, hn⟩ := h₁
  obtain ⟨m, hm⟩ := h₂
  have hn' := decmoposeParallel_mono hα hκ (le_max_left n m) hn
  have hm' := decmoposeParallel_mono hα hκ (le_max_right n m) hm
  exact Option.some.inj (hn'.symm.trans hm')

theorem decmoposeParallel_recurses (n : ℕ) (h : Recurses d) : decmoposeParallel hα hκ (n + 1) d =
    (decmoposeParallel hα hκ n (firstHalf hκ d)).bind fun r₁ =>
      (decmoposeParallel hα hκ n (secondHalf hκ d)).bind fun r₂ =>
        (decmoposeParallel hα hκ n (mergedHalves hκ r₁.2 r₂.2)).map fun r =>
          (writeBack d r₁.1 r₂.1, r.2) :=
  decmoposeParallel_node hα hκ n h.2 h.1

theorem decmoposeParallel_stops (n : ℕ) (h : ¬ Recurses d) :
    decmoposeParallel hα hκ (n + 1) d = decmoposeParallel hα hκ 1 d := by
  have hlength : d.keys.length = 2 ∨ d.keys.length = 1 := by
    rw [Recurses] at h
    omega
  rw [decmoposeParallel, decmoposeParallel]
  rcases hlength with htwo | hone
  · obtain ⟨k₀, k₁, hkeys⟩ := List.length_eq_two.mp htwo
    rw [hkeys]
  · obtain ⟨k, hkeys⟩ := List.length_eq_one_iff.mp hone
    rw [hkeys]

theorem Calls.recurses (h : Calls hα hκ d e) : Recurses d := by
  cases h with
  | first h => exact h
  | second h _ => exact h
  | merged h _ _ => exact h

omit [DecidableEq α] in
theorem Recurses.not_length_le (h : Recurses d) (hne : d.keys ≠ []) : ¬ d.keys.length ≤ 2 := by
  have hpos := List.length_pos_iff.mpr hne
  obtain ⟨h₂, h₁⟩ := h
  omega

theorem Callable.firstHalf (hd : Callable d) (h : Recurses d) :
    Callable (firstHalf hκ d) ∧ (SetOperations.firstHalf hκ d).keys.length < d.keys.length := by
  obtain ⟨-, hne, hlt⟩ := keys_halves hκ (h.not_length_le hd.nonempty) (Or.inl rfl)
  exact ⟨⟨hne, hd.sets.divide _⟩, hlt⟩

theorem Callable.secondHalf (hd : Callable d) (h : Recurses d) :
    Callable (secondHalf hκ d) ∧ (SetOperations.secondHalf hκ d).keys.length < d.keys.length := by
  obtain ⟨-, hne, hlt⟩ := keys_halves hκ (h.not_length_le hd.nonempty) (Or.inr rfl)
  exact ⟨⟨hne, hd.sets.divide _⟩, hlt⟩

theorem Callable.returns (hα : Hashing α) (hκ : DictOrder Key) (hd : Callable d) :
    ∃ d' k v, Returns hα hκ d (d', Dict.single k v) ∧ ∀ c ∈ v, c.toSet.Nonempty := by
  obtain ⟨d', lcs, hrun, -, -, hlcs⟩ := decmoposeParallel_spec hα hκ _ hd.nonempty le_rfl hd.sets
  refine ⟨d', _, _, ⟨_, hrun⟩, ?_⟩
  intro c hc
  obtain ⟨N, hN, rfl⟩ := List.mem_map.mp hc
  exact ((hlcs N).mp hN).nonempty

theorem Returns.single (h : Returns hα hκ d r) (hd : Callable d) :
    ∃ k v, r.2 = Dict.single k v ∧ ∀ c ∈ v, c.toSet.Nonempty := by
  obtain ⟨d', k, v, hreturns, hsets⟩ := hd.returns hα hκ
  rw [h.unique hreturns]
  exact ⟨k, v, rfl, hsets⟩

theorem Callable.merged (hd₁ : Callable d) (hd₂ : Callable e) (h₁ : Returns hα hκ d r₁)
    (h₂ : Returns hα hκ e r₂) : Callable (mergedHalves hκ r₁.2 r₂.2) ∧
      ((mergedHalves hκ r₁.2 r₂.2).keys.length = 1 ∨
        (mergedHalves hκ r₁.2 r₂.2).keys.length = 2) := by
  obtain ⟨k₁, v₁, hr₁, hv₁⟩ := h₁.single hd₁
  obtain ⟨k₂, v₂, hr₂, hv₂⟩ := h₂.single hd₂
  have hlen := length_merged hκ k₁ k₂ v₁ v₂
  have hsets := NonemptySets.merged hκ k₁ k₂ hv₁ hv₂
  rw [← hr₁, ← hr₂] at hlen hsets
  have hcases : (mergedHalves hκ r₁.2 r₂.2).keys.length = 1 ∨
      (mergedHalves hκ r₁.2 r₂.2).keys.length = 2 := by
    rw [mergedHalves, hlen]
    by_cases hk : k₁ = k₂ <;> simp [hk]
  refine ⟨⟨?_, hsets⟩, hcases⟩
  apply List.ne_nil_of_length_pos
  omega

theorem Calls.callable (h : Calls hα hκ d e) (hd : Callable d) : Callable e := by
  cases h with
  | first h => exact (hd.firstHalf h).1
  | second h _ => exact (hd.secondHalf h).1
  | merged h h₁ h₂ => exact ((hd.firstHalf h).1.merged (hd.secondHalf h).1 h₁ h₂).1

theorem Callable.reached (hd : Callable d) (h : Relation.ReflTransGen (Calls hα hκ) d e) :
    Callable e := by
  induction h with
  | refl => exact hd
  | tail _ hcall ih => exact hcall.callable ih

theorem not_calls_of_length (h : d.keys.length = 1 ∨ d.keys.length = 2) : ¬ Calls hα hκ d e := by
  intro hcall
  obtain ⟨h₂, h₁⟩ := hcall.recurses
  omega

theorem Callable.ends (hα : Hashing α) (hκ : DictOrder Key) (hd : Callable d) : Ends hα hκ d where
  nonempty := hd.nonempty
  returns := by
    obtain ⟨d', k, v, hreturns, -⟩ := hd.returns hα hκ
    exact ⟨_, hreturns⟩
  oneKey r hr := by
    obtain ⟨k, v, hsingle, -⟩ := hr.single hd
    exact ⟨k, congrArg Dict.keys hsingle⟩
  first h := ⟨(hd.firstHalf h).1.nonempty, (hd.firstHalf h).2⟩
  second h := ⟨(hd.secondHalf h).1.nonempty, (hd.secondHalf h).2⟩
  merged h r₁ r₂ h₁ h₂ := by
    have hlen := ((hd.firstHalf h).1.merged (hd.secondHalf h).1 h₁ h₂).2
    exact ⟨hlen, fun e => not_calls_of_length hlen⟩

theorem Callable.acc (hα : Hashing α) (hκ : DictOrder Key) (hd : Callable d) :
    Acc (fun e d => Calls hα hκ d e) d := by
  induction hn : d.keys.length using Nat.strong_induction_on generalizing d with
  | _ n ih =>
    constructor
    intro e hcall
    cases hcall with
    | first h => exact ih _ (hn ▸ (hd.firstHalf h).2) (hd.firstHalf h).1 rfl
    | second h _ => exact ih _ (hn ▸ (hd.secondHalf h).2) (hd.secondHalf h).1 rfl
    | merged h h₁ h₂ =>
      have hlen := ((hd.firstHalf h).1.merged (hd.secondHalf h).1 h₁ h₂).2
      exact Acc.intro _ fun e hcall => absurd hcall (not_calls_of_length hlen)

omit [DecidableEq α] in
theorem keys_firstHalf_empty (hκ : DictOrder Key) (hd : d.keys = []) :
    (firstHalf hκ d).keys = [] := by
  apply List.eq_nil_of_length_eq_zero
  rw [firstHalf, hd]
  apply (congrArg List.length (keys_dividePart2Prefixes hκ List.nodup_nil (by simp))).trans
  exact (hκ.arrange_perm []).length_eq

theorem decmoposeParallel_empty (hα : Hashing α) (hκ : DictOrder Key) (n : ℕ)
    (hd : d.keys = []) : decmoposeParallel hα hκ n d = none := by
  induction n generalizing d with
  | zero => rfl
  | succ n ih =>
    have hrecurses : Recurses d := by simp [Recurses, hd]
    rw [decmoposeParallel_recurses n hrecurses, ih (keys_firstHalf_empty hκ hd), Option.bind_none]

theorem returns_iff (hα : Hashing α) (hκ : DictOrder Key) (hd : NonemptySets d) :
    (∃ r, Returns hα hκ d r) ↔ d.keys ≠ [] := by
  constructor
  · intro hreturns hempty
    obtain ⟨r, n, hn⟩ := hreturns
    rw [decmoposeParallel_empty hα hκ n hempty] at hn
    cases hn
  · intro hne
    exact ((Callable.mk hne hd).ends hα hκ).returns

/-- A call returns exactly if there is a participant. Then every call it leads to returns one
key; its halves are smaller and not empty, and its merge calls nothing. -/
theorem decmoposeParallel_terminates (hα : Hashing α) (hκ : DictOrder Key) (hd : NonemptySets d) :
    ((∃ r, Returns hα hκ d r) ↔ d.keys ≠ []) ∧
    (d.keys ≠ [] → Acc (fun e d => Calls hα hκ d e) d ∧
      ∀ e, Relation.ReflTransGen (Calls hα hκ) d e → Ends hα hκ e) ∧
    ∀ e : Part2Prefix Key α, ∀ n,
      (Recurses e → decmoposeParallel hα hκ (n + 1) e =
        (decmoposeParallel hα hκ n (firstHalf hκ e)).bind fun r₁ =>
          (decmoposeParallel hα hκ n (secondHalf hκ e)).bind fun r₂ =>
            (decmoposeParallel hα hκ n (mergedHalves hκ r₁.2 r₂.2)).map fun r =>
              (writeBack e r₁.1 r₂.1, r.2)) ∧
      (¬ Recurses e → decmoposeParallel hα hκ (n + 1) e = decmoposeParallel hα hκ 1 e) := by
  refine ⟨returns_iff hα hκ hd, fun hne => ?_, fun e n => ?_⟩
  · have hcallable : Callable d := ⟨hne, hd⟩
    constructor
    · exact hcallable.acc hα hκ
    · intro e hreached
      exact (hcallable.reached hreached).ends hα hκ
  · exact ⟨decmoposeParallel_recurses n, decmoposeParallel_stops n⟩

def fourNames : Part2Prefix Key ℕ where
  items := [(.str "A", [.list [0, 1]]), (.str "BA", [.list [2], .list [1, 2]]),
    (.str "AB", [.list [1]]), (.str "B", [.list [0, 2]])]
  nodup := by decide

theorem decmoposeParallel_terminates_fourNames :
    (∃ r, Returns .ascending .insertion fourNames r) ∧
    Acc (fun e d => Calls .ascending .insertion d e) fourNames ∧
      ∀ e, Relation.ReflTransGen (Calls .ascending .insertion) fourNames e →
        Ends .ascending .insertion e :=
  have hne : fourNames.keys ≠ [] := by decide
  have hruns := decmoposeParallel_terminates (d := fourNames) .ascending .insertion
    (nonemptySets_iff.mpr (by decide))
  ⟨hruns.1.mpr hne, hruns.2.1 hne⟩

end Hispar.SetOperations
