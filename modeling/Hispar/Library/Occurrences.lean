import Mathlib

/-!
# The positions of the members with a property

The members of a growing list that have a property are numbered in order. A
number keeps its position when the list grows.
-/
namespace Hispar.Library
variable {α : Type*} {q : α → Bool} {l : List α} {a : α} {k k' i : ℕ}

/-- The member numbered `k` of those with the property is at position `i`. -/
structure Nth (q : α → Bool) (l : List α) (k i : ℕ) : Prop where
  has : ∃ a, l[i]? = some a ∧ q a = true
  before : (l.take i).countP q = k

theorem Nth.lt (h : Nth q l k i) : i < l.length := by
  obtain ⟨a, ha, -⟩ := h.has
  exact (List.getElem?_eq_some_iff.mp ha).1

theorem Nth.snoc (h : Nth q l k i) (a : α) : Nth q (l ++ [a]) k i := by
  have hlt := h.lt
  refine ⟨?_, ?_⟩
  · rw [List.getElem?_append_left hlt]
    exact h.has
  · rw [List.take_append_of_le_length hlt.le]
    exact h.before

theorem nth_last (ha : q a = true) : Nth q (l ++ [a]) (l.countP q) l.length := by
  refine ⟨⟨a, by simp, ha⟩, ?_⟩
  rw [List.take_left]

theorem nth_snoc (h : Nth q (l ++ [a]) k i) :
    Nth q l k i ∨ (q a = true ∧ k = l.countP q ∧ i = l.length) := by
  obtain ⟨⟨b, hb, hq⟩, hcount⟩ := h
  have hlt : i < (l ++ [a]).length := (List.getElem?_eq_some_iff.mp hb).1
  rw [List.length_append, List.length_singleton] at hlt
  rcases Nat.lt_succ_iff_lt_or_eq.mp hlt with hlt | rfl
  · left
    rw [List.getElem?_append_left hlt] at hb
    rw [List.take_append_of_le_length hlt.le] at hcount
    exact ⟨⟨b, hb, hq⟩, hcount⟩
  · right
    rw [List.getElem?_append_right le_rfl, Nat.sub_self] at hb
    obtain rfl := Option.some.inj hb
    rw [List.take_left] at hcount
    exact ⟨hq, hcount.symm, rfl⟩

theorem exists_nth (h : k < l.countP q) : ∃ i, Nth q l k i := by
  induction l using List.reverseRecOn with
  | nil => exact absurd h (Nat.not_lt_zero k)
  | append_singleton l a ih =>
    rw [List.countP_append, List.countP_singleton] at h
    by_cases hk : k < l.countP q
    · obtain ⟨i, hi⟩ := ih hk
      exact ⟨i, hi.snoc a⟩
    · have ha : q a = true := by
        by_contra hna
        rw [if_neg hna] at h
        exact hk h
      rw [if_pos ha] at h
      obtain rfl : k = l.countP q := by omega
      exact ⟨l.length, nth_last ha⟩

theorem Nth.strictMono {j : ℕ} (h : Nth q l k i) (h' : Nth q l k' j) (hij : i < j) : k < k' := by
  obtain ⟨a, ha, hq⟩ := h.has
  have hsplit : l.take j = l.take i ++ (l.take j).drop i := by
    have hj := List.take_append_drop i (l.take j)
    rw [List.take_take, min_eq_left hij.le] at hj
    exact hj.symm
  have hmem : a ∈ (l.take j).drop i := by
    refine List.mem_iff_getElem?.mpr ⟨0, ?_⟩
    rw [List.getElem?_drop, Nat.add_zero, List.getElem?_take_of_lt hij, ha]
  have hpos : 0 < ((l.take j).drop i).countP q := List.countP_pos_iff.mpr ⟨a, hmem, hq⟩
  rw [← h.before, ← h'.before, hsplit, List.countP_append]
  omega

theorem Nth.unique {j : ℕ} (h : Nth q l k i) (h' : Nth q l k j) : i = j := by
  rcases lt_trichotomy i j with hlt | heq | hgt
  · exact absurd (h.strictMono h' hlt) (Nat.lt_irrefl k)
  · exact heq
  · exact absurd (h'.strictMono h hgt) (Nat.lt_irrefl k)

end Hispar.Library
