import Hispar.SetOperations.Names
import Hispar.VnhAssignment.Tables

/-!
# The groups that a participant is given

A group counts as one of a participant when it is found in the participant's
list, as a set or as the list of its members in the order of the runtime.
Whether two prefixes share such a group is told from the sets before the run.
-/
namespace Hispar.VnhAssignment
open Library Library.Atoms Library.Splitting SetOperations

variable {α : Type*} [DecidableEq α] {hα : Hashing α} {hκ : DictOrder Key} {d : Part2Prefix Key α}

/-- The prefixes are in one group, and it is recorded for the participant, whose
sets keep it whole. A list that is left as it was must be in the order of the set. -/
structure Joined (hα : Hashing α) (hκ : DictOrder Key) (d : Part2Prefix Key α) (X : Key) (x y : α) :
    Prop where
  own : x ∈ prefixesOf d X
  kept : x ∈ keptPrefixes hκ (planOf hκ d) d
  same : Same (visible hκ (planOf hκ d) d d.keys) x y
  whole : ∀ before after, d.keys = before ++ X :: after → ∀ z,
    Same (seen hκ (planOf hκ d) d before X) x z ↔ Same (visible hκ (planOf hκ d) d d.keys) x z
  listed : X = (planOf hκ d).key hκ → ∀ l, d.get? X = some l → ∀ L, Coll.list L ∈ l → x ∈ L →
    (∀ z ∈ L, Alone d ((planOf hκ d).mates X) X z) → hα.enum L.toFinset = L

section round
variable {m : Part2Prefix Key α} {lcs : List (Coll α)} {X : Key} {x y : α}
  (h : Round hκ (planOf hκ d) d d.keys m lcs)
include h

theorem group_mem_iff {c : Coll α} (hc : c ∈ lcs) (hx : x ∈ c) (z : α) :
    z ∈ c ↔ Same (visible hκ (planOf hκ d) d d.keys) x z :=
  ((h.groups _).mp (mem_members.mpr ⟨c, hc, rfl⟩)).1.mem_iff hx z

theorem exists_group (hx : x ∈ keptPrefixes hκ (planOf hκ d) d) : ∃ N, Coll.set N ∈ lcs ∧ x ∈ N := by
  obtain ⟨c, hc, hxc⟩ := mem_prefixes.mp (h.prefixes_eq ▸ hx : x ∈ prefixes lcs)
  obtain ⟨N, rfl⟩ := h.sets c hc
  exact ⟨N, hc, hxc⟩

theorem joined_of_recorded {c : Coll α} (hc : c ∈ lcs) (hx : x ∈ c) (hy : y ∈ c)
    (hrec : Recorded hα m c X) : Joined hα hκ d X x y := by
  obtain ⟨l, hl, hmem⟩ := id hrec
  have hX : X ∈ d.keys := h.keys ▸ Dict.mem_keys_iff.mpr ⟨l, hl⟩
  obtain ⟨l', hl', hU⟩ := h.union X hX
  obtain rfl : l = l' := Option.some.inj (hl.symm.trans hl')
  have hkept : x ∈ keptPrefixes hκ (planOf hκ d) d :=
    h.prefixes_eq ▸ mem_prefixes.mpr ⟨c, hc, hx⟩
  obtain ⟨N, rfl⟩ := h.sets c hc
  -- an entry of the list with the members of the group
  have hentry : Coll.list (hα.enum N) ∈ l ∨ Coll.set N ∈ l := by
    rwa [isRecorded, decide_eq_true_eq] at hmem
  have hN : N ∈ members l := by
    rcases hentry with he | he
    · exact mem_members.mpr ⟨_, he, hα.toFinset_enum N⟩
    · exact mem_members.mpr ⟨_, he, rfl⟩
  refine ⟨hU ▸ hrec.subset hl hx, hkept, (group_mem_iff h hc hx y).mp hy,
    fun before after hd z => ?_, fun hK l₀ hl₀ L hL hxL halone => ?_⟩
  · rw [← h.piece hd hl hkept hN hx z]
    exact group_mem_iff h hc hx z
  · obtain ⟨l₁, l₂, hl₁, hl₂, hpieces, hlists⟩ := h.waiting X hX (Or.inr hK)
    obtain rfl : l₀ = l₁ := Option.some.inj (hl₀.symm.trans hl₁)
    obtain rfl : l = l₂ := Option.some.inj (hl.symm.trans hl₂)
    obtain ⟨hLl, honly⟩ := hlists.kept L hL halone
    have hLN : L.toFinset = N := by
      have hLm : L.toFinset ∈ members l := mem_members.mpr ⟨_, hLl, rfl⟩
      exact ((hpieces _).mp hLm).1.eq_of_mem ((hpieces _).mp hN).1 (List.mem_toFinset.mpr hxL) hx
    rcases hentry with he | he
    · have hxe : x ∈ Coll.list (hα.enum N) := mem_list.mpr ((hα.mem_enum N x).mpr hx)
      rw [hLN]
      exact (Coll.list.inj (honly _ he x hxL hxe))
    · exact absurd (honly _ he x hxL hx) (by simp)

theorem recorded_of_joined (hj : Joined hα hκ d X x y) :
    ∃ c ∈ lcs, x ∈ c ∧ y ∈ c ∧ Recorded hα m c X := by
  obtain ⟨N, hN, hxN⟩ := exists_group h hj.kept
  have hX := mem_keys_of_mem_prefixesOf hj.own
  obtain ⟨before, after, hd⟩ := List.append_of_mem hX
  obtain ⟨l, hl, hU⟩ := h.union X hX
  refine ⟨.set N, hN, hxN, (group_mem_iff h hN hxN y).mpr hj.same, l, hl, ?_⟩
  -- the entry of the list around x has the members of the group
  obtain ⟨e, he, hxe⟩ := mem_prefixes.mp (hU ▸ hj.own : x ∈ prefixes l)
  have heN : e.toSet = N := by
    ext z
    have hpiece := h.piece hd hl hj.kept (mem_members.mpr ⟨e, he, rfl⟩) hxe z
    rw [hpiece, hj.whole before after hd z]
    exact (group_mem_iff h hN hxN z).symm
  rw [isRecorded, decide_eq_true_eq]
  cases e with
  | set s => exact Or.inr (heN ▸ he)
  | list L =>
    refine Or.inl ?_
    have hxL : x ∈ L := mem_list.mp hxe
    have henum : hα.enum N = L := by
      rw [← heN]
      by_cases hlen : 1 < L.length
      · by_cases hK : X = (planOf hκ d).key hκ
        · obtain ⟨l₁, l₂, hl₁, hl₂, -, hlists⟩ := h.waiting X hX (Or.inr hK)
          obtain rfl : l = l₂ := Option.some.inj (hl.symm.trans hl₂)
          exact hj.listed hK l₁ hl₁ L (hlists.origin L he) hxL (hlists.apart L he hlen)
        · obtain ⟨l₂, hl₂, -, hlists⟩ := h.visited before X after hd hK
          obtain rfl : l = l₂ := Option.some.inj (hl.symm.trans hl₂)
          exact absurd hj.kept (hlists L he hlen x hxL)
      · -- a list with one entry has only one order
        obtain ⟨a, rfl⟩ : ∃ a, L = [a] := by
          refine List.length_eq_one_iff.mp ?_
          have := List.length_pos_of_mem hxL
          omega
        simp [Coll.toSet, hα.enum_singleton]
    have hlist : (Coll.set N).toList hα = L := henum
    rwa [hlist]

theorem recorded_iff_joined :
    (∃ c ∈ lcs, x ∈ c ∧ y ∈ c ∧ Recorded hα m c X) ↔ Joined hα hκ d X x y :=
  ⟨fun ⟨_, hc, hx, hy, hrec⟩ => joined_of_recorded h hc hx hy hrec, recorded_of_joined h⟩

theorem recorded_subset_or_disjoint {c : Coll α} (hc : c ∈ lcs) (hrec : Recorded hα m c X)
    {S : Finset α} (hS : S ∈ families d X) : c.toSet ⊆ S ∨ Disjoint c.toSet S := by
  by_cases hmeet : ∃ x ∈ c.toSet, x ∈ S
  · obtain ⟨x, hx, hxS⟩ := hmeet
    refine Or.inl fun y hy => ?_
    have hj := joined_of_recorded h hc hx hy hrec
    have hX := mem_keys_of_mem_prefixesOf hj.own
    obtain ⟨before, after, hd⟩ := List.append_of_mem hX
    have hseen := (hj.whole before after hd y).mpr hj.same
    -- what the participant sees includes its own sets
    rw [seen] at hseen
    split_ifs at hseen with hK
    · exact (hseen S ⟨X, Plan.mem_mates_self hX, hS⟩).mp hxS
    · obtain ⟨P, hP, hxP⟩ := (covers_pieces hκ hX).exists_mem_atomsIn hj.own
      have hyP : y ∈ P := (hseen P (Or.inr ⟨X, by simp, hK, hP⟩)).mp hxP
      exact ((hP.1.mem_iff hxP y).mp hyP S ⟨X, Plan.mem_mates_self hX, hS⟩).mp hxS
  · refine Or.inr (Finset.disjoint_left.mpr fun x hx hxS => hmeet ⟨x, hx, hxS⟩)

end round

theorem joined_iff_of_noCollision (hn : NoCollision d.keys) (hlen : 1 < d.keys.length) {X : Key}
    {x y : α} : Joined hα hκ d X x y ↔ x ∈ prefixesOf d X ∧ Same (families d).all x y := by
  have hlost : NothingLost hκ d := nothingLost_of_noCollision hn
  constructor
  · exact fun h => ⟨h.own, hlost.same_of_visible h.own h.same⟩
  · rintro ⟨hx, hxy⟩
    refine ⟨hx, mem_keptPrefixes.mpr (hlost.covered X x hx), same_visible_of_same hxy,
      fun before after hd z => ⟨fun hz => ?_, fun hz => ?_⟩, fun hK => ?_⟩
    · exact same_visible_of_same (hlost.told before X after hd x hx z hz)
    · exact same_seen_of_same (hlost.same_of_visible hx hz)
    · have hX := mem_keys_of_mem_prefixesOf hx
      have hone : d.keys.length = 1 := Plan.length_eq_one_of_key_mem d.nodup_keys hn (hK ▸ hX)
      omega

end Hispar.VnhAssignment
