import Hispar.Library.Atoms

/-!
# Refinement of indexed families by pivots

A split at a pivot k cuts every member that contains k along the intersection
of all of them, over all indices at once. Splitting at one pivot after another
keeps every piece inside an original member and every original member covered,
and leaves one single piece around each pivot used. When that holds around
every point, the pieces at an index are the atoms below the index.
-/
namespace Hispar.Library.Splitting
open Atoms
variable {ι α : Type*}

abbrev Families (ι α : Type*) := ι → Finset (Finset α)

def Families.all (F : Families ι α) : Set (Finset α) := {S | ∃ i, S ∈ F i}

/-- F' is F with the members around k cut along their common part M. -/
structure Split [DecidableEq α] (k : α) (M : Finset α) (F F' : Families ι α) : Prop where
  common : ∀ x, x ∈ M ↔ ∀ i, ∀ T ∈ F i, k ∈ T → x ∈ T
  pieces : ∀ i N, N ∈ F' i ↔ (N ∈ F i ∧ k ∉ N) ∨ (N = M ∧ ∃ T ∈ F i, k ∈ T) ∨
    (N.Nonempty ∧ ∃ T ∈ F i, k ∈ T ∧ N = T \ M)

/-- What a run of splits from F₀ keeps, with the pivots used so far. -/
structure Refines (F₀ F : Families ι α) (done : Set α) : Prop where
  nonempty : ∀ i, ∀ N ∈ F i, N.Nonempty
  below : ∀ i, ∀ N ∈ F i, ∃ T ∈ F₀ i, N ⊆ T
  covers : ∀ i, ∀ T ∈ F₀ i, ∀ x ∈ T, ∃ N ∈ F i, x ∈ N ∧ N ⊆ T
  saturated : ∀ i, ∀ N ∈ F i, Saturated F₀.all (N : Set α)
  uniform : ∀ k ∈ done, ∀ i j, ∀ N ∈ F i, ∀ N' ∈ F j, k ∈ N → k ∈ N' → N = N'

theorem Refines.refl {F : Families ι α} (hne : ∀ i, ∀ N ∈ F i, N.Nonempty) : Refines F F ∅ where
  nonempty := hne
  below _ N hN := ⟨N, hN, subset_rfl⟩
  covers _ T hT _ hx := ⟨T, hT, hx, subset_rfl⟩
  saturated i _ hN := saturated_of_mem ⟨i, hN⟩
  uniform _ hk := absurd hk (Set.notMem_empty _)

namespace Split
variable [DecidableEq α] {k : α} {M : Finset α} {F F' : Families ι α}

theorem pivot_mem (h : Split k M F F') : k ∈ M := (h.common k).mpr fun _ _ _ hk => hk

theorem common_subset (h : Split k M F F') {i : ι} {T : Finset α} (hT : T ∈ F i) (hk : k ∈ T) :
    M ⊆ T := fun x hx => (h.common x).mp hx i T hT hk

theorem origin (h : Split k M F F') {i : ι} {N : Finset α} (hN : N ∈ F' i) {x : α}
    (hx : x ∈ N) : ∃ T ∈ F i, x ∈ T ∧
      ((k ∉ T ∧ N = T) ∨ (k ∈ T ∧ x ∈ M ∧ N = M) ∨ (k ∈ T ∧ x ∉ M ∧ N = T \ M)) := by
  rcases (h.pieces i N).mp hN with ⟨hNF, hk⟩ | ⟨rfl, T, hT, hk⟩ | ⟨-, T, hT, hk, rfl⟩
  · exact ⟨N, hNF, hx, Or.inl ⟨hk, rfl⟩⟩
  · exact ⟨T, hT, h.common_subset hT hk hx, Or.inr (Or.inl ⟨hk, hx, rfl⟩)⟩
  · obtain ⟨hxT, hxM⟩ := Finset.mem_sdiff.mp hx
    exact ⟨T, hT, hxT, Or.inr (Or.inr ⟨hk, hxM, rfl⟩)⟩

theorem subset_member (h : Split k M F F') {i : ι} {N : Finset α} (hN : N ∈ F' i) :
    ∃ T ∈ F i, N ⊆ T := by
  rcases (h.pieces i N).mp hN with ⟨hNF, -⟩ | ⟨rfl, T, hT, hk⟩ | ⟨-, T, hT, -, rfl⟩
  · exact ⟨N, hNF, subset_rfl⟩
  · exact ⟨T, hT, h.common_subset hT hk⟩
  · exact ⟨T, hT, Finset.sdiff_subset⟩

theorem piece_of_mem (h : Split k M F F') {i : ι} {T : Finset α} (hT : T ∈ F i) {x : α}
    (hx : x ∈ T) : ∃ N ∈ F' i, x ∈ N ∧ N ⊆ T := by
  by_cases hk : k ∈ T
  · by_cases hM : x ∈ M
    · exact ⟨M, (h.pieces i M).mpr (Or.inr (Or.inl ⟨rfl, T, hT, hk⟩)), hM,
        h.common_subset hT hk⟩
    · have hxN : x ∈ T \ M := Finset.mem_sdiff.mpr ⟨hx, hM⟩
      exact ⟨T \ M, (h.pieces i _).mpr (Or.inr (Or.inr ⟨⟨x, hxN⟩, T, hT, hk, rfl⟩)), hxN,
        Finset.sdiff_subset⟩
  · exact ⟨T, (h.pieces i T).mpr (Or.inl ⟨hT, hk⟩), hx, subset_rfl⟩

end Split

theorem Refines.split [DecidableEq α] {F₀ F F' : Families ι α} {done : Set α} {k : α} {M : Finset α}
    (h : Refines F₀ F done) (hs : Split k M F F') : Refines F₀ F' (insert k done) := by
  have hM : Saturated F₀.all (M : Set α) := by
    intro x y hxy hx
    refine (hs.common y).mpr fun i T hT hk => ?_
    exact h.saturated i T hT x y hxy (hs.common_subset hT hk hx)
  refine ⟨fun i N hN => ?_, fun i N hN => ?_, fun i T hT x hx => ?_, fun i N hN => ?_,
    fun a ha i j N hN N' hN' haN haN' => ?_⟩
  · rcases (hs.pieces i N).mp hN with ⟨hNF, -⟩ | ⟨rfl, -⟩ | ⟨hne, -⟩
    · exact h.nonempty i N hNF
    · exact ⟨k, hs.pivot_mem⟩
    · exact hne
  · obtain ⟨T, hT, hNT⟩ := hs.subset_member hN
    obtain ⟨T₀, hT₀, hTT₀⟩ := h.below i T hT
    exact ⟨T₀, hT₀, hNT.trans hTT₀⟩
  · obtain ⟨T', hT', hxT', hT'T⟩ := h.covers i T hT x hx
    obtain ⟨N, hN, hxN, hNT'⟩ := hs.piece_of_mem hT' hxT'
    exact ⟨N, hN, hxN, hNT'.trans hT'T⟩
  · rcases (hs.pieces i N).mp hN with ⟨hNF, -⟩ | ⟨rfl, -⟩ | ⟨-, T, hT, hk, rfl⟩
    · exact h.saturated i N hNF
    · exact hM
    · intro x y hxy hx
      obtain ⟨hxT, hxM⟩ := Finset.mem_sdiff.mp hx
      exact Finset.mem_sdiff.mpr ⟨h.saturated i T hT x y hxy hxT,
        fun hyM => hxM (hM y x hxy.symm hyM)⟩
  · obtain ⟨T, hT, haT, hcase⟩ := hs.origin hN haN
    obtain ⟨T', hT', haT', hcase'⟩ := hs.origin hN' haN'
    rcases ha with rfl | ha
    · -- around the pivot itself only the common part is left
      have hpM := hs.pivot_mem
      rcases hcase with ⟨hk, -⟩ | ⟨-, -, rfl⟩ | ⟨-, hnM, -⟩
      · exact absurd haT hk
      · rcases hcase' with ⟨hk, -⟩ | ⟨-, -, rfl⟩ | ⟨-, hnM, -⟩
        · exact absurd haT' hk
        · rfl
        · exact absurd hpM hnM
      · exact absurd hpM hnM
    · obtain rfl := h.uniform a ha i j T hT T' hT' haT haT'
      rcases hcase with ⟨hk, rfl⟩ | ⟨hk, haM, rfl⟩ | ⟨hk, haM, rfl⟩ <;>
        rcases hcase' with ⟨hk', hN'⟩ | ⟨hk', haM', hN'⟩ | ⟨hk', haM', hN'⟩ <;>
        first | exact hN'.symm | contradiction

theorem Refines.mem_iff_isAtom {F₀ F : Families ι α} {done : Set α} (h : Refines F₀ F done)
    (hu : ∀ k i j, ∀ N ∈ F i, ∀ N' ∈ F j, k ∈ N → k ∈ N' → N = N') (i : ι) (N : Finset α) :
    N ∈ F i ↔ IsAtom F₀.all N ∧ ∀ x ∈ N, ∃ T ∈ F₀ i, x ∈ T := by
  have key : ∀ {j N}, N ∈ F j → IsAtom F₀.all N := by
    intro j N hN
    obtain ⟨x, hx⟩ := h.nonempty j N hN
    obtain ⟨T, hT, hNT⟩ := h.below j N hN
    refine ⟨x, ⟨T, ⟨j, hT⟩, hNT hx⟩, fun y => ⟨fun hy => ?_, fun hxy => h.saturated j N hN x y hxy hx⟩⟩
    -- a member around one of x, y has a piece around it, and that piece is N
    have hsep : ∀ {a b}, a ∈ N → b ∈ N → ∀ S ∈ F₀.all, a ∈ S → b ∈ S := by
      rintro a b ha hb S ⟨l, hS⟩ haS
      obtain ⟨P, hP, haP, hPS⟩ := h.covers l S hS a haS
      obtain rfl := hu a l j P hP N hN haP ha
      exact hPS hb
    exact fun S hS => ⟨hsep hx hy S hS, hsep hy hx S hS⟩
  constructor
  · intro hN
    refine ⟨key hN, fun x hx => ?_⟩
    obtain ⟨T, hT, hNT⟩ := h.below i N hN
    exact ⟨T, hT, hNT hx⟩
  · rintro ⟨hN, hsub⟩
    obtain ⟨x, hx⟩ := hN.nonempty
    obtain ⟨T, hT, hxT⟩ := hsub x hx
    obtain ⟨P, hP, hxP, -⟩ := h.covers i T hT x hxT
    rwa [hN.eq_of_mem (key hP) hx hxP]

end Hispar.Library.Splitting
