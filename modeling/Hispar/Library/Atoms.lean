import Mathlib

/-!
# Atoms of a family of finite sets

Two points are the same for a family when they lie in exactly the same
members. The classes of that relation inside the union of the family are its
atoms: the coarsest disjoint pieces of which every member is a union. Two
families with one support and one relation have the same atoms, so a
decomposition can be computed in stages.
-/
namespace Hispar.Library.Atoms
variable {α : Type*}

def Same (F : Set (Finset α)) (x y : α) : Prop := ∀ S ∈ F, x ∈ S ↔ y ∈ S

def support (F : Set (Finset α)) : Set α := {x | ∃ S ∈ F, x ∈ S}

def IsAtom (F : Set (Finset α)) (g : Finset α) : Prop :=
  ∃ x ∈ support F, ∀ y, y ∈ g ↔ Same F x y

def Saturated (F : Set (Finset α)) (S : Set α) : Prop := ∀ x y, Same F x y → x ∈ S → y ∈ S

theorem Same.refl (F : Set (Finset α)) (x : α) : Same F x x := fun _ _ => Iff.rfl

theorem Same.symm {F : Set (Finset α)} {x y : α} (h : Same F x y) : Same F y x :=
  fun S hS => (h S hS).symm

theorem Same.trans {F : Set (Finset α)} {x y z : α} (h : Same F x y) (h' : Same F y z) :
    Same F x z := fun S hS => (h S hS).trans (h' S hS)

theorem Same.mono {F G : Set (Finset α)} (hFG : F ⊆ G) {x y : α} (h : Same G x y) : Same F x y :=
  fun S hS => h S (hFG hS)

theorem Same.mem_support {F : Set (Finset α)} {x y : α} (h : Same F x y)
    (hx : x ∈ support F) : y ∈ support F := by
  obtain ⟨S, hS, hxS⟩ := hx
  exact ⟨S, hS, (h S hS).mp hxS⟩

theorem same_of_notMem_support {F : Set (Finset α)} {x y : α} (hx : x ∉ support F)
    (hy : y ∉ support F) : Same F x y :=
  fun S hS => ⟨fun h => absurd ⟨S, hS, h⟩ hx, fun h => absurd ⟨S, hS, h⟩ hy⟩

theorem same_union {F G : Set (Finset α)} {x y : α} :
    Same (F ∪ G) x y ↔ Same F x y ∧ Same G x y := by
  constructor
  · exact fun h => ⟨h.mono Set.subset_union_left, h.mono Set.subset_union_right⟩
  · rintro ⟨hF, hG⟩ S (hS | hS)
    · exact hF S hS
    · exact hG S hS

theorem support_union (F G : Set (Finset α)) : support (F ∪ G) = support F ∪ support G := by
  ext x
  constructor
  · rintro ⟨S, hS | hS, hx⟩
    · exact Or.inl ⟨S, hS, hx⟩
    · exact Or.inr ⟨S, hS, hx⟩
  · rintro (⟨S, hS, hx⟩ | ⟨S, hS, hx⟩)
    · exact ⟨S, Or.inl hS, hx⟩
    · exact ⟨S, Or.inr hS, hx⟩

namespace IsAtom
variable {F : Set (Finset α)} {g g' : Finset α}

theorem nonempty (h : IsAtom F g) : g.Nonempty := by
  obtain ⟨x, -, hg⟩ := h
  exact ⟨x, (hg x).mpr (Same.refl F x)⟩

theorem mem_iff (h : IsAtom F g) {x : α} (hx : x ∈ g) (y : α) : y ∈ g ↔ Same F x y := by
  obtain ⟨z, -, hg⟩ := h
  have hzx : Same F z x := (hg x).mp hx
  rw [hg y]
  exact ⟨fun hzy => hzx.symm.trans hzy, fun hxy => hzx.trans hxy⟩

theorem mem_support (h : IsAtom F g) {x : α} (hx : x ∈ g) : x ∈ support F := by
  obtain ⟨z, hz, hg⟩ := h
  exact ((hg x).mp hx).mem_support hz

theorem eq_of_mem (h : IsAtom F g) (h' : IsAtom F g') {x : α} (hx : x ∈ g) (hx' : x ∈ g') :
    g = g' := by
  ext y
  rw [h.mem_iff hx, h'.mem_iff hx']

theorem disjoint (h : IsAtom F g) (h' : IsAtom F g') (hne : g ≠ g') : Disjoint g g' :=
  Finset.disjoint_left.mpr fun _ hx hx' => hne (h.eq_of_mem h' hx hx')

theorem subset_of_mem (h : IsAtom F g) {S : Set α} (hS : Saturated F S) {x : α} (hx : x ∈ g)
    (hxS : x ∈ S) : ∀ y ∈ g, y ∈ S :=
  fun y hy => hS x y ((h.mem_iff hx y).mp hy) hxS

end IsAtom

theorem exists_isAtom {F : Set (Finset α)} {x : α} (hx : x ∈ support F) :
    ∃ g, IsAtom F g ∧ x ∈ g := by
  classical
  obtain ⟨S, hS, hxS⟩ := hx
  refine ⟨S.filter (Same F x), ⟨x, ⟨S, hS, hxS⟩, fun y => ?_⟩, ?_⟩
  · rw [Finset.mem_filter]
    exact ⟨And.right, fun h => ⟨(h S hS).mp hxS, h⟩⟩
  · exact Finset.mem_filter.mpr ⟨hxS, Same.refl F x⟩

theorem saturated_of_mem {F : Set (Finset α)} {S : Finset α} (hS : S ∈ F) :
    Saturated F (S : Set α) := fun _ _ h hx => (h S hS).mp hx

theorem isAtom_congr {F G : Set (Finset α)} (hs : support F = support G)
    (hr : ∀ x ∈ support G, ∀ y, Same F x y ↔ Same G x y) (g : Finset α) :
    IsAtom F g ↔ IsAtom G g := by
  constructor
  · rintro ⟨x, hx, hg⟩
    rw [hs] at hx
    exact ⟨x, hx, fun y => (hg y).trans (hr x hx y)⟩
  · rintro ⟨x, hx, hg⟩
    exact ⟨x, hs ▸ hx, fun y => (hg y).trans (hr x hx y).symm⟩

theorem support_isAtom (F : Set (Finset α)) : support {g | IsAtom F g} = support F := by
  ext x
  constructor
  · rintro ⟨g, hg, hx⟩
    exact IsAtom.mem_support hg hx
  · intro hx
    obtain ⟨g, hg, hxg⟩ := exists_isAtom hx
    exact ⟨g, hg, hxg⟩

theorem same_isAtom {F : Set (Finset α)} {x y : α} : Same {g | IsAtom F g} x y ↔ Same F x y := by
  constructor
  · intro h
    by_cases hx : x ∈ support F
    · obtain ⟨g, hg, hxg⟩ := exists_isAtom hx
      exact (hg.mem_iff hxg y).mp ((h g hg).mp hxg)
    · refine same_of_notMem_support hx fun hy => hx ?_
      rw [← support_isAtom] at hy ⊢
      exact h.symm.mem_support hy
  · intro h g hg
    constructor
    · exact fun hx => (IsAtom.mem_iff hg hx y).mpr h
    · exact fun hy => (IsAtom.mem_iff hg hy x).mpr h.symm

theorem isAtom_union_isAtom {F G : Set (Finset α)} (g : Finset α) :
    IsAtom ({g | IsAtom F g} ∪ {g | IsAtom G g}) g ↔ IsAtom (F ∪ G) g := by
  refine isAtom_congr ?_ (fun x _ y => ?_) g
  · simp only [support_union, support_isAtom]
  · simp only [same_union, same_isAtom]

theorem isAtom_isAtom {F : Set (Finset α)} (g : Finset α) :
    IsAtom {g | IsAtom F g} g ↔ IsAtom F g :=
  isAtom_congr (support_isAtom F) (fun _ _ _ => same_isAtom) g

def atomsIn (F : Set (Finset α)) (U : Finset α) : Set (Finset α) := {N | IsAtom F N ∧ N ⊆ U}

def Covers (F : Set (Finset α)) (U : Finset α) : Prop := ∀ x ∈ U, ∃ S ∈ F, x ∈ S ∧ S ⊆ U

variable {F : Set (Finset α)} {U : Finset α}

theorem Covers.mono {G : Set (Finset α)} (h : Covers F U) (hFG : F ⊆ G) : Covers G U :=
  fun x hx => (h x hx).imp fun _ hS => ⟨hFG hS.1, hS.2⟩

theorem Covers.exists_mem_atomsIn (h : Covers F U) {x : α} (hx : x ∈ U) :
    ∃ N ∈ atomsIn F U, x ∈ N := by
  obtain ⟨S, hS, hxS, hSU⟩ := h x hx
  obtain ⟨N, hN, hxN⟩ := exists_isAtom ⟨S, hS, hxS⟩
  exact ⟨N, ⟨hN, fun y hy => hSU (hN.subset_of_mem (saturated_of_mem hS) hxN hxS y hy)⟩, hxN⟩

theorem Covers.support_atomsIn (h : Covers F U) : support (atomsIn F U) = U := by
  ext x
  constructor
  · rintro ⟨N, ⟨-, hNU⟩, hx⟩
    exact hNU hx
  · intro hx
    obtain ⟨N, hN, hxN⟩ := h.exists_mem_atomsIn hx
    exact ⟨N, hN, hxN⟩

theorem Covers.same_atomsIn (h : Covers F U) {x y : α} (hx : x ∈ U) :
    Same (atomsIn F U) x y ↔ Same F x y := by
  constructor
  · intro hs
    obtain ⟨N, hN, hxN⟩ := h.exists_mem_atomsIn hx
    exact (hN.1.mem_iff hxN y).mp ((hs N hN).mp hxN)
  · intro hs N hN
    constructor
    · exact fun hxN => (hN.1.mem_iff hxN y).mpr hs
    · exact fun hyN => (hN.1.mem_iff hyN x).mpr hs.symm

theorem atomsIn_congr {G : Set (Finset α)} (hF : Covers F U) (hG : Covers G U)
    (h : ∀ x ∈ U, ∀ y, Same F x y ↔ Same G x y) (N : Finset α) :
    N ∈ atomsIn F U ↔ N ∈ atomsIn G U := by
  have hsub : ∀ {A B : Set (Finset α)}, Covers B U → (∀ x ∈ U, ∀ y, Same A x y ↔ Same B x y) →
      N ∈ atomsIn A U → N ∈ atomsIn B U := by
    rintro A B hB hAB ⟨hN, hNU⟩
    obtain ⟨x, hx⟩ := hN.nonempty
    obtain ⟨S, hS, hxS, -⟩ := hB x (hNU hx)
    exact ⟨⟨x, ⟨S, hS, hxS⟩, fun y => (hN.mem_iff hx y).trans (hAB x (hNU hx) y)⟩, hNU⟩
  exact ⟨hsub hG h, hsub hF fun x hx y => (h x hx y).symm⟩

theorem Covers.union_atomsIn (F : Set (Finset α)) {G : Set (Finset α)} (hG : Covers G U) :
    Covers (F ∪ atomsIn G U) U := by
  intro x hx
  obtain ⟨N, hN, hxN⟩ := hG.exists_mem_atomsIn hx
  exact ⟨N, Or.inr hN, hxN, hN.2⟩

theorem atomsIn_union_atomsIn {F G : Set (Finset α)} (hG : Covers G U) (N : Finset α) :
    N ∈ atomsIn (F ∪ atomsIn G U) U ↔ N ∈ atomsIn (F ∪ G) U := by
  refine atomsIn_congr (hG.union_atomsIn F) (hG.mono Set.subset_union_right) (fun x hx y => ?_) N
  rw [same_union, same_union, hG.same_atomsIn hx]

/-- Disjoint blocks of which every member of the family is a union. -/
structure Splits (F : Set (Finset α)) (blocks : List (Finset α)) : Prop where
  disjoint : blocks.Pairwise Disjoint
  unions : ∀ S ∈ F, ∀ x ∈ S, ∃ B ∈ blocks, x ∈ B ∧ B ⊆ S

namespace Splits
variable {blocks : List (Finset α)} (h : Splits F blocks) {B B' : Finset α} {x y : α}
include h

theorem eq_of_mem (hB : B ∈ blocks) (hB' : B' ∈ blocks) (hx : x ∈ B) (hx' : x ∈ B') : B = B' := by
  by_contra hne
  have : Std.Symm (Disjoint : Finset α → Finset α → Prop) := ⟨fun _ _ h => h.symm⟩
  exact Finset.disjoint_left.mp (h.disjoint.forall hB hB' hne) hx hx'

theorem same (hB : B ∈ blocks) (hx : x ∈ B) (hy : y ∈ B) : Same F x y := by
  have hsub : ∀ {x y}, x ∈ B → y ∈ B → ∀ S ∈ F, x ∈ S → y ∈ S := by
    intro x y hx hy S hS hxS
    obtain ⟨B', hB', hxB', hsub⟩ := h.unions S hS x hxS
    exact hsub (h.eq_of_mem hB hB' hx hxB' ▸ hy)
  exact fun S hS => ⟨hsub hx hy S hS, hsub hy hx S hS⟩

theorem subset_atom (hB : B ∈ blocks) (hx : x ∈ B) {N : Finset α} (hN : IsAtom F N) (hxN : x ∈ N) :
    B ⊆ N :=
  fun _ hy => (hN.mem_iff hxN _).mpr (h.same hB hx hy)

theorem length_le {atoms : List (Finset α)} (hnodup : atoms.Nodup)
    (hatoms : ∀ N ∈ atoms, IsAtom F N) : atoms.length ≤ blocks.length := by
  classical
  have hmeet : ∀ N ∈ atoms, ∃ B ∈ blocks, ∃ x ∈ N, x ∈ B := by
    intro N hN
    obtain ⟨x, hx⟩ := (hatoms N hN).nonempty
    obtain ⟨S, hS, hxS⟩ := (hatoms N hN).mem_support hx
    obtain ⟨B, hB, hxB, -⟩ := h.unions S hS x hxS
    exact ⟨B, hB, x, hx, hxB⟩
  choose! block hblock hmem using hmeet
  have hinj : ∀ N ∈ atoms, ∀ N' ∈ atoms, block N = block N' → N = N' := by
    intro N hN N' hN' he
    obtain ⟨x, hx, hxB⟩ := hmem N hN
    obtain ⟨y, hy, hyB⟩ := hmem N' hN'
    have hsub := h.subset_atom (hblock N hN) hxB (hatoms N hN) hx
    exact (hatoms N hN).eq_of_mem (hatoms N' hN') (hsub (he ▸ hyB)) hy
  have hsubset : atoms.map block ⊆ blocks := by
    intro B hB
    obtain ⟨N, hN, rfl⟩ := List.mem_map.mp hB
    exact hblock N hN
  have hle := (List.subperm_of_subset (hnodup.map_on hinj) hsubset).length_le
  rwa [List.length_map] at hle

end Splits

theorem splits_of_atoms {blocks : List (Finset α)} (hdisj : blocks.Pairwise Disjoint)
    (hatoms : ∀ N, IsAtom F N → N ∈ blocks) : Splits F blocks := by
  refine ⟨hdisj, fun S hS x hx => ?_⟩
  obtain ⟨N, hN, hxN⟩ := exists_isAtom ⟨S, hS, hx⟩
  exact ⟨N, hatoms N hN, hxN, hN.subset_of_mem (saturated_of_mem hS) hxN hx⟩

end Hispar.Library.Atoms
