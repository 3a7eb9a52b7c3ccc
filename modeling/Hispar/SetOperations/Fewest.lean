import Hispar.SetOperations.Names

/-!
# As few groups as there can be

Every disjoint family that builds the sets of all participants refines the groups,
so none has fewer members. The groups decompose into themselves.
-/
namespace Hispar.SetOperations
open Library Library.Atoms Library.Splitting

variable {α : Type*} [DecidableEq α] {d m : Part2Prefix Key α} {lcs : List (Coll α)}

namespace Decomposes
variable (h : Decomposes d m lcs)
include h

theorem nodup_groups : (lcs.map Coll.toSet).Nodup := by
  refine List.pairwise_map.mpr (h.disjoint.imp_of_mem fun {c e} hc _ hdisj heq => ?_)
  obtain ⟨x, hx⟩ := h.nonempty c hc
  exact Finset.disjoint_left.mp hdisj hx (heq ▸ hx)

theorem isAtom_group {N : Finset α} (hN : N ∈ lcs.map Coll.toSet) : IsAtom (families d).all N := by
  obtain ⟨c, hc, rfl⟩ := List.mem_map.mp hN
  exact (h.mem_members_iff _).mp (mem_members.mpr ⟨c, hc, rfl⟩)

theorem splits : Splits (families d).all (lcs.map Coll.toSet) := by
  refine splits_of_atoms (List.pairwise_map.mpr h.disjoint) fun N hN => ?_
  obtain ⟨c, hc, rfl⟩ := mem_members.mp ((h.mem_members_iff N).mpr hN)
  exact List.mem_map_of_mem hc

theorem length_le {blocks : List (Finset α)} (hb : Splits (families d).all blocks) :
    lcs.length ≤ blocks.length := by
  have hle := hb.length_le h.nodup_groups fun _ => h.isAtom_group
  rwa [List.length_map] at hle

end Decomposes

/-- Where the merges lose nothing, every family of disjoint sets that builds the sets of all
participants refines the groups, and there is none with fewer members. -/
theorem lcsParallel_fewest {hα : Hashing α} {hκ : DictOrder Key} {n : ℕ} (hne : d.keys ≠ [])
    (hd : NonemptySets d) (hl : NothingLost hκ d) (hrun : lcsParallel hα hκ n d = some (m, lcs)) :
    IsLeast {k | ∃ blocks : List (Finset α), blocks.length = k ∧ Splits (families d).all blocks}
      lcs.length ∧
    ∀ blocks : List (Finset α), Splits (families d).all blocks → ∀ B ∈ blocks, ∀ x ∈ B,
      (∃ p, x ∈ prefixesOf d p) → ∃ c ∈ lcs, B ⊆ c.toSet := by
  have hdec := (lcsParallel_round hne hd hrun).decomposes hl
  refine ⟨⟨⟨lcs.map Coll.toSet, List.length_map _, hdec.splits⟩, ?_⟩, fun blocks hb B hB x hx hp => ?_⟩
  · rintro k ⟨blocks, rfl, hb⟩
    exact hdec.length_le hb
  · obtain ⟨c, hc, hxc⟩ := (hdec.cover x).mpr hp
    exact ⟨c, hc, hb.subset_atom hB hx (hdec.isAtom_group (List.mem_map_of_mem hc)) hxc⟩

namespace Decomposes
variable (h : Decomposes d m lcs)
include h

theorem mem_families_iff (hkeys : m.keys = d.keys) {p : Key} {N : Finset α} :
    N ∈ families m p ↔ IsAtom (families d).all N ∧ N ⊆ prefixesOf d p := by
  by_cases hp : p ∈ d.keys
  · obtain ⟨l, hl, hmem⟩ := h.participants p hp
    rw [families_of_get? hl, hmem, h.mem_members_iff]
  · have hnone : m.get? p = none := Dict.get?_eq_none.mpr (hkeys ▸ hp)
    rw [families, hnone]
    refine iff_of_false (Finset.notMem_empty N) ?_
    rintro ⟨hN, hsub⟩
    obtain ⟨x, hx⟩ := hN.nonempty
    exact hp (mem_keys_of_mem_prefixesOf (hsub hx))

theorem all_families (hkeys : m.keys = d.keys) :
    (families m).all = {N | IsAtom (families d).all N} := by
  ext N
  constructor
  · rintro ⟨p, hN⟩
    exact ((h.mem_families_iff hkeys).mp hN).1
  · intro hN
    obtain ⟨x, hx⟩ := IsAtom.nonempty hN
    obtain ⟨S, ⟨p, hS⟩, hxS⟩ := IsAtom.mem_support hN hx
    refine ⟨p, (h.mem_families_iff hkeys).mpr ⟨hN, fun y hy => mem_prefixesOf.mpr ⟨S, hS, ?_⟩⟩⟩
    have hall : S ∈ (families d).all := ⟨p, hS⟩
    exact IsAtom.subset_of_mem hN (saturated_of_mem hall) hx hxS y hy

theorem prefixesOf_eq (hkeys : m.keys = d.keys) (p : Key) : prefixesOf m p = prefixesOf d p := by
  ext x
  constructor
  · intro hx
    obtain ⟨N, hN, hxN⟩ := mem_prefixesOf.mp hx
    exact ((h.mem_families_iff hkeys).mp hN).2 hxN
  · intro hx
    have hcov : Covers (families d).all (prefixesOf d p) :=
      covers_of_subset fun S hS => (⟨p, hS⟩ : S ∈ (families d).all)
    obtain ⟨N, hN, hxN⟩ := hcov.exists_mem_atomsIn hx
    exact mem_prefixesOf.mpr ⟨N, (h.mem_families_iff hkeys).mpr hN, hxN⟩

theorem nonemptySets (hkeys : m.keys = d.keys) : NonemptySets m := by
  intro p l hl c hc
  have hN : c.toSet ∈ families m p := mem_families.mpr ⟨l, hl, mem_members.mpr ⟨c, hc, rfl⟩⟩
  exact ((h.mem_families_iff hkeys).mp hN).1.nonempty

end Decomposes

/-- What a call returned is left as it is by another, whatever the orders of the runtime: the
groups are the same, and each participant has the same of them. -/
theorem lcsParallel_idempotent {hα : Hashing α} {hκ : DictOrder Key} {n : ℕ} (hne : d.keys ≠ [])
    (hd : NonemptySets d) (hn : NoCollision d.keys) (hrun : lcsParallel hα hκ n d = some (m, lcs))
    (hα' : Hashing α) (hκ' : DictOrder Key) :
    ∃ (m' : Part2Prefix Key α) (lcs' : List (Coll α)),
      (∀ n' ≥ d.keys.length, lcsParallel hα' hκ' n' m = some (m', lcs')) ∧
      members lcs' = members lcs ∧ ∀ p, families m' p = families m p := by
  have hround := lcsParallel_round hne hd hrun
  have hdec := hround.decomposes (nothingLost_of_noCollision hn)
  have hkeys := hround.keys
  obtain ⟨m', lcs', hrun', hround'⟩ := lcsParallel_run hα' hκ' (hkeys ▸ hne) (hdec.nonemptySets hkeys)
  have hdec' := hround'.decomposes (nothingLost_of_noCollision (hkeys ▸ hn))
  have hatom : ∀ N, IsAtom (families m).all N ↔ IsAtom (families d).all N := by
    intro N
    rw [hdec.all_families hkeys, isAtom_isAtom]
  refine ⟨m', lcs', hkeys ▸ hrun', ?_, fun p => ?_⟩
  · ext N
    rw [hdec'.mem_members_iff, hdec.mem_members_iff, hatom]
  · ext N
    rw [hdec'.mem_families_iff hround'.keys, hdec.mem_families_iff hkeys, hatom,
      hdec.prefixesOf_eq hkeys]

def crossing : Part2Prefix Key ℕ where
  items := [(.str "A", [.list [0, 1, 2], .list [2, 3]]), (.str "B", [.list [1, 2], .list [4]])]
  nodup := by decide

theorem noCollision_crossing : NoCollision crossing.keys := by
  refine noCollision_of_length (L := 1) (by decide) fun k hk => ?_
  rcases List.mem_cons.mp hk with rfl | hk
  · exact ⟨"A", rfl, rfl⟩
  · exact ⟨"B", List.mem_singleton.mp hk, rfl⟩

theorem lcsParallel_fewest_crossing : ∃ (m : Part2Prefix Key ℕ) (lcs : List (Coll ℕ)),
    lcsParallel .ascending .insertion 2 crossing = some (m, lcs) ∧ lcs.length = 5 ∧
    IsLeast {k | ∃ blocks : List (Finset ℕ), blocks.length = k ∧
      Splits (families crossing).all blocks} lcs.length := by
  have hlength : (lcsParallel .ascending .insertion 2 crossing).map (fun r => r.2.length) =
      some 5 := by
    decide
  obtain ⟨r, hr, hr'⟩ := Option.map_eq_some_iff.mp hlength
  exact ⟨r.1, r.2, hr, hr', (lcsParallel_fewest (by decide) (nonemptySets_iff.mpr (by decide))
    (nothingLost_of_noCollision noCollision_crossing) hr).1⟩

theorem lcsParallel_idempotent_crossing : ∃ (m m' : Part2Prefix Key ℕ) (lcs lcs' : List (Coll ℕ)),
    lcsParallel .ascending .insertion 2 crossing = some (m, lcs) ∧
    lcsParallel .ascending .insertion 2 m = some (m', lcs') ∧ members lcs' = members lcs := by
  obtain ⟨r, hr⟩ := Option.isSome_iff_exists.mp
    (by decide : (lcsParallel .ascending .insertion 2 crossing).isSome = true)
  obtain ⟨m', lcs', hrun, hlcs, -⟩ := lcsParallel_idempotent (by decide)
    (nonemptySets_iff.mpr (by decide)) noCollision_crossing hr .ascending .insertion
  exact ⟨r.1, m', r.2, lcs', hr, hrun 2 (le_refl 2), hlcs⟩

end Hispar.SetOperations
