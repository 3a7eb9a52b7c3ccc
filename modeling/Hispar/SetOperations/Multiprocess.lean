import Hispar.SetOperations.Names

/-!
# The multi-process variant

`decomposeMulti` runs the two halves in child processes down to a certain depth.
A child works on its own copy of its half and sends the groups back, so its
in-place edits are lost; below that depth the halves are edited in place as in
the sequential version. Whether a depth is within the limit that the number of
processors sets is a floating-point comparison, a parameter here. The second
pass runs one child per participant, in batches of the number of processors,
and collects what the children send.
-/
namespace Hispar.SetOperations
open Library Library.Atoms Library.Splitting

variable {α : Type*} [DecidableEq α]

def decomposeSimplerMulti {κ : Type*} [DecidableEq κ] (hα : Hashing α)
    (part2pfx : Part2Prefix κ α) : Option (Part2Prefix κ α × List (Coll α)) :=
  decomposeSimpler hα part2pfx

def processes (cpuCount : ℕ) : ℕ := if cpuCount = 1 then 8 else cpuCount

def decomposeMulti (hα : Hashing α) (hκ : DictOrder Key) (spawn : ℕ → Bool) : ℕ →
    Part2Prefix Key α → ℕ → Option (Part2Prefix Key α × Part2Prefix Key α)
  | 0, _, _ => none
  | n + 1, part2pfx, index =>
    match part2pfx.keys with
    | [k] => (decomposeSimplerMulti hα part2pfx).map fun r => (r.1, Dict.single k r.2)
    | [k₀, k₁] => (decomposeSimplerMulti hα part2pfx).map fun r =>
        (r.1, Dict.single (joinKeys [k₀, k₁]) r.2)
    | partList =>
      let tmp1 := dividePart2Prefixes hκ (everyOther partList) part2pfx
      let tmp2 := dividePart2Prefixes hκ (everyOther partList.tail) part2pfx
      if index > 0 ∧ spawn index = true then
        (decomposeMulti hα hκ spawn n tmp1 (index + 1)).bind fun r₁ =>
          (decomposeMulti hα hκ spawn n tmp2 (index + 1)).bind fun r₂ =>
            (decomposeMulti hα hκ spawn n (Dict.ofItems hκ (r₁.2.items ++ r₂.2.items)) 0).map
              fun r => (part2pfx, r.2)
      else
        (decomposeMulti hα hκ spawn n tmp1 0).bind fun r₁ =>
          (decomposeMulti hα hκ spawn n tmp2 0).bind fun r₂ =>
            (decomposeMulti hα hκ spawn n (Dict.ofItems hκ (r₁.2.items ++ r₂.2.items)) 0).map
              fun r => (writeBack part2pfx r₁.1 r₂.1, r.2)

def batch (np : ℕ) (parts : List Key) (k : ℕ) : List Key :=
  (List.range np).filterMap fun i => parts[k * np + i]?

/-- What the process of a participant sends back, as it is stored. -/
def child (hα : Hashing α) (hκ : DictOrder Key) (part2pfx lcs : Part2Prefix Key α) (part : Key) :
    Option (Key × List (Coll α)) :=
  (part2pfx.get? part).bind fun l =>
    (decomposeSimplerMulti hα (Dict.ofItems hκ ((part, l) :: lcs.items))).bind fun r =>
      (r.1.get? part).map (part, ·)

def lcsMultiprocess (hα : Hashing α) (hκ : DictOrder Key) (spawn : ℕ → Bool) (cpuCount fuel : ℕ)
    (part2pfx : Part2Prefix Key α) : Option (Part2Prefix Key α × List (Coll α)) :=
  (decomposeMulti hα hκ spawn fuel part2pfx 1).bind fun r =>
    let np := processes cpuCount
    let parts := part2pfx.keys
    ((List.range ((parts.length + np - 1) / np)).mapM fun k =>
      (batch np parts k).mapM (child hα hκ r.1 r.2)).bind fun out =>
        r.2.values.head?.map (Dict.ofItems hκ out.flatten, ·)

/-- The groups are those of the sequential version; a list is edited as there or not at all. -/
theorem decomposeMulti_simulates (hα : Hashing α) (hκ : DictOrder Key) (spawn : ℕ → Bool) (n : ℕ)
    {d d₁ g : Part2Prefix Key α} (h : decmoposeParallel hα hκ n d = some (d₁, g)) (index : ℕ) :
    ∃ d' : Part2Prefix Key α, decomposeMulti hα hκ spawn n d index = some (d', g) ∧
      ∀ p, d'.get? p = d.get? p ∨ d'.get? p = d₁.get? p := by
  induction n generalizing d d₁ g index with
  | zero => cases h
  | succ n ih =>
    rw [decmoposeParallel] at h
    rw [decomposeMulti]
    split at h
    · rename_i k hk
      exact ⟨d₁, by simpa only [hk, decomposeSimplerMulti] using h, fun p => Or.inr rfl⟩
    · rename_i k₀ k₁ hk
      exact ⟨d₁, by simpa only [hk, decomposeSimplerMulti] using h, fun p => Or.inr rfl⟩
    · obtain ⟨⟨e₁, g₁⟩, h₁, h⟩ := Option.bind_eq_some_iff.mp h
      obtain ⟨⟨e₂, g₂⟩, h₂, h⟩ := Option.bind_eq_some_iff.mp h
      obtain ⟨⟨e, g'⟩, h₃, h⟩ := Option.map_eq_some_iff.mp h
      obtain ⟨rfl, rfl⟩ := Prod.mk.injEq .. ▸ h
      obtain ⟨m, hm, -⟩ := ih h₃ 0
      split_ifs with hspawn
      · obtain ⟨u₁, hu₁, -⟩ := ih h₁ (index + 1)
        obtain ⟨u₂, hu₂, -⟩ := ih h₂ (index + 1)
        exact ⟨d, by simp only [hu₁, hu₂, hm, Option.bind_some, Option.map_some], fun p => Or.inl rfl⟩
      · obtain ⟨u₁, hu₁, hlists₁⟩ := ih h₁ 0
        obtain ⟨u₂, hu₂, hlists₂⟩ := ih h₂ 0
        refine ⟨writeBack d u₁ u₂,
          by simp only [hu₁, hu₂, hm, Option.bind_some, Option.map_some], fun p => ?_⟩
        have hnone : ∀ {p}, p ∉ everyOther d.keys → e₁.get? p = none := by
          intro p hp
          rw [Dict.get?_eq_none, decmoposeParallel_keys hα hκ h₁, ← Dict.get?_eq_none,
            get?_dividePart2Prefixes, if_neg hp]
        simp only [writeBack, Dict.get?_mapValues]
        cases hl : d.get? p with
        | none => exact Or.inl rfl
        | some l =>
          have h₁' := hlists₁ p
          have h₂' := hlists₂ p
          simp only [get?_dividePart2Prefixes, hl] at h₁' h₂'
          by_cases hp : p ∈ everyOther d.keys
          · rw [if_pos hp] at h₁'
            rcases h₁' with h₁' | h₁' <;> rcases h₂' with h₂' | h₂' <;> rw [h₁', h₂']
            · exact Or.inl rfl
            · exact Or.inl rfl
            · cases e₁.get? p with
              | some x => exact Or.inr rfl
              | none => split_ifs <;> exact Or.inl rfl
            · exact Or.inr rfl
          · rw [if_neg hp, hnone hp, or_self] at h₁'
            rw [h₁', hnone hp]
            rcases h₂' with h₂' | h₂' <;> rw [h₂']
            · split_ifs <;> exact Or.inl rfl
            · exact Or.inr rfl

theorem decomposeMulti_mono (hα : Hashing α) (hκ : DictOrder Key) (spawn : ℕ → Bool) {n m : ℕ}
    (hnm : n ≤ m) {d : Part2Prefix Key α} {index : ℕ} {r : Part2Prefix Key α × Part2Prefix Key α}
    (h : decomposeMulti hα hκ spawn n d index = some r) :
    decomposeMulti hα hκ spawn m d index = some r := by
  induction n generalizing m d index r with
  | zero => cases h
  | succ n ih =>
    obtain ⟨m, rfl⟩ : ∃ m', m = m' + 1 := ⟨m - 1, by omega⟩
    have hle : n ≤ m := by omega
    rw [decomposeMulti] at h ⊢
    split at h
    · exact h
    · exact h
    · split_ifs at h ⊢
      all_goals
        obtain ⟨r₁, h₁, h⟩ := Option.bind_eq_some_iff.mp h
        obtain ⟨r₂, h₂, h⟩ := Option.bind_eq_some_iff.mp h
        obtain ⟨r₃, h₃, h⟩ := Option.map_eq_some_iff.mp h
        simp only [ih hle h₁, ih hle h₂, ih hle h₃, Option.bind_some, Option.map_some, h]

theorem filterMap_getElem? {β : Type*} (l : List β) (n : ℕ) :
    ((List.range n).filterMap fun i => l[i]?) = l.take n := by
  induction n with
  | zero => simp
  | succ n ih =>
    rw [List.range_succ, List.filterMap_append, ih, List.take_add_one]
    cases h : l[n]? <;> simp [h]

theorem flatten_batch (np : ℕ) (parts : List Key) (c : ℕ) :
    ((List.range c).map (batch np parts)).flatten = parts.take (c * np) := by
  induction c with
  | zero => simp
  | succ c ih =>
    have hbatch : batch np parts c = (parts.drop (c * np)).take np := by
      rw [← filterMap_getElem?]
      simp only [batch, List.getElem?_drop]
    rw [List.range_succ, List.map_append, List.flatten_append, ih, List.map_singleton,
      List.flatten_singleton, hbatch, Nat.succ_mul, List.take_add]

variable {hκ : DictOrder Key} {d d' d₁ : Part2Prefix Key α} {lcs : List (Finset α)}

theorem list_of_edited (hd : NonemptySets d) (halong : DecomposedAlong (planOf hκ d) d d₁) {p : Key}
    (hlist : d'.get? p = d.get? p ∨ d'.get? p = d₁.get? p) (hp : p ∈ d.keys) :
    ∃ l, d'.get? p = some l ∧ prefixes l = prefixesOf d p ∧
      ∀ N ∈ members l, N.Nonempty ∧ Saturated (families d).all (N : Set α) := by
  obtain ⟨l, hl⟩ := Dict.mem_keys_iff.mp hp
  rcases hlist with h | h
  · refine ⟨l, h.trans hl, (prefixesOf_of_get? hl).symm, fun N hN => ?_⟩
    have hNd := mem_families.mpr ⟨l, hl, hN⟩
    exact ⟨hd.families p N hNd, saturated_of_mem ⟨p, hNd⟩⟩
  · obtain ⟨l', hl', hatoms, -⟩ := halong.atoms p l hl
    rw [← prefixesOf_of_get? hl] at hatoms
    refine ⟨l', h.trans hl', prefixes_of_members (covers_pieces hκ hp) hatoms, fun N hN => ?_⟩
    have hN := (hatoms N).mp hN
    exact ⟨hN.1.nonempty, pieces_saturated hN⟩

theorem prefixes_groups_of_single (hlcs : ∀ N, N ∈ lcs ↔ IsAtom (families d).all N)
    (hone : d.keys.length = 1) {p : Key} (hp : p ∈ d.keys) :
    prefixes (lcs.map Coll.set) = prefixesOf d p := by
  ext y
  have hsupp : (∃ T ∈ members (lcs.map Coll.set), y ∈ T) ↔ y ∈ support (families d).all := by
    rw [← support_isAtom]
    refine exists_congr fun T => and_congr_left fun _ => ?_
    rw [members_map_set, List.mem_toFinset, hlcs]
    rfl
  rw [mem_prefixes_iff_members, hsupp, mem_support_families]
  constructor
  · rintro ⟨q, hq⟩
    obtain ⟨k, hk⟩ := List.length_eq_one_iff.mp hone
    have hqk := mem_keys_of_mem_prefixesOf hq
    rw [hk, List.mem_singleton] at hqk hp
    exact hp ▸ hqk ▸ hq
  · exact fun hy => ⟨p, hy⟩

theorem child_spec (hα : Hashing α) (hd : NonemptySets d) (hn : NoCollision d.keys)
    (halong : DecomposedAlong (planOf hκ d) d d₁)
    (hlists : ∀ p, d'.get? p = d.get? p ∨ d'.get? p = d₁.get? p)
    (hlcs : ∀ N, N ∈ lcs ↔ IsAtom (families d).all N) {p : Key} (hp : p ∈ d.keys) :
    ∃ l, child hα hκ d' (Dict.single ((planOf hκ d).key hκ) (lcs.map Coll.set)) p = some (p, l) ∧
      ∀ N, N ∈ members l ↔ N ∈ atomsIn (families d).all (prefixesOf d p) := by
  obtain ⟨l₀, hl₀, hU, hsat⟩ := list_of_edited hd halong (hlists p) hp
  have hmem : (↑(members (lcs.map Coll.set)) : Set (Finset α)) = {N | IsAtom (families d).all N} :=
    Set.ext fun N => by rw [members_map_set, Finset.mem_coe, List.mem_toFinset, hlcs]; rfl
  obtain ⟨tmp, x, v', hrun, hv', -, hatoms, hlist⟩ :=
    decomposeWith_spec hα hκ (K := (planOf hκ d).key hκ) (p := p) (l := l₀) (v := lcs.map Coll.set)
      (fun c hc => (hsat _ (mem_members.mpr ⟨c, hc, rfl⟩)).1)
      (fun c hc => by
        obtain ⟨N, hN, rfl⟩ := List.mem_map.mp hc
        exact ((hlcs N).mp hN).nonempty)
  rw [hmem] at hatoms hlist
  have hchild : ∀ l, tmp.get? p = some l →
      child hα hκ d' (Dict.single ((planOf hκ d).key hκ) (lcs.map Coll.set)) p = some (p, l) := by
    intro l hl
    simp only [child, hl₀, Option.bind_some, decomposeSimplerMulti, hrun, hl, Option.map_some]
  by_cases hK : p = (planOf hκ d).key hκ
  · -- a single participant: the groups are its own
    refine ⟨v', hchild v' (hK ▸ hv'), fun N => ?_⟩
    have hone := Plan.length_eq_one_of_key_mem d.nodup_keys hn (hK ▸ hp)
    rw [hatoms, if_pos hK, Set.empty_union, prefixes_groups_of_single hlcs hone hp]
    simp only [atomsIn, Set.mem_ofPred_eq, isAtom_isAtom]
  · obtain ⟨l, hl, -, hl'⟩ := hlist hK
    have hcov : Covers (families d).all (prefixesOf d p) :=
      covers_of_subset fun S hS => (⟨p, hS⟩ : S ∈ (families d).all)
    refine ⟨l, hchild l hl, fun N => ?_⟩
    rw [hl', hU]
    refine atomsIn_congr (fun y hy => ?_) hcov (fun y _ z => ?_) N
    · obtain ⟨T, hT, hyT⟩ := mem_prefixes_iff_members.mp (hU ▸ hy)
      exact ⟨T, Or.inl hT, hyT, fun z hz => hU ▸ mem_prefixes_iff_members.mpr ⟨T, hT, hz⟩⟩
    · rw [same_union, same_isAtom, and_iff_right_iff_imp]
      intro hyz T hT
      exact ⟨(hsat T hT).2 y z hyz, (hsat T hT).2 z y hyz.symm⟩

theorem lcsMultiprocess_run (hα : Hashing α) (hκ : DictOrder Key) (spawn : ℕ → Bool) {cpuCount : ℕ}
    (hcpu : 0 < cpuCount) {d : Part2Prefix Key α} (hne : d.keys ≠ []) (hd : NonemptySets d)
    (hn : NoCollision d.keys) :
    ∃ (m : Part2Prefix Key α) (lcs : List (Coll α)),
      (∀ n ≥ d.keys.length, lcsMultiprocess hα hκ spawn cpuCount n d = some (m, lcs)) ∧
      (∀ N, N ∈ members lcs ↔ IsAtom (families d).all N) ∧ m.keys.Perm d.keys ∧
      ∀ p ∈ d.keys, ∃ l, m.get? p = some l ∧
        ∀ N, N ∈ members l ↔ N ∈ atomsIn (families d).all (prefixesOf d p) := by
  obtain ⟨d₁, lcs, hrun, halong, -, hlcs⟩ := decmoposeParallel_spec hα hκ _ hne le_rfl hd
  change ∀ N, N ∈ lcs ↔ IsAtom (setsOf d ((planOf hκ d).kept hκ)) N at hlcs
  rw [setsOf_kept_of_noCollision hn] at hlcs
  obtain ⟨d', hmulti, hlists⟩ := decomposeMulti_simulates hα hκ spawn _ hrun 1
  choose! g hg hgl using fun p (hp : p ∈ d.keys) => child_spec hα hd hn halong hlists hlcs hp
  set np := processes cpuCount with hnp
  set c := (d.keys.length + np - 1) / np with hc
  have hnp0 : 0 < np := by
    rw [hnp, processes]
    split_ifs <;> omega
  have hle : d.keys.length ≤ c * np := by
    have := Nat.div_add_mod (d.keys.length + np - 1) np
    have := Nat.mod_lt (d.keys.length + np - 1) hnp0
    rw [mul_comm, hc]
    omega
  have hall : ((List.range c).map (batch np d.keys)).flatten = d.keys := by
    rw [flatten_batch, List.take_of_length_le hle]
  have hout : ((List.range c).mapM fun k => (batch np d.keys k).mapM (child hα hκ d'
      (Dict.single ((planOf hκ d).key hκ) (lcs.map Coll.set)))) =
      some ((List.range c).map fun k => (batch np d.keys k).map fun p => (p, g p)) := by
    refine Runs.mapM_eq_map fun k hk => Runs.mapM_eq_map fun p hp => hg p ?_
    rw [← hall]
    exact List.mem_flatten.mpr ⟨_, List.mem_map.mpr ⟨k, hk, rfl⟩, hp⟩
  have hflat : ((List.range c).map fun k => (batch np d.keys k).map fun p => (p, g p)).flatten =
      d.keys.map fun p => (p, g p) := by
    conv_rhs => rw [← hall]
    rw [List.map_flatten, List.map_map]
    rfl
  have hfst : (d.keys.map fun p => (p, g p)).map Prod.fst = d.keys := by
    rw [List.map_map]
    exact List.map_id _
  refine ⟨Dict.ofItems hκ (d.keys.map fun p => (p, g p)), lcs.map Coll.set, fun n hn => ?_,
    fun N => by rw [members_map_set, List.mem_toFinset, hlcs], ?_, fun p hp => ⟨g p, ?_, hgl p hp⟩⟩
  · rw [lcsMultiprocess, decomposeMulti_mono hα hκ spawn hn hmulti, Option.bind_some]
    exact (congrArg (Option.bind · _) hout).trans (by rw [Option.bind_some, hflat]; rfl)
  · rw [Dict.keys_ofItems, hfst, d.nodup_keys.dedup]
    exact hκ.arrange_perm _
  · have hnodup : ((d.keys.map fun p => (p, g p)).map Prod.fst).Nodup := by
      rw [hfst]
      exact d.nodup_keys
    rw [Dict.get?_ofItems, Dict.lastValue_items ⟨_, hnodup⟩, Dict.get?_eq_some]
    exact List.mem_map.mpr ⟨p, hp, rfl⟩

/-- On equal copies of a mapping the two versions return the same groups and the
same sets for every participant, whatever the orders, the depth and the batches. -/
theorem lcsMultiprocess_eq_lcsParallel (hα hα' : Hashing α) (hκ hκ' : DictOrder Key)
    (spawn : ℕ → Bool) {cpuCount : ℕ} (hcpu : 0 < cpuCount) {d e : Part2Prefix Key α}
    (hcopy : ∀ p, e.get? p = d.get? p) (hne : d.keys ≠ []) (hd : NonemptySets d)
    (hn : NoCollision d.keys) :
    ∃ (m m' : Part2Prefix Key α) (lcs lcs' : List (Coll α)),
      (∀ n ≥ d.keys.length, lcsParallel hα hκ n d = some (m, lcs)) ∧
      (∀ n ≥ e.keys.length, lcsMultiprocess hα' hκ' spawn cpuCount n e = some (m', lcs')) ∧
      members lcs' = members lcs ∧ m'.keys.Perm d.keys ∧
      ∀ p ∈ d.keys, ∃ l l', m.get? p = some l ∧ m'.get? p = some l' ∧ members l' = members l := by
  have hkeys : e.keys.Perm d.keys := by
    refine (List.perm_ext_iff_of_nodup e.nodup_keys d.nodup_keys).mpr fun p => ?_
    rw [Dict.mem_keys_iff, Dict.mem_keys_iff, hcopy]
  have hfam : families e = families d := funext fun p => by rw [families, families, hcopy]
  have hpre : ∀ p, prefixesOf e p = prefixesOf d p := fun p => by
    rw [prefixesOf, prefixesOf, hcopy]
  obtain ⟨m, lcs, hrun, hround⟩ := lcsParallel_run hα hκ hne hd
  have hdec := hround.decomposes (nothingLost_of_noCollision hn)
  obtain ⟨m', lcs', hrun', hlcs', hk', hm'⟩ := lcsMultiprocess_run hα' hκ' spawn hcpu
    (fun h => hne (List.perm_nil.mp (h ▸ hkeys.symm)))
    (fun p l hl => hd p l ((hcopy p).symm.trans hl))
    (fun xs ys hx hy hxs hys => hn xs ys hx hy (hxs.trans hkeys.subperm) (hys.trans hkeys.subperm))
  rw [hfam] at hlcs' hm'
  refine ⟨m, m', lcs, lcs', hrun, hrun', Finset.ext fun N => ?_, hk'.trans hkeys, fun p hp => ?_⟩
  · rw [hlcs', hdec.mem_members_iff]
  · obtain ⟨l, hl, hatoms⟩ := hdec.participants p hp
    obtain ⟨l', hl', hatoms'⟩ := hm' p (hkeys.mem_iff.mpr hp)
    refine ⟨l, l', hl, hl', Finset.ext fun N => ?_⟩
    rw [hatoms', hatoms, hdec.mem_members_iff, hpre]
    rfl

def threeNames : Part2Prefix Key ℕ where
  items := [(.str "A", [.list [0, 1]]), (.str "C", [.list [2], .list [1, 2]]),
    (.str "B", [.list [1]])]
  nodup := by decide

theorem lcsMultiprocess_eq_lcsParallel_threeNames :
    ∃ (m m' : Part2Prefix Key ℕ) (lcs lcs' : List (Coll ℕ)),
      (∀ n ≥ 3, lcsParallel .ascending .insertion n threeNames = some (m, lcs)) ∧
      (∀ n ≥ 3, lcsMultiprocess .ascending .insertion (fun index => index ≤ 1) 2 n threeNames =
        some (m', lcs')) ∧
      members lcs' = members lcs ∧ m'.keys.Perm [.str "A", .str "C", .str "B"] ∧
      ∀ p ∈ [Key.str "A", .str "C", .str "B"], ∃ l l', m.get? p = some l ∧ m'.get? p = some l' ∧
        members l' = members l :=
  lcsMultiprocess_eq_lcsParallel .ascending .ascending .insertion .insertion
    (fun index => index ≤ 1) (by decide) (d := threeNames) (fun _ => rfl) (by decide)
    (nonemptySets_iff.mpr (by decide))
    (noCollision_of_length (L := 1) (by decide) fun k hk => by
      have hk : k ∈ [Key.str "A", .str "C", .str "B"] := hk
      fin_cases hk
      · exact ⟨"A", rfl, rfl⟩
      · exact ⟨"C", rfl, rfl⟩
      · exact ⟨"B", rfl, rfl⟩)

end Hispar.SetOperations
