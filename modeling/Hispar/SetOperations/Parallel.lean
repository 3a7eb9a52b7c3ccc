import Hispar.SetOperations.Lists

/-!
# Divide and conquer over the participants

`decmoposeParallel` splits the participants in two halves, decomposes each and
decomposes the two results again, under keys made by concatenation. It runs on
fuel, one unit for each level of the recursion, and returns the mapping as its
in-place edits leave it next to the dictionary of groups. Which participants
meet in one leaf, under which key a half travels and which half a merge of
equal keys loses depend on the names and on the iteration orders alone: that is
the plan of a run.
-/
namespace Hispar.SetOperations
open Library Library.Atoms Library.Splitting

/-- A participant name, or the key of a half: a number or a text that `str` leaves as it is. -/
inductive Key
  | int (n : ℤ)
  | str (s : String)
  deriving DecidableEq

def Key.text : Key → String
  | int n => toString n
  | str s => s

def joinKeys (ks : List Key) : Key := .str (String.join (ks.map Key.text))

def everyOther {β : Type*} : List β → List β
  | [] => []
  | [a] => [a]
  | a :: _ :: l => a :: everyOther l

variable {κ α : Type*} [DecidableEq κ] [DecidableEq α]

def dividePart2Prefixes (hκ : DictOrder κ) (plist : List κ) (part2pfx : Part2Prefix κ α) :
    Part2Prefix κ α :=
  Dict.ofItems hκ (plist.filterMap fun elem => (part2pfx.get? elem).map (elem, ·))

/-- A mapping after the lists it shares with two parts of it were edited there. -/
def writeBack (part2pfx tmp1 tmp2 : Part2Prefix κ α) : Part2Prefix κ α :=
  part2pfx.mapValues fun p l => ((tmp1.get? p).or (tmp2.get? p)).getD l

def decmoposeParallel (hα : Hashing α) (hκ : DictOrder Key) : ℕ → Part2Prefix Key α →
    Option (Part2Prefix Key α × Part2Prefix Key α)
  | 0, _ => none
  | n + 1, part2pfx =>
    match part2pfx.keys with
    | [k] => (decomposeSimpler hα part2pfx).map fun r => (r.1, Dict.single k r.2)
    | [k₀, k₁] => (decomposeSimpler hα part2pfx).map fun r =>
        (r.1, Dict.single (joinKeys [k₀, k₁]) r.2)
    | partList =>
      let tmp1 := dividePart2Prefixes hκ (everyOther partList) part2pfx
      let tmp2 := dividePart2Prefixes hκ (everyOther partList.tail) part2pfx
      (decmoposeParallel hα hκ n tmp1).bind fun r₁ =>
        (decmoposeParallel hα hκ n tmp2).bind fun r₂ =>
          (decmoposeParallel hα hκ n (Dict.ofItems hκ (r₁.2.items ++ r₂.2.items))).map fun r =>
            (writeBack part2pfx r₁.1 r₂.1, r.2)

inductive Plan
  | leaf (ks : List Key)
  | merge (left right : Plan)

namespace Plan

def ofNames (hκ : DictOrder Key) : ℕ → List Key → Plan
  | 0, ks => leaf ks
  | n + 1, ks => if ks.length ≤ 2 then leaf ks else
      merge (ofNames hκ n (hκ.arrange (everyOther ks)))
        (ofNames hκ n (hκ.arrange (everyOther ks.tail)))

def key (hκ : DictOrder Key) : Plan → Key
  | leaf [k] => k
  | leaf ks => joinKeys ks
  | merge l r => if l.key hκ = r.key hκ then r.key hκ
      else joinKeys (hκ.arrange [l.key hκ, r.key hκ])

/-- The participants whose sets reach the groups: of two halves with one key
the second replaces the first. -/
def kept (hκ : DictOrder Key) : Plan → List Key
  | leaf ks => ks
  | merge l r => if l.key hκ = r.key hκ then r.kept hκ else l.kept hκ ++ r.kept hκ

def mates : Plan → Key → List Key
  | leaf ks, p => if p ∈ ks then ks else []
  | merge l r, p => l.mates p ++ r.mates p

def Apart (hκ : DictOrder Key) : Plan → Prop
  | leaf _ => True
  | merge l r => l.Apart hκ ∧ r.Apart hκ ∧ l.key hκ ≠ r.key hκ

instance decidableApart (hκ : DictOrder Key) : (t : Plan) → Decidable (t.Apart hκ)
  | leaf _ => inferInstanceAs (Decidable True)
  | merge l r =>
    have := decidableApart hκ l
    have := decidableApart hκ r
    inferInstanceAs (Decidable (l.Apart hκ ∧ r.Apart hκ ∧ l.key hκ ≠ r.key hκ))

end Plan

theorem length_everyOther {β : Type*} (l : List β) : (everyOther l).length = (l.length + 1) / 2 := by
  induction l using everyOther.induct with
  | case1 => simp [everyOther]
  | case2 a => simp [everyOther]
  | case3 a b l ih =>
    simp only [everyOther, List.length_cons, ih]
    omega

theorem everyOther_perm {β : Type*} (l : List β) : (everyOther l ++ everyOther l.tail).Perm l := by
  induction l using everyOther.induct with
  | case1 => exact List.Perm.refl _
  | case2 a => exact List.Perm.refl _
  | case3 a b l ih =>
    cases l with
    | nil => exact List.Perm.refl _
    | cons c l =>
      have htail : everyOther (b :: c :: l) = b :: everyOther l := rfl
      simp only [everyOther, List.tail_cons, List.cons_append, htail] at ih ⊢
      exact (List.perm_middle.trans (ih.cons b)).cons a

namespace Plan
variable {hκ : DictOrder Key}

omit hκ in
theorem mates_leaf_subset (ks : List Key) (p : Key) : ∀ q ∈ (leaf ks).mates p, q ∈ ks ∧ p ∈ ks := by
  intro q hq
  rw [mates] at hq
  split_ifs at hq with hp
  · exact ⟨hq, hp⟩
  · exact absurd hq List.not_mem_nil

theorem mates_subset (n : ℕ) (ks : List Key) (p : Key) :
    ∀ q ∈ (ofNames hκ n ks).mates p, q ∈ ks ∧ p ∈ ks := by
  induction n generalizing ks with
  | zero => exact mates_leaf_subset ks p
  | succ n ih =>
    rw [ofNames]
    split_ifs with hlen
    · exact mates_leaf_subset ks p
    · intro q hq
      have hsub : ∀ js : List Key, (∀ k ∈ js, k ∈ ks) →
          q ∈ (ofNames hκ n (hκ.arrange js)).mates p → q ∈ ks ∧ p ∈ ks := fun js hjs hq =>
        ⟨hjs q ((hκ.mem_arrange _ q).mp (ih _ q hq).1), hjs p ((hκ.mem_arrange _ p).mp (ih _ q hq).2)⟩
      rcases List.mem_append.mp hq with hq | hq
      · exact hsub _ (fun k hk => (everyOther_perm ks).mem_iff.mp (List.mem_append_left _ hk)) hq
      · exact hsub _ (fun k hk => (everyOther_perm ks).mem_iff.mp (List.mem_append_right _ hk)) hq

theorem kept_subset (n : ℕ) (ks : List Key) : ∀ k ∈ (ofNames hκ n ks).kept hκ, k ∈ ks := by
  induction n generalizing ks with
  | zero => exact fun _ h => h
  | succ n ih =>
    rw [ofNames]
    split_ifs with hlen
    · exact fun _ h => h
    · have hleft : ∀ k ∈ (ofNames hκ n (hκ.arrange (everyOther ks))).kept hκ, k ∈ ks := fun k hk =>
        (everyOther_perm ks).mem_iff.mp (List.mem_append_left _
          ((hκ.mem_arrange _ k).mp (ih _ k hk)))
      have hright : ∀ k ∈ (ofNames hκ n (hκ.arrange (everyOther ks.tail))).kept hκ, k ∈ ks :=
        fun k hk => (everyOther_perm ks).mem_iff.mp (List.mem_append_right _
          ((hκ.mem_arrange _ k).mp (ih _ k hk)))
      rw [kept]
      split_ifs with hk
      · exact hright
      · exact fun k hk => (List.mem_append.mp hk).elim (hleft k) (hright k)

theorem Apart.kept_perm {n : ℕ} {ks : List Key} (h : (ofNames hκ n ks).Apart hκ) :
    ((ofNames hκ n ks).kept hκ).Perm ks := by
  induction n generalizing ks with
  | zero => exact List.Perm.refl _
  | succ n ih =>
    rw [ofNames] at h ⊢
    split_ifs with hlen
    · exact List.Perm.refl _
    · rw [if_neg hlen] at h
      obtain ⟨hl, hr, hne⟩ := h
      rw [kept, if_neg hne]
      exact (((ih hl).trans (hκ.arrange_perm _)).append ((ih hr).trans (hκ.arrange_perm _))).trans
        (everyOther_perm ks)

theorem mem_mates_self {n : ℕ} {ks : List Key} {p : Key} (hp : p ∈ ks) :
    p ∈ (ofNames hκ n ks).mates p := by
  induction n generalizing ks with
  | zero => rwa [ofNames, mates, if_pos hp]
  | succ n ih =>
    rw [ofNames]
    split_ifs with hlen
    · rwa [mates, if_pos hp]
    · rw [mates, List.mem_append]
      exact (List.mem_append.mp ((everyOther_perm ks).mem_iff.mpr hp)).imp
        (fun h => ih ((hκ.mem_arrange _ p).mpr h)) (fun h => ih ((hκ.mem_arrange _ p).mpr h))

theorem mates_subset_kept {n : ℕ} {ks : List Key} (hnd : ks.Nodup) {p : Key}
    (hp : p ∈ (ofNames hκ n ks).kept hκ) :
    ∀ q ∈ (ofNames hκ n ks).mates p, q ∈ (ofNames hκ n ks).kept hκ := by
  induction n generalizing ks with
  | zero => exact fun q hq => (mates_leaf_subset ks p q hq).1
  | succ n ih =>
    rw [ofNames] at hp ⊢
    split_ifs at hp ⊢ with hlen
    · exact fun q hq => (mates_leaf_subset ks p q hq).1
    · obtain ⟨hl, hr, hdisj⟩ := List.nodup_append.mp ((everyOther_perm ks).nodup_iff.mpr hnd)
      have ihl := @ih _ ((hκ.arrange_perm (everyOther ks)).nodup_iff.mpr hl)
      have ihr := @ih _ ((hκ.arrange_perm (everyOther ks.tail)).nodup_iff.mpr hr)
      have hcross : ∀ {q}, q ∈ (ofNames hκ n (hκ.arrange (everyOther ks))).mates p →
          ∀ {j}, j ∈ (ofNames hκ n (hκ.arrange (everyOther ks.tail))).mates p → False :=
        fun hq _ hj => hdisj p ((hκ.mem_arrange _ p).mp (mates_subset _ _ p _ hq).2) p
          ((hκ.mem_arrange _ p).mp (mates_subset _ _ p _ hj).2) rfl
      intro q hq
      rw [kept] at hp ⊢
      rw [mates] at hq
      have hright : p ∈ (ofNames hκ n (hκ.arrange (everyOther ks.tail))).kept hκ →
          q ∈ (ofNames hκ n (hκ.arrange (everyOther ks.tail))).kept hκ := fun hp =>
        (List.mem_append.mp hq).elim (fun h => (hcross h (mem_mates_self (kept_subset _ _ p hp))).elim)
          (ihr hp q)
      have hleft : p ∈ (ofNames hκ n (hκ.arrange (everyOther ks))).kept hκ →
          q ∈ (ofNames hκ n (hκ.arrange (everyOther ks))).kept hκ := fun hp =>
        (List.mem_append.mp hq).elim (ihl hp q)
          (fun h => (hcross (mem_mates_self (kept_subset _ _ p hp)) h).elim)
      split_ifs at hp ⊢ with hk
      · exact hright hp
      · exact List.mem_append.mpr ((List.mem_append.mp hp).imp hleft hright)

end Plan

def setsOf (d : Part2Prefix κ α) (ks : List κ) : Set (Finset α) :=
  {S | ∃ p ∈ ks, S ∈ families d p}

theorem setsOf_append (d : Part2Prefix κ α) (ks js : List κ) :
    setsOf d (ks ++ js) = setsOf d ks ∪ setsOf d js := by
  ext S
  simp only [setsOf, Set.mem_ofPred_eq, Set.mem_union, List.mem_append, or_and_right, exists_or]

theorem setsOf_eq_all {d : Part2Prefix κ α} {ks : List κ} (h : ∀ p ∈ d.keys, p ∈ ks) :
    setsOf d ks = (families d).all := by
  ext S
  constructor
  · rintro ⟨p, -, hS⟩
    exact ⟨p, hS⟩
  · rintro ⟨p, hS⟩
    obtain ⟨l, hl, -⟩ := mem_families.mp hS
    exact ⟨p, h p (Dict.mem_keys_iff.mpr ⟨l, hl⟩), hS⟩

theorem setsOf_congr {d e : Part2Prefix κ α} {ks : List κ} (h : ∀ p ∈ ks, d.get? p = e.get? p) :
    setsOf d ks = setsOf e ks := by
  ext S
  refine exists_congr fun p => and_congr_right fun hp => ?_
  simp only [families, h p hp]

theorem prefixes_eq_of_atoms {G : Set (Finset α)} {l l' : List (Coll α)}
    (hG : ∀ T ∈ members l, T ∈ G)
    (hatoms : ∀ N, N ∈ members l' ↔ IsAtom G N ∧ N ⊆ prefixes l) : prefixes l' = prefixes l := by
  ext x
  rw [mem_prefixes_iff_members]
  constructor
  · rintro ⟨N, hN, hx⟩
    exact ((hatoms N).mp hN).2 hx
  · intro hx
    obtain ⟨T, hT, hxT⟩ := mem_prefixes_iff_members.mp hx
    obtain ⟨N, hN, hxN⟩ := exists_isAtom ⟨T, hG T hT, hxT⟩
    refine ⟨N, (hatoms N).mpr ⟨hN, fun y hy => mem_prefixes_iff_members.mpr ⟨T, hT, ?_⟩⟩, hxN⟩
    exact hN.subset_of_mem (saturated_of_mem (hG T hT)) hxN hxT y hy

/-- What the in-place edits of a run leave: each participant holds the atoms of
its leaf inside the union of its sets. -/
structure DecomposedAlong (t : Plan) (d d' : Part2Prefix Key α) : Prop where
  keys : d'.keys = d.keys
  atoms : ∀ p l, d.get? p = some l → ∃ l', d'.get? p = some l' ∧
    (∀ N, N ∈ members l' ↔ IsAtom (setsOf d (t.mates p)) N ∧ N ⊆ prefixes l) ∧
      ListsKept (Alone d (t.mates p) p) l l'

theorem Decomposed.along {d d' : Part2Prefix Key α} (h : Decomposed d d')
    (hlists : ∀ p l l', d.get? p = some l → d'.get? p = some l' →
      ListsKept (Alone d d.keys p) l l') : DecomposedAlong (.leaf d.keys) d d' := by
  refine ⟨h.keys, fun p l hl => ?_⟩
  have hp : p ∈ d.keys := Dict.mem_keys_iff.mpr ⟨l, hl⟩
  rw [Plan.mates, if_pos hp, setsOf_eq_all fun _ hq => hq]
  obtain ⟨l', hl', hatoms⟩ := h.atoms p l hl
  exact ⟨l', hl', hatoms, hlists p l l' hl hl'⟩

omit [DecidableEq α] in
theorem get?_dividePart2Prefixes (hκ : DictOrder κ) (plist : List κ) (d : Part2Prefix κ α) (p : κ) :
    (dividePart2Prefixes hκ plist d).get? p = if p ∈ plist then d.get? p else none := by
  rw [dividePart2Prefixes, Dict.get?_ofItems, Dict.lastValue_filterMap]

omit [DecidableEq α] in
theorem keys_dividePart2Prefixes (hκ : DictOrder κ) {plist : List κ} (hnd : plist.Nodup)
    {d : Part2Prefix κ α} (hd : ∀ p ∈ plist, p ∈ d.keys) :
    (dividePart2Prefixes hκ plist d).keys = hκ.arrange plist := by
  rw [dividePart2Prefixes, Dict.keys_ofItems, Dict.map_fst_filterMap _ fun p hp => ?_, hnd.dedup]
  exact fun e => Dict.get?_eq_none.mp e (hd p hp)

theorem NonemptySets.divide {hκ : DictOrder κ} {d : Part2Prefix κ α} (hd : NonemptySets d)
    (plist : List κ) : NonemptySets (dividePart2Prefixes hκ plist d) := by
  intro p l hl
  rw [get?_dividePart2Prefixes] at hl
  split_ifs at hl
  exact hd p l hl

theorem setsOf_divide (hκ : DictOrder κ) {plist ks : List κ} (d : Part2Prefix κ α)
    (h : ∀ p ∈ ks, p ∈ plist) : setsOf (dividePart2Prefixes hκ plist d) ks = setsOf d ks :=
  setsOf_congr fun p hp => by rw [get?_dividePart2Prefixes, if_pos (h p hp)]

omit [DecidableEq α] in
theorem merged_spec (hκ : DictOrder Key) (k₁ k₂ : Key) (v₁ v₂ : List (Coll α)) :
    let m := Dict.ofItems hκ ((Dict.single k₁ v₁).items ++ (Dict.single k₂ v₂).items)
    (k₁ = k₂ → m.keys = [k₂]) ∧ (k₁ ≠ k₂ → m.keys = hκ.arrange [k₁, k₂]) ∧
      ∀ k, m.get? k = if k = k₂ then some v₂ else if k = k₁ then some v₁ else none := by
  refine ⟨fun h => ?_, fun h => ?_, fun k => ?_⟩
  · subst h
    have hp := (hκ.arrange_perm [k₁])
    simpa [Dict.single] using List.perm_singleton.mp hp
  · simp [Dict.single, h]
  · rw [Dict.get?_ofItems, Dict.lastValue_append, Dict.lastValue_items, Dict.lastValue_items,
      Dict.get?_single, Dict.get?_single]
    by_cases h₂ : k = k₂
    · simp [h₂]
    · by_cases h₁ : k = k₁
      · subst h₁
        simp [h₂, Ne.symm h₂]
      · simp [h₁, h₂, Ne.symm h₁, Ne.symm h₂]

omit [DecidableEq α] in
theorem length_merged (hκ : DictOrder Key) (k₁ k₂ : Key) (v₁ v₂ : List (Coll α)) :
    (Dict.ofItems hκ ((Dict.single k₁ v₁).items ++ (Dict.single k₂ v₂).items)).keys.length =
      if k₁ = k₂ then 1 else 2 := by
  obtain ⟨hsame, hdiff, -⟩ := merged_spec hκ k₁ k₂ v₁ v₂
  by_cases hk : k₁ = k₂
  · rw [hsame hk, if_pos hk, List.length_singleton]
  · rw [hdiff hk, if_neg hk, (hκ.arrange_perm [k₁, k₂]).length_eq, List.length_cons,
      List.length_singleton]

theorem NonemptySets.merged (hκ : DictOrder Key) (k₁ k₂ : Key) {v₁ v₂ : List (Coll α)}
    (h₁ : ∀ c ∈ v₁, c.toSet.Nonempty) (h₂ : ∀ c ∈ v₂, c.toSet.Nonempty) :
    NonemptySets (Dict.ofItems hκ ((Dict.single k₁ v₁).items ++ (Dict.single k₂ v₂).items)) := by
  obtain ⟨-, -, hget⟩ := merged_spec hκ k₁ k₂ v₁ v₂
  intro k l hl
  rw [hget] at hl
  split_ifs at hl
  · exact Option.some.inj hl ▸ h₂
  · exact Option.some.inj hl ▸ h₁

omit [DecidableEq α] in
theorem members_map_set [DecidableEq α] (lcs : List (Finset α)) :
    members (lcs.map Coll.set) = lcs.toFinset := by
  simp [members, Function.comp_def]

theorem all_families_merged {m : Part2Prefix Key α} {k₁ k₂ : Key} {F G : Set (Finset α)}
    {lcs₁ lcs₂ : List (Finset α)} (hget : ∀ k, m.get? k = if k = k₂ then
      some (lcs₂.map Coll.set) else if k = k₁ then some (lcs₁.map Coll.set) else none)
    (h₁ : ∀ N, N ∈ lcs₁ ↔ IsAtom F N) (h₂ : ∀ N, N ∈ lcs₂ ↔ IsAtom G N) :
    (families m).all = if k₁ = k₂ then {N | IsAtom G N}
      else {N | IsAtom F N} ∪ {N | IsAtom G N} := by
  ext N
  simp only [mem_all_families, hget]
  constructor
  · rintro ⟨k, l, hl, hN⟩
    split_ifs at hl with hk₂ hk₁
    · obtain rfl := Option.some.inj hl
      rw [members_map_set, List.mem_toFinset, h₂] at hN
      split_ifs
      · exact hN
      · exact Or.inr hN
    · obtain rfl := Option.some.inj hl
      rw [members_map_set, List.mem_toFinset, h₁] at hN
      rw [if_neg fun h => hk₂ (hk₁.trans h)]
      exact Or.inl hN
  · intro hN
    have hright : IsAtom G N → ∃ k l, (if k = k₂ then some (lcs₂.map Coll.set)
        else if k = k₁ then some (lcs₁.map Coll.set) else none) = some l ∧ N ∈ members l :=
      fun h => ⟨k₂, _, if_pos rfl, by rwa [members_map_set, List.mem_toFinset, h₂]⟩
    split_ifs at hN with hk
    · exact hright hN
    · rcases hN with hN | hN
      · exact ⟨k₁, _, by rw [if_neg hk, if_pos rfl],
          by rwa [members_map_set, List.mem_toFinset, h₁]⟩
      · exact hright hN

theorem decmoposeParallel_leaf (hα : Hashing α) (hκ : DictOrder Key) (n : ℕ)
    {d : Part2Prefix Key α} (hne : d.keys ≠ []) (hlen : d.keys.length ≤ 2) (hd : NonemptySets d) :
    ∃ (d' : Part2Prefix Key α) (lcs : List (Finset α)), decmoposeParallel hα hκ (n + 1) d =
        some (d', Dict.single ((Plan.leaf d.keys).key hκ) (lcs.map Coll.set)) ∧
      DecomposedAlong (.leaf d.keys) d d' ∧ lcs.Nodup ∧
      ∀ N, N ∈ lcs ↔ IsAtom (families d).all N := by
  obtain ⟨d', lcs, hdec, hdecomposed, hspec⟩ := decomposeSimpler_spec hα hd
  refine ⟨d', lcs, ?_, hdecomposed.along fun p l l' hl hl' => decomposeSimpler_lists hα hdec hl hl',
    hspec⟩
  match hkeys : d.keys, hne, hlen with
  | [k], _, _ => simp [decmoposeParallel, hkeys, hdec, Plan.key]
  | [k₀, k₁], _, _ => simp [decmoposeParallel, hkeys, hdec, Plan.key]

theorem decmoposeParallel_node (hα : Hashing α) (hκ : DictOrder Key) (n : ℕ)
    {d : Part2Prefix Key α} (hone : d.keys.length ≠ 1) (htwo : d.keys.length ≠ 2) :
    decmoposeParallel hα hκ (n + 1) d =
      (decmoposeParallel hα hκ n (dividePart2Prefixes hκ (everyOther d.keys) d)).bind fun r₁ =>
        (decmoposeParallel hα hκ n (dividePart2Prefixes hκ (everyOther d.keys.tail) d)).bind fun r₂ =>
          (decmoposeParallel hα hκ n (Dict.ofItems hκ (r₁.2.items ++ r₂.2.items))).map fun r =>
            (writeBack d r₁.1 r₂.1, r.2) := by
  rw [decmoposeParallel]
  split
  · rename_i k hk
    exact absurd (congrArg List.length hk) hone
  · rename_i k₀ k₁ hk
    exact absurd (congrArg List.length hk) htwo
  · rfl

theorem DecomposedAlong.writeBack {hκ : DictOrder Key} {d d₁ d₂ : Part2Prefix Key α}
    {ks js : List Key} {t₁ t₂ : Plan} (hcover : ∀ p ∈ d.keys, p ∈ ks ∨ p ∈ js)
    (hdisj : ∀ p ∈ ks, p ∉ js) (ht₁ : ∀ p, ∀ q ∈ t₁.mates p, q ∈ ks ∧ p ∈ ks)
    (ht₂ : ∀ p, ∀ q ∈ t₂.mates p, q ∈ js ∧ p ∈ js)
    (h₁ : DecomposedAlong t₁ (dividePart2Prefixes hκ ks d) d₁)
    (h₂ : DecomposedAlong t₂ (dividePart2Prefixes hκ js d) d₂) :
    DecomposedAlong (.merge t₁ t₂) d (writeBack d d₁ d₂) := by
  have hpart : ∀ {ls : List Key} {e : Part2Prefix Key α} {t : Plan},
      DecomposedAlong t (dividePart2Prefixes hκ ls d) e →
      (∀ p, ∀ q ∈ t.mates p, q ∈ ls ∧ p ∈ ls) → ∀ {p l}, d.get? p = some l → p ∈ ls →
      ∃ l', e.get? p = some l' ∧
        (∀ N, N ∈ members l' ↔ IsAtom (setsOf d (t.mates p)) N ∧ N ⊆ prefixes l) ∧
          ListsKept (Alone d (t.mates p) p) l l' := by
    intro ls e t he ht p l hl hp
    have halone : Alone (dividePart2Prefixes hκ ls d) (t.mates p) p = Alone d (t.mates p) p := by
      funext x
      refine propext (Alone.congr ?_ (fun q hq => ?_) x)
      · rw [get?_dividePart2Prefixes, if_pos hp]
      · rw [get?_dividePart2Prefixes, if_pos (ht p q hq).1]
    rw [← setsOf_divide hκ d fun q hq => (ht p q hq).1, ← halone]
    exact he.atoms p l (by rw [get?_dividePart2Prefixes, if_pos hp, hl])
  have hnil : ∀ {ls : List Key} {t : Plan}, (∀ p, ∀ q ∈ t.mates p, q ∈ ls ∧ p ∈ ls) →
      ∀ {p}, p ∉ ls → t.mates p = [] :=
    fun ht _ hp => List.eq_nil_iff_forall_not_mem.mpr fun q hq => hp (ht _ q hq).2
  refine ⟨Dict.keys_mapValues _ _, fun p l hl => ?_⟩
  rw [SetOperations.writeBack, Dict.get?_mapValues, hl, Option.map_some, Plan.mates]
  by_cases hk : p ∈ ks
  · obtain ⟨l', hl', hatoms⟩ := hpart h₁ ht₁ hl hk
    rw [hnil ht₂ (hdisj p hk), List.append_nil]
    exact ⟨l', by simp [hl'], hatoms⟩
  · have hj := (hcover p (Dict.mem_keys_iff.mpr ⟨l, hl⟩)).resolve_left hk
    obtain ⟨l', hl', hatoms⟩ := hpart h₂ ht₂ hl hj
    have hnone : d₁.get? p = none := by
      rw [Dict.get?_eq_none, h₁.keys, ← Dict.get?_eq_none, get?_dividePart2Prefixes, if_neg hk]
    rw [hnil ht₁ hk, List.nil_append]
    exact ⟨l', by simp [hnone, hl'], hatoms⟩

omit [DecidableEq α] in
theorem keys_halves (hκ : DictOrder Key) {d : Part2Prefix Key α} (h2 : ¬ d.keys.length ≤ 2)
    {plist : List Key} (hhalf : plist = everyOther d.keys ∨ plist = everyOther d.keys.tail) :
    (dividePart2Prefixes hκ plist d).keys = hκ.arrange plist ∧
      (dividePart2Prefixes hκ plist d).keys ≠ [] ∧
      (dividePart2Prefixes hκ plist d).keys.length < d.keys.length := by
  have hsub := everyOther_perm d.keys
  obtain ⟨hnd₁, hnd₂, -⟩ := List.nodup_append.mp (hsub.nodup_iff.mpr d.nodup_keys)
  have hL := length_everyOther d.keys
  have hR := length_everyOther d.keys.tail
  rw [List.length_tail] at hR
  obtain ⟨hnd, hmem, hlen⟩ : plist.Nodup ∧ (∀ p ∈ plist, p ∈ d.keys) ∧
      0 < plist.length ∧ plist.length < d.keys.length := by
    rcases hhalf with rfl | rfl
    · exact ⟨hnd₁, fun p hp => hsub.mem_iff.mp (List.mem_append_left _ hp), by omega, by omega⟩
    · exact ⟨hnd₂, fun p hp => hsub.mem_iff.mp (List.mem_append_right _ hp), by omega, by omega⟩
  have hkeys := keys_dividePart2Prefixes hκ hnd hmem
  have hl := (hκ.arrange_perm plist).length_eq
  rw [hkeys]
  exact ⟨rfl, fun e => by rw [e, List.length_nil] at hl; omega, by omega⟩

theorem decmoposeParallel_merged (hα : Hashing α) (hκ : DictOrder Key) (n : ℕ) (t₁ t₂ : Plan)
    {F G : Set (Finset α)} {lcs₁ lcs₂ : List (Finset α)} (h₁ : ∀ N, N ∈ lcs₁ ↔ IsAtom F N)
    (h₂ : ∀ N, N ∈ lcs₂ ↔ IsAtom G N) :
    ∃ (m' : Part2Prefix Key α) (lcs : List (Finset α)), decmoposeParallel hα hκ (n + 1)
        (Dict.ofItems hκ ((Dict.single (t₁.key hκ) (lcs₁.map Coll.set)).items ++
          (Dict.single (t₂.key hκ) (lcs₂.map Coll.set)).items)) =
        some (m', Dict.single ((Plan.merge t₁ t₂).key hκ) (lcs.map Coll.set)) ∧ lcs.Nodup ∧
      ∀ N, N ∈ lcs ↔ IsAtom (if t₁.key hκ = t₂.key hκ then {N | IsAtom G N}
        else {N | IsAtom F N} ∪ {N | IsAtom G N}) N := by
  obtain ⟨hsame, hdiff, hget⟩ := merged_spec hκ (t₁.key hκ) (t₂.key hκ) (lcs₁.map Coll.set)
    (lcs₂.map Coll.set)
  set m := Dict.ofItems hκ ((Dict.single (t₁.key hκ) (lcs₁.map Coll.set)).items ++
    (Dict.single (t₂.key hκ) (lcs₂.map Coll.set)).items) with hm
  have hsets : ∀ {lcs : List (Finset α)} {F : Set (Finset α)}, (∀ N, N ∈ lcs ↔ IsAtom F N) →
      ∀ c ∈ lcs.map Coll.set, c.toSet.Nonempty := by
    intro lcs F h c hc
    obtain ⟨N, hN, rfl⟩ := List.mem_map.mp hc
    exact ((h N).mp hN).nonempty
  have hmd : NonemptySets m := NonemptySets.merged hκ _ _ (hsets h₁) (hsets h₂)
  have hmkeys : m.keys ≠ [] ∧ m.keys.length ≤ 2 ∧
      (Plan.leaf m.keys).key hκ = (Plan.merge t₁ t₂).key hκ := by
    by_cases hk : t₁.key hκ = t₂.key hκ
    · simp [hsame hk, Plan.key, hk]
    · have hlm := (hκ.arrange_perm [t₁.key hκ, t₂.key hκ]).length_eq
      obtain ⟨a, b, hab⟩ := List.length_eq_two.mp hlm
      have hkey : (Plan.merge t₁ t₂).key hκ = joinKeys [a, b] := by
        rw [Plan.key, if_neg hk, hab]
      rw [hdiff hk, hkey, hab]
      exact ⟨List.cons_ne_nil _ _, le_rfl, rfl⟩
  obtain ⟨hm0, hm2, hmk⟩ := hmkeys
  obtain ⟨m', lcs, hrun, -, hnd, hlcs⟩ := decmoposeParallel_leaf hα hκ n hm0 hm2 hmd
  exact ⟨m', lcs, hmk ▸ hrun, hnd, fun N => by rw [hlcs, all_families_merged hget h₁ h₂]⟩

theorem decmoposeParallel_spec (hα : Hashing α) (hκ : DictOrder Key) (n : ℕ)
    {d : Part2Prefix Key α} (hne : d.keys ≠ []) (hlen : d.keys.length ≤ n) (hd : NonemptySets d) :
    ∃ (d' : Part2Prefix Key α) (lcs : List (Finset α)), decmoposeParallel hα hκ n d =
        some (d', Dict.single ((Plan.ofNames hκ n d.keys).key hκ) (lcs.map Coll.set)) ∧
      DecomposedAlong (Plan.ofNames hκ n d.keys) d d' ∧ lcs.Nodup ∧
      ∀ N, N ∈ lcs ↔ IsAtom (setsOf d ((Plan.ofNames hκ n d.keys).kept hκ)) N := by
  induction n generalizing d with
  | zero => exact absurd (List.eq_nil_of_length_eq_zero (Nat.le_zero.mp hlen)) hne
  | succ n ih =>
    by_cases h2 : d.keys.length ≤ 2
    · obtain ⟨d', lcs, hrun, hdec, hnd, hlcs⟩ := decmoposeParallel_leaf hα hκ n hne h2 hd
      rw [Plan.ofNames, if_pos h2]
      refine ⟨d', lcs, hrun, hdec, hnd, fun N => ?_⟩
      rw [hlcs, Plan.kept, setsOf_eq_all fun _ h => h]
    · obtain ⟨hk₁, hne₁, hl₁⟩ := keys_halves hκ h2 (Or.inl rfl)
      obtain ⟨hk₂, hne₂, hl₂⟩ := keys_halves hκ h2 (Or.inr rfl)
      obtain ⟨d₁, lcs₁, hrun₁, href₁, -, hlcs₁⟩ := ih hne₁ (by omega) (hd.divide _)
      obtain ⟨d₂, lcs₂, hrun₂, href₂, -, hlcs₂⟩ := ih hne₂ (by omega) (hd.divide _)
      rw [hk₁] at hrun₁ href₁ hlcs₁
      rw [hk₂] at hrun₂ href₂ hlcs₂
      rw [setsOf_divide hκ d fun p hp => (hκ.mem_arrange _ p).mp (Plan.kept_subset n _ p hp)]
        at hlcs₁ hlcs₂
      obtain ⟨n', rfl⟩ : ∃ n', n = n' + 1 := ⟨n - 1, by omega⟩
      obtain ⟨m', lcs, hrun, hnd, hlcs⟩ := decmoposeParallel_merged hα hκ n' _ _ hlcs₁ hlcs₂
      rw [Plan.ofNames, if_neg h2]
      refine ⟨writeBack d d₁ d₂, lcs, ?_, ?_, hnd, fun N => ?_⟩
      · rw [decmoposeParallel_node hα hκ _ (by omega) (by omega), hrun₁, Option.bind_some, hrun₂, Option.bind_some,
          hrun, Option.map_some]
      · have hsub := everyOther_perm d.keys
        obtain ⟨-, -, hdisj⟩ := List.nodup_append.mp (hsub.nodup_iff.mpr d.nodup_keys)
        have hmates : ∀ js p, ∀ q ∈ (Plan.ofNames hκ (n' + 1) (hκ.arrange js)).mates p,
            q ∈ js ∧ p ∈ js := by
          intro js p q hq
          obtain ⟨h₁, h₂⟩ := Plan.mates_subset _ _ p q hq
          exact ⟨(hκ.mem_arrange _ q).mp h₁, (hκ.mem_arrange _ p).mp h₂⟩
        exact DecomposedAlong.writeBack
          (fun p hp => List.mem_append.mp (hsub.mem_iff.mpr hp))
          (fun p hp hp' => hdisj p hp p hp' rfl) (hmates _) (hmates _) href₁ href₂
      · rw [hlcs, Plan.kept]
        split_ifs with hk
        · exact isAtom_isAtom N
        · rw [setsOf_append]
          exact isAtom_union_isAtom N

theorem decmoposeParallel_keys (hα : Hashing α) (hκ : DictOrder Key) {n : ℕ}
    {d d' g : Part2Prefix Key α} (h : decmoposeParallel hα hκ n d = some (d', g)) :
    d'.keys = d.keys := by
  have hsimpler : ∀ {k : Key}, ((decomposeSimpler hα d).map fun r => (r.1, Dict.single k r.2)) =
      some (d', g) → d'.keys = d.keys := by
    intro k hk
    obtain ⟨⟨u, lcs⟩, hu, hr⟩ := Option.map_eq_some_iff.mp hk
    obtain rfl : u = d' := congrArg Prod.fst hr
    exact decomposeSimpler_keys hu
  cases n with
  | zero => cases h
  | succ n =>
    rw [decmoposeParallel] at h
    split at h
    · exact hsimpler h
    · exact hsimpler h
    · obtain ⟨r₁, -, h⟩ := Option.bind_eq_some_iff.mp h
      obtain ⟨r₂, -, h⟩ := Option.bind_eq_some_iff.mp h
      obtain ⟨r, -, h⟩ := Option.map_eq_some_iff.mp h
      obtain rfl : _ = d' := congrArg Prod.fst h
      exact Dict.keys_mapValues _ _

theorem decmoposeParallel_mono (hα : Hashing α) (hκ : DictOrder Key) {n m : ℕ} (hnm : n ≤ m)
    {d : Part2Prefix Key α} {r : Part2Prefix Key α × Part2Prefix Key α}
    (h : decmoposeParallel hα hκ n d = some r) : decmoposeParallel hα hκ m d = some r := by
  induction n generalizing m d r with
  | zero => cases h
  | succ n ih =>
    obtain ⟨m, rfl⟩ : ∃ m', m = m' + 1 := ⟨m - 1, by omega⟩
    rw [decmoposeParallel] at h ⊢
    split at h
    · exact h
    · exact h
    · obtain ⟨r₁, h₁, h⟩ := Option.bind_eq_some_iff.mp h
      obtain ⟨r₂, h₂, h⟩ := Option.bind_eq_some_iff.mp h
      obtain ⟨r₃, h₃, h⟩ := Option.map_eq_some_iff.mp h
      have hle : n ≤ m := by omega
      simp only [ih hle h₁, ih hle h₂, ih hle h₃, Option.bind_some, Option.map_some, h]

end Hispar.SetOperations
