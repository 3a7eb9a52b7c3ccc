import Hispar.SetOperations.Parallel

/-!
# The two passes of `lcsParallel`

The first pass computes the groups of all participants by divide and conquer.
The second visits the participants in turn and decomposes each with the groups,
both in place: a participant sees the groups as the earlier rounds left them. A
participant that carries the key of the groups as its own name is skipped, since
the groups replace its list in the dictionary of its round.
-/
namespace Hispar.SetOperations
open Library Library.Atoms Library.Splitting

variable {α : Type*} [DecidableEq α]

def recompose (hα : Hashing α) (hκ : DictOrder Key) (s : Part2Prefix Key α × Part2Prefix Key α)
    (part : Key) : Option (Part2Prefix Key α × Part2Prefix Key α) :=
  (s.1.get? part).bind fun l =>
    (decomposeSimpler hα (Dict.ofItems hκ ((part, l) :: s.2.items))).map fun r =>
      (if part ∈ s.2.keys then s.1 else (r.1.get? part).elim s.1 (s.1.set part),
        s.2.mapValues fun k v => (r.1.get? k).getD v)

/-- The mapping as the call leaves it, and the groups. -/
def lcsParallel (hα : Hashing α) (hκ : DictOrder Key) (fuel : ℕ) (part2pfx : Part2Prefix Key α) :
    Option (Part2Prefix Key α × List (Coll α)) :=
  (decmoposeParallel hα hκ fuel part2pfx).bind fun r =>
    (part2pfx.keys.foldlM (recompose hα hκ) r).bind fun s =>
      s.2.values.head?.map (s.1, ·)

theorem lcsParallel_mono (hα : Hashing α) (hκ : DictOrder Key) {n m : ℕ} (hnm : n ≤ m)
    {d : Part2Prefix Key α} {r : Part2Prefix Key α × List (Coll α)}
    (h : lcsParallel hα hκ n d = some r) : lcsParallel hα hκ m d = some r := by
  rw [lcsParallel] at h ⊢
  obtain ⟨s, hs, h⟩ := Option.bind_eq_some_iff.mp h
  rw [decmoposeParallel_mono hα hκ hnm hs]
  exact h

def prefixesOf {κ : Type*} [DecidableEq κ] (d : Part2Prefix κ α) (p : κ) : Finset α :=
  (d.get? p).elim ∅ prefixes

structure Decomposes {κ : Type*} [DecidableEq κ] (d m : Part2Prefix κ α) (lcs : List (Coll α)) :
    Prop where
  nonempty : ∀ c ∈ lcs, c.toSet.Nonempty
  disjoint : DisjointSets lcs
  cover : ∀ x, (∃ c ∈ lcs, x ∈ c) ↔ ∃ p, x ∈ prefixesOf d p
  together : ∀ p q, ∀ x ∈ prefixesOf d p, ∀ y ∈ prefixesOf d q,
    (∃ c ∈ lcs, x ∈ c ∧ y ∈ c) ↔ ∀ i, ∀ S ∈ families d i, x ∈ S ↔ y ∈ S
  participants : ∀ p ∈ d.keys, ∃ l, m.get? p = some l ∧
    ∀ N, N ∈ members l ↔ N ∈ members lcs ∧ N ⊆ prefixesOf d p

def pieces (t : Plan) (d : Part2Prefix Key α) (p : Key) : Set (Finset α) :=
  atomsIn (setsOf d (t.mates p)) (prefixesOf d p)

/-- What tells prefixes apart after the rounds of the listed participants. -/
def visible (hκ : DictOrder Key) (t : Plan) (d : Part2Prefix Key α) (done : List Key) :
    Set (Finset α) :=
  setsOf d (t.kept hκ) ∪ {N | ∃ q ∈ done, q ≠ t.key hκ ∧ N ∈ pieces t d q}

def seen (hκ : DictOrder Key) (t : Plan) (d : Part2Prefix Key α) (before : List Key) (p : Key) :
    Set (Finset α) :=
  if p = t.key hκ then setsOf d (t.mates p) else visible hκ t d (before ++ [p])

def planOf (hκ : DictOrder Key) (d : Part2Prefix Key α) : Plan :=
  Plan.ofNames hκ d.keys.length d.keys

def keptPrefixes (hκ : DictOrder Key) (t : Plan) (d : Part2Prefix Key α) : Finset α :=
  (t.kept hκ).toFinset.biUnion (prefixesOf d)

def SetsOnly (l : List (Coll α)) : Prop := ∀ c ∈ l, ∃ s, c = Coll.set s

def Covered (hκ : DictOrder Key) (t : Plan) (d : Part2Prefix Key α) : Prop :=
  ∀ p, ∀ x ∈ prefixesOf d p, ∃ q ∈ t.kept hκ, x ∈ prefixesOf d q

/-- A lost half, if there is one, made no difference: the kept participants have
every prefix, and what a participant gets to see separates its prefixes. -/
structure NothingLost (hκ : DictOrder Key) (d : Part2Prefix Key α) : Prop where
  covered : Covered hκ (planOf hκ d) d
  told : ∀ before p after, d.keys = before ++ p :: after → ∀ x ∈ prefixesOf d p, ∀ y,
    Same (seen hκ (planOf hκ d) d before p) x y → Same (families d).all x y

theorem prefixesOf_of_get? {κ : Type*} [DecidableEq κ] {d : Part2Prefix κ α} {p : κ}
    {l : List (Coll α)} (h : d.get? p = some l) : prefixesOf d p = prefixes l := by
  simp [prefixesOf, h]

theorem mem_prefixesOf {κ : Type*} [DecidableEq κ] {d : Part2Prefix κ α} {p : κ} {x : α} :
    x ∈ prefixesOf d p ↔ ∃ S ∈ families d p, x ∈ S := by
  cases h : d.get? p with
  | none => simp [prefixesOf, families, h]
  | some l => rw [prefixesOf_of_get? h, families_of_get? h, mem_prefixes_iff_members]

theorem mem_support_setsOf {κ : Type*} [DecidableEq κ] {d : Part2Prefix κ α} {ks : List κ} {x : α} :
    x ∈ support (setsOf d ks) ↔ ∃ p ∈ ks, x ∈ prefixesOf d p := by
  simp only [mem_prefixesOf]
  constructor
  · rintro ⟨S, ⟨p, hp, hS⟩, hx⟩
    exact ⟨p, hp, S, hS, hx⟩
  · rintro ⟨p, hp, S, hS, hx⟩
    exact ⟨S, ⟨p, hp, hS⟩, hx⟩

theorem mem_support_families {κ : Type*} [DecidableEq κ] {d : Part2Prefix κ α} {x : α} :
    x ∈ support (families d).all ↔ ∃ p, x ∈ prefixesOf d p := by
  simp only [mem_prefixesOf]
  constructor
  · rintro ⟨S, ⟨p, hS⟩, hx⟩
    exact ⟨p, S, hS, hx⟩
  · rintro ⟨p, S, hS, hx⟩
    exact ⟨S, ⟨p, hS⟩, hx⟩

theorem mem_keptPrefixes {hκ : DictOrder Key} {t : Plan} {d : Part2Prefix Key α} {x : α} :
    x ∈ keptPrefixes hκ t d ↔ ∃ q ∈ t.kept hκ, x ∈ prefixesOf d q := by
  simp only [keptPrefixes, Finset.mem_biUnion, List.mem_toFinset]

theorem mem_keys_of_mem_prefixesOf {κ : Type*} [DecidableEq κ] {d : Part2Prefix κ α} {p : κ} {x : α}
    (h : x ∈ prefixesOf d p) : p ∈ d.keys := by
  by_contra hp
  rw [prefixesOf, Dict.get?_eq_none.mpr hp] at h
  exact absurd h (Finset.notMem_empty x)

omit [DecidableEq α] in
theorem covers_of_subset {κ : Type*} [DecidableEq κ] [DecidableEq α] {d : Part2Prefix κ α}
    {G : Set (Finset α)} {p : κ} (h : ∀ S ∈ families d p, S ∈ G) : Covers G (prefixesOf d p) := by
  intro x hx
  obtain ⟨S, hS, hxS⟩ := mem_prefixesOf.mp hx
  exact ⟨S, h S hS, hxS, fun y hy => mem_prefixesOf.mpr ⟨S, hS, hy⟩⟩

theorem setsOf_subset_all {κ : Type*} [DecidableEq κ] {d : Part2Prefix κ α} (ks : List κ) :
    setsOf d ks ⊆ (families d).all := fun _ ⟨p, _, hS⟩ => ⟨p, hS⟩

theorem decomposeWith_spec (hα : Hashing α) (hκ : DictOrder Key) {K p : Key}
    {l v : List (Coll α)} (hne : ∀ c ∈ l, c.toSet.Nonempty) (hv : ∀ c ∈ v, c.toSet.Nonempty) :
    ∃ (tmp : Part2Prefix Key α) (x v' : List (Coll α)),
      decomposeSimpler hα (Dict.ofItems hκ ((p, l) :: (Dict.single K v).items)) = some (tmp, x) ∧
      tmp.get? K = some v' ∧ (DisjointSets v → DisjointSets v') ∧
      (∀ N, N ∈ members v' ↔
        N ∈ atomsIn ((if p = K then ∅ else ↑(members l)) ∪ ↑(members v)) (prefixes v)) ∧
      (p ≠ K → ∃ l', tmp.get? p = some l' ∧ (DisjointSets l → DisjointSets l') ∧
        ∀ N, N ∈ members l' ↔ N ∈ atomsIn (↑(members l) ∪ ↑(members v)) (prefixes l)) := by
  obtain ⟨-, -, hget⟩ := merged_spec hκ p K l v
  change ∀ k, (Dict.ofItems hκ ((p, l) :: (Dict.single K v).items)).get? k = _ at hget
  set tmp := Dict.ofItems hκ ((p, l) :: (Dict.single K v).items)
  have hK : tmp.get? K = some v := by rw [hget, if_pos rfl]
  have hall : (families tmp).all = (if p = K then ∅ else ↑(members l)) ∪ ↑(members v) := by
    ext N
    rw [mem_all_families]
    constructor
    · rintro ⟨q, e, he, hN⟩
      rw [hget] at he
      split_ifs at he with h₁ h₂
      · exact Or.inr (Option.some.inj he ▸ hN)
      · rw [if_neg fun h => h₁ (h₂.trans h)]
        exact Or.inl (Option.some.inj he ▸ hN)
    · rintro (hN | hN)
      · split_ifs at hN with h
        · exact absurd hN (Set.notMem_empty N)
        · exact ⟨p, l, by rw [hget, if_neg h, if_pos rfl], hN⟩
      · exact ⟨K, v, hK, hN⟩
  have hnonempty : NonemptySets tmp := by
    intro q e he
    rw [hget] at he
    split_ifs at he
    · exact Option.some.inj he ▸ hv
    · exact Option.some.inj he ▸ hne
  obtain ⟨d', lcs, hrun, hdec, -⟩ := decomposeSimpler_spec hα hnonempty
  obtain ⟨v', hv', hatoms⟩ := hdec.atoms K v hK
  have hdisj : ∀ {q e e'}, tmp.get? q = some e → d'.get? q = some e' → DisjointSets e →
      DisjointSets e' := by
    intro q e e' he he' hdisj
    obtain ⟨e₂, he₂, hdisj'⟩ := decomposeSimpler_disjointSets hα hrun he hdisj
    exact Option.some.inj (he₂.symm.trans he') ▸ hdisj'
  rw [hall] at hatoms
  refine ⟨d', _, v', hrun, hv', hdisj hK hv', hatoms, fun hp => ?_⟩
  have hp' : tmp.get? p = some l := by rw [hget, if_neg hp, if_pos rfl]
  obtain ⟨l', hl', hlatoms⟩ := hdec.atoms p l hp'
  rw [hall, if_neg hp] at hlatoms
  exact ⟨l', hl', hdisj hp' hl', hlatoms⟩

theorem decomposeWith_lists (hα : Hashing α) (hκ : DictOrder Key) {K p : Key}
    {l v x : List (Coll α)} {tmp : Part2Prefix Key α} (hrun : decomposeSimpler hα
      (Dict.ofItems hκ ((p, l) :: (Dict.single K v).items)) = some (tmp, x)) :
    (∀ v', tmp.get? K = some v' → SetsOnly v → SetsOnly v') ∧
      (p ≠ K → ∀ l', tmp.get? p = some l' →
        ∀ L, Coll.list L ∈ l' → 1 < L.length → ∀ x ∈ L, x ∉ prefixes v) := by
  obtain ⟨-, -, hget⟩ := merged_spec hκ p K l v
  change ∀ k, (Dict.ofItems hκ ((p, l) :: (Dict.single K v).items)).get? k = _ at hget
  set d := Dict.ofItems hκ ((p, l) :: (Dict.single K v).items)
  have hK : d.get? K = some v := by rw [hget, if_pos rfl]
  refine ⟨fun v' hv' hsets c hc => ?_, fun hp l' hl' L hL hlen x hx hxv => ?_⟩
  · have hkept := decomposeSimpler_lists hα hrun hK hv'
    cases c with
    | list L =>
      obtain ⟨s, hs⟩ := hsets _ (hkept.origin L hc)
      cases hs
    | set s => exact ⟨s, rfl⟩
  · have hl : d.get? p = some l := by rw [hget, if_neg hp, if_pos rfl]
    obtain ⟨N, hN, hxN⟩ := mem_prefixes_iff_members.mp hxv
    refine ((decomposeSimpler_lists hα hrun hl hl').apart L hL hlen x hx).2 K ?_ (Ne.symm hp) N ?_ hxN
    · exact Dict.mem_keys_iff.mpr ⟨v, hK⟩
    · exact mem_families.mpr ⟨v, hK, hN⟩

theorem recompose_spec (hα : Hashing α) (hκ : DictOrder Key) {m : Part2Prefix Key α} {K p : Key}
    {l v : List (Coll α)} (hl : m.get? p = some l) (hne : ∀ c ∈ l, c.toSet.Nonempty)
    (hv : ∀ c ∈ v, c.toSet.Nonempty) (hdisj : DisjointSets v) :
    ∃ (m' : Part2Prefix Key α) (v' : List (Coll α)),
      recompose hα hκ (m, Dict.single K v) p = some (m', Dict.single K v') ∧ m'.keys = m.keys ∧
      (∀ q, q ≠ p ∨ p = K → m'.get? q = m.get? q) ∧
      (p ≠ K → ∃ l', m'.get? p = some l' ∧
        (∀ N, N ∈ members l' ↔ N ∈ atomsIn (↑(members l) ∪ ↑(members v)) (prefixes l)) ∧
        ∀ L, Coll.list L ∈ l' → 1 < L.length → ∀ x ∈ L, x ∉ prefixes v) ∧
      DisjointSets v' ∧ (SetsOnly v → SetsOnly v') ∧ ∀ N, N ∈ members v' ↔
        N ∈ atomsIn ((if p = K then ∅ else ↑(members l)) ∪ ↑(members v)) (prefixes v) := by
  obtain ⟨tmp, x, v', hrun, hv', hdisj', hatoms, hlist⟩ :=
    decomposeWith_spec hα hκ (K := K) (p := p) hne hv
  obtain ⟨hsets, hlists⟩ := decomposeWith_lists hα hκ hrun
  have hround : recompose hα hκ (m, Dict.single K v) p =
      some (if p = K then m else (tmp.get? p).elim m (m.set p), Dict.single K v') := by
    have hmap : (Dict.single K v).mapValues (fun k v => (tmp.get? k).getD v) = Dict.single K v' := by
      simp only [Dict.single, Dict.mapValues, List.map_cons, List.map_nil, hv', Option.getD_some]
    simp only [recompose, hl, Option.bind_some, hrun, Option.map_some, hmap, Dict.keys_single,
      List.mem_singleton]
  by_cases hp : p = K
  · rw [if_pos hp] at hround
    exact ⟨m, v', hround, rfl, fun _ _ => rfl, fun h => absurd hp h, hdisj' hdisj, hsets v' hv',
      hatoms⟩
  · obtain ⟨l', hl', -, hlatoms⟩ := hlist hp
    rw [if_neg hp, hl', Option.elim_some] at hround
    refine ⟨m.set p l', v', hround, Dict.keys_set_of_mem (Dict.mem_keys_iff.mpr ⟨l, hl⟩) l',
      fun q hq => ?_, fun _ => ⟨l', Dict.get?_set_self m p l', hlatoms, hlists hp l' hl'⟩,
      hdisj' hdisj, hsets v' hv', hatoms⟩
    exact Dict.get?_set_of_ne m l' (hq.resolve_right hp)

structure Round (hκ : DictOrder Key) (t : Plan) (d : Part2Prefix Key α) (done : List Key)
    (m : Part2Prefix Key α) (v : List (Coll α)) : Prop where
  keys : m.keys = d.keys
  union : ∀ p ∈ d.keys, ∃ l, m.get? p = some l ∧ prefixes l = prefixesOf d p
  sets : SetsOnly v
  disjoint : DisjointSets v
  groups : ∀ N, N ∈ members v ↔ N ∈ atomsIn (visible hκ t d done) (keptPrefixes hκ t d)
  waiting : ∀ p ∈ d.keys, p ∉ done ∨ p = t.key hκ →
    ∃ l₀ l, d.get? p = some l₀ ∧ m.get? p = some l ∧ (∀ N, N ∈ members l ↔ N ∈ pieces t d p) ∧
      ListsKept (Alone d (t.mates p) p) l₀ l
  visited : ∀ before p after, done = before ++ p :: after → p ≠ t.key hκ →
    ∃ l, m.get? p = some l ∧ (∀ N, N ∈ members l ↔ N ∈ atomsIn
      (pieces t d p ∪ atomsIn (visible hκ t d before) (keptPrefixes hκ t d)) (prefixesOf d p)) ∧
      ∀ L, Coll.list L ∈ l → 1 < L.length → ∀ x ∈ L, x ∉ keptPrefixes hκ t d

theorem visible_append (hκ : DictOrder Key) (t : Plan) (d : Part2Prefix Key α) (done : List Key)
    (p : Key) : visible hκ t d (done ++ [p]) =
      visible hκ t d done ∪ if p = t.key hκ then ∅ else pieces t d p := by
  ext N
  simp only [visible, Set.mem_union, Set.mem_ofPred_eq, List.mem_append, List.mem_singleton]
  split_ifs with h
  · simp only [Set.mem_empty_iff_false, or_false]
    refine or_congr_right (exists_congr fun q => and_congr_left fun hq => or_iff_left ?_)
    rintro rfl
    exact hq.1 h
  · rw [or_assoc]
    refine or_congr_right ⟨?_, ?_⟩
    · rintro ⟨q, hq | rfl, hrest⟩
      · exact Or.inl ⟨q, hq, hrest⟩
      · exact Or.inr hrest.2
    · rintro (⟨q, hq, hrest⟩ | hN)
      · exact ⟨q, Or.inl hq, hrest⟩
      · exact ⟨p, Or.inr rfl, h, hN⟩

theorem prefixes_of_members {l : List (Coll α)} {G : Set (Finset α)} {U : Finset α}
    (hG : Covers G U) (h : ∀ N, N ∈ members l ↔ N ∈ atomsIn G U) : prefixes l = U := by
  ext x
  rw [mem_prefixes_iff_members, ← Finset.mem_coe (s := U), ← hG.support_atomsIn]
  exact exists_congr fun N => and_congr_left fun _ => h N

variable {hκ : DictOrder Key} {d : Part2Prefix Key α}

theorem covers_pieces (hκ : DictOrder Key) {p : Key} (hp : p ∈ d.keys) :
    Covers (setsOf d ((planOf hκ d).mates p)) (prefixesOf d p) :=
  covers_of_subset fun _ hS => ⟨p, Plan.mem_mates_self hp, hS⟩

theorem support_visible_subset {done : List Key} {x : α}
    (hx : x ∈ support (visible hκ (planOf hκ d) d done)) : ∃ p, x ∈ prefixesOf d p := by
  rw [visible, support_union] at hx
  rcases hx with hx | ⟨N, ⟨q, hq, -, hN⟩, hx⟩
  · obtain ⟨p, -, hp⟩ := mem_support_setsOf.mp hx
    exact ⟨p, hp⟩
  · exact ⟨q, hN.2 hx⟩

theorem covers_visible (done : List Key) :
    Covers (visible hκ (planOf hκ d) d done) (keptPrefixes hκ (planOf hκ d) d) := by
  intro x hx
  obtain ⟨q, hq, hxq⟩ := mem_keptPrefixes.mp hx
  obtain ⟨S, hS, hxS⟩ := mem_prefixesOf.mp hxq
  refine ⟨S, Or.inl ⟨q, hq, hS⟩, hxS, fun y hy => mem_keptPrefixes.mpr ⟨q, hq, ?_⟩⟩
  exact mem_prefixesOf.mpr ⟨S, hS, hy⟩

theorem Round.start {d' : Part2Prefix Key α} {lcs : List (Finset α)}
    (halong : DecomposedAlong (planOf hκ d) d d') (hnd : lcs.Nodup)
    (hlcs : ∀ N, N ∈ lcs ↔ IsAtom (setsOf d ((planOf hκ d).kept hκ)) N) :
    Round hκ (planOf hκ d) d [] d' (lcs.map Coll.set) := by
  have hpieces : ∀ p ∈ d.keys, ∃ l₀ l, d.get? p = some l₀ ∧ d'.get? p = some l ∧
      (∀ N, N ∈ members l ↔ N ∈ pieces (planOf hκ d) d p) ∧
        ListsKept (Alone d ((planOf hκ d).mates p) p) l₀ l := by
    intro p hp
    obtain ⟨l, hl⟩ := Dict.mem_keys_iff.mp hp
    obtain ⟨l', hl', hatoms, hlists⟩ := halong.atoms p l hl
    rw [← prefixesOf_of_get? hl] at hatoms
    exact ⟨l, l', hl, hl', hatoms, hlists⟩
  refine ⟨halong.keys, fun p hp => ?_, fun c hc => ?_, ?_, fun N => ?_, fun p hp _ => hpieces p hp,
    fun before p after h => absurd h.symm (by simp)⟩
  · obtain ⟨-, l, -, hl, hatoms, -⟩ := hpieces p hp
    exact ⟨l, hl, prefixes_of_members (covers_pieces hκ hp) hatoms⟩
  · obtain ⟨N, -, rfl⟩ := List.mem_map.mp hc
    exact ⟨N, rfl⟩
  · refine List.pairwise_map.mpr (hnd.imp_of_mem fun ha hb hne => ?_)
    exact ((hlcs _).mp ha).disjoint ((hlcs _).mp hb) hne
  · rw [members_map_set, List.mem_toFinset, hlcs, visible]
    simp only [List.not_mem_nil, false_and, exists_false, Set.ofPred_false, Set.union_empty]
    refine ⟨fun hN => ⟨hN, fun x hx => ?_⟩, And.left⟩
    exact mem_keptPrefixes.mpr (mem_support_setsOf.mp (hN.mem_support hx))

namespace Round
variable {done : List Key} {m : Part2Prefix Key α} {v : List (Coll α)}
  (h : Round hκ (planOf hκ d) d done m v)
include h

theorem nonempty : ∀ c ∈ v, c.toSet.Nonempty := fun c hc =>
  ((h.groups _).mp (mem_members.mpr ⟨c, hc, rfl⟩)).1.nonempty

theorem prefixes_eq : prefixes v = keptPrefixes hκ (planOf hκ d) d :=
  prefixes_of_members (covers_visible done) h.groups

theorem support (x : α) : x ∈ prefixes v ↔ ∃ q ∈ (planOf hκ d).kept hκ, x ∈ prefixesOf d q := by
  rw [h.prefixes_eq, mem_keptPrefixes]

end Round

theorem Round.step (hα : Hashing α) {done : List Key} {m : Part2Prefix Key α}
    {v : List (Coll α)} (h : Round hκ (planOf hκ d) d done m v) {p : Key} (hp : p ∈ d.keys)
    (hnew : p ∉ done) :
    ∃ (m' : Part2Prefix Key α) (v' : List (Coll α)),
      recompose hα hκ (m, Dict.single ((planOf hκ d).key hκ) v) p =
        some (m', Dict.single ((planOf hκ d).key hκ) v') ∧
      Round hκ (planOf hκ d) d (done ++ [p]) m' v' := by
  set t := planOf hκ d with ht
  obtain ⟨l₀, l, hl₀, hl, hpieces, -⟩ := h.waiting p hp (Or.inl hnew)
  have hU : prefixes l = prefixesOf d p := prefixes_of_members (covers_pieces hκ hp) hpieces
  have hne : ∀ c ∈ l, c.toSet.Nonempty := fun c hc =>
    ((hpieces _).mp (mem_members.mpr ⟨c, hc, rfl⟩)).1.nonempty
  obtain ⟨m', v', hrun, hkeys, hother, hlist, hdisj, hsets, hgroups⟩ :=
    recompose_spec hα hκ hl hne h.nonempty h.disjoint
  have hmem : (↑(members l) : Set (Finset α)) = pieces t d p := Set.ext fun N => hpieces N
  have hv : (↑(members v) : Set (Finset α)) =
      atomsIn (visible hκ t d done) (keptPrefixes hκ t d) := Set.ext fun N => h.groups N
  rw [hmem, hv, h.prefixes_eq] at hlist hgroups
  refine ⟨m', v', hrun, hkeys.trans h.keys, fun q hq => ?_, hsets h.sets, hdisj, fun N => ?_,
    fun q hq hw => ?_, fun before q after hd hq => ?_⟩
  · by_cases hqp : q = p ∧ p ≠ t.key hκ
    · obtain ⟨rfl, hK⟩ := hqp
      obtain ⟨l', hl', hatoms, -⟩ := hlist hK
      rw [← hmem] at hatoms
      exact ⟨l', hl', (prefixes_eq_of_atoms (fun T hT => Or.inl hT) hatoms).trans hU⟩
    · rw [hother q (by tauto)]
      exact h.union q hq
  · rw [hgroups, atomsIn_union_atomsIn (covers_visible done), visible_append, Set.union_comm]
  · have hqp : q ≠ p ∨ p = t.key hκ := by
      by_cases e : q = p
      · exact Or.inr (e ▸ hw.resolve_left fun hw =>
          hw (List.mem_append_right _ (List.mem_singleton.mpr e)))
      · exact Or.inl e
    rw [hother q hqp]
    exact h.waiting q hq (hw.imp_left fun hw hd => hw (List.mem_append_left _ hd))
  · rcases List.eq_nil_or_concat after with rfl | ⟨after', a, rfl⟩
    · obtain ⟨rfl, rfl⟩ : done = before ∧ p = q := by
        simpa using List.append_inj' hd rfl
      obtain ⟨l', hl', hatoms, hlists⟩ := hlist hq
      exact ⟨l', hl', hU ▸ hatoms, hlists⟩
    · obtain ⟨hdone', -⟩ : done = before ++ q :: after' ∧ p = a := by
        rw [List.concat_eq_append, ← List.cons_append, ← List.append_assoc] at hd
        simpa using List.append_inj' hd rfl
      have hqp : q ≠ p := by
        rintro rfl
        exact hnew (hdone' ▸ List.mem_append_right _ List.mem_cons_self)
      rw [hother q (Or.inl hqp)]
      exact h.visited before q after' hdone' hq

theorem Round.run (hα : Hashing α) {m : Part2Prefix Key α} {v : List (Coll α)}
    (h : Round hκ (planOf hκ d) d [] m v) :
    ∃ (m' : Part2Prefix Key α) (v' : List (Coll α)),
      d.keys.foldlM (recompose hα hκ) (m, Dict.single ((planOf hκ d).key hκ) v) =
        some (m', Dict.single ((planOf hκ d).key hκ) v') ∧ Round hκ (planOf hκ d) d d.keys m' v' := by
  obtain ⟨-, hrun, m', v', rfl, h'⟩ := Runs.foldlM_visited
    (Q := fun done s => ∃ (m : Part2Prefix Key α) (v : List (Coll α)),
      s = (m, Dict.single ((planOf hκ d).key hκ) v) ∧ Round hκ (planOf hκ d) d done m v)
    (f := recompose hα hκ) (l := d.keys) (fun done p rest s hkeys ⟨m, v, hs, h⟩ => by
      have hnew : p ∉ done := fun hp =>
        (List.nodup_append.mp (hkeys ▸ d.nodup_keys)).2.2 p hp p List.mem_cons_self rfl
      obtain ⟨m₁, v₁, hrun, h₁⟩ := h.step hα
        (hkeys ▸ List.mem_append_right _ List.mem_cons_self) hnew
      exact ⟨_, hs ▸ hrun, m₁, v₁, rfl, h₁⟩) ⟨m, v, rfl, h⟩
  exact ⟨m', v', hrun, h'⟩

theorem lcsParallel_run (hα : Hashing α) (hκ : DictOrder Key) {d : Part2Prefix Key α}
    (hne : d.keys ≠ []) (hd : NonemptySets d) :
    ∃ (m : Part2Prefix Key α) (lcs : List (Coll α)),
      (∀ n ≥ d.keys.length, lcsParallel hα hκ n d = some (m, lcs)) ∧
      Round hκ (planOf hκ d) d d.keys m lcs := by
  obtain ⟨d', lcs₀, hrun, halong, hnd, hlcs⟩ := decmoposeParallel_spec hα hκ _ hne le_rfl hd
  obtain ⟨m, v, hrounds, hround⟩ := (Round.start halong hnd hlcs).run hα
  refine ⟨m, v, fun n hn => ?_, hround⟩
  have hn := decmoposeParallel_mono hα hκ hn hrun
  rw [lcsParallel, hn, Option.bind_some]
  exact (congrArg (Option.bind · _) hrounds).trans rfl

theorem lcsParallel_round {hα : Hashing α} {hκ : DictOrder Key} {n : ℕ} {d m : Part2Prefix Key α}
    {lcs : List (Coll α)} (hne : d.keys ≠ []) (hd : NonemptySets d)
    (h : lcsParallel hα hκ n d = some (m, lcs)) : Round hκ (planOf hκ d) d d.keys m lcs := by
  obtain ⟨m', lcs', hrun, hround⟩ := lcsParallel_run hα hκ hne hd
  have hmax := lcsParallel_mono hα hκ (le_max_left n d.keys.length) h
  rw [hrun _ (le_max_right n d.keys.length), Option.some.injEq, Prod.mk.injEq] at hmax
  obtain ⟨rfl, rfl⟩ := hmax
  exact hround

theorem pieces_saturated {p : Key} {N : Finset α} (hN : N ∈ pieces (planOf hκ d) d p) :
    Saturated (families d).all (N : Set α) := by
  intro x y hxy hx
  exact (hN.1.mem_iff hx y).mpr (hxy.mono (setsOf_subset_all _))

theorem same_visible_of_same {done : List Key} {x y : α} (h : Same (families d).all x y) :
    Same (visible hκ (planOf hκ d) d done) x y := by
  rintro N (hN | ⟨q, -, -, hN⟩)
  · exact h N (setsOf_subset_all _ hN)
  · exact ⟨pieces_saturated hN x y h, pieces_saturated hN y x h.symm⟩

theorem covers_seen (hκ : DictOrder Key) {p : Key} (hp : p ∈ d.keys) (before : List Key) :
    Covers (seen hκ (planOf hκ d) d before p) (prefixesOf d p) := by
  rw [seen]
  split_ifs with hK
  · exact covers_pieces hκ hp
  · intro x hx
    obtain ⟨N, hN, hxN⟩ := (covers_pieces hκ hp).exists_mem_atomsIn hx
    exact ⟨N, Or.inr ⟨p, List.mem_append_right _ (List.mem_singleton_self p), hK, hN⟩, hxN, hN.2⟩

theorem same_seen_of_same {before : List Key} {p : Key} {x y : α}
    (h : Same (families d).all x y) : Same (seen hκ (planOf hκ d) d before p) x y := by
  rw [seen]
  split_ifs
  · exact h.mono (setsOf_subset_all _)
  · exact same_visible_of_same h

theorem same_visited {before : List Key} {p : Key} (hK : p ≠ (planOf hκ d).key hκ) {x y : α}
    (hx : x ∈ keptPrefixes hκ (planOf hκ d) d) :
    Same (pieces (planOf hκ d) d p ∪
        atomsIn (visible hκ (planOf hκ d) d before) (keptPrefixes hκ (planOf hκ d) d)) x y ↔
      Same (seen hκ (planOf hκ d) d before p) x y := by
  rw [seen, if_neg hK, visible_append, if_neg hK, same_union, same_union, and_comm,
    (covers_visible before).same_atomsIn hx]

theorem Round.piece {m : Part2Prefix Key α} {v : List (Coll α)}
    (h : Round hκ (planOf hκ d) d d.keys m v) {before : List Key} {p : Key} {after : List Key}
    (hd : d.keys = before ++ p :: after) {l : List (Coll α)} (hl : m.get? p = some l) {x : α}
    (hx : x ∈ keptPrefixes hκ (planOf hκ d) d) {N : Finset α} (hN : N ∈ members l) (hxN : x ∈ N)
    (z : α) :
    z ∈ N ↔ Same (seen hκ (planOf hκ d) d before p) x z := by
  by_cases hK : p = (planOf hκ d).key hκ
  · obtain ⟨-, l', -, hl', hpieces, -⟩ :=
      h.waiting p (hd ▸ List.mem_append_right _ List.mem_cons_self) (Or.inr hK)
    obtain rfl : l = l' := Option.some.inj (hl.symm.trans hl')
    rw [seen, if_pos hK]
    exact ((hpieces N).mp hN).1.mem_iff hxN z
  · obtain ⟨l', hl', hatoms, -⟩ := h.visited before p after hd hK
    obtain rfl : l = l' := Option.some.inj (hl.symm.trans hl')
    rw [← same_visited hK hx]
    exact ((hatoms N).mp hN).1.mem_iff hxN z

theorem Round.list {m : Part2Prefix Key α} {v : List (Coll α)}
    (h : Round hκ (planOf hκ d) d d.keys m v) (hc : Covered hκ (planOf hκ d) d) {before : List Key}
    {p : Key} {after : List Key} (hd : d.keys = before ++ p :: after) :
    ∃ l, m.get? p = some l ∧
      ∀ N, N ∈ members l ↔ N ∈ atomsIn (seen hκ (planOf hκ d) d before p) (prefixesOf d p) := by
  have hp : p ∈ d.keys := hd ▸ List.mem_append_right _ List.mem_cons_self
  by_cases hK : p = (planOf hκ d).key hκ
  · obtain ⟨-, l, -, hl, hpieces, -⟩ := h.waiting p hp (Or.inr hK)
    rw [seen, if_pos hK]
    exact ⟨l, hl, hpieces⟩
  · obtain ⟨l, hl, hatoms, -⟩ := h.visited before p after hd hK
    refine ⟨l, hl, fun N => (hatoms N).trans (atomsIn_congr ?_ (covers_seen hκ hp before)
      (fun x hx y => same_visited hK (mem_keptPrefixes.mpr (hc p x hx))) N)⟩
    intro x hx
    obtain ⟨P, hP, hxP⟩ := (covers_pieces hκ hp).exists_mem_atomsIn hx
    exact ⟨P, Or.inl hP, hxP, hP.2⟩

theorem NothingLost.same_of_visible (h : NothingLost hκ d) {p : Key} {x y : α}
    (hx : x ∈ prefixesOf d p) (hxy : Same (visible hκ (planOf hκ d) d d.keys) x y) :
    Same (families d).all x y := by
  have hvisited : ∀ {q}, x ∈ prefixesOf d q → q ≠ (planOf hκ d).key hκ →
      Same (families d).all x y := by
    intro q hq hK
    obtain ⟨before, after, hd⟩ := List.append_of_mem (mem_keys_of_mem_prefixesOf hq)
    refine h.told before q after hd x hq y ?_
    rw [seen, if_neg hK]
    refine hxy.mono (Set.union_subset_union_right _ ?_)
    rintro N ⟨j, hj, hrest⟩
    refine ⟨j, hd ▸ ?_, hrest⟩
    rcases List.mem_append.mp hj with hj | hj
    · exact List.mem_append_left _ hj
    · exact List.mem_append_right _ (List.mem_singleton.mp hj ▸ List.mem_cons_self)
  obtain ⟨q, hq, hxq⟩ := h.covered p x hx
  by_cases hK : q = (planOf hκ d).key hκ
  · -- the groups replace the list of q, which is a kept one: its leaf went into them
    obtain ⟨before, after, hd⟩ := List.append_of_mem (mem_keys_of_mem_prefixesOf hxq)
    refine h.told before q after hd x hxq y ?_
    rw [seen, if_pos hK]
    refine hxy.mono fun S hS => Or.inl ?_
    obtain ⟨j, hj, hS⟩ := hS
    exact ⟨j, Plan.mates_subset_kept d.nodup_keys hq j hj, hS⟩
  · exact hvisited hxq hK

theorem Round.decomposes {m : Part2Prefix Key α} {lcs : List (Coll α)}
    (h : Round hκ (planOf hκ d) d d.keys m lcs) (hl : NothingLost hκ d) :
    Decomposes d m lcs := by
  have hvisible : ∀ N, N ∈ members lcs ↔ IsAtom (visible hκ (planOf hκ d) d d.keys) N := by
    intro N
    refine (h.groups N).trans ⟨And.left, fun hN => ⟨hN, fun x hx => ?_⟩⟩
    obtain ⟨p, hp⟩ := support_visible_subset (hN.mem_support hx)
    exact mem_keptPrefixes.mpr (hl.covered p x hp)
  have hatom : ∀ N, N ∈ members lcs ↔ IsAtom (families d).all N := by
    intro N
    rw [hvisible]
    refine isAtom_congr ?_ (fun x hx y => ?_) N
    · ext x
      constructor
      · exact fun hx => mem_support_families.mpr (support_visible_subset hx)
      · intro hx
        obtain ⟨p, hp⟩ := mem_support_families.mp hx
        rw [visible, support_union]
        exact Or.inl (mem_support_setsOf.mpr (hl.covered p x hp))
    · obtain ⟨p, hp⟩ := mem_support_families.mp hx
      exact ⟨hl.same_of_visible hp, same_visible_of_same⟩
  refine ⟨h.nonempty, h.disjoint, fun x => ?_, fun p q x hx y hy => ?_, fun p hp => ?_⟩
  · rw [← mem_support_families, ← support_isAtom, ← mem_prefixes, mem_prefixes_iff_members]
    exact exists_congr fun N => and_congr_left fun _ => hatom N
  · constructor
    · rintro ⟨c, hc, hxc, hyc⟩ i S hS
      have hN := (hatom _).mp (mem_members.mpr ⟨c, hc, rfl⟩)
      exact (hN.mem_iff hxc y).mp hyc S ⟨i, hS⟩
    · intro hsame
      obtain ⟨N, hN, hxN⟩ := exists_isAtom (mem_support_families.mpr ⟨p, hx⟩)
      obtain ⟨c, hc, rfl⟩ := mem_members.mp ((hatom N).mpr hN)
      exact ⟨c, hc, hxN, (hN.mem_iff hxN y).mpr fun S ⟨i, hS⟩ => hsame i S hS⟩
  · obtain ⟨before, after, hd⟩ := List.append_of_mem hp
    obtain ⟨l, hl', hlist⟩ := h.list hl.covered hd
    refine ⟨l, hl', fun N => ?_⟩
    rw [hlist, hatom]
    exact atomsIn_congr (covers_seen hκ hp before)
      (covers_of_subset fun S hS => (⟨p, hS⟩ : S ∈ (families d).all))
      (fun x hx y => ⟨hl.told before p after hd x hx y, same_seen_of_same⟩) N

theorem Round.nothingLost {m : Part2Prefix Key α} {lcs : List (Coll α)}
    (h : Round hκ (planOf hκ d) d d.keys m lcs) (hdec : Decomposes d m lcs) : NothingLost hκ d := by
  have hcov : Covered hκ (planOf hκ d) d := fun p x hx =>
    (h.support x).mp (mem_prefixes.mpr ((hdec.cover x).mpr ⟨p, hx⟩))
  refine ⟨hcov, fun before p after hd x hx y hxy => ?_⟩
  have hp : p ∈ d.keys := hd ▸ List.mem_append_right _ List.mem_cons_self
  obtain ⟨l, hl, hlist⟩ := h.list hcov hd
  obtain ⟨l', hl', hmem⟩ := hdec.participants p hp
  obtain rfl : l = l' := Option.some.inj (hl.symm.trans hl')
  -- the piece of the participant around x is a group, and y lies in it
  obtain ⟨N, hN, hxN⟩ := (covers_seen hκ hp before).exists_mem_atomsIn hx
  have hyN : y ∈ N := (hN.1.mem_iff hxN y).mpr hxy
  obtain ⟨hNlcs, hNU⟩ := (hmem N).mp ((hlist N).mpr hN)
  obtain ⟨c, hc, rfl⟩ := mem_members.mp hNlcs
  rintro S ⟨i, hS⟩
  exact (hdec.together p p x hx y (hNU hyN)).mp ⟨c, hc, hxN, hyN⟩ i S hS

theorem Decomposes.mem_members_iff {κ : Type*} [DecidableEq κ] {d m : Part2Prefix κ α}
    {lcs : List (Coll α)} (h : Decomposes d m lcs) (N : Finset α) :
    N ∈ members lcs ↔ IsAtom (families d).all N := by
  have hatom : ∀ c ∈ lcs, IsAtom (families d).all c.toSet := by
    intro c hc
    obtain ⟨x, hx⟩ := h.nonempty c hc
    obtain ⟨p, hp⟩ := (h.cover x).mp ⟨c, hc, hx⟩
    refine ⟨x, mem_support_families.mpr ⟨p, hp⟩, fun y => ⟨fun hy => ?_, fun hxy => ?_⟩⟩
    · obtain ⟨q, hq⟩ := (h.cover y).mp ⟨c, hc, hy⟩
      rintro S ⟨i, hS⟩
      exact (h.together p q x hp y hq).mp ⟨c, hc, hx, hy⟩ i S hS
    · obtain ⟨q, hq⟩ := mem_support_families.mp
        (hxy.mem_support (mem_support_families.mpr ⟨p, hp⟩))
      obtain ⟨e, he, hxe, hye⟩ := (h.together p q x hp y hq).mpr fun i S hS => hxy S ⟨i, hS⟩
      by_cases hce : c = e
      · exact hce ▸ hye
      · exact absurd hxe (Finset.disjoint_left.mp (h.disjoint.disjoint_of_ne hc he hce) hx)
  constructor
  · intro hN
    obtain ⟨c, hc, rfl⟩ := mem_members.mp hN
    exact hatom c hc
  · intro hN
    obtain ⟨x, hx⟩ := hN.nonempty
    obtain ⟨c, hc, hxc⟩ := (h.cover x).mpr (mem_support_families.mp (hN.mem_support hx))
    exact mem_members.mpr ⟨c, hc, (hatom c hc).eq_of_mem hN hxc hx⟩

/-- The call returns on every mapping, and what it returns is the decomposition
of the sets before the call exactly when the merges lost nothing that matters. -/
theorem lcsParallel_decomposes_iff (hα : Hashing α) (hκ : DictOrder Key) {d : Part2Prefix Key α}
    (hne : d.keys ≠ []) (hd : NonemptySets d) :
    ∃ (m : Part2Prefix Key α) (lcs : List (Coll α)),
      (∀ n ≥ d.keys.length, lcsParallel hα hκ n d = some (m, lcs)) ∧
      (Decomposes d m lcs ↔ NothingLost hκ d) := by
  obtain ⟨m, lcs, hrun, hround⟩ := lcsParallel_run hα hκ hne hd
  exact ⟨m, lcs, hrun, hround.nothingLost, hround.decomposes⟩

def equalKeys : Part2Prefix Key ℕ where
  items := [(.int 16, [.list [0]]), (.int 1, [.list [1]]), (.int 3, [.list [0]]),
    (.int 63, [.list [1]])]
  nodup := by decide

theorem lcsParallel_decomposes_iff_equalKeys : ∃ (m : Part2Prefix Key ℕ) (lcs : List (Coll ℕ)),
    (∀ n ≥ 4, lcsParallel .ascending .insertion n equalKeys = some (m, lcs)) ∧
    (Decomposes equalKeys m lcs ↔ NothingLost .insertion equalKeys) :=
  lcsParallel_decomposes_iff .ascending .insertion (d := equalKeys) (by decide)
    (nonemptySets_iff.mpr (by decide))

theorem lcsParallel_equalKeys_lost : ∃ m : Part2Prefix Key ℕ,
    lcsParallel .ascending .insertion 4 equalKeys = some (m, [.set {1}]) ∧
    ¬ Decomposes equalKeys m [.set {1}] := by
  have hrun : (lcsParallel .ascending .insertion 4 equalKeys).map Prod.snd = some [.set {1}] := by
    decide
  obtain ⟨⟨m, lcs⟩, hr, rfl⟩ := Option.map_eq_some_iff.mp hrun
  refine ⟨m, hr, fun h => ?_⟩
  have hcover := (h.cover 0).mpr ⟨.int 16, by decide⟩
  exact absurd hcover (by decide)

end Hispar.SetOperations
