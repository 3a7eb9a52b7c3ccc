import Hispar.SetOperations.Names

/-!
# Recomputation after a change of some sets

`lcsRecompute` refines the old groups by the changed sets, under the reserved
key `old`, and splits the old lists of the changed participants again along the
refined groups, under the reserved key `new`. The list of groups is edited in
place through the entry `old` as long as no participant of that name has taken
its place. The sets of frozen sets are listed in an order of the runtime.
-/
namespace Hispar.SetOperations
open Library Library.Atoms Library.Splitting

variable {α : Type*} [DecidableEq α]

def getPset (plist : List (Coll α)) : Finset (Finset α) := members plist

def getLCS (hα : Hashing α) (hF : Hashing (Finset α)) (part2pfx : Part2Prefix Key α) :
    List (Coll α) :=
  (hF.enum (getPset (part2pfx.items.flatMap Prod.snd))).map fun elem => .list (hα.enum elem)

def oldKey : Key := .str "old"
def newKey : Key := .str "new"

def changedSets (hα : Hashing α) (hF : Hashing (Finset α)) (p2pOld p2pNew : Part2Prefix Key α) :
    Option (List (Key × List (Coll α))) :=
  (p2pNew.items.mapM fun kv => (p2pOld.get? kv.1).map fun old =>
    (kv.1, (getPset kv.2 ∪ getPset old) \ getPset old)).map fun psets =>
      (psets.filter fun kv => kv.2.card ≠ 0).map fun kv =>
        (kv.1, (hF.enum kv.2).map fun elem => .list (hα.enum elem))

structure Recompute (α : Type*) where
  updated : Part2Prefix Key α
  lcs : List (Coll α)
  /-- The entry `old` is still the list of groups. -/
  shared : Bool

def recomputeRound (hα : Hashing α) (hκ : DictOrder Key) (affected : List Key)
    (part2pfxUpdated : Part2Prefix Key α) (s : Recompute α) (participant : Key) :
    Option (Recompute α) :=
  (part2pfxUpdated.get? participant).bind fun l =>
    if participant ∈ affected then
      (s.updated.get? oldKey).bind fun cur =>
        (decomposeSimpler hα (Dict.ofItems hκ [(newKey, cur), (participant, l)])).bind fun r =>
          (r.1.get? participant).map fun l' =>
            let cur' := if participant = newKey then cur else (r.1.get? newKey).getD cur
            { updated := (s.updated.set oldKey cur').set participant l'
              lcs := if s.shared then cur' else s.lcs
              shared := s.shared && participant ≠ oldKey }
    else some { s with
      updated := s.updated.set participant l
      shared := s.shared && participant ≠ oldKey }

def lcsRecompute (hα : Hashing α) (hF : Hashing (Finset α)) (hκ : DictOrder Key)
    (p2pOld p2pNew part2pfxUpdated : Part2Prefix Key α) (lcsOld : List (Coll α)) :
    Option (Part2Prefix Key α × List (Coll α)) :=
  let lcsOld := if lcsOld.length = 0 then getLCS hα hF part2pfxUpdated else lcsOld
  (changedSets hα hF p2pOld p2pNew).bind fun changed =>
    (decomposeSimpler hα (Dict.ofItems hκ ((oldKey, lcsOld) :: changed))).bind fun r =>
      (r.1.get? oldKey).bind fun lcs =>
        (part2pfxUpdated.keys.foldlM
          (recomputeRound hα hκ (changed.map Prod.fst) part2pfxUpdated) ⟨r.1, lcs, true⟩).bind
            fun s => (s.updated.get? oldKey).map fun _ => (s.updated.erase oldKey, s.lcs)

/-- The result is a decomposition of the new sets: groups that cover them and of
which they are unions, and for every participant the groups inside its new sets. -/
structure Valid (new m : Part2Prefix Key α) (lcs : List (Coll α)) : Prop where
  nonempty : ∀ c ∈ lcs, c.toSet.Nonempty
  disjoint : DisjointSets lcs
  cover : ∀ p, ∀ x ∈ prefixesOf new p, ∃ c ∈ lcs, x ∈ c
  unions : ∀ p, ∀ S ∈ families new p, ∀ x ∈ S, ∃ c ∈ lcs, x ∈ c ∧ c.toSet ⊆ S
  participants : ∀ p ∈ new.keys, ∃ l, m.get? p = some l ∧
    ∀ N, N ∈ members l ↔ N ∈ members lcs ∧ N ⊆ prefixesOf new p

/-- The changes the incremental path can follow: nobody gains or loses a prefix,
and no changed set separates prefixes inside a participant that is not split again. -/
structure Recomputable (old new : Part2Prefix Key α) : Prop where
  reserved : oldKey ∉ new.keys
  same : ∀ p, prefixesOf new p = prefixesOf old p
  unsplit : ∀ p, (∀ S ∈ families new p, S ∈ families old p) ∨ p = newKey →
    ∀ q, ∀ S ∈ families new q, S ∉ families old q → ∀ x ∈ prefixesOf old p, ∀ y,
      Same (families old).all x y → (x ∈ S ↔ y ∈ S)

def changes (old new : Part2Prefix Key α) : Set (Finset α) :=
  {S | ∃ p, S ∈ families new p ∧ S ∉ families old p}

theorem members_list_enum (hα : Hashing α) (hF : Hashing (Finset α)) (P : Finset (Finset α)) :
    members ((hF.enum P).map fun elem => Coll.list (hα.enum elem)) = P := by
  ext N
  rw [mem_members]
  constructor
  · rintro ⟨c, hc, rfl⟩
    obtain ⟨S, hS, rfl⟩ := List.mem_map.mp hc
    rw [Coll.toSet, hα.toFinset_enum]
    exact (hF.mem_enum P S).mp hS
  · exact fun hN => ⟨_, List.mem_map.mpr ⟨N, (hF.mem_enum P N).mpr hN, rfl⟩, hα.toFinset_enum N⟩

theorem changedSets_spec (hα : Hashing α) (hF : Hashing (Finset α)) {old new : Part2Prefix Key α}
    (hkeys : ∀ p, p ∈ new.keys ↔ p ∈ old.keys) :
    ∃ changed, changedSets hα hF old new = some changed ∧ (changed.map Prod.fst).Nodup ∧
      (∀ p, p ∈ changed.map Prod.fst ↔ ∃ S ∈ families new p, S ∉ families old p) ∧
      ∀ p l, (p, l) ∈ changed → ∀ S, S ∈ members l ↔ S ∈ families new p ∧ S ∉ families old p := by
  have hmap : (new.items.mapM fun kv => (old.get? kv.1).map fun o =>
      (kv.1, (getPset kv.2 ∪ getPset o) \ getPset o)) =
      some (new.items.map fun kv => (kv.1, families new kv.1 \ families old kv.1)) := by
    refine Runs.mapM_eq_map fun kv hkv => ?_
    have hn : new.get? kv.1 = some kv.2 := Dict.get?_eq_some.mpr hkv
    obtain ⟨o, ho⟩ := Dict.mem_keys_iff.mp ((hkeys kv.1).mp (Dict.mem_keys_iff.mpr ⟨_, hn⟩))
    rw [ho, Option.map_some, families_of_get? hn, families_of_get? ho, getPset, getPset,
      Finset.union_sdiff_right]
  refine ⟨_, by rw [changedSets, hmap, Option.map_some], ?_, fun p => ?_, fun p l hpl S => ?_⟩
  · rw [List.map_map]
    refine List.Nodup.sublist ((List.filter_sublist).map Prod.fst) ?_
    rw [List.map_map]
    exact new.nodup
  · simp only [List.map_map, List.mem_map, List.mem_filter, Function.comp_apply,
      decide_eq_true_eq, Prod.exists, Prod.mk.injEq]
    constructor
    · rintro ⟨q, P, ⟨⟨q', l, hl, rfl, rfl⟩, hcard⟩, rfl⟩
      obtain ⟨S, hS⟩ := Finset.card_ne_zero.mp hcard
      exact ⟨S, Finset.mem_sdiff.mp hS⟩
    · rintro ⟨S, hS, hS'⟩
      obtain ⟨l, hl, -⟩ := mem_families.mp hS
      exact ⟨p, _, ⟨⟨p, l, Dict.get?_eq_some.mp hl, rfl, rfl⟩,
        Finset.card_ne_zero.mpr ⟨S, Finset.mem_sdiff.mpr ⟨hS, hS'⟩⟩⟩, rfl⟩
  · obtain ⟨⟨q, P⟩, hq, he⟩ := List.mem_map.mp hpl
    obtain ⟨hq, -⟩ := List.mem_filter.mp hq
    obtain ⟨kv, -, hkv⟩ := List.mem_map.mp hq
    simp only [Prod.mk.injEq] at he hkv
    obtain ⟨rfl, rfl⟩ := he
    obtain ⟨rfl, rfl⟩ := hkv
    rw [members_list_enum, Finset.mem_sdiff]

def refining (old new : Part2Prefix Key α) : Set (Finset α) :=
  {N | IsAtom (families old).all N} ∪ changes old new

variable {old new m : Part2Prefix Key α} {lcs : List (Coll α)}

theorem same_of_same_refining {x y : α} (h : Same (refining old new) x y) :
    Same (families old).all x y := same_isAtom.mp (same_union.mp h).1

theorem covers_old (old : Part2Prefix Key α) (p : Key) :
    Covers (families old).all (prefixesOf old p) :=
  covers_of_subset fun S hS => (⟨p, hS⟩ : S ∈ (families old).all)

theorem covers_refining (old new : Part2Prefix Key α) (p : Key) :
    Covers (refining old new) (prefixesOf old p) := by
  intro x hx
  obtain ⟨N, hN, hxN⟩ := (covers_old old p).exists_mem_atomsIn hx
  exact ⟨N, Or.inl hN.1, hxN, hN.2⟩

namespace Decomposes
variable (hdec : Decomposes old m lcs)
include hdec

theorem mem_prefixes_lcs {x : α} : x ∈ prefixes lcs ↔ ∃ p, x ∈ prefixesOf old p := by
  rw [mem_prefixes, hdec.cover]

theorem prefixesOf_subset (p : Key) : prefixesOf old p ⊆ prefixes lcs :=
  fun _ hx => hdec.mem_prefixes_lcs.mpr ⟨p, hx⟩

theorem covers_groups : Covers (refining old new) (prefixes lcs) := by
  intro x hx
  obtain ⟨p, hp⟩ := hdec.mem_prefixes_lcs.mp hx
  obtain ⟨N, hN, hxN, hNU⟩ := covers_refining old new p x hp
  exact ⟨N, hN, hxN, hNU.trans (hdec.prefixesOf_subset p)⟩

theorem list_of_mem {p : Key} (hp : p ∈ old.keys) : ∃ l, m.get? p = some l ∧
    ∀ N, N ∈ members l ↔ N ∈ atomsIn (families old).all (prefixesOf old p) := by
  obtain ⟨l, hl, h⟩ := hdec.participants p hp
  exact ⟨l, hl, fun N => by rw [h, hdec.mem_members_iff]; rfl⟩

theorem atomsIn_refined {V : Finset α} {p : Key} (hVU : V ⊆ prefixes lcs)
    (hV : Covers (atomsIn (refining old new) (prefixes lcs) ∪
      atomsIn (families old).all (prefixesOf old p)) V) (hV' : Covers (refining old new) V)
    (N : Finset α) : N ∈ atomsIn (atomsIn (refining old new) (prefixes lcs) ∪
      atomsIn (families old).all (prefixesOf old p)) V ↔ N ∈ atomsIn (refining old new) V := by
  refine atomsIn_congr hV hV' (fun x hx y => ?_) N
  rw [same_union, hdec.covers_groups.same_atomsIn (hVU hx), and_iff_left_iff_imp]
  exact fun hxy T hT => hxy T (Or.inl hT.1)

theorem lcsOld_eq (hα : Hashing α) (hF : Hashing (Finset α)) (hm : m.keys = old.keys) :
    (if lcs.length = 0 then getLCS hα hF m else lcs) = lcs := by
  split_ifs with hlen
  · have hnil := List.eq_nil_of_length_eq_zero hlen
    have hempty : getPset (m.items.flatMap Prod.snd) = ∅ := by
      refine Finset.eq_empty_of_forall_notMem fun S hS => ?_
      obtain ⟨c, hc, rfl⟩ := mem_members.mp hS
      obtain ⟨⟨p, l⟩, hpl, hc⟩ := List.mem_flatMap.mp hc
      have hl := Dict.get?_eq_some.mpr hpl
      obtain ⟨l', hl', h⟩ := hdec.participants p (hm ▸ Dict.mem_keys_iff.mpr ⟨l, hl⟩)
      obtain rfl : l = l' := Option.some.inj (hl.symm.trans hl')
      have hc := ((h _).mp (mem_members.mpr ⟨c, hc, rfl⟩)).1
      rw [hnil] at hc
      exact absurd hc (by simp [members])
    have henum : hF.enum ∅ = [] := List.eq_nil_iff_forall_not_mem.mpr fun S hS =>
      Finset.notMem_empty S ((hF.mem_enum ∅ S).mp hS)
    rw [getLCS, hempty, henum, hnil, List.map_nil]
  · rfl

end Decomposes

theorem refine_spec (hα : Hashing α) (hκ : DictOrder Key) (hdec : Decomposes old m lcs)
    (hnew : NonemptySets new) {changed : List (Key × List (Coll α))}
    (hnd : (changed.map Prod.fst).Nodup) (hold : oldKey ∉ changed.map Prod.fst)
    (hmem : ∀ p, p ∈ changed.map Prod.fst ↔ ∃ S ∈ families new p, S ∉ families old p)
    (hchanged : ∀ p l, (p, l) ∈ changed → ∀ S, S ∈ members l ↔ S ∈ families new p ∧
      S ∉ families old p) :
    ∃ (r : Part2Prefix Key α) (x L : List (Coll α)),
      decomposeSimpler hα (Dict.ofItems hκ ((oldKey, lcs) :: changed)) = some (r, x) ∧
      r.get? oldKey = some L ∧ DisjointSets L ∧
      ∀ N, N ∈ members L ↔ N ∈ atomsIn (refining old new) (prefixes lcs) := by
  set start := Dict.ofItems hκ ((oldKey, lcs) :: changed) with hstart
  have hget : ∀ p, start.get? p = ((⟨changed, hnd⟩ : Part2Prefix Key α).get? p).or
      (if oldKey = p then some lcs else none) := by
    intro p
    rw [hstart, Dict.get?_ofItems, ← List.singleton_append, Dict.lastValue_append,
      Dict.lastValue_items ⟨changed, hnd⟩, ← Dict.get?_single oldKey p lcs, ← Dict.lastValue_items]
    rfl
  have hlcs : start.get? oldKey = some lcs := by
    rw [hget, Dict.get?_eq_none.mpr hold, if_pos rfl, Option.none_or]
  have hother : ∀ p l, start.get? p = some l → (p = oldKey ∧ l = lcs) ∨ (p, l) ∈ changed := by
    intro p l hl
    rw [hget, Option.or_eq_some_iff] at hl
    rcases hl with hl | ⟨-, hl⟩
    · exact Or.inr (Dict.get?_eq_some.mp hl)
    · rw [Option.ite_none_right_eq_some] at hl
      exact Or.inl ⟨hl.1.symm, (Option.some.inj hl.2).symm⟩
  have hall : (families start).all = refining old new := by
    ext N
    rw [mem_all_families]
    constructor
    · rintro ⟨p, l, hl, hN⟩
      rcases hother p l hl with ⟨-, rfl⟩ | hl
      · exact Or.inl ((hdec.mem_members_iff N).mp hN)
      · exact Or.inr ⟨p, (hchanged p l hl N).mp hN⟩
    · rintro (hN | ⟨p, hN⟩)
      · exact ⟨oldKey, lcs, hlcs, (hdec.mem_members_iff N).mpr hN⟩
      · obtain ⟨⟨p, l⟩, hpl, rfl⟩ := List.mem_map.mp ((hmem p).mpr ⟨N, hN⟩)
        refine ⟨p, l, ?_, (hchanged p l hpl N).mpr hN⟩
        rw [hget, Dict.get?_eq_some.mpr hpl, Option.some_or]
  have hne : NonemptySets start := by
    intro p l hl c hc
    rcases hother p l hl with ⟨-, rfl⟩ | hl
    · exact hdec.nonempty c hc
    · exact hnew.families p _ ((hchanged p l hl _).mp (mem_members.mpr ⟨c, hc, rfl⟩)).1
  obtain ⟨r, x, hrun, hd, -⟩ := decomposeSimpler_spec hα hne
  obtain ⟨L, hL, hatoms⟩ := hd.atoms oldKey lcs hlcs
  obtain ⟨L', hL', hdisj⟩ := decomposeSimpler_disjointSets hα hrun hlcs hdec.disjoint
  obtain rfl : L = L' := Option.some.inj (hL.symm.trans hL')
  exact ⟨r, _, L, hrun, hL, hdisj, fun N => hall ▸ hatoms N⟩

def roundFamily (old new : Part2Prefix Key α) (affected : List Key) (p : Key) : Set (Finset α) :=
  if p ∈ affected ∧ p ≠ newKey then refining old new else (families old).all

structure Recomputed (old new : Part2Prefix Key α) (lcs : List (Coll α)) (affected done : List Key)
    (s : Recompute α) : Prop where
  entry : s.updated.get? oldKey = some s.lcs
  shared : s.shared = true
  disjoint : DisjointSets s.lcs
  groups : ∀ N, N ∈ members s.lcs ↔ N ∈ atomsIn (refining old new) (prefixes lcs)
  lists : ∀ p ∈ done, ∃ l, s.updated.get? p = some l ∧
    ∀ N, N ∈ members l ↔ N ∈ atomsIn (roundFamily old new affected p) (prefixesOf old p)

section step
variable {affected done : List Key} {s : Recompute α} {p : Key} {l : List (Coll α)}

theorem Recomputed.lists_set (h : Recomputed old new lcs affected done s) {u : Part2Prefix Key α}
    (hu : ∀ q, q ≠ p → q ∈ done → u.get? q = s.updated.get? q)
    (hl : ∀ N, N ∈ members l ↔ N ∈ atomsIn (roundFamily old new affected p) (prefixesOf old p)) :
    ∀ q ∈ done ++ [p], ∃ l', (u.set p l).get? q = some l' ∧
      ∀ N, N ∈ members l' ↔ N ∈ atomsIn (roundFamily old new affected q) (prefixesOf old q) := by
  intro q hq
  by_cases hqp : q = p
  · subst hqp
    exact ⟨l, Dict.get?_set_self _ _ _, hl⟩
  · have hqd : q ∈ done := (List.mem_append.mp hq).resolve_right fun h =>
      hqp (List.mem_singleton.mp h)
    rw [Dict.get?_set_of_ne _ _ hqp, hu q hqp hqd]
    exact h.lists q hqd

theorem Recomputed.step_unaffected (hα : Hashing α) (hκ : DictOrder Key)
    (h : Recomputed old new lcs affected done s) (hl : m.get? p = some l) (hp' : p ≠ oldKey)
    (hatoms : ∀ N, N ∈ members l ↔ N ∈ atomsIn (families old).all (prefixesOf old p))
    (haff : p ∉ affected) : ∃ s', recomputeRound hα hκ affected m s p = some s' ∧
      Recomputed old new lcs affected (done ++ [p]) s' := by
  refine ⟨⟨s.updated.set p l, s.lcs, true⟩, ?_, ?_, rfl, h.disjoint, h.groups,
    h.lists_set (fun _ _ _ => rfl) fun N => ?_⟩
  · simp only [recomputeRound, hl, Option.bind_some, if_neg haff, h.shared,
      decide_eq_true hp', Bool.and_self]
  · rw [Dict.get?_set_of_ne _ _ hp'.symm, h.entry]
  · rw [hatoms, roundFamily, if_neg fun h => haff h.1]

theorem Recomputed.step_affected (hα : Hashing α) (hκ : DictOrder Key)
    (hdec : Decomposes old m lcs) (h : Recomputed old new lcs affected done s)
    (hl : m.get? p = some l) (hp' : p ≠ oldKey)
    (hatoms : ∀ N, N ∈ members l ↔ N ∈ atomsIn (families old).all (prefixesOf old p))
    (hdone : oldKey ∉ done) (haff : p ∈ affected) :
    ∃ s', recomputeRound hα hκ affected m s p = some s' ∧
      Recomputed old new lcs affected (done ++ [p]) s' := by
  have hpre : prefixes l = prefixesOf old p := prefixes_of_members (covers_old old p) hatoms
  have hpreL : prefixes s.lcs = prefixes lcs := prefixes_of_members hdec.covers_groups h.groups
  have hcurne : ∀ c ∈ s.lcs, c.toSet.Nonempty := fun c hc =>
    ((h.groups _).mp (mem_members.mpr ⟨c, hc, rfl⟩)).1.nonempty
  have hlne : ∀ c ∈ l, c.toSet.Nonempty := fun c hc =>
    ((hatoms _).mp (mem_members.mpr ⟨c, hc, rfl⟩)).1.nonempty
  obtain ⟨tmp, x, v', hrun, hv', -, hvatoms, hlist⟩ :=
    decomposeWith_spec hα hκ (K := p) (p := newKey) hcurne hlne
  have hcur : (↑(members s.lcs) : Set (Finset α)) =
      atomsIn (refining old new) (prefixes lcs) := Set.ext h.groups
  have hmem : (↑(members l) : Set (Finset α)) =
      atomsIn (families old).all (prefixesOf old p) := Set.ext hatoms
  rw [hcur, hmem, hpre] at hvatoms
  rw [hcur, hmem, hpreL] at hlist
  have hround : recomputeRound hα hκ affected m s p = some
      ⟨(s.updated.set oldKey (if p = newKey then s.lcs else (tmp.get? newKey).getD s.lcs)).set p v',
        if p = newKey then s.lcs else (tmp.get? newKey).getD s.lcs, true⟩ := by
    have htmp : Dict.ofItems hκ [(newKey, s.lcs), (p, l)] =
      Dict.ofItems hκ ((newKey, s.lcs) :: (Dict.single p l).items) := rfl
    simp only [recomputeRound, hl, Option.bind_some, if_pos haff, h.entry, htmp, hrun, hv',
      Option.map_some, h.shared, if_true, decide_eq_true hp', Bool.and_self]
  refine ⟨_, hround, ?_⟩
  have hentry : ∀ cur : List (Coll α),
      ((s.updated.set oldKey cur).set p v').get? oldKey = some cur := fun cur => by
    rw [Dict.get?_set_of_ne _ _ hp'.symm, Dict.get?_set_self]
  have hframe : ∀ cur : List (Coll α), ∀ q, q ≠ p → q ∈ done →
      (s.updated.set oldKey cur).get? q = s.updated.get? q := fun cur q _ hq =>
    Dict.get?_set_of_ne _ _ fun e => hdone (e ▸ hq)
  by_cases hnew : p = newKey
  · -- the participant's list takes the place of the groups under the key `new`
    simp only [if_pos hnew]
    rw [if_pos hnew.symm, Set.empty_union] at hvatoms
    refine ⟨hentry _, rfl, h.disjoint, h.groups, h.lists_set (hframe _) fun N => ?_⟩
    rw [hvatoms, roundFamily, if_neg fun h => h.2 hnew]
    refine atomsIn_congr (fun y hy => ?_) (covers_old old p) (fun y hy z => ?_) N
    · obtain ⟨T, hT, hyT⟩ := (covers_old old p).exists_mem_atomsIn hy
      exact ⟨T, hT, hyT, hT.2⟩
    · exact (covers_old old p).same_atomsIn hy
  · obtain ⟨L, hL, hdisj, hLatoms⟩ := hlist (Ne.symm hnew)
    simp only [if_neg hnew, hL, Option.getD_some]
    rw [if_neg (Ne.symm hnew)] at hvatoms
    refine ⟨hentry _, rfl, hdisj h.disjoint, fun N => ?_, h.lists_set (hframe _) fun N => ?_⟩
    · rw [hLatoms]
      refine hdec.atomsIn_refined subset_rfl (fun y hy => ?_) hdec.covers_groups N
      have hcov : Covers (refining old new) (prefixes lcs) := hdec.covers_groups
      obtain ⟨T, hT, hyT⟩ := hcov.exists_mem_atomsIn hy
      exact ⟨T, Or.inl hT, hyT, hT.2⟩
    · rw [hvatoms, roundFamily, if_pos ⟨haff, hnew⟩]
      refine hdec.atomsIn_refined (hdec.prefixesOf_subset p) (fun y hy => ?_)
        (covers_refining old new p) N
      obtain ⟨T, hT, hyT⟩ := (covers_old old p).exists_mem_atomsIn hy
      exact ⟨T, Or.inr hT, hyT, hT.2⟩

theorem Recomputed.step (hα : Hashing α) (hκ : DictOrder Key) (hdec : Decomposes old m lcs)
    (h : Recomputed old new lcs affected done s) (hp : p ∈ old.keys) (hp' : p ≠ oldKey)
    (hdone : oldKey ∉ done) : ∃ s', recomputeRound hα hκ affected m s p = some s' ∧
      Recomputed old new lcs affected (done ++ [p]) s' := by
  obtain ⟨l, hl, hatoms⟩ := hdec.list_of_mem hp
  by_cases haff : p ∈ affected
  · exact h.step_affected hα hκ hdec hl hp' hatoms hdone haff
  · exact h.step_unaffected hα hκ hl hp' hatoms haff

end step

theorem lcsRecompute_run (hα : Hashing α) (hF : Hashing (Finset α)) (hκ : DictOrder Key)
    (hkeys : ∀ p, p ∈ new.keys ↔ p ∈ old.keys) (hm : m.keys = old.keys)
    (hdec : Decomposes old m lcs) (hnew : NonemptySets new) (hold : oldKey ∉ new.keys) :
    ∃ (affected : List Key) (s : Recompute α),
      (∀ p, p ∈ affected ↔ ∃ S ∈ families new p, S ∉ families old p) ∧
      lcsRecompute hα hF hκ old new m lcs = some (s.updated.erase oldKey, s.lcs) ∧
      Recomputed old new lcs affected old.keys s := by
  obtain ⟨changed, hchanged, hnd, hmem, hsets⟩ := changedSets_spec hα hF hkeys
  have hold' : oldKey ∉ changed.map Prod.fst := by
    intro h
    obtain ⟨S, hS, -⟩ := (hmem oldKey).mp h
    obtain ⟨l, hl, -⟩ := mem_families.mp hS
    exact hold (Dict.mem_keys_iff.mpr ⟨l, hl⟩)
  obtain ⟨r, x, L, hrun, hL, hdisj, hLatoms⟩ := refine_spec hα hκ hdec hnew hnd hold' hmem hsets
  have hstart : Recomputed old new lcs (changed.map Prod.fst) [] ⟨r, L, true⟩ :=
    ⟨hL, rfl, hdisj, hLatoms, fun p hp => absurd hp List.not_mem_nil⟩
  have holdk : oldKey ∉ old.keys := fun h => hold ((hkeys _).mpr h)
  obtain ⟨s, hs, hspec⟩ := Runs.foldlM_visited
    (Q := fun done s => Recomputed old new lcs (changed.map Prod.fst) done s)
    (f := recomputeRound hα hκ (changed.map Prod.fst) m) (l := old.keys)
    (fun done p rest s hd h => by
      have hp : p ∈ old.keys := hd ▸ List.mem_append_right _ List.mem_cons_self
      exact h.step hα hκ hdec hp (fun e => holdk (e ▸ hp))
        fun h => holdk (hd ▸ List.mem_append_left _ h)) hstart
  refine ⟨changed.map Prod.fst, s, hmem, ?_, hspec⟩
  have hs' := hm.symm ▸ hs
  simp only [lcsRecompute, hdec.lcsOld_eq hα hF hm, hchanged, Option.bind_some, hrun, hL, hs',
    hspec.entry, Option.map_some]

theorem covers_roundFamily (old new : Part2Prefix Key α) (affected : List Key) (p : Key) :
    Covers (roundFamily old new affected p) (prefixesOf old p) := by
  rw [roundFamily]
  split_ifs
  · exact covers_refining old new p
  · exact covers_old old p

theorem same_roundFamily_of_same (affected : List Key) {p : Key} {x y : α}
    (h : Same (refining old new) x y) : Same (roundFamily old new affected p) x y := by
  rw [roundFamily]
  split_ifs
  · exact h
  · exact same_of_same_refining h

variable {affected : List Key} {s : Recompute α}

theorem Recomputed.get?_erase (h : Recomputed old new lcs affected old.keys s) {p : Key}
    (hp : p ∈ old.keys) (hp' : p ≠ oldKey) : ∃ l, (s.updated.erase oldKey).get? p = some l ∧
      ∀ N, N ∈ members l ↔ N ∈ atomsIn (roundFamily old new affected p) (prefixesOf old p) := by
  rw [Dict.get?_erase, if_neg hp']
  exact h.lists p hp

theorem Recomputed.valid (h : Recomputed old new lcs affected old.keys s)
    (hkeys : ∀ p, p ∈ new.keys ↔ p ∈ old.keys) (hdec : Decomposes old m lcs)
    (haff : ∀ p, p ∈ affected ↔ ∃ S ∈ families new p, S ∉ families old p)
    (hok : Recomputable old new) : Valid new (s.updated.erase oldKey) s.lcs := by
  have hcov : Covers (refining old new) (prefixes lcs) := hdec.covers_groups
  have hgroup : ∀ p, ∀ x ∈ prefixesOf new p,
      ∃ c ∈ s.lcs, x ∈ c ∧ IsAtom (refining old new) c.toSet := by
    intro p x hx
    have hxU := hdec.prefixesOf_subset p (hok.same p ▸ hx)
    obtain ⟨N, hN, hxN⟩ := hcov.exists_mem_atomsIn hxU
    obtain ⟨c, hc, rfl⟩ := mem_members.mp ((h.groups N).mpr hN)
    exact ⟨c, hc, hxN, hN.1⟩
  refine ⟨fun c hc => ?_, h.disjoint, fun p x hx => ?_, fun p S hS x hx => ?_, fun p hp => ?_⟩
  · exact ((h.groups _).mp (mem_members.mpr ⟨c, hc, rfl⟩)).1.nonempty
  · obtain ⟨c, hc, hxc, -⟩ := hgroup p x hx
    exact ⟨c, hc, hxc⟩
  · obtain ⟨c, hc, hxc, hatom⟩ := hgroup p x (mem_prefixesOf.mpr ⟨S, hS, hx⟩)
    refine ⟨c, hc, hxc, fun y hy => ?_⟩
    have hxy := (hatom.mem_iff hxc y).mp hy
    by_cases hold : S ∈ families old p
    · exact (same_of_same_refining hxy S ⟨p, hold⟩).mp hx
    · exact (hxy S (Or.inr ⟨p, hS, hold⟩)).mp hx
  · obtain ⟨l, hl, hatoms⟩ := h.get?_erase ((hkeys p).mp hp) fun e => hok.reserved (e ▸ hp)
    refine ⟨l, hl, fun N => ?_⟩
    rw [hatoms, hok.same p, h.groups]
    have hsame : N ∈ atomsIn (roundFamily old new affected p) (prefixesOf old p) ↔
        N ∈ atomsIn (refining old new) (prefixesOf old p) := by
      refine atomsIn_congr (covers_roundFamily old new affected p) (covers_refining old new p)
        (fun x hx y => ⟨fun hxy => ?_, same_roundFamily_of_same affected⟩) N
      rw [roundFamily] at hxy
      split_ifs at hxy with hround
      · exact hxy
      · -- the participant is not split again: no changed set separates its prefixes
        have hkept : (∀ S ∈ families new p, S ∈ families old p) ∨ p = newKey := by
          rw [haff, not_and_or, not_not] at hround
          refine hround.imp_left fun h S hS => ?_
          by_contra hS'
          exact h ⟨S, hS, hS'⟩
        refine same_union.mpr ⟨same_isAtom.mpr hxy, ?_⟩
        rintro S ⟨q, hS, hS'⟩
        exact hok.unsplit p hkept q S hS hS' x hx y hxy
    rw [hsame, atomsIn, atomsIn, Set.mem_ofPred_eq, Set.mem_ofPred_eq]
    exact ⟨fun hN => ⟨⟨hN.1, hN.2.trans (hdec.prefixesOf_subset p)⟩, hN.2⟩,
      fun hN => ⟨hN.1.1, hN.2⟩⟩

theorem Recomputed.recomputable (h : Recomputed old new lcs affected old.keys s)
    (hkeys : ∀ p, p ∈ new.keys ↔ p ∈ old.keys) (hold : oldKey ∉ new.keys)
    (haff : ∀ p, p ∈ affected ↔ ∃ S ∈ families new p, S ∉ families old p)
    (hv : Valid new (s.updated.erase oldKey) s.lcs) : Recomputable old new := by
  -- the list of a participant holds the groups inside its new sets
  have hlist : ∀ {p}, p ∈ old.keys → ∀ N,
      N ∈ atomsIn (roundFamily old new affected p) (prefixesOf old p) ↔
        N ∈ members s.lcs ∧ N ⊆ prefixesOf new p := by
    intro p hp N
    obtain ⟨l, hl, hatoms⟩ := h.get?_erase hp fun e => hold ((hkeys _).mpr (e ▸ hp))
    obtain ⟨l', hl', hmem⟩ := hv.participants p ((hkeys p).mpr hp)
    obtain rfl : l = l' := Option.some.inj (hl.symm.trans hl')
    rw [← hatoms, hmem]
  refine ⟨hold, fun p => Finset.Subset.antisymm (fun x hx => ?_) fun x hx => ?_,
    fun p hp q S hS hS' x hx y hxy => ?_⟩
  · obtain ⟨S, hS, hxS⟩ := mem_prefixesOf.mp hx
    obtain ⟨c, hc, hxc, hcS⟩ := hv.unions p S hS x hxS
    have hp := (hkeys p).mp (mem_keys_of_mem_prefixesOf hx)
    have hcN := (hlist hp c.toSet).mpr ⟨mem_members.mpr ⟨c, hc, rfl⟩,
      fun y hy => mem_prefixesOf.mpr ⟨S, hS, hcS hy⟩⟩
    exact hcN.2 hxc
  · obtain ⟨N, hN, hxN⟩ := (covers_roundFamily old new affected p).exists_mem_atomsIn hx
    exact ((hlist (mem_keys_of_mem_prefixesOf hx) N).mp hN).2 hxN
  · obtain ⟨N, hN, hxN⟩ := (covers_roundFamily old new affected p).exists_mem_atomsIn hx
    have hround : ¬ (p ∈ affected ∧ p ≠ newKey) := by
      rintro ⟨ha, hne⟩
      obtain ⟨T, hT, hT'⟩ := (haff p).mp ha
      exact hp.elim (fun h => hT' (h T hT)) hne
    have hyN : y ∈ N := by
      refine (hN.1.mem_iff hxN y).mpr ?_
      rwa [roundFamily, if_neg hround]
    have hgroup := (h.groups N).mp ((hlist (mem_keys_of_mem_prefixesOf hx) N).mp hN).1
    exact (hgroup.1.mem_iff hxN y).mp hyN S (Or.inr ⟨q, hS, hS'⟩)

/-- From what `lcsParallel` returned for the old mapping, the incremental path
returns a valid decomposition of the new one exactly on changes it can follow. -/
theorem lcsRecompute_valid_iff (hα : Hashing α) (hF : Hashing (Finset α)) (hκ : DictOrder Key)
    (hkeys : ∀ p, p ∈ new.keys ↔ p ∈ old.keys) (hne : old.keys ≠ []) (hn : NoCollision old.keys)
    (hold : NonemptySets old) (hnew : NonemptySets new) {n : ℕ}
    (hrun : lcsParallel hα hκ n old = some (m, lcs)) :
    (∃ (m' : Part2Prefix Key α) (lcs' : List (Coll α)),
      lcsRecompute hα hF hκ old new m lcs = some (m', lcs') ∧ Valid new m' lcs') ↔
    Recomputable old new := by
  have hround := lcsParallel_round hne hold hrun
  have hdec := hround.decomposes (nothingLost_of_noCollision hn)
  have hspec := lcsRecompute_run hα hF hκ hkeys hround.keys hdec hnew
  constructor
  · rintro ⟨m', lcs', h, hv⟩
    have hreserved : oldKey ∉ new.keys := by
      intro hk
      obtain ⟨l, hl, -⟩ := hv.participants oldKey hk
      simp only [lcsRecompute, Option.bind_eq_some_iff, Option.map_eq_some_iff, Prod.mk.injEq] at h
      obtain ⟨_, _, _, _, _, _, _, _, _, _, rfl, _⟩ := h
      rw [Dict.get?_erase, if_pos rfl] at hl
      cases hl
    obtain ⟨affected, s, haff, h', hrec⟩ := hspec hreserved
    obtain ⟨rfl, rfl⟩ := Prod.mk.injEq .. ▸ Option.some.inj (h'.symm.trans h)
    exact hrec.recomputable hkeys hreserved haff hv
  · intro hok
    obtain ⟨affected, s, haff, h', hrec⟩ := hspec hok.reserved
    exact ⟨_, _, h', hrec.valid hkeys hdec haff hok⟩

def beforeChange : Part2Prefix Key ℕ where
  items := [(.str "A", [.list [0, 1]]), (.str "B", [.list [0, 1]])]
  nodup := by decide

def afterChange : Part2Prefix Key ℕ where
  items := [(.str "A", [.list [0], .list [0, 1]]), (.str "B", [.list [0, 1]])]
  nodup := by decide

theorem lcsRecompute_valid_iff_afterChange : ∃ (m : Part2Prefix Key ℕ) (lcs : List (Coll ℕ)),
    lcsParallel .ascending .insertion 2 beforeChange = some (m, lcs) ∧
    ((∃ (m' : Part2Prefix Key ℕ) (lcs' : List (Coll ℕ)),
      lcsRecompute .ascending .subsets .insertion beforeChange afterChange m lcs = some (m', lcs') ∧
      Valid afterChange m' lcs') ↔ Recomputable beforeChange afterChange) := by
  obtain ⟨⟨m, lcs⟩, hrun⟩ := Option.isSome_iff_exists.mp
    (by decide : (lcsParallel .ascending .insertion 2 beforeChange).isSome = true)
  refine ⟨m, lcs, hrun, lcsRecompute_valid_iff .ascending .subsets .insertion (fun _ => Iff.rfl)
    (by decide) (noCollision_of_length (L := 1) (by decide) fun k hk => ?_)
    (nonemptySets_iff.mpr (by decide)) (nonemptySets_iff.mpr (by decide)) hrun⟩
  have hk : k ∈ [Key.str "A", .str "B"] := hk
  fin_cases hk
  · exact ⟨"A", rfl, rfl⟩
  · exact ⟨"B", rfl, rfl⟩

theorem lcsRecompute_afterChange_unsplit :
    ∃ (m m' : Part2Prefix Key ℕ) (lcs lcs' : List (Coll ℕ)),
      lcsParallel .ascending .insertion 2 beforeChange = some (m, lcs) ∧
      lcsRecompute .ascending .subsets .insertion beforeChange afterChange m lcs = some (m', lcs') ∧
      lcs' = [.set {0}, .set {1}] ∧ m'.get? (.str "B") = some [.set {0, 1}] ∧
      ¬ Valid afterChange m' lcs' := by
  have hrun : ((lcsParallel .ascending .insertion 2 beforeChange).bind fun r =>
      (lcsRecompute .ascending .subsets .insertion beforeChange afterChange r.1 r.2).map fun r =>
        (r.2, r.1.get? (.str "B"))) = some ([.set {0}, .set {1}], some [.set {0, 1}]) := by
    decide
  obtain ⟨⟨m, lcs⟩, hr, hrun⟩ := Option.bind_eq_some_iff.mp hrun
  obtain ⟨⟨m', lcs'⟩, hr', hrun⟩ := Option.map_eq_some_iff.mp hrun
  obtain ⟨hlcs, hB⟩ := Prod.mk.injEq .. ▸ hrun
  refine ⟨m, m', lcs, lcs', hr, hr', hlcs, hB, fun hv => ?_⟩
  obtain ⟨l, hl, hmem⟩ := hv.participants (.str "B") (by decide)
  obtain rfl := Option.some.inj (hB.symm.trans hl)
  have hin : ({0, 1} : Finset ℕ) ∈ members lcs' := ((hmem {0, 1}).mp (by decide)).1
  change lcs' = _ at hlcs
  rw [hlcs] at hin
  exact absurd hin (by decide)

end Hispar.SetOperations
