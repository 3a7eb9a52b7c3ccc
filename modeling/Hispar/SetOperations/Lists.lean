import Hispar.SetOperations.Decompose

/-!
# The lists that a decomposition leaves as they are

A Python list is replaced by sets as soon as it is cut. One whose prefixes
occur nowhere else is never cut: it stays in the mapping, with its order.
-/
namespace Hispar.SetOperations
open Library Library.Atoms Library.Splitting

variable {κ α : Type*} [DecidableEq κ] [DecidableEq α]

/-- The prefix is in one collection of the participant and in none of the others'. -/
def Alone (d : Part2Prefix κ α) (ks : List κ) (p : κ) (x : α) : Prop :=
  (∃ l, d.get? p = some l ∧ l.countP (fun c => decide (x ∈ c)) = 1) ∧
    ∀ q ∈ ks, q ≠ p → ∀ S ∈ families d q, x ∉ S

structure ListsKept (Apart : α → Prop) (l l' : List (Coll α)) : Prop where
  origin : ∀ L, Coll.list L ∈ l' → Coll.list L ∈ l
  apart : ∀ L, Coll.list L ∈ l' → 1 < L.length → ∀ x ∈ L, Apart x
  kept : ∀ L, Coll.list L ∈ l → (∀ x ∈ L, Apart x) →
    Coll.list L ∈ l' ∧ ∀ c ∈ l', ∀ x ∈ L, x ∈ c → c = Coll.list L

theorem Alone.congr {d e : Part2Prefix κ α} {ks : List κ} {p : κ} (hp : d.get? p = e.get? p)
    (hks : ∀ q ∈ ks, d.get? q = e.get? q) (x : α) : Alone d ks p x ↔ Alone e ks p x := by
  rw [Alone, Alone, hp]
  refine and_congr_right fun _ => forall₂_congr fun q hq => ?_
  rw [families, families, hks q hq]

theorem Alone.eq_of_mem {d : Part2Prefix κ α} {ks : List κ} {p : κ} {x : α}
    (h : Alone d ks p x) {l : List (Coll α)} (hl : d.get? p = some l) {c e : Coll α} (hc : c ∈ l)
    (he : e ∈ l) (hxc : x ∈ c) (hxe : x ∈ e) : c = e := by
  obtain ⟨⟨l', hl', hcount⟩, -⟩ := h
  obtain rfl : l = l' := Option.some.inj (hl.symm.trans hl')
  rw [List.countP_eq_length_filter] at hcount
  obtain ⟨a, ha⟩ := List.length_eq_one_iff.mp hcount
  have hmem : ∀ b ∈ l, x ∈ b → b = a := fun b hb hxb => by
    have : b ∈ l.filter fun c => decide (x ∈ c) := List.mem_filter.mpr ⟨hb, decide_eq_true hxb⟩
    rw [ha] at this
    exact List.mem_singleton.mp this
  rw [hmem c hc hxc, hmem e he hxe]

section pass
variable {u u' : Part2Prefix κ α} {key x : α} {M : Finset α} {p : κ} {l l' : List (Coll α)}
  {L : List α}

theorem mem_list : x ∈ Coll.list L ↔ x ∈ L := List.mem_toFinset

theorem list_mem_uncut (hL : Coll.list L ∈ l) (hkL : key ∉ L) :
    Coll.list L ∈ l.filter fun c => !decide (key ∈ c) :=
  List.mem_filter.mpr ⟨hL, by simpa [mem_list] using hkL⟩

theorem list_mem_cut (h : Coll.list L ∈ cut key M l) : Coll.list L ∈ l ∧ key ∉ L := by
  rcases List.mem_append.mp h with h | h
  · obtain ⟨hl, hk⟩ := List.mem_filter.mp h
    exact ⟨hl, by simpa [mem_list] using hk⟩
  · rcases List.mem_cons.mp h with h | h
    · cases h
    · obtain ⟨e, -, he⟩ := List.mem_filterMap.mp h
      obtain ⟨-, he⟩ := Option.ite_none_right_eq_some.mp he
      cases he

theorem Passed.origin (h : Passed u key M p l l') (hL : Coll.list L ∈ l') : Coll.list L ∈ l := by
  cases h with
  | untouched _ => exact hL
  | avoided _ _ _ _ => exact hL
  | cut _ _ => exact (list_mem_cut hL).1

theorem Passed.exists_mem (h : Passed u key M p l l') (hM : ∀ c ∈ l, key ∈ c → M ⊆ c.toSet) :
    (∃ N ∈ members l', x ∈ N) ↔ ∃ N ∈ members l, x ∈ N := by
  constructor
  · rintro ⟨N, hN, hx⟩
    rcases (h.mem_members N).mp hN with ⟨hN, -⟩ | ⟨rfl, T, hT, hk⟩ | ⟨-, T, hT, -, rfl⟩
    · exact ⟨N, hN, hx⟩
    · obtain ⟨c, hc, rfl⟩ := SetOperations.mem_members.mp hT
      exact ⟨_, hT, hM c hc hk hx⟩
    · exact ⟨T, hT, (Finset.mem_sdiff.mp hx).1⟩
  · rintro ⟨T, hT, hx⟩
    by_cases hk : key ∈ T
    · by_cases hxM : x ∈ M
      · exact ⟨M, (h.mem_members M).mpr (Or.inr (Or.inl ⟨rfl, T, hT, hk⟩)), hxM⟩
      · have hxT : x ∈ T \ M := Finset.mem_sdiff.mpr ⟨hx, hxM⟩
        exact ⟨T \ M, (h.mem_members _).mpr (Or.inr (Or.inr ⟨⟨x, hxT⟩, T, hT, hk, rfl⟩)), hxT⟩
    · exact ⟨T, (h.mem_members T).mpr (Or.inl ⟨hT, hk⟩), hx⟩

theorem countP_cut (x key : α) (M : Finset α) (l : List (Coll α)) :
    (cut key M l).countP (fun c => decide (x ∈ c)) =
      (l.filter fun c => !decide (key ∈ c)).countP (fun c => decide (x ∈ c)) +
        (tlistOf M (l.filter fun c => decide (key ∈ c))).countP (fun c => decide (x ∈ c)) := by
  rw [cut, List.countP_append]

theorem countP_split (x key : α) (l : List (Coll α)) :
    l.countP (fun c => decide (x ∈ c)) =
      (l.filter fun c => !decide (key ∈ c)).countP (fun c => decide (x ∈ c)) +
        (l.filter fun c => decide (key ∈ c)).countP (fun c => decide (x ∈ c)) := by
  induction l with
  | nil => rfl
  | cons c l ih =>
    by_cases hk : key ∈ c
    · simp only [hk, decide_true, List.filter_cons_of_pos, Bool.not_true, Bool.false_eq_true,
        not_false_eq_true, List.filter_cons_of_neg, List.countP_cons, ih]
      omega
    · simp only [hk, decide_false, List.filter_cons_of_neg, Bool.not_false, List.filter_cons_of_pos,
        Bool.false_eq_true, not_false_eq_true, List.countP_cons, ih]
      omega

theorem countP_tlistOf_pos {lsts : List (Coll α)} (hM : ∀ c ∈ lsts, M ⊆ c.toSet) (hne : lsts ≠ []) :
    0 < (tlistOf M lsts).countP (fun c => decide (x ∈ c)) ↔
      0 < lsts.countP (fun c => decide (x ∈ c)) := by
  simp only [List.countP_pos_iff, decide_eq_true_eq]
  constructor
  · rintro ⟨c, hc, hx⟩
    rcases List.mem_cons.mp hc with rfl | hc
    · obtain ⟨e, he⟩ := List.exists_mem_of_ne_nil lsts hne
      exact ⟨e, he, hM e he hx⟩
    · obtain ⟨e, he, hce⟩ := List.mem_filterMap.mp hc
      obtain ⟨-, hce⟩ := Option.ite_none_right_eq_some.mp hce
      obtain rfl := Option.some.inj hce
      exact ⟨e, he, (Finset.mem_sdiff.mp hx).1⟩
  · rintro ⟨c, hc, hx⟩
    by_cases hxM : x ∈ M
    · exact ⟨.set M, List.mem_cons_self, hxM⟩
    · have hxc : x ∈ c.toSet \ M := Finset.mem_sdiff.mpr ⟨hx, hxM⟩
      refine ⟨.set (c.toSet \ M), List.mem_cons_of_mem _ (List.mem_filterMap.mpr ⟨c, hc, ?_⟩), hxc⟩
      rw [if_pos (Finset.card_pos.mpr ⟨x, hxc⟩)]

structure Pass (u u' : Part2Prefix κ α) (key : α) (M : Finset α) : Prop where
  keys : u'.keys = u.keys
  common : ∀ x, x ∈ M ↔ ∀ p l, u.get? p = some l → ∀ c ∈ l, key ∈ c → x ∈ c
  passed : ∀ p l, u.get? p = some l → ∃ l', u'.get? p = some l' ∧ Passed u key M p l l'

namespace Pass
variable (h : Pass u u' key M)
include h

theorem common_subset (hl : u.get? p = some l) : ∀ c ∈ l, key ∈ c → M ⊆ c.toSet :=
  fun c hc hk _ hx => (h.common _).mp hx p l hl c hc hk

theorem families_mem (q : κ) : (∃ S ∈ families u' q, x ∈ S) ↔ ∃ S ∈ families u q, x ∈ S := by
  cases hl : u.get? q with
  | none =>
    have hl' : u'.get? q = none := by
      rw [Dict.get?_eq_none] at hl ⊢
      rwa [h.keys]
    simp [families, hl, hl']
  | some l =>
    obtain ⟨l', hl', hpass⟩ := h.passed q l hl
    rw [families_of_get? hl, families_of_get? hl']
    exact hpass.exists_mem (h.common_subset hl)

theorem countP_cut_eq_one (hl : u.get? p = some l) (hsome : ∃ c ∈ l, key ∈ c)
    (hL : Coll.list L ∈ l) (hkL : key ∉ L) (hx : x ∈ L) :
    (cut key M l).countP (fun c => decide (x ∈ c)) = 1 ↔
      l.countP (fun c => decide (x ∈ c)) = 1 := by
  have hxL : x ∈ Coll.list L := mem_list.mpr hx
  have hpos : 0 < (l.filter fun c => !decide (key ∈ c)).countP (fun c => decide (x ∈ c)) :=
    List.countP_pos_iff.mpr ⟨_, list_mem_uncut hL hkL, decide_eq_true hxL⟩
  have hM : ∀ c ∈ l.filter fun c => decide (key ∈ c), M ⊆ c.toSet := fun c hc =>
    h.common_subset hl c (List.mem_filter.mp hc).1 (of_decide_eq_true (List.mem_filter.mp hc).2)
  have hne : (l.filter fun c => decide (key ∈ c)) ≠ [] := by
    obtain ⟨c, hc, hk⟩ := hsome
    exact List.ne_nil_of_mem (List.mem_filter.mpr ⟨hc, decide_eq_true hk⟩)
  have hpieces := countP_tlistOf_pos (x := x) hM hne
  have hsplit := countP_split x key l
  rw [countP_cut]
  omega

theorem alone {ks : List κ} (hks : ∀ q ∈ u.keys, q ∈ ks) (hl : u.get? p = some l)
    (hL : Coll.list L ∈ l) (halone : ∀ x ∈ L, Alone u ks p x) :
    ∃ l', u'.get? p = some l' ∧ Coll.list L ∈ l' ∧ ∀ x ∈ L, Alone u' ks p x := by
  obtain ⟨l', hl', hpass⟩ := h.passed p l hl
  have hothers : ∀ x ∈ L, ∀ q ∈ ks, q ≠ p → ∀ S ∈ families u' q, x ∉ S := by
    intro x hx q hq hqp S hS hxS
    obtain ⟨T, hT, hxT⟩ := (h.families_mem q).mp ⟨S, hS, hxS⟩
    exact (halone x hx).2 q hq hqp T hT hxT
  have hcount : ∀ x ∈ L, l.countP (fun c => decide (x ∈ c)) = 1 := by
    intro x hx
    obtain ⟨⟨l₁, hl₁, hcount⟩, -⟩ := halone x hx
    exact Option.some.inj (hl.symm.trans hl₁) ▸ hcount
  suffices hkept : Coll.list L ∈ l' ∧ ∀ x ∈ L, l'.countP (fun c => decide (x ∈ c)) = 1 from
    ⟨l', hl', hkept.1, fun x hx => ⟨⟨l', hl', hkept.2 x hx⟩, hothers x hx⟩⟩
  cases hpass with
  | untouched _ => exact ⟨hL, hcount⟩
  | avoided _ _ _ _ => exact ⟨hL, hcount⟩
  | cut hsome hmany =>
    have hkL : key ∉ L := by
      intro hk
      have hone := hcount key hk
      rw [List.countP_eq_length_filter] at hone
      rcases hmany with hmany | ⟨q, e, hqp, he, c, hc, hkc⟩
      · omega
      · refine (halone key hk).2 q (hks q (Dict.mem_keys_iff.mpr ⟨e, he⟩)) hqp c.toSet ?_ hkc
        exact mem_families.mpr ⟨e, he, mem_members.mpr ⟨c, hc, rfl⟩⟩
    refine ⟨List.mem_append_left _ (list_mem_uncut hL hkL), fun x hx => ?_⟩
    exact (h.countP_cut_eq_one hl hsome hL hkL hx).mpr (hcount x hx)

theorem not_alone {ks : List κ} (hl : u.get? p = some l) (hl' : u'.get? p = some l')
    (hL : Coll.list L ∈ l') (hx : x ∈ L) (hnot : ¬ Alone u ks p x) : ¬ Alone u' ks p x := by
  obtain ⟨l₁, hl₁, hpass⟩ := h.passed p l hl
  obtain rfl : l' = l₁ := Option.some.inj (hl'.symm.trans hl₁)
  rintro ⟨⟨l₂, hl₂, hone⟩, hothers⟩
  obtain rfl : l' = l₂ := Option.some.inj (hl'.symm.trans hl₂)
  refine hnot ⟨⟨l, hl, ?_⟩, fun q hq hqp S hS hxS => ?_⟩
  · cases hpass with
    | untouched _ => exact hone
    | avoided _ _ _ _ => exact hone
    | cut hsome hmany =>
      obtain ⟨hLl, hkL⟩ := list_mem_cut hL
      exact (h.countP_cut_eq_one hl hsome hLl hkL hx).mp hone
  · obtain ⟨T, hT, hxT⟩ := (h.families_mem q).mpr ⟨S, hS, hxS⟩
    exact hothers q hq hqp T hT hxT

theorem alone_of_key (hl : u.get? p = some l) (hl' : u'.get? p = some l')
    (hL : Coll.list L ∈ l') (hk : key ∈ L) {ks : List κ} : Alone u ks p key := by
  obtain ⟨l₁, hl₁, hpass⟩ := h.passed p l hl
  obtain rfl : l' = l₁ := Option.some.inj (hl'.symm.trans hl₁)
  cases hpass with
  | untouched hno => exact absurd (mem_list.mpr hk) (hno _ hL)
  | avoided c hone _ hothers =>
    refine ⟨⟨l, hl, by rw [List.countP_eq_length_filter, hone, List.length_singleton]⟩, ?_⟩
    intro q _ hqp S hS hkS
    obtain ⟨e, he, hSe⟩ := mem_families.mp hS
    obtain ⟨c, hc, rfl⟩ := mem_members.mp hSe
    exact hothers q e hqp he c hc hkS
  | cut _ _ => exact absurd hk (list_mem_cut hL).2

end Pass

end pass

theorem foldlM_decomposeAround_visited {Q : List α → Part2Prefix κ α → Prop}
    (hQ : ∀ done u u' key M, Pass u u' key M → Q done u → Q (done ++ [key]) u') {ks : List α}
    {u u' : Part2Prefix κ α} (hks : ∀ k ∈ ks, k ∈ support (families u).all)
    (hrun : ks.foldlM decomposeAround u = some u') (hu : Q [] u) : Q ks u' := by
  refine (Runs.foldlM_visited_invariant (Q := fun done u =>
    (∀ k ∈ ks, k ∈ support (families u).all) ∧ Q done u) ?_ ⟨hks, hu⟩ hrun).2
  rintro done key rest u u' rfl ⟨hsupport, hu⟩ hstep
  have hkey := hsupport key (List.mem_append_right _ List.mem_cons_self)
  obtain ⟨u₁, M, hu₁, hkeys, hM, hpass⟩ := decomposeAround_spec (mem_support_iff.mp hkey)
  obtain rfl : u' = u₁ := Option.some.inj (hstep.symm.trans hu₁)
  have hp : Pass u u' key M := ⟨hkeys, hM, hpass⟩
  refine ⟨fun k hk => ?_, hQ done u u' key M hp hu⟩
  obtain ⟨S, ⟨q, hS⟩, hkS⟩ := hsupport k hk
  obtain ⟨T, hT, hkT⟩ := (hp.families_mem q).mpr ⟨S, hS, hkS⟩
  exact ⟨T, ⟨q, hT⟩, hkT⟩

theorem decomposeSimpler_lists (h : Hashing α) {d d' : Part2Prefix κ α} {lcs : List (Coll α)}
    (hrun : decomposeSimpler h d = some (d', lcs)) {p : κ} {l l' : List (Coll α)}
    (hl : d.get? p = some l) (hl' : d'.get? p = some l') :
    ListsKept (Alone d d.keys p) l l' := by
  obtain ⟨u, hu, hr⟩ := Option.map_eq_some_iff.mp hrun
  obtain rfl : u = d' := congrArg Prod.fst hr
  have hsupport := getPdict_subset_support (h := h) (d := d)
  have horigin : ∀ L, Coll.list L ∈ l' → Coll.list L ∈ l := by
    intro L
    obtain ⟨l₁, hl₁, horigin⟩ := foldlM_decomposeAround_visited
      (Q := fun _ u => ∃ l', u.get? p = some l' ∧ (Coll.list L ∈ l' → Coll.list L ∈ l))
      (fun _ u u' key M hpass ⟨l₁, hl₁, horigin⟩ => by
        obtain ⟨l₂, hl₂, hp⟩ := hpass.passed p l₁ hl₁
        exact ⟨l₂, hl₂, fun hL => horigin (hp.origin hL)⟩) hsupport hu ⟨l, hl, id⟩
    exact Option.some.inj (hl'.symm.trans hl₁) ▸ horigin
  refine ⟨horigin, fun L hL hlen x hx => ?_, fun L hL halone => ?_⟩
  · by_contra hnot
    -- until x is visited the list has company around x, and then it is cut
    obtain ⟨l₁, hl₁, hvisit⟩ := foldlM_decomposeAround_visited
      (Q := fun done u => ∃ l', u.get? p = some l' ∧
        (Coll.list L ∈ l' → ¬ Alone u d.keys p x ∧ x ∉ done))
      (fun done u u' key M hpass ⟨l₁, hl₁, hvisit⟩ => by
        obtain ⟨l₂, hl₂, hp⟩ := hpass.passed p l₁ hl₁
        refine ⟨l₂, hl₂, fun hL₂ => ?_⟩
        obtain ⟨hnot, hdone⟩ := hvisit (hp.origin hL₂)
        refine ⟨hpass.not_alone hl₁ hl₂ hL₂ hx hnot, fun hmem => ?_⟩
        rcases List.mem_append.mp hmem with hmem | hmem
        · exact hdone hmem
        · obtain rfl := List.mem_singleton.mp hmem
          exact hnot (hpass.alone_of_key hl₁ hl₂ hL₂ hx)) hsupport hu
      ⟨l, hl, fun _ => ⟨hnot, List.not_mem_nil⟩⟩
    obtain rfl : l' = l₁ := Option.some.inj (hl'.symm.trans hl₁)
    exact (hvisit hL).2 (mem_getPdict.mpr ⟨p, l, hl, _, horigin L hL, hlen, mem_list.mpr hx⟩)
  · obtain ⟨-, l₁, hl₁, hL₁, halone₁⟩ := foldlM_decomposeAround_visited
      (Q := fun _ u => u.keys = d.keys ∧
        ∃ l', u.get? p = some l' ∧ Coll.list L ∈ l' ∧ ∀ x ∈ L, Alone u d.keys p x)
      (fun _ u u' key M hpass ⟨hkeys, l₁, hl₁, hL₁, halone₁⟩ =>
        ⟨hpass.keys.trans hkeys, hpass.alone (fun q hq => hkeys ▸ hq) hl₁ hL₁ halone₁⟩)
      hsupport hu ⟨rfl, l, hl, hL, halone⟩
    obtain rfl : l' = l₁ := Option.some.inj (hl'.symm.trans hl₁)
    exact ⟨hL₁, fun c hc x hx hxc =>
      (halone₁ x hx).eq_of_mem hl' hc hL₁ hxc (mem_list.mpr hx)⟩

end Hispar.SetOperations
