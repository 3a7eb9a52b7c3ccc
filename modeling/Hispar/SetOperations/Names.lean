import Hispar.SetOperations.LcsParallel

/-!
# Names that cannot collide

The keys of the halves are concatenations of names. When a key determines the
names it was made of, no merge of a run loses a half and, with more than one
participant, nobody carries the key of the groups as its own name.
-/
namespace Hispar.SetOperations
open Library Library.Atoms Library.Splitting

/-- The key of a group of names: a single name travels as itself. -/
def keyOf : List Key → Key
  | [k] => k
  | ks => joinKeys ks

/-- Different groups of the names have different keys. -/
def NoCollision (names : List Key) : Prop :=
  ∀ xs ys, xs ≠ [] → ys ≠ [] → xs.Subperm names → ys.Subperm names → keyOf xs = keyOf ys →
    xs.Perm ys

theorem toList_join (l : List String) :
    (String.join l).toList = (l.map String.toList).flatten := by
  have hfold : ∀ (l : List String) (s : String),
      (l.foldl (· ++ ·) s).toList = s.toList ++ (l.map String.toList).flatten := by
    intro l
    induction l with
    | nil => simp
    | cons a l ih =>
      intro s
      simp [ih]
  exact (hfold l "").trans (by simp)

def chars (ks : List Key) : List Char := (ks.map fun k => k.text.toList).flatten

theorem toList_text_joinKeys (ks : List Key) : (joinKeys ks).text.toList = chars ks := by
  simp only [joinKeys, Key.text, toList_join, List.map_map, chars, Function.comp_def]

theorem toList_text_keyOf (ks : List Key) : (keyOf ks).text.toList = chars ks := by
  rw [keyOf.eq_def]
  split
  · simp [chars]
  · exact toList_text_joinKeys _

theorem joinKeys_eq_of_chars {ks js : List Key} (h : chars ks = chars js) :
    joinKeys ks = joinKeys js := by
  rw [joinKeys, joinKeys, Key.str.injEq]
  refine String.toList_injective ?_
  simpa only [toList_join, List.map_map, chars, Function.comp_def] using h

theorem chars_append (xs ys : List Key) : chars (xs ++ ys) = chars xs ++ chars ys := by
  simp [chars]

namespace Plan
variable {hκ : DictOrder Key}

theorem exists_keyOf (n : ℕ) {ks : List Key} (hks : ks ≠ []) :
    ∃ xs, xs ≠ [] ∧ (ofNames hκ n ks).key hκ = keyOf xs ∧
      xs.Perm ((ofNames hκ n ks).kept hκ) := by
  have hleaf : ∀ js : List Key, js ≠ [] → ∃ xs, xs ≠ [] ∧ (leaf js).key hκ = keyOf xs ∧
      xs.Perm ((leaf js).kept hκ) := by
    intro js hjs
    refine ⟨js, hjs, ?_, List.Perm.refl _⟩
    cases js with
    | nil => rfl
    | cons k rest => cases rest <;> rfl
  induction n generalizing ks with
  | zero => exact hleaf ks hks
  | succ n ih =>
    rw [ofNames]
    split_ifs with hlen
    · exact hleaf ks hks
    · have hL := (hκ.arrange_perm (everyOther ks)).length_eq
      have hR := (hκ.arrange_perm (everyOther ks.tail)).length_eq
      rw [length_everyOther] at hL hR
      rw [List.length_tail] at hR
      obtain ⟨xs, hx0, hx, hxs⟩ := @ih (hκ.arrange (everyOther ks)) fun e => by
        rw [e, List.length_nil] at hL; omega
      obtain ⟨ys, hy0, hy, hys⟩ := @ih (hκ.arrange (everyOther ks.tail)) fun e => by
        rw [e, List.length_nil] at hR; omega
      rw [key, kept]
      split_ifs with hk
      · exact ⟨ys, hy0, hy, hys⟩
      · -- the joint key spells out one half and then the other
        have hspell : ∀ us vs, us ≠ [] → vs ≠ [] →
            joinKeys [keyOf us, keyOf vs] = keyOf (us ++ vs) := by
          intro us vs hu hv
          have hjoin : keyOf (us ++ vs) = joinKeys (us ++ vs) := by
            obtain ⟨u, us, rfl⟩ := List.exists_cons_of_ne_nil hu
            obtain ⟨v, vs, rfl⟩ := List.exists_cons_of_ne_nil hv
            cases us <;> rfl
          rw [hjoin]
          refine joinKeys_eq_of_chars ?_
          rw [chars_append, ← toList_text_keyOf us, ← toList_text_keyOf vs]
          simp [chars]
        rw [hx, hy]
        rcases List.perm_pair.mp (hκ.arrange_perm [keyOf xs, keyOf ys]) with h | h
        · exact ⟨xs ++ ys, by simp [hx0], by rw [h, hspell xs ys hx0 hy0], hxs.append hys⟩
        · exact ⟨ys ++ xs, by simp [hy0], by rw [h, hspell ys xs hy0 hx0],
            List.perm_append_comm.trans (hxs.append hys)⟩

theorem apart_of_noCollision {names : List Key} (hnd : names.Nodup) (h : NoCollision names) (n : ℕ)
    {ks : List Key} (hks : ks.Subperm names) : (ofNames hκ n ks).Apart hκ := by
  induction n generalizing ks with
  | zero => trivial
  | succ n ih =>
    rw [ofNames]
    split_ifs with hlen
    · trivial
    · have hL := (hκ.arrange_perm (everyOther ks)).length_eq
      have hR := (hκ.arrange_perm (everyOther ks.tail)).length_eq
      rw [length_everyOther] at hL hR
      rw [List.length_tail] at hR
      have hperm := ((hκ.arrange_perm (everyOther ks)).append
        (hκ.arrange_perm (everyOther ks.tail))).trans (everyOther_perm ks)
      have hsub := hperm.subperm.trans hks
      have hsubl := (List.sublist_append_left _ _).subperm.trans hsub
      have hsubr := (List.sublist_append_right _ _).subperm.trans hsub
      have hl := ih hsubl
      have hr := ih hsubr
      refine ⟨hl, hr, fun he => ?_⟩
      obtain ⟨xs, hx0, hx, hxs⟩ := @exists_keyOf hκ n (hκ.arrange (everyOther ks)) fun e => by
        rw [e, List.length_nil] at hL; omega
      obtain ⟨ys, hy0, hy, hys⟩ := @exists_keyOf hκ n (hκ.arrange (everyOther ks.tail)) fun e => by
        rw [e, List.length_nil] at hR; omega
      have hxs := hxs.trans hl.kept_perm
      have hys := hys.trans hr.kept_perm
      have hxy := h xs ys hx0 hy0 (hxs.subperm.trans hsubl) (hys.subperm.trans hsubr)
        (hx.symm.trans (he.trans hy))
      -- the two halves have no name in common
      obtain ⟨k, hk⟩ := List.exists_mem_of_ne_nil xs hx0
      obtain ⟨l, hlp, hl'⟩ := hsub
      exact (List.nodup_append.mp (hlp.nodup_iff.mp (hnd.sublist hl'))).2.2 k (hxs.mem_iff.mp hk) k
        (hys.mem_iff.mp (hxy.mem_iff.mp hk)) rfl

theorem length_eq_one_of_key_mem {n : ℕ} {ks : List Key} (hnd : ks.Nodup) (h : NoCollision ks)
    (hmem : (ofNames hκ n ks).key hκ ∈ ks) : ks.length = 1 := by
  obtain ⟨xs, hx0, hx, hxs⟩ := @exists_keyOf hκ n ks (List.ne_nil_of_mem hmem)
  have hperm := hxs.trans (apart_of_noCollision hnd h n (List.Subperm.refl ks)).kept_perm
  have hone := h xs [(ofNames hκ n ks).key hκ] hx0 (List.cons_ne_nil _ _) hperm.subperm
    (List.singleton_subperm_iff.mpr hmem) hx.symm
  exact hperm.length_eq.symm.trans hone.length_eq

end Plan

variable {α : Type*} [DecidableEq α] {hκ : DictOrder Key} {d : Part2Prefix Key α}

omit [DecidableEq α] in
theorem mem_kept_of_noCollision (h : NoCollision d.keys) {p : Key} :
    p ∈ (planOf hκ d).kept hκ ↔ p ∈ d.keys :=
  (Plan.apart_of_noCollision d.nodup_keys h _ (List.Subperm.refl _)).kept_perm.mem_iff

theorem setsOf_kept_of_noCollision (h : NoCollision d.keys) :
    setsOf d ((planOf hκ d).kept hκ) = (families d).all :=
  setsOf_eq_all fun _ hp => (mem_kept_of_noCollision h).mpr hp

theorem nothingLost_of_noCollision (h : NoCollision d.keys) : NothingLost hκ d := by
  refine ⟨fun p x hx => ⟨p, (mem_kept_of_noCollision h).mpr (mem_keys_of_mem_prefixesOf hx), hx⟩,
    fun before p after hd x hx y hxy => ?_⟩
  rw [seen] at hxy
  split_ifs at hxy with hK
  · -- a single participant: its leaf is the whole mapping
    have hp := mem_keys_of_mem_prefixesOf hx
    have hlen := Plan.length_eq_one_of_key_mem d.nodup_keys h (hK ▸ hp)
    have hleaf : planOf hκ d = .leaf d.keys := by
      rw [planOf, hlen, Plan.ofNames, if_pos (by omega)]
    rwa [hleaf, Plan.mates, if_pos hp, setsOf_eq_all fun _ hp => hp] at hxy
  · exact hxy.mono ((setsOf_kept_of_noCollision h).symm.subset.trans Set.subset_union_left)

theorem noCollision_of_length {names : List Key} {L : ℕ} (hL : 0 < L)
    (h : ∀ k ∈ names, ∃ s : String, k = .str s ∧ s.toList.length = L) : NoCollision names := by
  intro xs ys hx hy hxs hys heq
  have hchars : chars xs = chars ys := by
    rw [← toList_text_keyOf, ← toList_text_keyOf, heq]
  have hpos : ∀ k ∈ names, ∀ js, chars (k :: js) ≠ [] := by
    intro k hk js hnil
    obtain ⟨s, rfl, hs⟩ := h k hk
    have hlen := congrArg List.length hnil
    simp only [chars, List.map_cons, List.flatten_cons, List.length_append, List.length_nil,
      Key.text] at hlen
    omega
  replace hxs := hxs.subset
  replace hys := hys.subset
  clear hx hy heq
  suffices hxy : xs = ys from hxy ▸ List.Perm.refl _
  induction xs generalizing ys with
  | nil =>
    cases ys with
    | nil => rfl
    | cons j ys => exact absurd hchars.symm (hpos j (hys List.mem_cons_self) ys)
  | cons k xs ih =>
    cases ys with
    | nil => exact absurd hchars (hpos k (hxs List.mem_cons_self) xs)
    | cons j ys =>
      obtain ⟨s, rfl, hs⟩ := h k (hxs List.mem_cons_self)
      obtain ⟨t, rfl, ht⟩ := h j (hys List.mem_cons_self)
      simp only [chars, List.map_cons, List.flatten_cons] at hchars
      obtain ⟨hst, hrest⟩ := List.append_inj hchars (hs.trans ht.symm)
      have hst : s = t := String.toList_injective hst
      rw [hst, ih ys hrest (List.subset_of_cons_subset hxs) (List.subset_of_cons_subset hys)]

end Hispar.SetOperations
