import Hispar.Library.Dictionary
import Hispar.Library.Runs
import Hispar.Library.Splitting

/-!
# Decomposition of the prefix sets of a group of participants

`decomposeSimpler` works on a mapping from participants to lists of prefix
collections and rewrites those lists in place, so the definitions here return
the rewritten mapping next to their result. A collection is a Python list as it
came from a policy or a RIB, or a Python set as the decomposition leaves it.
The iteration order of `pdict` comes from the runtime; `tempdict` is listed in
the order of the mapping, and no result depends on its order.
-/
namespace Hispar.SetOperations
open Library Library.Atoms Library.Splitting

inductive Coll (α : Type*)
  | list (l : List α)
  | set (s : Finset α)
  deriving DecidableEq

abbrev Part2Prefix (κ α : Type*) := Dict κ (List (Coll α))

variable {κ α : Type*} [DecidableEq κ] [DecidableEq α]

namespace Coll

def toSet : Coll α → Finset α
  | list l => l.toFinset
  | set s => s

def len : Coll α → ℕ
  | list l => l.length
  | set s => s.card

def toList (h : Hashing α) : Coll α → List α
  | list l => l
  | set s => h.enum s

instance : Membership α (Coll α) := ⟨fun c x => x ∈ c.toSet⟩

instance (x : α) (c : Coll α) : Decidable (x ∈ c) := inferInstanceAs (Decidable (x ∈ c.toSet))

instance (c : Coll α) (l : List (Coll α)) : Decidable (c ∈ l) := inferInstance

theorem mem_def {x : α} {c : Coll α} : x ∈ c ↔ x ∈ c.toSet := Iff.rfl

@[simp] theorem toSet_set (s : Finset α) : (set s).toSet = s := rfl

theorem toSet_toList (h : Hashing α) (c : Coll α) : (c.toList h).toFinset = c.toSet := by
  cases c with
  | list l => rfl
  | set s => exact h.toFinset_enum s

end Coll

def members (l : List (Coll α)) : Finset (Finset α) := (l.map Coll.toSet).toFinset

theorem mem_members {l : List (Coll α)} {s : Finset α} :
    s ∈ members l ↔ ∃ c ∈ l, c.toSet = s := by
  simp [members]

/-- The keys of the dictionary of all prefixes that occur in a collection with
more than one entry, in the order a loop visits them. -/
def getPdict (h : Hashing α) (part2pfx : Part2Prefix κ α) : List α :=
  let temp := part2pfx.items.foldl (fun temp kv => kv.2.foldl (fun temp plist =>
    if plist.len > 1 then temp ∪ plist.toSet else temp) temp) ∅
  h.arrange (h.enum temp)

def intersection : List (Finset α) → Option (Finset α)
  | [] => none
  | s :: rest => some (rest.foldl (· ∩ ·) s)

/-- `list.remove`, which raises when the element is missing. -/
def remove (l : List (Coll α)) (c : Coll α) : Option (List (Coll α)) :=
  if c ∈ l then some (l.erase c) else none

def tlistOf (minSet : Finset α) (lsts : List (Coll α)) : List (Coll α) :=
  Coll.set minSet :: lsts.filterMap fun lst =>
    let temp := lst.toSet \ minSet
    if temp.card > 0 then some (Coll.set temp) else none

def decomposeSet (tdict updated tempdictBk : Part2Prefix κ α) :
    Option (Part2Prefix κ α × Part2Prefix κ α) :=
  let pmap := tdict.items.flatMap fun kv => kv.2.map Coll.toSet
  (intersection pmap).bind fun minSet =>
    if minSet.card > 0 then
      (tdict.items.foldlM (fun (u : Part2Prefix κ α) kv => (u.get? kv.1).bind fun cur =>
        ((tempdictBk.get? kv.1).bind fun bk => bk.foldlM remove (cur ++ tlistOf minSet kv.2)).map
          (u.set kv.1)) updated).map fun updated' =>
        (tdict.mapValues fun _ lsts => tlistOf minSet lsts, updated')
    else some (tdict, updated)

def tempdict (updated : Part2Prefix κ α) (key : α) : Part2Prefix κ α :=
  updated.filterMapValues fun _ lsts =>
    let tlist := lsts.filter fun temp => key ∈ temp
    if tlist.length > 0 then some tlist else none

def avoided (t : Part2Prefix κ α) : Bool :=
  match t.values with
  | [tlist] => tlist.length = 1
  | _ => false

def decomposeAround (updated : Part2Prefix κ α) (key : α) : Option (Part2Prefix κ α) :=
  let t := tempdict updated key
  if avoided t = false then (decomposeSet t updated t).map Prod.snd else some updated

def distinctSets (part2pfx : Part2Prefix κ α) : List (Finset α) :=
  part2pfx.items.foldl (fun lcs kv => kv.2.foldl (fun lcs temp =>
    if temp.toSet ∈ lcs then lcs else lcs ++ [temp.toSet]) lcs) []

def decomposeSimpler (h : Hashing α) (part2pfx : Part2Prefix κ α) :
    Option (Part2Prefix κ α × List (Coll α)) :=
  ((getPdict h part2pfx).foldlM decomposeAround part2pfx).map fun updated =>
    (updated, (distinctSets updated).map Coll.set)

theorem mem_intersection {pmap : List (Finset α)} {m : Finset α} (h : intersection pmap = some m)
    (x : α) : x ∈ m ↔ ∀ s ∈ pmap, x ∈ s := by
  cases pmap with
  | nil => cases h
  | cons s rest =>
    obtain rfl := Option.some.inj h
    have hfold : ∀ (l : List (Finset α)) (a : Finset α),
        x ∈ l.foldl (· ∩ ·) a ↔ x ∈ a ∧ ∀ s ∈ l, x ∈ s := by
      intro l
      induction l with
      | nil => simp
      | cons t l ih =>
        intro a
        rw [List.foldl_cons, ih, Finset.mem_inter, List.forall_mem_cons, and_assoc]
    rw [hfold, List.forall_mem_cons]

theorem foldlM_remove_cons {c : Coll α} {bk l : List (Coll α)} (hc : ∀ e ∈ bk, e ≠ c) :
    bk.foldlM remove (c :: l) = (bk.foldlM remove l).map (c :: ·) := by
  induction bk generalizing l with
  | nil => rfl
  | cons e bk ih =>
    obtain ⟨hec, hbk⟩ := List.forall_mem_cons.mp hc
    simp only [List.foldlM_cons, remove, List.mem_cons, hec, false_or]
    by_cases he : e ∈ l
    · simpa [he, List.erase_cons_tail (by simpa using hec.symm : ¬ (c == e) = true)] using ih hbk
    · simp [he]

theorem foldlM_remove_filter (p : Coll α → Bool) (l extra : List (Coll α)) :
    (l.filter p).foldlM remove (l ++ extra) = some ((l.filter fun c => !p c) ++ extra) := by
  induction l with
  | nil => rfl
  | cons c l ih =>
    by_cases hc : p c = true
    · simpa [hc, List.foldlM_cons, remove] using ih
    · have hne : ∀ e ∈ l.filter p, e ≠ c := by
        rintro e he rfl
        exact hc (List.mem_filter.mp he).2
      simp [hc, foldlM_remove_cons hne, ih]

def cut (key : α) (minSet : Finset α) (lsts : List (Coll α)) : List (Coll α) :=
  lsts.filter (fun c => !decide (key ∈ c)) ++ tlistOf minSet (lsts.filter fun c => decide (key ∈ c))

inductive Passed (updated : Part2Prefix κ α) (key : α) (minSet : Finset α) (p : κ)
    (lsts : List (Coll α)) : List (Coll α) → Prop
  | untouched (hno : ∀ c ∈ lsts, key ∉ c) : Passed updated key minSet p lsts lsts
  | avoided (c : Coll α) (hone : lsts.filter (fun c => decide (key ∈ c)) = [c])
      (hc : c.toSet = minSet)
      (hothers : ∀ q l, q ≠ p → updated.get? q = some l → ∀ e ∈ l, key ∉ e) :
      Passed updated key minSet p lsts lsts
  | cut (hsome : ∃ c ∈ lsts, key ∈ c)
      (hmany : 1 < (lsts.filter fun c => decide (key ∈ c)).length ∨
        ∃ q l, q ≠ p ∧ updated.get? q = some l ∧ ∃ e ∈ l, key ∈ e) :
      Passed updated key minSet p lsts (SetOperations.cut key minSet lsts)

theorem get?_tempdict {updated : Part2Prefix κ α} {key : α} {p : κ} {t : List (Coll α)} :
    (tempdict updated key).get? p = some t ↔ ∃ l, updated.get? p = some l ∧
      t = l.filter (fun c => decide (key ∈ c)) ∧ ∃ c ∈ l, key ∈ c := by
  rw [tempdict, Dict.get?_filterMapValues, Option.bind_eq_some_iff]
  refine exists_congr fun l => and_congr_right fun _ => ?_
  simp only [Option.ite_none_right_eq_some, Option.some.injEq, gt_iff_lt,
    List.length_pos_iff_exists_mem,
    List.mem_filter, decide_eq_true_eq, eq_comm (a := t)]
  exact and_comm

theorem Passed.mem_members {updated : Part2Prefix κ α} {key : α} {M : Finset α} {p : κ}
    {l l' : List (Coll α)} (h : Passed updated key M p l l') (N : Finset α) :
    N ∈ members l' ↔ (N ∈ members l ∧ key ∉ N) ∨ (N = M ∧ ∃ T ∈ members l, key ∈ T) ∨
      (N.Nonempty ∧ ∃ T ∈ members l, key ∈ T ∧ N = T \ M) := by
  simp only [SetOperations.mem_members]
  cases h with
  | untouched hno =>
    constructor
    · rintro ⟨c, hc, rfl⟩
      exact Or.inl ⟨⟨c, hc, rfl⟩, hno c hc⟩
    · rintro (⟨hN, -⟩ | ⟨-, T, ⟨c, hc, rfl⟩, hk⟩ | ⟨-, T, ⟨c, hc, rfl⟩, hk, -⟩)
      · exact hN
      · exact absurd hk (hno c hc)
      · exact absurd hk (hno c hc)
  | avoided c hone hc _ =>
    have hmem : ∀ e ∈ l, key ∈ e → e = c := fun e he hk => by
      have hin : e ∈ l.filter fun c => decide (key ∈ c) :=
        List.mem_filter.mpr ⟨he, decide_eq_true hk⟩
      rw [hone] at hin
      exact List.mem_singleton.mp hin
    have hcl : c ∈ l ∧ key ∈ c := by
      have hin : c ∈ l.filter fun c => decide (key ∈ c) := hone ▸ List.mem_singleton_self c
      simpa using List.mem_filter.mp hin
    constructor
    · rintro ⟨e, he, rfl⟩
      by_cases hk : key ∈ e
      · obtain rfl := hmem e he hk
        exact Or.inr (Or.inl ⟨hc, _, ⟨e, he, rfl⟩, hk⟩)
      · exact Or.inl ⟨⟨e, he, rfl⟩, hk⟩
    · rintro (⟨hN, -⟩ | ⟨rfl, -⟩ | ⟨hne, T, ⟨e, he, rfl⟩, hk, rfl⟩)
      · exact hN
      · exact ⟨c, hcl.1, hc⟩
      · obtain rfl := hmem e he hk
        rw [hc, Finset.sdiff_self] at hne
        exact absurd hne Finset.not_nonempty_empty
  | cut hsome hmany =>
    constructor
    · rintro ⟨c, hc, rfl⟩
      rcases List.mem_append.mp hc with hc | hc
      · obtain ⟨hcl, hk⟩ := List.mem_filter.mp hc
        exact Or.inl ⟨⟨c, hcl, rfl⟩, by simpa [Coll.mem_def] using hk⟩
      · rcases List.mem_cons.mp hc with rfl | hc
        · obtain ⟨e, he, hk⟩ := hsome
          exact Or.inr (Or.inl ⟨rfl, _, ⟨e, he, rfl⟩, hk⟩)
        · obtain ⟨e, he, hce⟩ := List.mem_filterMap.mp hc
          obtain ⟨hel, hk⟩ := List.mem_filter.mp he
          obtain ⟨hcard, hce⟩ := Option.ite_none_right_eq_some.mp hce
          obtain rfl := Option.some.inj hce
          exact Or.inr (Or.inr ⟨Finset.card_pos.mp hcard, _, ⟨e, hel, rfl⟩, of_decide_eq_true hk, rfl⟩)
    · rintro (⟨⟨c, hc, rfl⟩, hk⟩ | ⟨rfl, -⟩ | ⟨hne, T, ⟨e, he, rfl⟩, hk, rfl⟩)
      · refine ⟨c, List.mem_append_left _ (List.mem_filter.mpr ⟨hc, ?_⟩), rfl⟩
        simpa [Coll.mem_def] using hk
      · exact ⟨.set N, List.mem_append_right _ List.mem_cons_self, rfl⟩
      · refine ⟨.set (e.toSet \ M), List.mem_append_right _ (List.mem_cons_of_mem _ ?_), rfl⟩
        refine List.mem_filterMap.mpr ⟨e, List.mem_filter.mpr ⟨he, decide_eq_true hk⟩, ?_⟩
        simp [Finset.card_pos.mpr hne]

theorem mem_pmap {updated : Part2Prefix κ α} {key : α} {s : Finset α} :
    s ∈ ((tempdict updated key).items.flatMap fun kv => kv.2.map Coll.toSet) ↔
      ∃ p l, updated.get? p = some l ∧ ∃ c ∈ l, key ∈ c ∧ c.toSet = s := by
  simp only [List.mem_flatMap, List.mem_map, Prod.exists]
  constructor
  · rintro ⟨p, t, ht, c, hc, rfl⟩
    obtain ⟨l, hl, rfl, -⟩ := get?_tempdict.mp (Dict.get?_eq_some.mpr ht)
    obtain ⟨hcl, hk⟩ := List.mem_filter.mp hc
    exact ⟨p, l, hl, c, hcl, of_decide_eq_true hk, rfl⟩
  · rintro ⟨p, l, hl, c, hc, hk, rfl⟩
    exact ⟨p, _, Dict.get?_eq_some.mp (get?_tempdict.mpr ⟨l, hl, rfl, c, hc, hk⟩), c,
      List.mem_filter.mpr ⟨hc, decide_eq_true hk⟩, rfl⟩

theorem exists_intersection {updated : Part2Prefix κ α} {key : α}
    (hkey : ∃ p l, updated.get? p = some l ∧ ∃ c ∈ l, key ∈ c) :
    ∃ M, intersection ((tempdict updated key).items.flatMap fun kv => kv.2.map Coll.toSet) =
      some M := by
  obtain ⟨p, l, hl, c, hc, hk⟩ := hkey
  have hmem := mem_pmap.mpr ⟨p, l, hl, c, hc, hk, rfl⟩
  cases hp : (tempdict updated key).items.flatMap fun kv => kv.2.map Coll.toSet with
  | nil => rw [hp] at hmem; exact absurd hmem List.not_mem_nil
  | cons s rest => exact ⟨_, rfl⟩

omit [DecidableEq κ] [DecidableEq α] in
theorem items_of_avoided {t : Part2Prefix κ α} (h : avoided t = true) :
    ∃ p c, t.items = [(p, [c])] := by
  unfold avoided at h
  split at h
  · rename_i tlist hvals
    obtain ⟨c, rfl⟩ := List.length_eq_one_iff.mp (of_decide_eq_true h)
    obtain ⟨⟨p, t⟩, hitems, rfl⟩ := List.map_eq_singleton_iff.mp hvals
    exact ⟨p, c, hitems⟩
  · cases h

theorem many_of_not_avoided {updated : Part2Prefix κ α} {key : α} {p : κ} {l : List (Coll α)}
    (hav : ¬ avoided (tempdict updated key) = true) (hl : updated.get? p = some l)
    (hc : ∃ c ∈ l, key ∈ c) : 1 < (l.filter fun c => decide (key ∈ c)).length ∨
      ∃ q l, q ≠ p ∧ updated.get? q = some l ∧ ∃ e ∈ l, key ∈ e := by
  by_contra hmany
  simp only [not_or, not_lt, not_exists, not_and] at hmany
  obtain ⟨hlen, hothers⟩ := hmany
  have hitems := Dict.items_eq_single (get?_tempdict.mpr ⟨l, hl, rfl, hc⟩) fun q hq => by
    obtain ⟨t, ht⟩ := Dict.mem_keys_iff.mp hq
    obtain ⟨l', hl', -, e, he, hk⟩ := get?_tempdict.mp ht
    by_contra hqp
    exact hothers q l' hqp hl' e he hk
  have hpos : 0 < (l.filter fun c => decide (key ∈ c)).length := by
    obtain ⟨c, hcl, hk⟩ := hc
    exact List.length_pos_of_mem (List.mem_filter.mpr ⟨hcl, decide_eq_true hk⟩)
  refine hav ?_
  simp only [avoided, Dict.values, hitems, List.map_cons, List.map_nil, decide_eq_true_eq]
  omega

theorem decomposeAround_spec {updated : Part2Prefix κ α} {key : α}
    (hkey : ∃ p l, updated.get? p = some l ∧ ∃ c ∈ l, key ∈ c) :
    ∃ updated' M, decomposeAround updated key = some updated' ∧ updated'.keys = updated.keys ∧
      (∀ x, x ∈ M ↔ ∀ p l, updated.get? p = some l → ∀ c ∈ l, key ∈ c → x ∈ c) ∧
      ∀ p l, updated.get? p = some l →
        ∃ l', updated'.get? p = some l' ∧ Passed updated key M p l l' := by
  obtain ⟨M, hM⟩ := exists_intersection hkey
  have hMx : ∀ x, x ∈ M ↔ ∀ p l, updated.get? p = some l → ∀ c ∈ l, key ∈ c → x ∈ c := by
    intro x
    rw [mem_intersection hM]
    constructor
    · exact fun h p l hl c hc hk => h _ (mem_pmap.mpr ⟨p, l, hl, c, hc, hk, rfl⟩)
    · rintro h s hs
      obtain ⟨p, l, hl, c, hc, hk, rfl⟩ := mem_pmap.mp hs
      exact h p l hl c hc hk
  by_cases hav : avoided (tempdict updated key) = true
  · obtain ⟨p₀, c₀, hitems⟩ := items_of_avoided hav
    have honly : ∀ p l, updated.get? p = some l → (∃ c ∈ l, key ∈ c) →
        p = p₀ ∧ l.filter (fun c => decide (key ∈ c)) = [c₀] := by
      intro p l hl hc
      have hm := Dict.get?_eq_some.mp (get?_tempdict.mpr ⟨l, hl, rfl, hc⟩)
      rw [hitems, List.mem_singleton] at hm
      exact Prod.mk.injEq .. ▸ hm
    rw [hitems] at hM
    obtain rfl : c₀.toSet = M := Option.some.inj hM
    refine ⟨updated, _, by simp [decomposeAround, hav], rfl, hMx, fun p l hl => ⟨l, hl, ?_⟩⟩
    by_cases hc : ∃ c ∈ l, key ∈ c
    · obtain ⟨rfl, hf⟩ := honly p l hl hc
      refine .avoided c₀ hf rfl fun q l' hq hl' e he hk => hq ?_
      exact (honly q l' hl' ⟨e, he, hk⟩).1
    · exact .untouched fun c hcl hk => hc ⟨c, hcl, hk⟩
  · have hcard : M.card > 0 := Finset.card_pos.mpr ⟨key, (hMx key).mpr fun _ _ _ _ _ hk => hk⟩
    obtain ⟨u', hu', hkeys, hout, hin⟩ := Dict.foldlM_set
      (fun p t b => ((tempdict updated key).get? p).bind fun bk =>
        bk.foldlM remove (b ++ tlistOf M t))
      (tempdict updated key).items (tempdict updated key).nodup updated fun p t ht => by
        have ht' := Dict.get?_eq_some.mpr ht
        obtain ⟨l, hl, rfl, -⟩ := get?_tempdict.mp ht'
        exact ⟨l, _, hl, by rw [ht', Option.bind_some, foldlM_remove_filter]⟩
    refine ⟨u', M, ?_, hkeys, hMx, fun p l hl => ?_⟩
    · simp only [decomposeAround, hav, decomposeSet, hM, if_true, Option.bind_some, if_pos hcard,
        hu', Option.map_some]
    · by_cases hc : ∃ c ∈ l, key ∈ c
      · have ht := get?_tempdict.mpr ⟨l, hl, rfl, hc⟩
        have hp := hin p _ (Dict.get?_eq_some.mp ht)
        rw [hl, Option.bind_some, ht, Option.bind_some, foldlM_remove_filter] at hp
        exact ⟨_, hp, .cut hc (many_of_not_avoided hav hl hc)⟩
      · refine ⟨l, ?_, .untouched fun c hcl hk => hc ⟨c, hcl, hk⟩⟩
        rw [hout p ?_, hl]
        intro hmem
        obtain ⟨⟨q, t⟩, hq, rfl⟩ := List.mem_map.mp hmem
        obtain ⟨l', hl', -, hc'⟩ := get?_tempdict.mp (Dict.get?_eq_some.mpr hq)
        rw [hl] at hl'
        exact hc (Option.some.inj hl' ▸ hc')

def families (d : Part2Prefix κ α) : Families κ α := fun p => (d.get? p).elim ∅ members

def prefixes (l : List (Coll α)) : Finset α := (members l).biUnion id

def NonemptySets (d : Part2Prefix κ α) : Prop :=
  ∀ p l, d.get? p = some l → ∀ c ∈ l, c.toSet.Nonempty

theorem nonemptySets_iff {d : Part2Prefix κ α} :
    NonemptySets d ↔ ∀ kv ∈ d.items, ∀ c ∈ kv.2, c.toSet.Nonempty := by
  constructor
  · exact fun h kv hkv => h kv.1 kv.2 (Dict.get?_eq_some.mpr hkv)
  · exact fun h p l hl => h (p, l) (Dict.get?_eq_some.mp hl)

theorem mem_prefixes {l : List (Coll α)} {x : α} : x ∈ prefixes l ↔ ∃ c ∈ l, x ∈ c := by
  simp only [prefixes, Finset.mem_biUnion, mem_members, id]
  constructor
  · rintro ⟨-, ⟨c, hc, rfl⟩, hx⟩
    exact ⟨c, hc, hx⟩
  · rintro ⟨c, hc, hx⟩
    exact ⟨_, ⟨c, hc, rfl⟩, hx⟩

theorem mem_prefixes_iff_members {l : List (Coll α)} {x : α} :
    x ∈ prefixes l ↔ ∃ T ∈ members l, x ∈ T := by
  simp only [prefixes, Finset.mem_biUnion, id]

theorem families_of_get? {d : Part2Prefix κ α} {p : κ} {l : List (Coll α)}
    (h : d.get? p = some l) : families d p = members l := by
  simp [families, h]

theorem mem_families {d : Part2Prefix κ α} {p : κ} {N : Finset α} :
    N ∈ families d p ↔ ∃ l, d.get? p = some l ∧ N ∈ members l := by
  cases h : d.get? p with
  | none => simp [families, h]
  | some l => simp [families, h]

theorem mem_all_families {d : Part2Prefix κ α} {N : Finset α} :
    N ∈ (families d).all ↔ ∃ p l, d.get? p = some l ∧ N ∈ members l :=
  exists_congr fun _ => mem_families

theorem mem_support_iff {d : Part2Prefix κ α} {x : α} :
    x ∈ support (families d).all ↔ ∃ p l, d.get? p = some l ∧ ∃ c ∈ l, x ∈ c := by
  constructor
  · rintro ⟨N, hN, hx⟩
    obtain ⟨p, l, hl, hNl⟩ := mem_all_families.mp hN
    obtain ⟨c, hc, rfl⟩ := mem_members.mp hNl
    exact ⟨p, l, hl, c, hc, hx⟩
  · rintro ⟨p, l, hl, c, hc, hx⟩
    exact ⟨_, mem_all_families.mpr ⟨p, l, hl, mem_members.mpr ⟨c, hc, rfl⟩⟩, hx⟩

theorem NonemptySets.families {d : Part2Prefix κ α} (h : NonemptySets d) :
    ∀ p, ∀ N ∈ families d p, N.Nonempty := by
  intro p N hN
  obtain ⟨l, hl, hNl⟩ := mem_families.mp hN
  obtain ⟨c, hc, rfl⟩ := mem_members.mp hNl
  exact h p l hl c hc

theorem mem_getPdict {h : Hashing α} {d : Part2Prefix κ α} {key : α} :
    key ∈ getPdict h d ↔ ∃ p l, d.get? p = some l ∧ ∃ c ∈ l, c.len > 1 ∧ key ∈ c := by
  have hinner : ∀ (l : List (Coll α)) (temp : Finset α),
      key ∈ l.foldl (fun temp plist => if plist.len > 1 then temp ∪ plist.toSet else temp) temp ↔
        key ∈ temp ∨ ∃ c ∈ l, c.len > 1 ∧ key ∈ c := by
    intro l
    induction l with
    | nil => simp
    | cons c l ih =>
      intro temp
      rw [List.foldl_cons, ih]
      split_ifs with hc <;> simp [hc, Coll.mem_def, or_assoc]
  have houter : ∀ (items : List (κ × List (Coll α))) (temp : Finset α),
      key ∈ items.foldl (fun temp kv => kv.2.foldl (fun temp plist =>
        if plist.len > 1 then temp ∪ plist.toSet else temp) temp) temp ↔
        key ∈ temp ∨ ∃ kv ∈ items, ∃ c ∈ kv.2, c.len > 1 ∧ key ∈ c := by
    intro items
    induction items with
    | nil => simp
    | cons kv items ih =>
      intro temp
      rw [List.foldl_cons, ih, hinner, or_assoc, List.exists_mem_cons_iff]
  simp only [getPdict, h.mem_arrange, h.mem_enum, houter, Finset.notMem_empty, false_or,
    Prod.exists, Dict.get?_eq_some]

theorem decomposeAround_split {u : Part2Prefix κ α} {key : α}
    (hkey : key ∈ support (families u).all) :
    ∃ u' M, decomposeAround u key = some u' ∧ u'.keys = u.keys ∧
      Split key M (families u) (families u') ∧ ∀ p l, u.get? p = some l →
        ∃ l', u'.get? p = some l' ∧ Passed u key M p l l' := by
  obtain ⟨u', M, hu', hkeys, hM, hpass⟩ := decomposeAround_spec (mem_support_iff.mp hkey)
  refine ⟨u', M, hu', hkeys, ⟨fun x => ?_, fun p N => ?_⟩, hpass⟩
  · rw [hM]
    constructor
    · intro h p T hT hk
      obtain ⟨l, hl, hTl⟩ := mem_families.mp hT
      obtain ⟨c, hc, rfl⟩ := mem_members.mp hTl
      exact h p l hl c hc hk
    · exact fun h p l hl c hc hk =>
        h p c.toSet (mem_families.mpr ⟨l, hl, mem_members.mpr ⟨c, hc, rfl⟩⟩) hk
  · cases hl : u.get? p with
    | none =>
      have hl' : u'.get? p = none := by
        rw [Dict.get?_eq_none] at hl ⊢
        rwa [hkeys]
      simp [families, hl, hl']
    | some l =>
      obtain ⟨l', hl', hp⟩ := hpass p l hl
      rw [families_of_get? hl, families_of_get? hl']
      exact hp.mem_members N

theorem foldlM_decomposeAround {d : Part2Prefix κ α} (ks : List α)
    (hks : ∀ k ∈ ks, k ∈ support (families d).all) (u : Part2Prefix κ α) {done : Set α}
    (hkeys : u.keys = d.keys) (hu : Refines (families d) (families u) done) :
    ∃ u', ks.foldlM decomposeAround u = some u' ∧ u'.keys = d.keys ∧
      Refines (families d) (families u') (done ∪ {k | k ∈ ks}) := by
  induction ks generalizing u done with
  | nil => exact ⟨u, rfl, hkeys, by simpa using hu⟩
  | cons k ks ih =>
    obtain ⟨hk, hks⟩ := List.forall_mem_cons.mp hks
    have hku : k ∈ support (families u).all := by
      obtain ⟨S, ⟨p, hS⟩, hkS⟩ := hk
      obtain ⟨N, hN, hkN, -⟩ := hu.covers p S hS k hkS
      exact ⟨N, ⟨p, hN⟩, hkN⟩
    obtain ⟨u₁, M, hu₁, hkeys₁, hsplit, -⟩ := decomposeAround_split hku
    obtain ⟨u', hu', hkeys', href⟩ := ih hks u₁ (hkeys₁.trans hkeys) (hu.split hsplit)
    refine ⟨u', by rw [List.foldlM_cons, hu₁]; exact hu', hkeys', ?_⟩
    convert href using 1
    ext x
    simp only [Set.mem_union, Set.mem_ofPred_eq, List.mem_cons, Set.mem_insert_iff]
    tauto

theorem foldlM_decomposeAround_invariant {Q : Part2Prefix κ α → Prop}
    (hQ : ∀ u u' key M, key ∈ support (families u).all →
      (∀ x, x ∈ M ↔ ∀ p l, u.get? p = some l → ∀ c ∈ l, key ∈ c → x ∈ c) →
      u'.keys = u.keys →
      (∀ p l, u.get? p = some l → ∃ l', u'.get? p = some l' ∧ Passed u key M p l l') → Q u → Q u')
    (ks : List α) {u u' : Part2Prefix κ α} (hks : ∀ k ∈ ks, k ∈ support (families u).all)
    (hrun : ks.foldlM decomposeAround u = some u') (hu : Q u) : Q u' := by
  induction ks generalizing u with
  | nil => exact Option.some.inj hrun ▸ hu
  | cons k ks ih =>
    obtain ⟨hk, hks⟩ := List.forall_mem_cons.mp hks
    obtain ⟨u₁, M, hu₁, hkeys, hM, hpass⟩ := decomposeAround_spec (mem_support_iff.mp hk)
    rw [List.foldlM_cons, hu₁] at hrun
    refine ih (fun j hj => ?_) hrun (hQ u u₁ k M hk hM hkeys hpass hu)
    obtain ⟨u₂, M₂, hu₂, -, hsplit, -⟩ := decomposeAround_split hk
    obtain rfl : u₁ = u₂ := Option.some.inj (hu₁.symm.trans hu₂)
    obtain ⟨S, ⟨p, hS⟩, hjS⟩ := hks j hj
    obtain ⟨N, hN, hjN, -⟩ := hsplit.piece_of_mem hS hjS
    exact ⟨N, ⟨p, hN⟩, hjN⟩

def DisjointSets (l : List (Coll α)) : Prop := l.Pairwise fun c e => Disjoint c.toSet e.toSet

theorem DisjointSets.disjoint_of_ne {l : List (Coll α)} (h : DisjointSets l) {c e : Coll α}
    (hc : c ∈ l) (he : e ∈ l) (hne : c ≠ e) : Disjoint c.toSet e.toSet :=
  have : Std.Symm fun c e : Coll α => Disjoint c.toSet e.toSet := ⟨fun _ _ h => h.symm⟩
  List.Pairwise.forall h hc he hne

theorem DisjointSets.length_le_card {l : List (Coll α)} (hdisj : DisjointSets l)
    (hne : ∀ c ∈ l, c.toSet.Nonempty) : l.length ≤ (prefixes l).card := by
  induction l with
  | nil => exact Nat.zero_le _
  | cons c l ih =>
    obtain ⟨hc, hl⟩ := List.pairwise_cons.mp hdisj
    have hcard := ih hl fun e he => hne e (List.mem_cons_of_mem c he)
    have hrest : Disjoint c.toSet (prefixes l) := by
      refine Finset.disjoint_left.mpr fun x hx hxl => ?_
      obtain ⟨e, he, hxe⟩ := mem_prefixes.mp hxl
      exact Finset.disjoint_left.mp (hc e he) hx hxe
    have hunion : c.toSet ∪ prefixes l ⊆ prefixes (c :: l) := by
      intro x hx
      rcases Finset.mem_union.mp hx with hx | hx
      · exact mem_prefixes.mpr ⟨c, List.mem_cons_self, hx⟩
      · obtain ⟨e, he, hxe⟩ := mem_prefixes.mp hx
        exact mem_prefixes.mpr ⟨e, List.mem_cons_of_mem c he, hxe⟩
    have hpos := (hne c List.mem_cons_self).card_pos
    have hle := Finset.card_le_card hunion
    rw [Finset.card_union_of_disjoint hrest] at hle
    rw [List.length_cons]
    omega

theorem DisjointSets.filter_eq_single {l : List (Coll α)} (h : DisjointSets l) {key : α}
    (hkey : ∃ c ∈ l, key ∈ c) : ∃ c ∈ l, key ∈ c ∧ l.filter (fun c => decide (key ∈ c)) = [c] := by
  obtain ⟨c, hc, hk⟩ := hkey
  have hf : DisjointSets (l.filter fun c => decide (key ∈ c)) := h.sublist List.filter_sublist
  match hl : l.filter fun c => decide (key ∈ c) with
  | [] => exact absurd (hl ▸ List.mem_filter.mpr ⟨hc, decide_eq_true hk⟩) List.not_mem_nil
  | [e] =>
    obtain ⟨he, hke⟩ := List.mem_filter.mp (hl ▸ List.mem_singleton_self e : e ∈ l.filter _)
    exact ⟨e, he, of_decide_eq_true hke, rfl⟩
  | e :: f :: rest =>
    have hke : ∀ a ∈ l.filter fun c => decide (key ∈ c), key ∈ a := fun a ha =>
      of_decide_eq_true (List.mem_filter.mp ha).2
    rw [hl] at hf hke
    have hd := (List.pairwise_cons.mp hf).1 f List.mem_cons_self
    exact absurd (hke f (List.mem_cons_of_mem _ List.mem_cons_self))
      (Finset.disjoint_left.mp hd (hke e List.mem_cons_self))

theorem Passed.disjointSets {updated : Part2Prefix κ α} {key : α} {M : Finset α} {p : κ}
    {l l' : List (Coll α)} (h : Passed updated key M p l l')
    (hM : ∀ c ∈ l, key ∈ c → M ⊆ c.toSet) (hl : DisjointSets l) : DisjointSets l' := by
  cases h with
  | untouched _ => exact hl
  | avoided _ _ _ _ => exact hl
  | cut hsome _ =>
    obtain ⟨c, hc, hk, hf⟩ := hl.filter_eq_single hsome
    have hpieces : ∀ e ∈ tlistOf M [c], e.toSet ⊆ c.toSet := by
      intro e he
      rcases List.mem_cons.mp he with rfl | he
      · exact hM c hc hk
      · obtain ⟨_, hb, hbe⟩ := List.mem_filterMap.mp he
        obtain ⟨-, hbe⟩ := Option.ite_none_right_eq_some.mp hbe
        obtain rfl := Option.some.inj hbe
        obtain rfl := List.mem_singleton.mp hb
        exact Finset.sdiff_subset
    rw [SetOperations.cut, hf]
    refine List.pairwise_append.mpr ⟨hl.sublist List.filter_sublist, ?_, fun a ha e he => ?_⟩
    · rw [tlistOf, List.filterMap_cons, List.filterMap_nil]
      split
      · exact List.pairwise_singleton _ _
      · rename_i b hb
        obtain ⟨-, hb⟩ := Option.ite_none_right_eq_some.mp hb
        obtain rfl := Option.some.inj hb
        exact List.pairwise_pair.mpr disjoint_sdiff_self_right
    · obtain ⟨hal, hka⟩ := List.mem_filter.mp ha
      have hne : a ≠ c := by
        rintro rfl
        simp [hk] at hka
      exact (hl.disjoint_of_ne hal hc hne).mono_right (hpieces e he)

theorem decomposeAround_keys {u u' : Part2Prefix κ α} {key : α}
    (h : decomposeAround u key = some u') : u'.keys = u.keys := by
  rw [decomposeAround] at h
  split_ifs at h
  · obtain ⟨⟨t, w⟩, hset, rfl⟩ := Option.map_eq_some_iff.mp h
    obtain ⟨minSet, -, hset⟩ := Option.bind_eq_some_iff.mp hset
    split_ifs at hset
    · obtain ⟨w', hw', hr⟩ := Option.map_eq_some_iff.mp hset
      obtain rfl : w' = w := congrArg Prod.snd hr
      refine Runs.foldlM_invariant (P := fun w => w.keys = u.keys) ?_ rfl hw'
      intro w w' kv _ hw hstep
      obtain ⟨cur, hcur, hstep⟩ := Option.bind_eq_some_iff.mp hstep
      obtain ⟨l, -, rfl⟩ := Option.map_eq_some_iff.mp hstep
      rw [Dict.keys_set_of_mem (Dict.mem_keys_iff.mpr ⟨cur, hcur⟩), hw]
    · exact congrArg (Dict.keys ∘ Prod.snd) (Option.some.inj hset).symm
  · exact congrArg Dict.keys (Option.some.inj h).symm

theorem decomposeSimpler_keys {h : Hashing α} {d d' : Part2Prefix κ α} {lcs : List (Coll α)}
    (hrun : decomposeSimpler h d = some (d', lcs)) : d'.keys = d.keys := by
  obtain ⟨u, hu, hr⟩ := Option.map_eq_some_iff.mp hrun
  obtain rfl : u = d' := congrArg Prod.fst hr
  exact Runs.foldlM_invariant (P := fun u => u.keys = d.keys)
    (fun _ _ _ _ hk hstep => (decomposeAround_keys hstep).trans hk) rfl hu

/-- Each participant is left with the atoms inside the union of its sets. -/
structure Decomposed (d d' : Part2Prefix κ α) : Prop where
  keys : d'.keys = d.keys
  atoms : ∀ p l, d.get? p = some l → ∃ l', d'.get? p = some l' ∧
    ∀ N, N ∈ members l' ↔ IsAtom (families d).all N ∧ N ⊆ prefixes l

theorem mem_distinctSets {d : Part2Prefix κ α} {s : Finset α} :
    s ∈ distinctSets d ↔ s ∈ (families d).all := by
  have hinner : ∀ (l : List (Coll α)) (lcs : List (Finset α)),
      s ∈ l.foldl (fun lcs temp => if temp.toSet ∈ lcs then lcs else lcs ++ [temp.toSet]) lcs ↔
        s ∈ lcs ∨ s ∈ members l := by
    intro l
    induction l with
    | nil => simp [members]
    | cons c l ih =>
      intro lcs
      rw [List.foldl_cons, ih]
      split_ifs with hc
      · simp only [mem_members, List.exists_mem_cons_iff]
        exact ⟨Or.imp_right Or.inr, fun h => h.elim Or.inl fun h => h.elim (fun e => Or.inl (e ▸ hc))
          Or.inr⟩
      · simp only [mem_members, List.exists_mem_cons_iff, List.mem_append, List.mem_singleton,
          or_assoc, eq_comm]
  have houter : ∀ (items : List (κ × List (Coll α))) (lcs : List (Finset α)),
      s ∈ items.foldl (fun lcs kv => kv.2.foldl (fun lcs temp =>
        if temp.toSet ∈ lcs then lcs else lcs ++ [temp.toSet]) lcs) lcs ↔
        s ∈ lcs ∨ ∃ kv ∈ items, s ∈ members kv.2 := by
    intro items
    induction items with
    | nil => simp
    | cons kv items ih =>
      intro lcs
      rw [List.foldl_cons, ih, hinner, or_assoc, List.exists_mem_cons_iff]
  simp only [distinctSets, houter, List.not_mem_nil, false_or, mem_all_families, Prod.exists,
    Dict.get?_eq_some]

omit [DecidableEq κ] in
theorem nodup_distinctSets (d : Part2Prefix κ α) : (distinctSets d).Nodup := by
  have hinner : ∀ (l : List (Coll α)) (lcs : List (Finset α)), lcs.Nodup →
      (l.foldl (fun lcs temp => if temp.toSet ∈ lcs then lcs else lcs ++ [temp.toSet])
        lcs).Nodup := by
    intro l
    induction l with
    | nil => exact fun _ h => h
    | cons c l ih =>
      intro lcs h
      rw [List.foldl_cons]
      split_ifs with hc
      · exact ih _ h
      · refine ih _ (List.nodup_append.mpr ⟨h, List.nodup_singleton _, ?_⟩)
        rintro a ha b hb rfl
        exact hc (List.mem_singleton.mp hb ▸ ha)
  have houter : ∀ (items : List (κ × List (Coll α))) (lcs : List (Finset α)), lcs.Nodup →
      (items.foldl (fun lcs kv => kv.2.foldl (fun lcs temp =>
        if temp.toSet ∈ lcs then lcs else lcs ++ [temp.toSet]) lcs) lcs).Nodup := by
    intro items
    induction items with
    | nil => exact fun _ h => h
    | cons kv items ih => exact fun lcs h => ih _ (hinner kv.2 lcs h)
  exact houter d.items [] List.nodup_nil

theorem eq_singleton_of_notMem_getPdict {h : Hashing α} {d : Part2Prefix κ α} {k : α}
    (hk : k ∉ getPdict h d) {T : Finset α} (hT : T ∈ (families d).all) (hkT : k ∈ T) :
    T = {k} := by
  obtain ⟨p, l, hl, hTl⟩ := mem_all_families.mp hT
  obtain ⟨c, hc, rfl⟩ := mem_members.mp hTl
  have hlen : ¬ c.len > 1 := fun hlen => hk (mem_getPdict.mpr ⟨p, l, hl, c, hc, hlen, hkT⟩)
  have hcard : c.toSet.card ≤ c.len := by
    cases c with
    | list l => exact l.toFinset_card_le
    | set s => exact le_rfl
  exact Finset.eq_singleton_iff_unique_mem.mpr ⟨hkT, fun y hy =>
    Finset.card_le_one.mp (by omega) y hy k hkT⟩

theorem getPdict_subset_support {h : Hashing α} {d : Part2Prefix κ α} :
    ∀ k ∈ getPdict h d, k ∈ support (families d).all := by
  intro k hk
  obtain ⟨p, l, hl, c, hc, -, hkc⟩ := mem_getPdict.mp hk
  exact mem_support_iff.mpr ⟨p, l, hl, c, hc, hkc⟩

theorem decomposeSimpler_disjointSets (h : Hashing α) {d d' : Part2Prefix κ α}
    {lcs : List (Coll α)} (hrun : decomposeSimpler h d = some (d', lcs)) {p : κ}
    {l : List (Coll α)} (hl : d.get? p = some l) (hdisj : DisjointSets l) :
    ∃ l', d'.get? p = some l' ∧ DisjointSets l' := by
  obtain ⟨u, hu, hr⟩ := Option.map_eq_some_iff.mp hrun
  obtain rfl : u = d' := congrArg Prod.fst hr
  refine foldlM_decomposeAround_invariant
    (Q := fun u => ∃ l, u.get? p = some l ∧ DisjointSets l) ?_ _ getPdict_subset_support hu
    ⟨l, hl, hdisj⟩
  rintro u u' key M - hM - hpass ⟨l, hl, hdisj⟩
  obtain ⟨l', hl', hp⟩ := hpass p l hl
  exact ⟨l', hl', hp.disjointSets (fun c hc hk x hx => (hM x).mp hx p l hl c hc hk) hdisj⟩

theorem decomposeSimpler_spec (h : Hashing α) {d : Part2Prefix κ α} (hd : NonemptySets d) :
    ∃ (d' : Part2Prefix κ α) (lcs : List (Finset α)),
      decomposeSimpler h d = some (d', lcs.map Coll.set) ∧ Decomposed d d' ∧ lcs.Nodup ∧
      ∀ N, N ∈ lcs ↔ IsAtom (families d).all N := by
  obtain ⟨d', hd', hkeys, href⟩ :=
    foldlM_decomposeAround (getPdict h d) getPdict_subset_support d rfl (Refines.refl hd.families)
  have huniform : ∀ k i j, ∀ N ∈ families d' i, ∀ N' ∈ families d' j, k ∈ N → k ∈ N' →
      N = N' := by
    intro k i j N hN N' hN' hkN hkN'
    by_cases hk : k ∈ getPdict h d
    · exact href.uniform k (Or.inr hk) i j N hN N' hN' hkN hkN'
    · -- outside pdict both pieces are the singleton of k
      have hsingle : ∀ {l P}, P ∈ families d' l → k ∈ P → P = {k} := by
        intro l P hP hkP
        obtain ⟨T, hT, hPT⟩ := href.below l P hP
        rw [eq_singleton_of_notMem_getPdict hk ⟨l, hT⟩ (hPT hkP)] at hPT
        exact (Finset.subset_singleton_iff.mp hPT).resolve_left (Finset.ne_empty_of_mem hkP)
      rw [hsingle hN hkN, hsingle hN' hkN']
  have hatoms := href.mem_iff_isAtom huniform
  have hdec : Decomposed d d' := by
    refine ⟨hkeys, fun p l hl => ?_⟩
    obtain ⟨l', hl'⟩ := Dict.mem_keys_iff.mp (hkeys ▸ Dict.mem_keys_iff.mpr ⟨l, hl⟩ : p ∈ d'.keys)
    refine ⟨l', hl', fun N => ?_⟩
    rw [← families_of_get? hl', hatoms p N, families_of_get? hl]
    exact and_congr_right fun _ => forall₂_congr fun x _ => mem_prefixes_iff_members.symm
  refine ⟨d', distinctSets d', by simp [decomposeSimpler, hd'], hdec, nodup_distinctSets d',
    fun N => ?_⟩
  rw [mem_distinctSets]
  constructor
  · rintro ⟨p, hN⟩
    exact ((hatoms p N).mp hN).1
  · intro hN
    obtain ⟨x, hx⟩ := hN.nonempty
    obtain ⟨S, ⟨p, hS⟩, hxS⟩ := hN.mem_support hx
    refine ⟨p, (hatoms p N).mpr ⟨hN, fun y hy => ⟨S, hS, ?_⟩⟩⟩
    exact hN.subset_of_mem (saturated_of_mem ⟨p, hS⟩) hx hxS y hy

/-- The sets hold the prefixes that occur in the same input collections, of all keys. -/
def IsClass (d : Part2Prefix κ α) (N : Finset α) : Prop :=
  ∃ x, (∃ p, ∃ S ∈ families d p, x ∈ S) ∧
    ∀ y, y ∈ N ↔ ∀ p, ∀ S ∈ families d p, x ∈ S ↔ y ∈ S

structure SplitIntoClasses (d m : Part2Prefix κ α) (lcs : List (Coll α)) : Prop where
  keys : m.keys = d.keys
  nodup : lcs.Nodup
  distinct : lcs.Pairwise fun c e => c.toSet ≠ e.toSet
  classes : ∀ N, N ∈ members lcs ↔ IsClass d N
  kept : ∀ p l, d.get? p = some l → ∃ l', m.get? p = some l' ∧
    ∀ N, N ∈ members l' ↔ IsClass d N ∧ N ⊆ prefixes l

theorem isClass_iff_isAtom {d : Part2Prefix κ α} {N : Finset α} :
    IsClass d N ↔ IsAtom (families d).all N := by
  have hsame : ∀ x y, Same (families d).all x y ↔ ∀ p, ∀ S ∈ families d p, x ∈ S ↔ y ∈ S :=
    fun x y => ⟨fun h p S hS => h S ⟨p, hS⟩, fun h S ⟨p, hS⟩ => h p S hS⟩
  have hsupport : ∀ x, x ∈ support (families d).all ↔ ∃ p, ∃ S ∈ families d p, x ∈ S := fun x =>
    ⟨fun ⟨S, ⟨p, hS⟩, hx⟩ => ⟨p, S, hS, hx⟩, fun ⟨p, S, hS, hx⟩ => ⟨S, ⟨p, hS⟩, hx⟩⟩
  simp only [IsClass, Atoms.IsAtom, hsame, hsupport]

theorem decomposeSimpler_splits (h : Hashing α) {d : Part2Prefix κ α} (hd : NonemptySets d) :
    ∃ (m : Part2Prefix κ α) (lcs : List (Coll α)),
      decomposeSimpler h d = some (m, lcs) ∧ SplitIntoClasses d m lcs := by
  obtain ⟨m, lcs, hrun, hdec, hnd, hlcs⟩ := decomposeSimpler_spec h hd
  have hinj : Function.Injective (Coll.set : Finset α → Coll α) := fun _ _ => Coll.set.inj
  refine ⟨m, _, hrun, hdec.keys, hnd.map hinj, List.pairwise_map.mpr hnd, fun N => ?_,
    fun p l hl => ?_⟩
  · rw [isClass_iff_isAtom, ← hlcs, mem_members]
    simp
  · obtain ⟨l', hl', hmem⟩ := hdec.atoms p l hl
    exact ⟨l', hl', fun N => by rw [hmem, isClass_iff_isAtom]⟩

theorem isClass_congr {d d' : Part2Prefix κ α} (h : ∀ p, d'.get? p = d.get? p) (N : Finset α) :
    IsClass d' N ↔ IsClass d N := by
  simp only [IsClass, families, h]

/-- The result splits the collections into their classes, and as families of sets it is the
same in every iteration order of the mapping and of the sets. -/
theorem decomposeSimpler_classes (h : Hashing α) {d : Part2Prefix κ α} (hd : NonemptySets d) :
    ∃ (m : Part2Prefix κ α) (lcs : List (Coll α)),
      decomposeSimpler h d = some (m, lcs) ∧ SplitIntoClasses d m lcs ∧
      ∀ (h' : Hashing α) (d' : Part2Prefix κ α), (∀ p, d'.get? p = d.get? p) →
        ∃ (m' : Part2Prefix κ α) (lcs' : List (Coll α)),
          decomposeSimpler h' d' = some (m', lcs') ∧ members lcs' = members lcs ∧
          ∀ p, families m' p = families m p := by
  obtain ⟨m, lcs, hrun, hsplit⟩ := decomposeSimpler_splits h hd
  refine ⟨m, lcs, hrun, hsplit, fun h' d' hget => ?_⟩
  have hd' : NonemptySets d' := fun p l hl => hd p l (hget p ▸ hl)
  obtain ⟨m', lcs', hrun', hsplit'⟩ := decomposeSimpler_splits h' hd'
  refine ⟨m', lcs', hrun', ?_, fun p => ?_⟩
  · ext N
    rw [hsplit'.classes, hsplit.classes, isClass_congr hget]
  · cases hl : d.get? p with
    | none =>
      have hnone : m.get? p = none ∧ m'.get? p = none := by
        rw [Dict.get?_eq_none, Dict.get?_eq_none, hsplit.keys, hsplit'.keys, ← Dict.get?_eq_none,
          ← Dict.get?_eq_none, hget]
        exact ⟨hl, hl⟩
      rw [families, families, hnone.1, hnone.2]
    | some l =>
      obtain ⟨l₁, hl₁, hmem₁⟩ := hsplit.kept p l hl
      obtain ⟨l₂, hl₂, hmem₂⟩ := hsplit'.kept p l ((hget p).trans hl)
      rw [families_of_get? hl₁, families_of_get? hl₂]
      ext N
      simp only [hmem₁, hmem₂, isClass_congr hget]

def overlapping : Part2Prefix ℕ ℕ where
  items := [(1, [.list [4, 2, 4], .list [2, 7]]), (2, [.set {7}, .list [2]])]
  nodup := by decide

theorem decomposeSimpler_classes_overlapping : ∃ (m : Part2Prefix ℕ ℕ) (lcs : List (Coll ℕ)),
    decomposeSimpler .ascending overlapping = some (m, lcs) ∧ SplitIntoClasses overlapping m lcs ∧
    ∀ (h' : Hashing ℕ) (d' : Part2Prefix ℕ ℕ), (∀ p, d'.get? p = overlapping.get? p) →
      ∃ (m' : Part2Prefix ℕ ℕ) (lcs' : List (Coll ℕ)),
        decomposeSimpler h' d' = some (m', lcs') ∧ members lcs' = members lcs ∧
        ∀ p, families m' p = families m p :=
  decomposeSimpler_classes .ascending (nonemptySets_iff.mpr (by decide))

end Hispar.SetOperations
