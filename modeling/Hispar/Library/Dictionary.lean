import Mathlib

/-!
# Dictionaries with an unspecified iteration order

A dictionary is listed in the order a loop over it visits its keys. A new
dictionary may come out in any order of its keys: the order is a function of
the sequence in which the keys went in, about which nothing is assumed but that
it permutes them. The members of a set are enumerated in an order as arbitrary.
-/
namespace Hispar.Library

/-- How a runtime orders the keys of a new dictionary. -/
structure DictOrder (κ : Type*) where
  arrange : List κ → List κ
  arrange_perm : ∀ l, (arrange l).Perm l

/-- How a runtime orders the keys of a new dictionary and the members of a set. -/
structure Hashing (κ : Type*) extends DictOrder κ where
  enum : Finset κ → List κ
  nodup_enum : ∀ s, (enum s).Nodup
  mem_enum : ∀ s x, x ∈ enum s ↔ x ∈ s

theorem DictOrder.mem_arrange {κ : Type*} (h : DictOrder κ) (l : List κ) (x : κ) :
    x ∈ h.arrange l ↔ x ∈ l := (h.arrange_perm l).mem_iff

theorem Hashing.toFinset_enum {κ : Type*} [DecidableEq κ] (h : Hashing κ) (s : Finset κ) :
    (h.enum s).toFinset = s := by
  ext x
  rw [List.mem_toFinset, h.mem_enum]

theorem Hashing.enum_singleton {κ : Type*} (h : Hashing κ) (x : κ) : h.enum {x} = [x] := by
  have hperm : (h.enum {x}).Perm [x] :=
    (List.perm_ext_iff_of_nodup (h.nodup_enum _) (List.nodup_singleton x)).mpr fun y => by
      rw [h.mem_enum, Finset.mem_singleton, List.mem_singleton]
  exact List.perm_singleton.mp hperm

def DictOrder.insertion {κ : Type*} : DictOrder κ := ⟨id, fun l => List.Perm.refl l⟩

def Hashing.sorted {κ : Type*} [LinearOrder κ] : Hashing κ where
  toDictOrder := .insertion
  enum s := s.sort
  nodup_enum s := s.sort_nodup _
  mem_enum s _ := s.mem_sort _

theorem Hashing.pairwise_sorted {κ : Type*} [LinearOrder κ] (s : Finset κ) :
    ((Hashing.sorted : Hashing κ).enum s).Pairwise (· ≤ ·) := s.pairwise_sort _

def Hashing.ascending : Hashing ℕ where
  toDictOrder := .insertion
  enum s := (List.range (s.sup id + 1)).filter (· ∈ s)
  nodup_enum _ := List.nodup_range.filter _
  mem_enum s x := by
    have hle : x ∈ s → x < s.sup id + 1 := fun hx => Nat.lt_succ_of_le (Finset.le_sup (f := id) hx)
    simpa using hle

theorem toFinset_injOn_sublists {L : List ℕ} (hL : L.Pairwise (· < ·)) :
    ∀ l ∈ L.sublists, ∀ l' ∈ L.sublists, l.toFinset = l'.toFinset → l = l' := by
  intro l hl l' hl' h
  have hs := hL.sublist (List.mem_sublists.mp hl)
  have hs' := hL.sublist (List.mem_sublists.mp hl')
  have hnd := hs.imp (fun h => Nat.ne_of_lt h)
  have hnd' := hs'.imp (fun h => Nat.ne_of_lt h)
  exact (List.perm_of_nodup_nodup_toFinset_eq hnd hnd' h).eq_of_pairwise
    (fun _ _ _ _ h h' => absurd h (Nat.lt_asymm h')) hs hs'

def Hashing.subsets : Hashing (Finset ℕ) where
  toDictOrder := .insertion
  enum P := ((List.range (P.sup fun S => S.sup id + 1)).sublists.map List.toFinset).filter (· ∈ P)
  nodup_enum P := ((List.nodup_sublists.mpr List.nodup_range).map_on
    (toFinset_injOn_sublists List.pairwise_lt_range)).filter _
  mem_enum P S := by
    rw [List.mem_filter, decide_eq_true_eq, and_iff_right_iff_imp]
    intro hS
    refine List.mem_map.mpr ⟨(List.range (P.sup fun S => S.sup id + 1)).filter (· ∈ S),
      List.mem_sublists.mpr List.filter_sublist, ?_⟩
    ext x
    rw [List.mem_toFinset, List.mem_filter, decide_eq_true_eq, and_iff_right_iff_imp, List.mem_range]
    intro hx
    have h₁ : x < S.sup id + 1 := Nat.lt_succ_of_le (Finset.le_sup (f := id) hx)
    exact h₁.trans_le (Finset.le_sup (f := fun S : Finset ℕ => S.sup id + 1) hS)

@[ext] structure Dict (κ β : Type*) where
  items : List (κ × β)
  nodup : (items.map Prod.fst).Nodup
  deriving DecidableEq

namespace Dict
variable {κ β γ : Type*}

def keys (d : Dict κ β) : List κ := d.items.map Prod.fst

def values (d : Dict κ β) : List β := d.items.map Prod.snd

def empty : Dict κ β := ⟨[], List.nodup_nil⟩

def single (k : κ) (v : β) : Dict κ β := ⟨[(k, v)], List.nodup_singleton k⟩

def mapValues (f : κ → β → γ) (d : Dict κ β) : Dict κ γ where
  items := d.items.map fun kv => (kv.1, f kv.1 kv.2)
  nodup := by simpa [List.map_map, Function.comp_def] using d.nodup

def filterMapValues (f : κ → β → Option γ) (d : Dict κ β) : Dict κ γ where
  items := d.items.filterMap fun kv => (f kv.1 kv.2).map (kv.1, ·)
  nodup := by
    refine d.nodup.sublist ?_
    induction d.items with
    | nil => exact List.Sublist.slnil
    | cons kv l ih =>
      cases h : f kv.1 kv.2 with
      | none => simpa [List.filterMap_cons, h] using ih.trans (List.sublist_cons_self _ _)
      | some v => simpa [List.filterMap_cons, h] using ih

theorem nodup_keys (d : Dict κ β) : d.keys.Nodup := d.nodup

theorem notMem_visited {d : Dict κ β} {done rest : List (κ × β)} {kv : κ × β}
    (h : d.items = done ++ kv :: rest) : kv.1 ∉ done.map Prod.fst := by
  have hnodup := d.nodup
  rw [h, List.map_append, List.map_cons] at hnodup
  exact fun hd => List.disjoint_of_nodup_append hnodup hd List.mem_cons_self

@[simp] theorem keys_single (k : κ) (v : β) : (single k v).keys = [k] := rfl

@[simp] theorem keys_mapValues (f : κ → β → γ) (d : Dict κ β) :
    (d.mapValues f).keys = d.keys := by
  simp [keys, mapValues, List.map_map, Function.comp_def]

variable [DecidableEq κ]

def get? (d : Dict κ β) (k : κ) : Option β := (d.items.find? fun kv => kv.1 = k).map Prod.snd

theorem get?_eq_some {d : Dict κ β} {k : κ} {v : β} : d.get? k = some v ↔ (k, v) ∈ d.items := by
  unfold get?
  constructor
  · intro h
    obtain ⟨⟨a, b⟩, hf, rfl⟩ := Option.map_eq_some_iff.mp h
    have ha : a = k := by simpa using List.find?_some hf
    exact ha ▸ List.mem_of_find?_eq_some hf
  · intro h
    cases hf : d.items.find? fun kv => kv.1 = k with
    | none => exact absurd (List.find?_eq_none.mp hf _ h) (by simp)
    | some kv =>
      obtain ⟨a, b⟩ := kv
      have ha : a = k := by simpa using List.find?_some hf
      have hm := List.mem_of_find?_eq_some hf
      have he := List.inj_on_of_nodup_map d.nodup hm h ha
      exact congrArg (some ∘ Prod.snd) he

theorem get?_eq_none {d : Dict κ β} {k : κ} : d.get? k = none ↔ k ∉ d.keys := by
  rw [get?, Option.map_eq_none_iff, List.find?_eq_none, keys, List.mem_map]
  constructor
  · rintro h ⟨kv, hkv, rfl⟩
    exact absurd (h kv hkv) (by simp)
  · intro h kv hkv
    simpa using fun he => h ⟨kv, hkv, he⟩

theorem filter_items (d : Dict κ β) (k : κ) :
    d.items.filter (fun kv => kv.1 = k) = ((d.get? k).map (k, ·)).toList := by
  have hnodup := d.nodup
  unfold get?
  generalize d.items = l at hnodup ⊢
  induction l with
  | nil => rfl
  | cons kv l ih =>
    obtain ⟨hkv, hl⟩ := List.nodup_cons.mp hnodup
    rw [List.filter_cons, List.find?_cons]
    by_cases hk : kv.1 = k
    · subst hk
      have hnone : l.filter (fun kv' => kv'.1 = kv.1) = [] :=
        List.filter_eq_nil_iff.mpr fun kv' hkv' he =>
          hkv (of_decide_eq_true he ▸ List.mem_map_of_mem hkv')
      simp [hnone]
    · simp only [hk, decide_false, Bool.false_eq_true, if_false]
      exact ih hl

theorem mem_keys_iff {d : Dict κ β} {k : κ} : k ∈ d.keys ↔ ∃ v, d.get? k = some v := by
  rw [← not_iff_not, ← get?_eq_none, Option.eq_none_iff_forall_ne_some, not_exists]

theorem ext_of_get? {d e : Dict κ β} (hk : d.keys = e.keys) (hg : ∀ k, d.get? k = e.get? k) :
    d.items = e.items := by
  refine List.ext_getElem ?_ fun i hi hj => ?_
  · simpa [keys] using congrArg List.length hk
  · have hki : (d.items[i]).1 = (e.items[i]).1 := by
      have := congrArg (fun l => l[i]?) hk
      simpa [keys, List.getElem?_map, hi, hj] using this
    have hd : d.get? (d.items[i]).1 = some (d.items[i]).2 :=
      get?_eq_some.mpr (List.getElem_mem hi)
    have he : e.get? (e.items[i]).1 = some (e.items[i]).2 :=
      get?_eq_some.mpr (List.getElem_mem hj)
    rw [hg, hki, he] at hd
    exact Prod.ext hki (Option.some.inj hd).symm

@[simp] theorem get?_empty (k : κ) : (empty : Dict κ β).get? k = none := rfl

@[simp] theorem get?_single (k j : κ) (v : β) :
    (single k v).get? j = if k = j then some v else none := by
  by_cases h : k = j <;> simp [get?, single, h]

theorem items_eq_single {d : Dict κ β} {k : κ} {v : β} (h : d.get? k = some v)
    (hk : ∀ j ∈ d.keys, j = k) : d.items = [(k, v)] := by
  obtain ⟨n, hn⟩ : ∃ n, d.keys = List.replicate n k := ⟨_, List.eq_replicate_of_mem hk⟩
  have hle : n ≤ 1 := List.nodup_replicate.mp (hn ▸ d.nodup_keys)
  have hpos : k ∈ List.replicate n k := hn ▸ mem_keys_iff.mpr ⟨v, h⟩
  obtain rfl : n = 1 := by
    have := List.length_pos_of_mem hpos
    rw [List.length_replicate] at this
    omega
  refine ext_of_get? (e := single k v) hn fun j => ?_
  rw [get?_single]
  split_ifs with hj
  · exact hj ▸ h
  · exact get?_eq_none.mpr fun hm => hj (hk j hm).symm

@[simp] theorem get?_mapValues (f : κ → β → γ) (d : Dict κ β) (k : κ) :
    (d.mapValues f).get? k = (d.get? k).map (f k) := by
  cases h : d.get? k with
  | none =>
    rw [get?_eq_none] at h
    rw [Option.map_none, get?_eq_none, keys_mapValues]
    exact h
  | some v =>
    rw [get?_eq_some] at h
    exact get?_eq_some.mpr (List.mem_map.mpr ⟨(k, v), h, rfl⟩)

@[simp] theorem get?_filterMapValues (f : κ → β → Option γ) (d : Dict κ β) (k : κ) :
    (d.filterMapValues f).get? k = (d.get? k).bind (f k) := by
  refine Option.ext fun v => ?_
  rw [get?_eq_some, Option.bind_eq_some_iff]
  constructor
  · intro h
    obtain ⟨⟨j, w⟩, hm, hf⟩ := List.mem_filterMap.mp h
    obtain ⟨v', hv', he⟩ := Option.map_eq_some_iff.mp hf
    obtain ⟨rfl, rfl⟩ := Prod.mk.injEq .. ▸ he
    exact ⟨w, get?_eq_some.mpr hm, hv'⟩
  · rintro ⟨w, hw, hv⟩
    exact List.mem_filterMap.mpr ⟨(k, w), get?_eq_some.mp hw, by simp [hv]⟩

/-- Assignment to a key: in place when the key is there, else a new entry. -/
def set (d : Dict κ β) (k : κ) (v : β) : Dict κ β :=
  if h : k ∈ d.keys then d.mapValues fun j w => if j = k then v else w
  else ⟨d.items ++ [(k, v)], by
    simpa [List.nodup_append, keys, or_imp] using ⟨d.nodup, fun a b hab => by
      rintro rfl; exact h (List.mem_map.mpr ⟨(a, b), hab, rfl⟩)⟩⟩

theorem keys_set_of_mem {d : Dict κ β} {k : κ} (h : k ∈ d.keys) (v : β) :
    (d.set k v).keys = d.keys := by
  simp [set, h]

theorem keys_set_of_notMem {d : Dict κ β} {k : κ} (h : k ∉ d.keys) (v : β) :
    (d.set k v).keys = d.keys ++ [k] := by
  rw [set, dif_neg h]
  simp [keys]

theorem mem_keys_set {d : Dict κ β} {k j : κ} {v : β} :
    j ∈ (d.set k v).keys ↔ j = k ∨ j ∈ d.keys := by
  by_cases h : k ∈ d.keys
  · rw [keys_set_of_mem h]
    exact ⟨Or.inr, fun hj => hj.elim (fun e => e ▸ h) id⟩
  · rw [keys_set_of_notMem h, List.mem_append, List.mem_singleton, or_comm]

theorem get?_set (d : Dict κ β) (k j : κ) (v : β) :
    (d.set k v).get? j = if j = k then some v else d.get? j := by
  by_cases h : k ∈ d.keys
  · simp only [set, h, dif_pos, get?_mapValues]
    split_ifs with hj
    · obtain ⟨w, hw⟩ := mem_keys_iff.mp (hj ▸ h : j ∈ d.keys)
      simp [hw]
    · simp
  · have hfind : d.items.find? (fun kv => kv.1 = k) = none := by
      rw [← Option.map_eq_none_iff (f := Prod.snd)]
      exact get?_eq_none.mpr h
    simp only [set, h, dif_neg, not_false_iff, get?, List.find?_append]
    split_ifs with hj
    · simp [hj, hfind]
    · simp [Ne.symm hj]

@[simp] theorem get?_set_self (d : Dict κ β) (k : κ) (v : β) : (d.set k v).get? k = some v := by
  simp [get?_set]

theorem get?_set_of_ne (d : Dict κ β) {k j : κ} (v : β) (h : j ≠ k) :
    (d.set k v).get? j = d.get? j := by
  simp [get?_set, h]

theorem items_set_of_notMem {d : Dict κ β} {k : κ} (h : k ∉ d.keys) (v : β) :
    (d.set k v).items = d.items ++ [(k, v)] := by
  rw [set, dif_neg h]

theorem items_foldl_set {l : List (κ × β)} {d : Dict κ β} (h : (d.keys ++ l.map Prod.fst).Nodup) :
    (l.foldl (fun d kv => d.set kv.1 kv.2) d).items = d.items ++ l := by
  induction l generalizing d with
  | nil => exact (List.append_nil _).symm
  | cons kv l ih =>
    have hnew : kv.1 ∉ d.keys := fun hk =>
      List.disjoint_of_nodup_append h hk (List.mem_cons_self)
    have hkeys : ((d.set kv.1 kv.2).keys ++ l.map Prod.fst).Nodup := by
      rw [keys_set_of_notMem hnew, List.append_assoc]
      exact h
    rw [List.foldl_cons, ih hkeys, items_set_of_notMem hnew, List.append_assoc]
    rfl

def modify (d : Dict κ β) (k : κ) (f : β → β) : Dict κ β :=
  d.mapValues fun j v => if j = k then f v else v

@[simp] theorem keys_modify (d : Dict κ β) (k : κ) (f : β → β) : (d.modify k f).keys = d.keys :=
  keys_mapValues _ d

theorem get?_modify (d : Dict κ β) (k j : κ) (f : β → β) :
    (d.modify k f).get? j = if j = k then (d.get? j).map f else d.get? j := by
  rw [modify, get?_mapValues]
  split_ifs
  · rfl
  · rw [Option.map_id']

theorem modify_self {d : Dict κ β} {k : κ} {v : β} (h : d.get? k = some v) :
    d.modify k (fun _ => v) = d := by
  apply Dict.ext
  apply ext_of_get? (keys_modify d k _)
  intro j
  rw [get?_modify]
  split_ifs with hj
  · rw [hj, h, Option.map_some]
  · rfl

def erase (d : Dict κ β) (k : κ) : Dict κ β :=
  ⟨d.items.filter fun kv => kv.1 ≠ k, d.nodup.sublist (List.filter_sublist.map _)⟩

theorem get?_erase (d : Dict κ β) (k j : κ) :
    (d.erase k).get? j = if j = k then none else d.get? j := by
  refine Option.ext fun v => ?_
  rw [get?_eq_some, erase, List.mem_filter]
  split_ifs with h
  · simp [h]
  · simp [h, get?_eq_some]

theorem mem_keys_erase {d : Dict κ β} {k j : κ} : j ∈ (d.erase k).keys ↔ j ≠ k ∧ j ∈ d.keys := by
  rw [mem_keys_iff, get?_erase, mem_keys_iff]
  split_ifs with h <;> simp [h]

theorem get?_foldl_erase {γ : Type*} (f : γ → κ) (l : List γ) (d : Dict κ β) (j : κ) :
    (l.foldl (fun d c => d.erase (f c)) d).get? j = if j ∈ l.map f then none else d.get? j := by
  induction l generalizing d with
  | nil => simp
  | cons c l ih =>
    rw [List.foldl_cons, ih, get?_erase]
    by_cases hj : j = f c <;> simp [hj]

theorem length_of_removed {d e : Dict κ β} {l : List κ} (hl : l.Nodup) (hmem : ∀ k ∈ l, k ∈ d.keys)
    (he : ∀ k, e.get? k = if k ∈ l then none else d.get? k) :
    e.items.length + l.length = d.items.length := by
  have hdisjoint : e.keys.Disjoint l := by
    intro k hk hkl
    obtain ⟨v, hv⟩ := mem_keys_iff.mp hk
    rw [he, if_pos hkl] at hv
    cases hv
  have hperm : (e.keys ++ l).Perm d.keys := by
    refine (List.perm_ext_iff_of_nodup (List.nodup_append'.mpr ⟨e.nodup_keys, hl, hdisjoint⟩)
      d.nodup_keys).mpr fun k => ?_
    rw [List.mem_append, mem_keys_iff, he]
    by_cases hk : k ∈ l
    · simp [hk, hmem k hk]
    · simp [hk, mem_keys_iff]
  simpa [keys] using hperm.length_eq

def valuesIn (h : DictOrder κ) (d : Dict κ β) : List β := (h.arrange d.keys).filterMap d.get?

theorem mem_valuesIn {h : DictOrder κ} {d : Dict κ β} {v : β} :
    v ∈ d.valuesIn h ↔ ∃ k, d.get? k = some v := by
  simp only [valuesIn, List.mem_filterMap, h.mem_arrange, mem_keys_iff]
  constructor
  · rintro ⟨k, -, hk⟩
    exact ⟨k, hk⟩
  · rintro ⟨k, hk⟩
    exact ⟨k, ⟨v, hk⟩, hk⟩

theorem nodup_map_valuesIn {h : DictOrder κ} {d : Dict κ β} {f : β → κ}
    (hf : ∀ k v, d.get? k = some v → f v = k) : ((d.valuesIn h).map f).Nodup := by
  have hkeys : (d.valuesIn h).map f = h.arrange d.keys := by
    rw [valuesIn, List.map_filterMap]
    refine (List.filterMap_congr fun k hk => ?_).trans List.filterMap_some
    obtain ⟨v, hv⟩ := mem_keys_iff.mp ((h.mem_arrange _ k).mp hk)
    rw [hv, Option.map_some, hf k v hv]
  rw [hkeys]
  exact (h.arrange_perm _).nodup_iff.mpr d.nodup_keys

theorem foldlM_set (g : κ → γ → β → Option β) (l : List (κ × γ)) (hl : (l.map Prod.fst).Nodup)
    (u : Dict κ β) (hg : ∀ k c, (k, c) ∈ l → ∃ b b', u.get? k = some b ∧ g k c b = some b') :
    ∃ u', l.foldlM (fun u kv => (u.get? kv.1).bind fun b => (g kv.1 kv.2 b).map (u.set kv.1)) u =
        some u' ∧ u'.keys = u.keys ∧ (∀ k, k ∉ l.map Prod.fst → u'.get? k = u.get? k) ∧
      ∀ k c, (k, c) ∈ l → u'.get? k = (u.get? k).bind (g k c) := by
  induction l generalizing u with
  | nil => exact ⟨u, rfl, rfl, fun _ _ => rfl, fun _ _ h => absurd h List.not_mem_nil⟩
  | cons kc l ih =>
    obtain ⟨k, c⟩ := kc
    obtain ⟨hk, hl⟩ := List.nodup_cons.mp hl
    obtain ⟨b, b', hb, hb'⟩ := hg k c List.mem_cons_self
    have hmem : k ∈ u.keys := mem_keys_iff.mpr ⟨b, hb⟩
    have hother : ∀ {j e}, (j, e) ∈ l → j ≠ k := fun hj he =>
      hk (List.mem_map.mpr ⟨_, hj, he⟩)
    obtain ⟨u', hu', hkeys, hout, hin⟩ := ih hl (u.set k b') fun j e hj => by
      rw [get?_set_of_ne _ _ (hother hj)]
      exact hg j e (List.mem_cons_of_mem _ hj)
    refine ⟨u', ?_, hkeys.trans (keys_set_of_mem hmem b'), fun j hj => ?_, fun j e hj => ?_⟩
    · rw [List.foldlM_cons, hb, Option.bind_some, hb']
      exact hu'
    · simp only [List.map_cons, List.mem_cons, not_or] at hj
      rw [hout j hj.2, get?_set_of_ne _ _ hj.1]
    · rcases List.mem_cons.mp hj with he | hj
      · obtain ⟨rfl, rfl⟩ := Prod.mk.injEq .. ▸ he
        rw [hout j hk, get?_set_self, hb, Option.bind_some, hb']
      · rw [hin j e hj, get?_set_of_ne _ _ (hother hj)]

def lastValue (l : List (κ × β)) (k : κ) : Option β :=
  (l.reverse.find? fun kv => kv.1 = k).map Prod.snd

theorem lastValue_eq_none {l : List (κ × β)} {k : κ} :
    lastValue l k = none ↔ k ∉ l.map Prod.fst := by
  simp only [lastValue, Option.map_eq_none_iff, List.find?_eq_none, List.mem_reverse,
    decide_eq_true_eq, List.mem_map, not_exists, not_and]

theorem lastValue_append (l m : List (κ × β)) (k : κ) :
    lastValue (l ++ m) k = (lastValue m k).or (lastValue l k) := by
  simp only [lastValue, List.reverse_append, List.find?_append]
  cases m.reverse.find? fun kv => kv.1 = k <;> simp

theorem lastValue_items (d : Dict κ β) (k : κ) : lastValue d.items k = d.get? k := by
  have hn : (d.items.reverse.map Prod.fst).Nodup := by
    rw [List.map_reverse]
    exact List.nodup_reverse.mpr d.nodup
  have hrev : lastValue d.items k = (⟨d.items.reverse, hn⟩ : Dict κ β).get? k := rfl
  rw [hrev]
  refine Option.ext fun v => ?_
  rw [get?_eq_some, get?_eq_some, List.mem_reverse]

theorem lastValue_of_mem {l : List (κ × β)} (hl : (l.map Prod.fst).Nodup) {k : κ} {v : β}
    (h : (k, v) ∈ l) : lastValue l k = some v :=
  (lastValue_items ⟨l, hl⟩ k).trans (get?_eq_some.mpr h)

theorem get?_foldl_set (l : List (κ × β)) (d : Dict κ β) (k : κ) :
    (l.foldl (fun d kv => d.set kv.1 kv.2) d).get? k = (lastValue l k).or (d.get? k) := by
  induction l generalizing d with
  | nil => rfl
  | cons kv l ih =>
    have hone : lastValue [kv] k = if k = kv.1 then some kv.2 else none := by
      by_cases hk : k = kv.1 <;> simp [lastValue, hk, eq_comm]
    rw [List.foldl_cons, ih, ← List.singleton_append, lastValue_append, hone, get?_set, Option.or_assoc]
    split_ifs <;> rfl

omit [DecidableEq κ] in
theorem map_fst_filterMap (f : κ → Option β) {ks : List κ} (hks : ∀ k ∈ ks, f k ≠ none) :
    (ks.filterMap fun k => (f k).map (k, ·)).map Prod.fst = ks := by
  induction ks with
  | nil => rfl
  | cons k ks ih =>
    obtain ⟨v, hv⟩ := Option.ne_none_iff_exists'.mp (hks k List.mem_cons_self)
    simp [hv, ih fun j hj => hks j (List.mem_cons_of_mem k hj)]

theorem lastValue_filterMap (f : κ → Option β) (ks : List κ) (k : κ) :
    lastValue (ks.filterMap fun k => (f k).map (k, ·)) k = if k ∈ ks then f k else none := by
  induction ks with
  | nil => rfl
  | cons j ks ih =>
    rw [← List.singleton_append, List.filterMap_append, lastValue_append, ih]
    by_cases hj : k = j
    · subst hj
      cases hf : f k with
      | none => simp [hf, lastValue]
      | some v => split_ifs <;> simp_all [lastValue]
    · have hjk : lastValue ([j].filterMap fun k => (f k).map (k, ·)) k = none := by
        cases hf : f j <;> simp [hf, lastValue, Ne.symm hj]
      simp [hj, hjk]

theorem lastValue_ne_none_of_mem_arrange (h : DictOrder κ) {l : List (κ × β)} :
    ∀ k ∈ h.arrange (l.map Prod.fst).dedup, lastValue l k ≠ none :=
  fun k hk e => lastValue_eq_none.mp e (List.mem_dedup.mp ((h.mem_arrange _ k).mp hk))

def ofItems (h : DictOrder κ) (l : List (κ × β)) : Dict κ β where
  items := (h.arrange (l.map Prod.fst).dedup).filterMap fun k => (lastValue l k).map (k, ·)
  nodup := by
    rw [map_fst_filterMap _ (lastValue_ne_none_of_mem_arrange h)]
    exact (h.arrange_perm _).nodup_iff.mpr (List.nodup_dedup _)

@[simp] theorem keys_ofItems (h : DictOrder κ) (l : List (κ × β)) :
    (ofItems h l).keys = h.arrange (l.map Prod.fst).dedup :=
  map_fst_filterMap _ (lastValue_ne_none_of_mem_arrange h)

theorem mem_keys_ofItems (h : DictOrder κ) (l : List (κ × β)) (k : κ) :
    k ∈ (ofItems h l).keys ↔ k ∈ l.map Prod.fst := by
  rw [keys_ofItems, h.mem_arrange, List.mem_dedup]

@[simp] theorem get?_ofItems (h : DictOrder κ) (l : List (κ × β)) (k : κ) :
    (ofItems h l).get? k = lastValue l k := by
  cases hv : lastValue l k with
  | none =>
    rw [get?_eq_none, mem_keys_ofItems]
    exact lastValue_eq_none.mp hv
  | some v =>
    have hk : k ∈ l.map Prod.fst := by
      by_contra hn
      rw [lastValue_eq_none.mpr hn] at hv
      cases hv
    rw [get?_eq_some]
    refine List.mem_filterMap.mpr ⟨k, ?_, by rw [hv]; rfl⟩
    exact (h.mem_arrange _ k).mpr (List.mem_dedup.mpr hk)

end Dict
end Hispar.Library
