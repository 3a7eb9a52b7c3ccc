import Hispar.Library.Dictionary
import Hispar.Library.Runs

/-!
# The routes that a speaker has for a neighbor

A command puts a change of one prefix into the store of each neighbor. The changes wait
there, under their prefix and again under their attributes, until a generator sends them
group by group. It is suspended at each update, and commands come in between. When a
group is out, its changes go into a table, from which the routes are taken when the
session is set up again.
-/
namespace Hispar.Exabgp
open Library

inductive OUT where
  | announce
  | withdraw
  deriving DecidableEq

/-- The prefix is given by `nlri.index()`. -/
structure Change (κ A : Type*) where
  nlri : κ
  action : OUT
  attributes : A
  deriving DecidableEq

structure Update (κ A : Type*) where
  nlris : List (κ × OUT)
  attributes : A
  deriving DecidableEq

/-- A dictionary of waiting changes is kept with the number of its making: the generator
holds on to the dictionaries it found, and one that was made again is another. -/
structure Store (κ φ ι A : Type*) where
  cache : Bool
  announced : Dict φ (Dict κ (Change κ A))
  modifyNlri : Dict κ (Change κ A)
  modifySorted : Dict ι (ℕ × Dict κ (Change κ A))
  cacheAttribute : Dict ι (Change κ A)
  made : ℕ

def Store.init {κ φ ι A : Type*} (cache : Bool) : Store κ φ ι A :=
  ⟨cache, .empty, .empty, .empty, .empty, 0⟩

/-- The generator between two updates: the groups that are left, the updates that are
left of this one, and its changes. -/
structure Pass (κ ι A : Type*) where
  rest : List (ι × ℕ)
  sending : List (Update κ A)
  changed : List (Change κ A)

section sorted
variable {κ ι β : Type*} [DecidableEq κ] [DecidableEq ι]

def withoutChange (sorted : Dict ι (ℕ × Dict κ β)) (a : ι) (b : ℕ × Dict κ β) (k : κ) :
    Dict ι (ℕ × Dict κ β) :=
  if (b.2.erase k).items.isEmpty then sorted.erase a else sorted.set a (b.1, b.2.erase k)

theorem withoutChange_get? (sorted : Dict ι (ℕ × Dict κ β)) (a : ι) (b : ℕ × Dict κ β) (k : κ) (a' : ι) :
    (withoutChange sorted a b k).get? a' =
      if a' = a then if (b.2.erase k).items.isEmpty then none else some (b.1, b.2.erase k)
      else sorted.get? a' := by
  rw [withoutChange]
  by_cases ha : a' = a
  · rw [if_pos ha, ha]
    split_ifs
    · rw [Dict.get?_erase, if_pos rfl]
    · rw [Dict.get?_set_self]
  · rw [if_neg ha]
    split_ifs
    · rw [Dict.get?_erase, if_neg ha]
    · rw [Dict.get?_set_of_ne _ _ ha]

def queuedIn (sorted : Dict ι (ℕ × Dict κ β)) (a : ι) (k : κ) : Option β :=
  (sorted.get? a).bind fun b => b.2.get? k

variable {sorted : Dict ι (ℕ × Dict κ β)} {a : ι} {b : ℕ × Dict κ β} {k : κ}

theorem queuedIn_withoutChange (hb : sorted.get? a = some b) (a' : ι) (j : κ) :
    queuedIn (withoutChange sorted a b k) a' j =
      if a' = a ∧ j = k then none else queuedIn sorted a' j := by
  have herase := b.2.get?_erase k j
  rw [queuedIn, withoutChange_get?, queuedIn]
  by_cases ha : a' = a
  · subst ha
    rw [if_pos rfl, hb, Option.bind_some]
    simp only [true_and, ← herase]
    split_ifs with hempty
    · rw [Dict.get?, List.isEmpty_iff.mp hempty]
      rfl
    · rfl
  · simp [ha]

theorem queuedIn_set (sorted : Dict ι (ℕ × Dict κ β)) (a : ι) (b : ℕ × Dict κ β) (a' : ι) (j : κ) :
    queuedIn (sorted.set a b) a' j = if a' = a then b.2.get? j else queuedIn sorted a' j := by
  rw [queuedIn, queuedIn, Dict.get?_set]
  split_ifs
  · rfl
  · rfl

end sorted

variable {κ φ ι A : Type*} [DecidableEq κ] [DecidableEq φ]

namespace Store

section table
variable (family : κ → φ) (s : Store κ φ ι A)

def sent (k : κ) : Option (Change κ A) := (s.announced.get? (family k)).bind fun d => d.get? k

def recordOne (announced : Dict φ (Dict κ (Change κ A))) (c : Change κ A) :
    Dict φ (Dict κ (Change κ A)) :=
  match c.action with
  | .announce => announced.set (family c.nlri)
      (((announced.get? (family c.nlri)).getD .empty).set c.nlri c)
  | .withdraw => match announced.get? (family c.nlri) with
    | none => announced
    | some d => announced.set (family c.nlri) (d.erase c.nlri)

def record (changed : List (Change κ A)) : Store κ φ ι A :=
  if s.cache then { s with announced := changed.foldl (recordOne family) s.announced } else s

def Recorded (families : List φ) (announced : Dict φ (Dict κ (Change κ A))) : Prop :=
  ∀ f d k c, announced.get? f = some d → d.get? k = some c →
    family k = f ∧ f ∈ families ∧ c.nlri = k ∧ c.action = .announce

variable {family : κ → φ} {s : Store κ φ ι A} {families : List φ} {c : Change κ A}
  {changed : List (Change κ A)}

def kept (c : Change κ A) : Option (Change κ A) := if c.action = .announce then some c else none

theorem recordOne_get? (announced : Dict φ (Dict κ (Change κ A))) (c : Change κ A) (k : κ) :
    ((recordOne family announced c).get? (family k)).bind (fun d => d.get? k) =
      if k = c.nlri then kept c else (announced.get? (family k)).bind fun d => d.get? k := by
  rw [recordOne, kept]
  cases hact : c.action with
  | announce =>
    simp only [Dict.get?_set, if_true]
    by_cases hf : family k = family c.nlri
    · rw [if_pos hf, Option.bind_some, Dict.get?_set, hf]
      cases announced.get? (family c.nlri) <;> simp [Dict.get?_empty]
    · have hk : k ≠ c.nlri := fun hk => hf (by rw [hk])
      rw [if_neg hf, if_neg hk]
  | withdraw =>
    simp only [reduceCtorEq, if_false]
    cases hd : announced.get? (family c.nlri) with
    | none =>
      simp only
      split_ifs with hk
      · rw [hk, hd, Option.bind_none]
      · rfl
    | some d =>
      simp only [Dict.get?_set]
      by_cases hf : family k = family c.nlri
      · rw [if_pos hf, Option.bind_some, Dict.get?_erase, hf, hd, Option.bind_some]
      · have hk : k ≠ c.nlri := fun hk => hf (by rw [hk])
        rw [if_neg hf, if_neg hk]

theorem Recorded.recordOne {announced : Dict φ (Dict κ (Change κ A))}
    (h : Recorded family families announced) (hc : family c.nlri ∈ families) :
    Recorded family families (recordOne family announced c) := by
  intro f d k c' hf hk
  rw [Store.recordOne] at hf
  cases hact : c.action with
  | announce =>
    simp only [hact, Dict.get?_set] at hf
    split_ifs at hf with hfc
    · obtain rfl := Option.some.inj hf
      rw [Dict.get?_set] at hk
      split_ifs at hk with hkc
      · obtain rfl := Option.some.inj hk
        exact ⟨hfc ▸ hkc ▸ rfl, hfc ▸ hc, hkc.symm, hact⟩
      · cases hd : announced.get? (family c.nlri) with
        | none => simp [hd] at hk
        | some d => exact h f d k c' (hfc ▸ hd) (by simpa [hd] using hk)
    · exact h f d k c' hf hk
  | withdraw =>
    simp only [hact] at hf
    split at hf
    · exact h f d k c' hf hk
    · next d' hd' =>
      rw [Dict.get?_set] at hf
      split_ifs at hf with hfc
      · obtain rfl := Option.some.inj hf
        rw [Dict.get?_erase] at hk
        split_ifs at hk
        exact h f d' k c' (hfc ▸ hd') hk
      · exact h f d k c' hf hk

theorem record_cache : (s.record family changed).cache = s.cache := by
  rw [record]
  split_ifs <;> rfl

theorem record_nil : s.record family [] = s := by
  rw [record]
  split_ifs <;> rfl

theorem record_waiting : (s.record family changed).modifyNlri = s.modifyNlri ∧
    (s.record family changed).modifySorted = s.modifySorted := by
  rw [record]
  split_ifs <;> exact ⟨rfl, rfl⟩

theorem record_sent (family : κ → φ) (hcache : s.cache = true) (hnodup : (changed.map Change.nlri).Nodup) :
    (∀ c ∈ changed, (s.record family changed).sent family c.nlri = kept c) ∧
    ∀ k, k ∉ changed.map Change.nlri → (s.record family changed).sent family k = s.sent family k := by
  simp only [record, hcache, if_true, sent]
  have hout : ∀ (changed : List (Change κ A)) (announced : Dict φ (Dict κ (Change κ A))) (k : κ),
      k ∉ changed.map Change.nlri →
      ((changed.foldl (recordOne family) announced).get? (family k)).bind (fun d => d.get? k) =
        (announced.get? (family k)).bind fun d => d.get? k := by
    intro changed
    induction changed with
    | nil => exact fun _ _ _ => rfl
    | cons c changed ih =>
      intro announced k hk
      rw [List.map_cons, List.mem_cons, not_or] at hk
      rw [List.foldl_cons, ih _ k hk.2, recordOne_get?, if_neg hk.1]
  refine ⟨?_, hout changed s.announced⟩
  generalize s.announced = announced
  induction changed generalizing announced with
  | nil => exact fun c hc => absurd hc List.not_mem_nil
  | cons c changed ih =>
    rw [List.map_cons, List.nodup_cons] at hnodup
    intro c' hc'
    rcases List.mem_cons.mp hc' with rfl | hc'
    · rw [List.foldl_cons, hout _ _ _ hnodup.1, recordOne_get?, if_pos rfl]
    · exact ih hnodup.2 _ c' hc'

theorem sent_congr {s' : Store κ φ ι A} (h : s'.announced = s.announced) (k : κ) :
    s'.sent family k = s.sent family k := by
  rw [sent, sent, h]

def Settled (family : κ → φ) (index : A → ι) (s : Store κ φ ι A) (c : Change κ A) : Prop :=
  s.cache = true ∧ c.action = .announce ∧
    (s.sent family c.nlri).map (fun old => index old.attributes) = some (index c.attributes)

theorem settled_congr {index : A → ι} {s' : Store κ φ ι A} (hcache : s'.cache = s.cache)
    (hsent : s'.sent family c.nlri = s.sent family c.nlri) :
    s'.Settled family index c ↔ s.Settled family index c := by
  rw [Settled, Settled, hcache, hsent]

end table

variable [DecidableEq ι] (family : κ → φ) (index : A → ι) (s : Store κ φ ι A)

def unqueue (k : κ) (old : Change κ A) : Option (Store κ φ ι A) :=
  (s.modifySorted.get? (index old.attributes)).bind fun b =>
    if k ∈ b.2.keys then
      some { s with
        modifyNlri := s.modifyNlri.erase k
        modifySorted := withoutChange s.modifySorted (index old.attributes) b k }
    else none

def queue (change : Change κ A) : Store κ φ ι A :=
  { s with
    modifyNlri := s.modifyNlri.set change.nlri change
    modifySorted := match s.modifySorted.get? (index change.attributes) with
      | some b => s.modifySorted.set (index change.attributes) (b.1, b.2.set change.nlri change)
      | none => s.modifySorted.set (index change.attributes) (s.made, .single change.nlri change)
    made := if (s.modifySorted.get? (index change.attributes)).isSome then s.made else s.made + 1
    cacheAttribute :=
      if (s.cacheAttribute.get? (index change.attributes)).isSome then s.cacheAttribute
      else s.cacheAttribute.set (index change.attributes) change }

/-- A withdrawal of a route that waits to be announced for the first time takes it back. The
table must have an entry for the family then. -/
def insertAnnounced (change : Change κ A) : Option (Store κ φ ι A) :=
  match s.modifyNlri.get? change.nlri with
  | none => some (s.queue index change)
  | some old => (s.unqueue index change.nlri old).bind fun s' =>
    if old.action = .announce ∧ change.action = .withdraw ∧ s.cache = true then
      (s.announced.get? (family change.nlri)).map fun d =>
        if change.nlri ∈ d.keys then s'.queue index change else s'
    else some (s'.queue index change)

/-- With a table, a route that was announced with the same attributes is left where it is. -/
def skips (change : Change κ A) : Option Bool :=
  match change.action with
  | .announce =>
    some ((s.sent family change.nlri).any fun old => index old.attributes = index change.attributes)
  | .withdraw =>
    if (s.sent family change.nlri).isSome then some false
    else (s.modifyNlri.get? change.nlri).map fun c => decide (c.action = .announce)

def dictChange (full : List (Change κ A)) : Option (List (Change κ A)) :=
  if s.cache then
    (full.mapM fun change => (s.skips family index change).map fun skip => (skip, change)).map
      fun l => (l.filter fun skipped => !skipped.1).map Prod.snd
  else some full

def updatesOf (grouped : Bool) (attributes : A) (changed : List (Change κ A)) : List (Update κ A) :=
  if grouped then [⟨changed.map fun c => (c.nlri, c.action), attributes⟩]
  else changed.map fun c => ⟨[(c.nlri, c.action)], attributes⟩

theorem updatesOf_ne_nil {κ A : Type*} (grouped : Bool) {changed : List (Change κ A)} (attributes : A)
    (h : changed ≠ []) : updatesOf grouped attributes changed ≠ [] := by
  rw [updatesOf]
  split_ifs
  · exact List.cons_ne_nil _ _
  · exact fun hnil => h (List.map_eq_nil_iff.mp hnil)

theorem length_updatesOf_le {κ A : Type*} (grouped : Bool) {changed : List (Change κ A)} (attributes : A)
    (h : changed ≠ []) : (updatesOf grouped attributes changed).length ≤ changed.length := by
  have hpos := List.length_pos_iff.mpr h
  rw [updatesOf]
  split_ifs
  · rw [List.length_singleton]
    omega
  · rw [List.length_map]

/-- The changes of a group leave the dictionaries at once, before the first update. -/
def openBucket (grouped : Bool) (hκ : DictOrder κ) (entry : ι × ℕ) :
    Option (Store κ φ ι A × List (Update κ A) × List (Change κ A)) :=
  match s.modifySorted.get? entry.1 with
  | none => some (s, [], [])
  | some b =>
    if b.1 = entry.2 then
      (s.dictChange family index (b.2.valuesIn hκ)).bind fun changed =>
        if changed.isEmpty then some (s, [], [])
        else (s.cacheAttribute.get? entry.1).bind fun first =>
          if ∀ c ∈ changed, c.nlri ∈ s.modifyNlri.keys then
            some ({ s with
              modifyNlri := changed.foldl (fun d c => d.erase c.nlri) s.modifyNlri
              modifySorted := s.modifySorted.set entry.1
                (b.1, changed.foldl (fun d c => d.erase c.nlri) b.2) },
              updatesOf grouped first.attributes changed, changed)
          else none
    else some (s, [], [])

def snapshot (hι : DictOrder ι) : List (ι × ℕ) :=
  (hι.arrange s.modifySorted.keys).filterMap fun a => (s.modifySorted.get? a).map fun b => (a, b.1)

def advance (grouped : Bool) (hκ : DictOrder κ) : List (ι × ℕ) → Store κ φ ι A →
    Option (Store κ φ ι A × Option (Update κ A × Pass κ ι A))
  | [], s => some (s, none)
  | entry :: rest, s => (s.openBucket family index grouped hκ entry).bind fun r =>
    match r.2.1 with
    | [] => advance grouped hκ rest r.1
    | u :: us => some (r.1, some (u, ⟨rest, us, r.2.2⟩))

def next (grouped : Bool) (hι : DictOrder ι) (hκ : DictOrder κ) :
    Option (Pass κ ι A) → Option (Store κ φ ι A × Option (Update κ A × Pass κ ι A))
  | none => advance family index grouped hκ (s.snapshot hι) s
  | some ⟨rest, u :: us, changed⟩ => some (s, some (u, ⟨rest, us, changed⟩))
  | some ⟨rest, [], changed⟩ => advance family index grouped hκ rest (s.record family changed)

def drain (hκ : DictOrder κ) : List (ι × ℕ) → Store κ φ ι A → Option (Store κ φ ι A)
  | [], s => some s
  | entry :: rest, s => (s.openBucket family index false hκ entry).bind fun r =>
    drain hκ rest (r.1.record family r.2.2)

def reset (hι : DictOrder ι) (hκ : DictOrder κ) : Option (Store κ φ ι A) :=
  drain family index hκ (s.snapshot hι) s

/-- The routes of the family wait again, and the table has none of them any more. -/
def resendFamily (hκ : DictOrder κ) (f : φ) : Option (Store κ φ ι A) :=
  let routes := (((s.announced.get? f).getD .empty).valuesIn hκ).filter fun c => c.action = .announce
  (routes.foldlM (insertAnnounced family index) s).map fun s =>
    { s with announced := s.announced.set f .empty }

def resend (families : List φ) (hκ : DictOrder κ) : Option (Store κ φ ι A) :=
  families.foldlM (fun s f => resendFamily family index s hκ f) s

structure Consistent (families : List φ) (s : Store κ φ ι A) : Prop where
  sorted : ∀ a k c, queuedIn s.modifySorted a k = some c ↔ s.modifyNlri.get? k = some c ∧ index c.attributes = a
  nlri : ∀ k c, s.modifyNlri.get? k = some c → c.nlri = k ∧ family k ∈ families
  cached : ∀ a c, s.cacheAttribute.get? a = some c → index c.attributes = a
  covered : ∀ a ∈ s.modifySorted.keys, a ∈ s.cacheAttribute.keys
  sent : Recorded family families s.announced
  off : s.cache = false → ∀ k, s.sent family k = none

variable {family : κ → φ} {index : A → ι} {families : List φ} {s s' : Store κ φ ι A} {k : κ}
  {c old : Change κ A}

theorem consistent_init (cache : Bool) : (init cache).Consistent family index families where
  sorted _ _ _ := by simp [queuedIn, init]
  nlri _ _ h := by simp [init] at h
  cached _ _ h := by simp [init] at h
  covered _ h := absurd h List.not_mem_nil
  sent _ _ _ _ h := by simp [init] at h
  off _ _ := by simp [sent, init]

theorem Consistent.queuedIn_ne (h : s.Consistent family index families)
    (hold : s.modifyNlri.get? k = some old) {a : ι} (ha : a ≠ index old.attributes) :
    queuedIn s.modifySorted a k = none := by
  cases hq : queuedIn s.modifySorted a k with
  | none => rfl
  | some c =>
    obtain ⟨hc, hindex⟩ := (h.sorted a k c).mp hq
    obtain rfl := Option.some.inj (hold.symm.trans hc)
    exact absurd hindex.symm ha

theorem Consistent.unqueue (h : s.Consistent family index families)
    (hold : s.modifyNlri.get? k = some old) :
    ∃ s', s.unqueue index k old = some s' ∧ s'.Consistent family index families ∧
      s'.modifyNlri = s.modifyNlri.erase k ∧ s'.announced = s.announced ∧ s'.cache = s.cache := by
  obtain ⟨b, hb, hbk⟩ := Option.bind_eq_some_iff.mp ((h.sorted _ k old).mpr ⟨hold, rfl⟩)
  refine ⟨{ s with
      modifyNlri := s.modifyNlri.erase k
      modifySorted := withoutChange s.modifySorted (index old.attributes) b k },
    by rw [Store.unqueue, hb, Option.bind_some, if_pos (Dict.mem_keys_iff.mpr ⟨old, hbk⟩)],
    ⟨fun a j c => ?_, fun j c hj => ?_, h.cached, fun a ha => ?_, h.sent, h.off⟩, rfl, rfl, rfl⟩
  · rw [queuedIn_withoutChange hb, Dict.get?_erase]
    by_cases hj : j = k
    · subst hj
      by_cases ha : a = index old.attributes
      · simp [ha]
      · simp [ha, h.queuedIn_ne hold ha]
    · simp [hj, h.sorted]
  · rw [Dict.get?_erase] at hj
    split_ifs at hj
    exact h.nlri j c hj
  · obtain ⟨b', hb'⟩ := Dict.mem_keys_iff.mp ha
    rw [withoutChange_get?] at hb'
    split_ifs at hb' with haa
    · exact h.covered a (Dict.mem_keys_iff.mpr ⟨b, haa ▸ hb⟩)
    · exact h.covered a (Dict.mem_keys_iff.mpr ⟨b', hb'⟩)

theorem Consistent.queue (h : s.Consistent family index families)
    (hnew : s.modifyNlri.get? c.nlri = none) (hfam : family c.nlri ∈ families) :
    (s.queue index c).Consistent family index families := by
  have hqueued : ∀ a k, queuedIn (s.queue index c).modifySorted a k =
      if a = index c.attributes ∧ k = c.nlri then some c else queuedIn s.modifySorted a k := by
    intro a k
    rw [Store.queue]
    cases hb : s.modifySorted.get? (index c.attributes) with
    | none =>
      simp only
      rw [queuedIn_set]
      by_cases ha : a = index c.attributes
      · simp [ha, Dict.get?_single, queuedIn, hb, eq_comm]
      · simp [ha]
    | some b =>
      simp only
      rw [queuedIn_set]
      by_cases ha : a = index c.attributes
      · simp [ha, Dict.get?_set, queuedIn, hb]
      · simp [ha]
  have hnlri : (s.queue index c).modifyNlri = s.modifyNlri.set c.nlri c := rfl
  constructor
  · intro a k c'
    rw [hqueued, hnlri, Dict.get?_set]
    by_cases hk : k = c.nlri
    · have hnone : ∀ a, queuedIn s.modifySorted a k = none := by
        intro a
        cases hq : queuedIn s.modifySorted a k with
        | none => rfl
        | some c' =>
          have hc' := ((h.sorted a k c').mp hq).1
          rw [hk, hnew] at hc'
          cases hc'
      rw [if_pos hk, hnone]
      by_cases ha : a = index c.attributes
      · simp only [ha, hk, true_and, if_true, Option.some.injEq]
        exact ⟨fun hc => ⟨hc, by rw [hc]⟩, And.left⟩
      · simp only [ha, false_and, if_false, Option.some.injEq, reduceCtorEq, false_iff, not_and]
        exact fun hc hindex => ha (hindex.symm.trans (by rw [hc]))
    · simp [hk, h.sorted]
  · intro k c' hk
    rw [hnlri, Dict.get?_set] at hk
    split_ifs at hk with hkc
    · obtain rfl := Option.some.inj hk
      exact ⟨hkc.symm, hkc ▸ hfam⟩
    · exact h.nlri k c' hk
  · intro a c' hc'
    simp only [Store.queue] at hc'
    split_ifs at hc' with hsome
    · exact h.cached a c' hc'
    · rw [Dict.get?_set] at hc'
      split_ifs at hc' with ha
      · obtain rfl := Option.some.inj hc'
        exact ha.symm
      · exact h.cached a c' hc'
  · intro a ha
    have hkeys : a = index c.attributes ∨ a ∈ s.modifySorted.keys := by
      simp only [Store.queue] at ha
      split at ha
      · exact Dict.mem_keys_set.mp ha
      · exact Dict.mem_keys_set.mp ha
    simp only [Store.queue]
    split_ifs with hsome
    · rcases hkeys with rfl | ha
      · exact Dict.mem_keys_iff.mpr (Option.isSome_iff_exists.mp hsome)
      · exact h.covered a ha
    · rw [Dict.mem_keys_set]
      exact hkeys.imp_right (h.covered a)
  · exact h.sent
  · exact h.off

/-- What a command does to the waiting changes. A withdrawal may take back a route that waits
to be announced; it fails where the table has nothing of the family. -/
theorem Consistent.insertAnnounced (h : s.Consistent family index families)
    (hfam : family c.nlri ∈ families) :
    (s.insertAnnounced family index c = none ↔ s.cache = true ∧ c.action = .withdraw ∧
      s.announced.get? (family c.nlri) = none ∧
      ∃ old, s.modifyNlri.get? c.nlri = some old ∧ old.action = .announce) ∧
    ∀ s', s.insertAnnounced family index c = some s' → s'.Consistent family index families ∧
      s'.announced = s.announced ∧ s'.cache = s.cache ∧
      (∀ k, k ≠ c.nlri → s'.modifyNlri.get? k = s.modifyNlri.get? k) ∧
      (s'.modifyNlri.get? c.nlri = some c ∨ s'.modifyNlri.get? c.nlri = none ∧
        c.action = .withdraw ∧ s.cache = true ∧ s.sent family c.nlri = none ∧
        ∃ old, s.modifyNlri.get? c.nlri = some old ∧ old.action = .announce) := by
  have hset : ∀ t : Store κ φ ι A, (∀ k, k ≠ c.nlri → (t.queue index c).modifyNlri.get? k =
      t.modifyNlri.get? k) ∧ (t.queue index c).modifyNlri.get? c.nlri = some c := fun t =>
    ⟨fun k hk => Dict.get?_set_of_ne _ _ hk, Dict.get?_set_self _ _ _⟩
  rw [Store.insertAnnounced]
  cases hold : s.modifyNlri.get? c.nlri with
  | none =>
    refine ⟨by simp, fun s' hs' => ?_⟩
    obtain rfl := Option.some.inj hs'
    exact ⟨h.queue hold hfam, rfl, rfl, (hset s).1, Or.inl (hset s).2⟩
  | some old =>
    obtain ⟨t, ht, hcons, hnlri, hannounced, hcache⟩ := h.unqueue hold
    have hnew : t.modifyNlri.get? c.nlri = none := by rw [hnlri, Dict.get?_erase, if_pos rfl]
    have hothers : ∀ k, k ≠ c.nlri → t.modifyNlri.get? k = s.modifyNlri.get? k := fun k hk => by
      rw [hnlri, Dict.get?_erase, if_neg hk]
    have hqueue : (t.queue index c).Consistent family index families ∧
        (t.queue index c).announced = s.announced ∧ (t.queue index c).cache = s.cache ∧
        (∀ k, k ≠ c.nlri → (t.queue index c).modifyNlri.get? k = s.modifyNlri.get? k) ∧
        (t.queue index c).modifyNlri.get? c.nlri = some c :=
      ⟨hcons.queue hnew hfam, hannounced, hcache, fun k hk => ((hset t).1 k hk).trans (hothers k hk),
        (hset t).2⟩
    obtain ⟨hq₁, hq₂, hq₃, hq₄, hq₅⟩ := hqueue
    simp only [ht, Option.bind_some]
    split_ifs with hback
    · obtain ⟨hold', hwithdraw, hcached⟩ := hback
      refine ⟨by simp [hold', hwithdraw, hcached], fun s' hs' => ?_⟩
      obtain ⟨d, hd, rfl⟩ := Option.map_eq_some_iff.mp hs'
      split_ifs with hmem
      · exact ⟨hq₁, hq₂, hq₃, hq₄, Or.inl hq₅⟩
      · have hsent : s.sent family c.nlri = none := by
          rw [Store.sent, hd, Option.bind_some, Dict.get?_eq_none]
          exact hmem
        exact ⟨hcons, hannounced, hcache, hothers,
          Or.inr ⟨hnew, hwithdraw, hcached, hsent, old, rfl, hold'⟩⟩
    · refine ⟨?_, fun s' hs' => ?_⟩
      · simp only [Option.some.injEq, exists_eq_left', false_iff]
        exact fun hall => hback ⟨hall.2.2.2, hall.2.1, hall.1⟩
      · obtain rfl := Option.some.inj hs'
        exact ⟨hq₁, hq₂, hq₃, hq₄, Or.inl hq₅⟩

instance : Decidable (s.Settled family index c) := inferInstanceAs (Decidable (_ ∧ _ ∧ _))

theorem dictChange_eq {full : List (Change κ A)} (h : ∀ c ∈ full, s.modifyNlri.get? c.nlri = some c) :
    s.dictChange family index full = some (full.filter fun c => ¬ s.Settled family index c) := by
  rw [dictChange]
  split_ifs with hcache
  · have hskips : ∀ c ∈ full, (s.skips family index c).map (fun skip => (skip, c)) =
        some (decide (s.Settled family index c), c) := by
      intro c hc
      rw [skips]
      cases hact : c.action with
      | announce => cases hsent : s.sent family c.nlri <;> simp [Settled, hcache, hact, hsent]
      | withdraw => cases hsent : s.sent family c.nlri <;> simp [Settled, hact, h c hc]
    rw [Runs.mapM_eq_map hskips, Option.map_some, List.filter_map, List.map_map]
    simp [Function.comp_def]
  · have hall : full.filter (fun c => ¬ s.Settled family index c) = full := by
      refine List.filter_eq_self.mpr fun c _ => ?_
      simp [Settled, hcache]
    rw [hall]

structure Opened (family : κ → φ) (index : A → ι) (families : List φ) (grouped : Bool)
    (s : Store κ φ ι A) (entry : ι × ℕ) (s' : Store κ φ ι A) (updates : List (Update κ A))
    (changed : List (Change κ A)) : Prop where
  consistent : s'.Consistent family index families
  announced : s'.announced = s.announced
  cache : s'.cache = s.cache
  waiting : ∀ c ∈ changed, s.modifyNlri.get? c.nlri = some c ∧ index c.attributes = entry.1 ∧
    ¬ s.Settled family index c
  nodup : (changed.map Change.nlri).Nodup
  left : ∀ k, s'.modifyNlri.get? k =
    if k ∈ changed.map Change.nlri then none else s.modifyNlri.get? k
  updates : updates = [] ∧ changed = [] ∨ changed ≠ [] ∧
    ∃ attributes, index attributes = entry.1 ∧ updates = updatesOf grouped attributes changed
  groups : ∀ a, (s'.modifySorted.get? a).map Prod.fst = (s.modifySorted.get? a).map Prod.fst
  settled : (s.modifySorted.get? entry.1).map Prod.fst = some entry.2 →
    ∀ k c, s'.modifyNlri.get? k = some c → index c.attributes = entry.1 → s.Settled family index c

theorem Consistent.opened_nil (h : s.Consistent family index families) (grouped : Bool) {entry : ι × ℕ}
    (hs : (s.modifySorted.get? entry.1).map Prod.fst = some entry.2 →
      ∀ k c, s.modifyNlri.get? k = some c → index c.attributes = entry.1 → s.Settled family index c) :
    Opened family index families grouped s entry s [] [] where
  consistent := h
  announced := rfl
  cache := rfl
  waiting _ hc := absurd hc List.not_mem_nil
  nodup := List.nodup_nil
  left _ := rfl
  updates := Or.inl ⟨rfl, rfl⟩
  groups _ := rfl
  settled := hs

theorem Consistent.openBucket (h : s.Consistent family index families) (grouped : Bool)
    (hκ : DictOrder κ) (entry : ι × ℕ) : ∃ s' updates changed,
      s.openBucket family index grouped hκ entry = some (s', updates, changed) ∧
      Opened family index families grouped s entry s' updates changed := by
  rw [Store.openBucket]
  cases hb : s.modifySorted.get? entry.1 with
  | none => exact ⟨s, [], [], rfl, h.opened_nil grouped (by simp [hb])⟩
  | some b =>
    by_cases hn : b.1 = entry.2
    swap
    · exact ⟨s, [], [], if_neg hn, h.opened_nil grouped (by simp [hb, hn])⟩
    have hfull : ∀ c ∈ b.2.valuesIn hκ, s.modifyNlri.get? c.nlri = some c ∧
        index c.attributes = entry.1 := by
      intro c hc
      obtain ⟨k, hk⟩ := Dict.mem_valuesIn.mp hc
      obtain ⟨hq, hindex⟩ := (h.sorted entry.1 k c).mp (by rw [queuedIn, hb, Option.bind_some, hk])
      rw [(h.nlri k c hq).1]
      exact ⟨hq, hindex⟩
    have hlisted : ∀ k c, s.modifyNlri.get? k = some c → index c.attributes = entry.1 →
        b.2.get? k = some c := by
      intro k c hk hindex
      have hq := (h.sorted entry.1 k c).mpr ⟨hk, hindex⟩
      rwa [queuedIn, hb] at hq
    simp only [hn, if_true, dictChange_eq fun c hc => (hfull c hc).1, Option.bind_some]
    set changed := (b.2.valuesIn hκ).filter fun c => ¬ s.Settled family index c with hchanged
    have hwaiting : ∀ c ∈ changed, s.modifyNlri.get? c.nlri = some c ∧ index c.attributes = entry.1 ∧
        ¬ s.Settled family index c := by
      intro c hc
      obtain ⟨hlist, hnot⟩ := List.mem_filter.mp hc
      exact ⟨(hfull c hlist).1, (hfull c hlist).2, of_decide_eq_true hnot⟩
    have hsettled : ∀ k c, k ∉ changed.map Change.nlri → s.modifyNlri.get? k = some c →
        index c.attributes = entry.1 → s.Settled family index c := by
      intro k c hk hc hindex
      by_contra hnot
      refine hk (List.mem_map.mpr ⟨c, List.mem_filter.mpr ⟨?_, by simpa using hnot⟩, (h.nlri k c hc).1⟩)
      exact Dict.mem_valuesIn.mpr ⟨k, hlisted k c hc hindex⟩
    by_cases hnil : changed.isEmpty
    · rw [if_pos hnil]
      refine ⟨s, [], [], rfl, h.opened_nil grouped fun _ k c hc hindex => hsettled k c ?_ hc hindex⟩
      rw [List.isEmpty_iff.mp hnil]
      exact List.not_mem_nil
    obtain ⟨first, hfirst⟩ := Dict.mem_keys_iff.mp
      (h.covered entry.1 (Dict.mem_keys_iff.mpr ⟨b, hb⟩))
    have hkeys : ∀ c ∈ changed, c.nlri ∈ s.modifyNlri.keys := fun c hc =>
      Dict.mem_keys_iff.mpr ⟨c, (hwaiting c hc).1⟩
    rw [if_neg hnil, hfirst, Option.bind_some, if_pos hkeys]
    refine ⟨_, _, changed, rfl, ⟨⟨fun a k c => ?_, fun k c hk => ?_, h.cached, fun a ha => ?_, h.sent,
      h.off⟩, rfl, rfl, hwaiting, ?_, fun k => Dict.get?_foldl_erase _ _ _ _,
      Or.inr ⟨fun he => hnil (by rw [he]; rfl), first.attributes, h.cached _ _ hfirst, rfl⟩,
      fun a => ?_, fun _ k c hk hindex => ?_⟩⟩
    · simp only [queuedIn_set, Dict.get?_foldl_erase]
      by_cases hk : k ∈ changed.map Change.nlri
      · obtain ⟨c', hc', rfl⟩ := List.mem_map.mp hk
        obtain ⟨hq, hindex, -⟩ := hwaiting c' hc'
        by_cases ha : a = entry.1
        · simp [ha, hk]
        · simp [ha, hk, h.queuedIn_ne hq (hindex ▸ ha)]
      · by_cases ha : a = entry.1
        · have hq := h.sorted a k c
          rw [ha, queuedIn, hb, Option.bind_some] at hq
          simp [ha, hk, hq]
        · simp [ha, hk, h.sorted]
    · rw [Dict.get?_foldl_erase] at hk
      split_ifs at hk
      exact h.nlri k c hk
    · rcases Dict.mem_keys_set.mp ha with rfl | ha
      · exact Dict.mem_keys_iff.mpr ⟨first, hfirst⟩
      · exact h.covered a ha
    · have hnodup : ((b.2.valuesIn hκ).map Change.nlri).Nodup :=
        Dict.nodup_map_valuesIn fun k c hk => by
          obtain ⟨hq, -⟩ := (h.sorted entry.1 k c).mp (by rw [queuedIn, hb, Option.bind_some, hk])
          exact (h.nlri k c hq).1
      exact hnodup.sublist (List.filter_sublist.map _)
    · rw [Dict.get?_set]
      split_ifs with ha
      · rw [ha, hb, Option.map_some, Option.map_some, hn]
      · rfl
    · rw [Dict.get?_foldl_erase] at hk
      split_ifs at hk with hmem
      exact hsettled k c hmem hk hindex

theorem Consistent.record {changed : List (Change κ A)} (h : s.Consistent family index families)
    (hc : ∀ c ∈ changed, family c.nlri ∈ families) :
    (s.record family changed).Consistent family index families := by
  rw [Store.record]
  split_ifs with hcache
  · refine ⟨h.sorted, h.nlri, h.cached, h.covered, ?_, fun hoff => absurd hcache (by simp_all)⟩
    refine List.foldlRecOn changed (recordOne family) h.sent fun announced han c hmem => ?_
    exact han.recordOne (hc c hmem)
  · exact h

end Store

end Hispar.Exabgp
