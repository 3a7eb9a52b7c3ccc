import Hispar.Exabgp.Store

/-!
# What a neighbor is told

The store of a neighbor takes the commands, and between them the session takes updates
from the generator and sends them. A session may break and be set up again. Where no
command is lost on the way, the routes that the neighbor has come to be those of the
last commands.
-/
namespace Hispar.Exabgp
open Library

def verdict {κ ι A : Type*} (index : A → ι) (c : Change κ A) : Option ι :=
  if c.action = .announce then some (index c.attributes) else none

theorem verdict_kept {κ ι A : Type*} (index : A → ι) (c : Change κ A) :
    (Store.kept c).map (fun c => index c.attributes) = verdict index c := by
  rw [Store.kept, verdict]
  split_ifs <;> rfl

variable {κ φ ι A : Type*} [DecidableEq κ] [DecidableEq φ]

/-- What the neighbor makes of an update. -/
def Update.apply (table : κ → Option A) (u : Update κ A) : κ → Option A :=
  u.nlris.foldl (fun table n => Function.update table n.1
    (if n.2 = .announce then some u.attributes else none)) table

structure Session (κ φ ι A : Type*) where
  store : Store κ φ ι A
  updates : Option (Pass κ ι A)
  up : Bool
  table : κ → Option A

def Session.init {κ φ ι A : Type*} (cache : Bool) : Session κ φ ι A :=
  ⟨.init cache, none, false, fun _ => none⟩

namespace Session
variable (family : κ → φ) (index : A → ι) (s : Session κ φ ι A)

def closed : Store κ φ ι A :=
  match s.updates with
  | none => s.store
  | some updates => s.store.record family updates.changed

def flight : κ → Option A :=
  match s.updates with
  | none => s.table
  | some updates => updates.sending.foldl Update.apply s.table

def tableIndex (store : Store κ φ ι A) (k : κ) : Option ι :=
  (store.sent family k).map fun c => index c.attributes

/-- What was made known of each prefix: to the neighbor, or without a session to the table. -/
def shown (k : κ) : Option ι :=
  if s.up then (s.flight k).map index else tableIndex family index s.store k

variable {family : κ → φ} {index : A → ι} {s : Session κ φ ι A}

theorem closed_cache : (s.closed family).cache = s.store.cache := by
  rw [closed]
  split
  · rfl
  · exact Store.record_cache

theorem closed_waiting : (s.closed family).modifyNlri = s.store.modifyNlri ∧
    (s.closed family).modifySorted = s.store.modifySorted := by
  rw [closed]
  split
  · exact ⟨rfl, rfl⟩
  · exact Store.record_waiting

theorem closed_sent {store' : Store κ φ ι A}
    (hstore : store'.announced = s.store.announced ∧ store'.cache = s.store.cache)
    (k : κ) : tableIndex family index ({ s with store := store' }.closed family) k =
      tableIndex family index (s.closed family) k := by
  simp only [tableIndex, closed]
  cases s.updates with
  | none => simp only [Store.sent, hstore.1]
  | some updates =>
    simp only [Store.sent, Store.record, hstore.1, hstore.2]
    split_ifs
    · rfl
    · rw [hstore.1]

end Session

variable [DecidableEq ι]

/-- The dictionaries are listed in any order, another at each event. -/
inductive Event (κ ι A : Type*) where
  | command (change : Change κ A)
  | resume (hι : DictOrder ι) (hκ : DictOrder κ)
  | reset (hι : DictOrder ι) (hκ : DictOrder κ)
  | establish (hκ : DictOrder κ)

namespace Session
variable (family : κ → φ) (index : A → ι) (families : List φ) (grouped : Bool)

def take (s : Session κ φ ι A) (r : Store κ φ ι A × Option (Update κ A × Pass κ ι A)) :
    Session κ φ ι A :=
  match r.2 with
  | none => { s with store := r.1, updates := none }
  | some (u, updates) => { s with store := r.1, updates, table := u.apply s.table }

def step (s : Session κ φ ι A) : Event κ ι A → Option (Session κ φ ι A)
  | .command change =>
    if family change.nlri ∈ families then
      (s.store.insertAnnounced family index change).map fun store => { s with store }
    else some s
  | .resume hι hκ =>
    if s.up then (s.store.next family index grouped hι hκ s.updates).map s.take else none
  | .reset hι hκ =>
    (s.store.reset family index hι hκ).map fun store => ⟨store, none, false, fun _ => none⟩
  | .establish hκ =>
    if s.up then none
    else (s.store.resend family index families hκ).map fun store => { s with store, up := true }

def say (told : κ → Option ι) : Event κ ι A → κ → Option ι
  | .command change =>
    if family change.nlri ∈ families then Function.update told change.nlri (verdict index change)
    else told
  | _ => told

def Echoes (store : Store κ φ ι A) : Prop :=
  ∀ k c old, store.modifyNlri.get? k = some c → store.sent family k = some old →
    verdict index c = some (index old.attributes)

def lastWord (s : Session κ φ ι A) (k : κ) : Option ι :=
  match s.store.modifyNlri.get? k with
  | none => s.shown family index k
  | some c => verdict index c

/-- The event makes the session forget a command: a withdrawal takes back a waiting route while
an older one of the prefix is on its way, the session breaks before a group on its way is in the
table, or without a table while there is a route, or it is set up while something else than the
route of the table waits. -/
def Loses (s : Session κ φ ι A) : Event κ ι A → Prop
  | .command c => c.action = .withdraw ∧ s.store.cache = true ∧ s.store.sent family c.nlri = none ∧
    (∃ old, s.store.modifyNlri.get? c.nlri = some old ∧ old.action = .announce) ∧
    ∃ updates, s.updates = some updates ∧ ∃ d ∈ updates.changed, d.nlri = c.nlri ∧ d.action = .announce
  | .resume _ _ => False
  | .reset _ _ => if s.store.cache then ∃ updates, s.updates = some updates ∧
      ∃ c ∈ updates.changed, s.store.modifyNlri.get? c.nlri = none ∧
        verdict index c ≠ tableIndex family index s.store c.nlri
    else ∃ k, s.lastWord family index k ≠ none
  | .establish _ => ¬ Echoes family index s.store

def Lossless : Session κ φ ι A → List (Event κ ι A) → Prop
  | _, [] => True
  | s, e :: events => ¬ s.Loses family index e ∧
    ∀ s', s.step family index families grouped e = some s' → Lossless s' events

/-- The last command of a prefix waits, or else it was made known, and the table knows. -/
structure Level (told : κ → Option ι) (store : Store κ φ ι A) (known : κ → Option ι) : Prop where
  waiting : ∀ k c, store.modifyNlri.get? k = some c → verdict index c = told k
  sent : ∀ k, store.modifyNlri.get? k = none → known k = told k
  tabled : store.cache = true → ∀ k, known k = tableIndex family index store k

structure Tracks (told : κ → Option ι) (s : Session κ φ ι A) : Prop where
  consistent : s.store.Consistent family index families
  updates : ∀ updates, s.updates = some updates → s.up = true ∧
    (updates.changed.map Change.nlri).Nodup ∧ ∀ c ∈ updates.changed, family c.nlri ∈ families
  level : Level family index told (s.closed family) (s.shown family index)
  down : s.up = false → ∀ k, s.table k = none

open Store
variable {family : κ → φ} {index : A → ι} {families : List φ} {grouped : Bool}
  {told known : κ → Option ι} {store store' : Store κ φ ι A} {changed : List (Change κ A)}
  {updates : List (Update κ A)} {entry : ι × ℕ} {s s' : Session κ φ ι A} {k : κ}

theorem apply_updatesOf (grouped : Bool) (attributes : A) (table : κ → Option A)
    (hnodup : (changed.map Change.nlri).Nodup) :
    (∀ c ∈ changed, (updatesOf grouped attributes changed).foldl Update.apply table c.nlri =
      if c.action = .announce then some attributes else none) ∧
    ∀ k, k ∉ changed.map Change.nlri →
      (updatesOf grouped attributes changed).foldl Update.apply table k = table k := by
  have hfold : (updatesOf grouped attributes changed).foldl Update.apply table =
      changed.foldl (fun (table : κ → Option A) c => Function.update table c.nlri
        (if c.action = .announce then some attributes else none)) table := by
    rw [updatesOf]
    split_ifs
    · rw [List.foldl_cons, List.foldl_nil, Update.apply, List.foldl_map]
    · rw [List.foldl_map]
      rfl
  rw [hfold]
  clear hfold
  induction changed generalizing table with
  | nil => exact ⟨fun c hc => absurd hc List.not_mem_nil, fun _ _ => rfl⟩
  | cons c changed ih =>
    rw [List.map_cons, List.nodup_cons] at hnodup
    obtain ⟨hin, hout⟩ := ih (Function.update table c.nlri
      (if c.action = .announce then some attributes else none)) hnodup.2
    constructor
    · intro c' hc'
      rcases List.mem_cons.mp hc' with rfl | hc'
      · rw [List.foldl_cons, hout _ hnodup.1, Function.update_self]
      · exact hin c' hc'
    · intro k hk
      rw [List.map_cons, List.mem_cons, not_or] at hk
      rw [List.foldl_cons, hout k hk.2, Function.update_of_ne hk.1]

theorem Level.opened (hl : Level family index told store known)
    (ho : Opened family index families grouped store entry store' updates changed)
    {known' : κ → Option ι} (hin : ∀ c ∈ changed, known' c.nlri = verdict index c)
    (hout : ∀ k, k ∉ changed.map Change.nlri → known' k = known k) :
    Level family index told (store'.record family changed) known' := by
  have hsame : ∀ k c, k ∈ changed.map Change.nlri → store.modifyNlri.get? k = some c → c ∈ changed := by
    intro k c hk hc
    obtain ⟨c', hc', rfl⟩ := List.mem_map.mp hk
    obtain rfl := Option.some.inj ((ho.waiting c' hc').1.symm.trans hc)
    exact hc'
  constructor
  · intro k c hk
    rw [record_waiting.1, ho.left] at hk
    split_ifs at hk
    exact hl.waiting k c hk
  · intro k hk
    rw [record_waiting.1, ho.left] at hk
    split_ifs at hk with hmem
    · obtain ⟨c, hc, rfl⟩ := List.mem_map.mp hmem
      rw [hin c hc]
      exact hl.waiting _ c (ho.waiting c hc).1
    · rw [hout k hmem]
      exact hl.sent k hk
  · intro hcache k
    rw [record_cache, ho.cache] at hcache
    obtain ⟨hrin, hrout⟩ := record_sent (s := store') family (ho.cache.trans hcache) ho.nodup
    rw [tableIndex]
    by_cases hmem : k ∈ changed.map Change.nlri
    · obtain ⟨c, hc, rfl⟩ := List.mem_map.mp hmem
      rw [hin c hc, hrin c hc, verdict_kept]
    · rw [hrout k hmem, hout k hmem, hl.tabled hcache k, tableIndex,
        sent_congr ho.announced]

theorem Tracks.command (hs : Tracks family index families told s) {c : Change κ A}
    (hstep : s.step family index families grouped (.command c) = some s')
    (hkeeps : ¬ s.Loses family index (.command c)) :
    Tracks family index families (say family index families told (.command c)) s' := by
  rw [step] at hstep
  rw [say]
  split_ifs at hstep ⊢ with hfam
  · obtain ⟨store', hstore', rfl⟩ := Option.map_eq_some_iff.mp hstep
    obtain ⟨hcons, hannounced, hcache, hothers, hown⟩ :=
      (hs.consistent.insertAnnounced hfam).2 store' hstore'
    have hshown : Session.shown family index { s with store := store' } = s.shown family index := by
      funext k
      simp only [shown, flight, tableIndex, Store.sent, hannounced]
    have hs' : Tracks family index families (Function.update told c.nlri (verdict index c))
        { s with store := store' } := by
      have hl := hs.level
      refine ⟨hcons, hs.updates, ⟨fun k c' hk => ?_, fun k hk => ?_, fun hon k => ?_⟩, hs.down⟩
      · rw [closed_waiting.1] at hk
        by_cases hkc : k = c.nlri
        · rw [hkc, Function.update_self]
          rcases hown with hown | ⟨hnone, -⟩
          · rw [hkc, hown] at hk
            rw [Option.some.inj hk]
          · rw [hkc, hnone] at hk
            cases hk
        · rw [Function.update_of_ne hkc]
          exact hl.waiting k c' (by rw [closed_waiting.1, ← hothers k hkc, hk])
      · rw [closed_waiting.1] at hk
        rw [hshown]
        by_cases hkc : k = c.nlri
        · rcases hown with hown | ⟨-, hwithdraw, hon, hsent, hold⟩
          · rw [hkc, hown] at hk
            cases hk
          · -- nothing is on its way that the withdrawal would have to take back as well
            rw [hkc, Function.update_self, hl.tabled (closed_cache.trans hon), verdict, hwithdraw]
            rw [if_neg (by decide), tableIndex, Option.map_eq_none_iff, closed]
            cases hu : s.updates with
            | none => exact hsent
            | some updates =>
              obtain ⟨-, hnodup, -⟩ := hs.updates updates hu
              obtain ⟨hin, hout⟩ := record_sent family hon hnodup
              by_cases hmem : c.nlri ∈ updates.changed.map Change.nlri
              · obtain ⟨d, hd, hdc⟩ := List.mem_map.mp hmem
                rw [← hdc, hin d hd, kept, if_neg]
                exact fun hact => hkeeps ⟨hwithdraw, hon, hsent, hold, updates, hu, d, hd, hdc, hact⟩
              · exact (hout _ hmem).trans hsent
        · rw [Function.update_of_ne hkc]
          exact hl.sent k (by rw [closed_waiting.1, ← hothers k hkc, hk])
      · rw [closed_cache] at hon
        rw [hshown, closed_sent ⟨hannounced, hcache⟩]
        exact hl.tabled (closed_cache.trans (hcache.symm.trans hon)) k
    exact hs'
  · obtain rfl := Option.some.inj hstep
    exact hs

theorem Level.advance (grouped : Bool) {table : κ → Option A} (hκ : DictOrder κ) (rest : List (ι × ℕ))
    (hcons : store.Consistent family index families)
    (hl : Level family index told store fun k => (table k).map index) :
    ∃ store' r, Store.advance family index grouped hκ rest store = some (store', r) ∧
      match r with
      | none => store'.Consistent family index families ∧
        Level family index told store' fun k => (table k).map index
      | some (u, updates) => Tracks family index families told
          ⟨store', some updates, true, u.apply table⟩ := by
  induction rest generalizing store with
  | nil => exact ⟨store, none, rfl, hcons, hl⟩
  | cons entry rest ih =>
    obtain ⟨store', updates, changed, hopen, ho⟩ := hcons.openBucket grouped hκ entry
    rw [Store.advance, hopen, Option.bind_some]
    rcases ho.updates with ⟨rfl, rfl⟩ | ⟨hne, attributes, hindex, hupdates⟩
    · have hlevel := hl.opened ho (fun c hc => absurd hc List.not_mem_nil) fun _ _ => rfl
      rw [record_nil] at hlevel
      exact ih ho.consistent hlevel
    · obtain ⟨u, us, hus⟩ := List.exists_cons_of_ne_nil
        (hupdates ▸ updatesOf_ne_nil grouped attributes hne)
      obtain ⟨hin, hout⟩ := apply_updatesOf grouped attributes table ho.nodup
      rw [← hupdates, hus, List.foldl_cons] at hin hout
      refine ⟨store', some (u, ⟨rest, us, changed⟩), by simp only [hus], ho.consistent, ?_, ?_,
        fun h => absurd h Bool.false_ne_true.symm⟩
      · intro updates' hu
        obtain rfl := Option.some.inj hu
        refine ⟨rfl, ho.nodup, fun c hc => ?_⟩
        exact (hcons.nlri _ c (ho.waiting c hc).1).2
      · refine hl.opened ho (fun c hc => ?_) fun k hk => ?_
        · simp only [shown, flight, if_true]
          rw [hin c hc, verdict, (ho.waiting c hc).2.1, ← hindex]
          split_ifs <;> rfl
        · simp only [shown, flight, if_true]
          rw [hout k hk]

def pending (s : Session κ φ ι A) (hι : DictOrder ι) : List (ι × ℕ) :=
  match s.updates with
  | none => s.store.snapshot hι
  | some updates => updates.rest

theorem resume_cases (family : κ → φ) (index : A → ι) (families : List φ) (grouped : Bool)
    (hup : s.up = true) (hι : DictOrder ι) (hκ : DictOrder κ) :
    s.flight = s.table ∧ s.step family index families grouped (.resume hι hκ) =
        (Store.advance family index grouped hκ (s.pending hι) (s.closed family)).map s.take ∨
    ∃ rest u us changed, s.updates = some ⟨rest, u :: us, changed⟩ ∧
      s.step family index families grouped (.resume hι hκ) =
        some { s with updates := some ⟨rest, us, changed⟩, table := u.apply s.table } := by
  rw [step, if_pos hup]
  cases hu : s.updates with
  | none => exact Or.inl ⟨by rw [flight, hu], by rw [pending, closed, hu]; rfl⟩
  | some updates =>
    obtain ⟨rest, sending, changed⟩ := updates
    cases sending with
    | nil => exact Or.inl ⟨by rw [flight, hu]; rfl, by rw [pending, closed, hu]; rfl⟩
    | cons u us => exact Or.inr ⟨rest, u, us, changed, rfl, rfl⟩

theorem Tracks.consistent_closed (hs : Tracks family index families told s) :
    (s.closed family).Consistent family index families := by
  rw [Session.closed]
  cases hu : s.updates with
  | none => exact hs.consistent
  | some updates => exact hs.consistent.record (hs.updates updates hu).2.2

theorem Tracks.resume (grouped : Bool) (hs : Tracks family index families told s) (hup : s.up = true)
    (hι : DictOrder ι) (hκ : DictOrder κ) :
    ∃ s', s.step family index families grouped (.resume hι hκ) = some s' ∧ s'.up = true ∧
      Tracks family index families told s' := by
  have hl := hs.level
  rcases resume_cases family index families grouped
    hup hι hκ with ⟨hflight, hstep⟩ | ⟨rest, u, us, changed, hu, hstep⟩
  · -- the generator goes on from a group that is out
    have hshown : s.shown family index = fun k => (s.table k).map index := by
      funext k
      rw [shown, if_pos hup, hflight]
    rw [hshown] at hl
    obtain ⟨store', r, hr, hspec⟩ := hl.advance grouped hκ (s.pending hι) hs.consistent_closed
    rw [hstep, hr, Option.map_some]
    cases r with
    | none =>
      obtain ⟨hcons', hl'⟩ := hspec
      refine ⟨{ s with store := store', updates := none }, rfl, hup, hcons', fun updates h => ?_, ?_,
        fun h => absurd (hup.symm.trans h) Bool.false_ne_true.symm⟩
      · cases h
      · have hshown' : shown family index { s with store := store', updates := none } =
            fun k => (s.table k).map index := by
          funext k
          rw [shown, if_pos hup, flight]
        exact hshown' ▸ hl'
    | some r =>
      have htake : s.take (store', some r) = ⟨store', some r.2, true, r.1.apply s.table⟩ := by
        rw [take, ← hup]
      exact ⟨_, rfl, hup, htake ▸ hspec⟩
  · obtain ⟨-, hnodup, hfam⟩ := hs.updates _ hu
    refine ⟨_, hstep, hup, hs.consistent, fun updates h => ?_, ?_,
      fun h => absurd (hup.symm.trans h) Bool.false_ne_true.symm⟩
    · obtain rfl := Option.some.inj h
      exact ⟨hup, hnodup, hfam⟩
    · have hclosed : Session.closed family { s with
          updates := some ⟨rest, us, changed⟩, table := u.apply s.table } = s.closed family := by
        simp only [Session.closed, hu]
      have hshown : shown family index { s with
          updates := some ⟨rest, us, changed⟩, table := u.apply s.table } = s.shown family index := by
        funext k
        simp only [shown, flight, hu, List.foldl_cons]
      rw [hclosed, hshown]
      exact hl

theorem Tracks.lastWord (hs : Tracks family index families told s) (k : κ) :
    s.lastWord family index k = told k := by
  have hl := hs.level
  rw [Session.lastWord]
  cases hk : s.store.modifyNlri.get? k with
  | none => exact hl.sent k (by rw [closed_waiting.1, hk])
  | some c => exact hl.waiting k c (by rw [closed_waiting.1, hk])

theorem Tracks.unclosed (hs : Tracks family index families told s) {hι : DictOrder ι}
    {hκ : DictOrder κ} (hkeeps : ¬ s.Loses family index (.reset hι hκ)) :
    (s.store.cache = true ∨ ∀ k, told k = none) ∧
      Level family index told s.store (tableIndex family index s.store) := by
  have hwaiting : ∀ k c, s.store.modifyNlri.get? k = some c → verdict index c = told k :=
    fun k c hk => hs.level.waiting k c (by rw [closed_waiting.1, hk])
  rw [Loses] at hkeeps
  split_ifs at hkeeps with hon
  · refine ⟨Or.inl hon, hwaiting, fun k hk => ?_, fun _ _ => rfl⟩
    have hshown : s.shown family index k = told k := hs.level.sent k (by rw [closed_waiting.1, hk])
    rw [← hshown, hs.level.tabled (closed_cache.trans hon), closed]
    cases hu : s.updates with
    | none => rfl
    | some updates =>
      obtain ⟨-, hnodup, -⟩ := hs.updates updates hu
      obtain ⟨hin, hout⟩ := record_sent family hon hnodup
      by_cases hmem : k ∈ updates.changed.map Change.nlri
      · obtain ⟨c, hc, rfl⟩ := List.mem_map.mp hmem
        have hsame : verdict index c = tableIndex family index s.store c.nlri := by
          by_contra hne
          exact hkeeps ⟨updates, hu, c, hc, hk, hne⟩
        simp only [tableIndex, hin c hc, verdict_kept]
        rw [hsame, tableIndex]
      · simp only [tableIndex, hout k hmem]
  · have htold : ∀ k, told k = none := fun k => by
      rw [← hs.lastWord k]
      by_contra hne
      exact hkeeps ⟨k, hne⟩
    refine ⟨Or.inr htold, hwaiting, fun k _ => ?_, fun _ _ => rfl⟩
    rw [tableIndex, hs.consistent.off (by simpa using hon), htold, Option.map_none]

theorem Level.drain (hκ : DictOrder κ) (rest : List (ι × ℕ))
    (hcons : store.Consistent family index families)
    (hon : store.cache = true ∨ ∀ k, told k = none)
    (hl : Level family index told store (tableIndex family index store)) :
    ∃ store', Store.drain family index hκ rest store = some store' ∧
      store'.Consistent family index families ∧
      Level family index told store' (tableIndex family index store') := by
  induction rest generalizing store with
  | nil => exact ⟨store, rfl, hcons, hl⟩
  | cons entry rest ih =>
    obtain ⟨store', updates, changed, hopen, ho⟩ := hcons.openBucket false hκ entry
    rw [Store.drain, hopen, Option.bind_some]
    have hcons' : (store'.record family changed).Consistent family index families :=
      ho.consistent.record fun c hc => (hcons.nlri _ c (ho.waiting c hc).1).2
    have hcache : (store'.record family changed).cache = store.cache := record_cache.trans ho.cache
    refine ih hcons' (hcache ▸ hon) ?_
    by_cases hcached : store.cache = true
    · obtain ⟨hin, hout⟩ := record_sent family (ho.cache.trans hcached) ho.nodup
      refine hl.opened ho (fun c hc => ?_) fun k hk => ?_
      · rw [tableIndex, hin c hc, verdict_kept]
      · rw [tableIndex, tableIndex, hout k hk, sent_congr ho.announced]
    · -- without a table nothing is left, and only withdrawals waited
      have hnone := hcons'.off (hcache.trans (by simpa using hcached))
      have hnone₀ := hcons.off (by simpa using hcached)
      refine hl.opened ho (fun c hc => ?_) fun k _ => ?_
      · rw [tableIndex, hnone, hl.waiting _ c (ho.waiting c hc).1, hon.resolve_left hcached,
          Option.map_none]
      · rw [tableIndex, tableIndex, hnone, hnone₀]

theorem Tracks.reset (grouped : Bool) (hs : Tracks family index families told s) (hι : DictOrder ι) (hκ : DictOrder κ)
    (hkeeps : ¬ s.Loses family index (.reset hι hκ)) :
    ∃ s', s.step family index families grouped (.reset hι hκ) = some s' ∧
      Tracks family index families told s' := by
  obtain ⟨hon, hl⟩ := hs.unclosed hkeeps
  obtain ⟨store', hdrain, hcons, hl'⟩ := hl.drain hκ (s.store.snapshot hι) hs.consistent hon
  refine ⟨⟨store', none, false, fun _ => none⟩, by rw [step, Store.reset, hdrain, Option.map_some],
    hcons, fun updates h => ?_, hl', fun _ _ => rfl⟩
  cases h

theorem Level.insert {c : Change κ A} (hf : family c.nlri ∈ families)
    (hcons : store.Consistent family index families)
    (hl : Level family index told store (tableIndex family index store))
    (hechoes : Echoes family index store) (hsent : store.sent family c.nlri = some c)
    (hact : c.action = .announce) :
    ∃ store', store.insertAnnounced family index c = some store' ∧
      store'.Consistent family index families ∧ store'.announced = store.announced ∧
      Level family index told store' (tableIndex family index store') ∧ Echoes family index store' ∧
      store'.modifyNlri.get? c.nlri = some c ∧
      ∀ k, k ≠ c.nlri → store'.modifyNlri.get? k = store.modifyNlri.get? k := by
  obtain ⟨hfails, hspec⟩ := hcons.insertAnnounced (c := c) hf
  obtain ⟨store', h⟩ := Option.ne_none_iff_exists'.mp fun hnone => by
    rw [hfails, hact] at hnone
    exact absurd hnone.2.1 (by decide)
  obtain ⟨hcons', hannounced, -, hothers, hown⟩ := hspec store' h
  have hown : store'.modifyNlri.get? c.nlri = some c := by
    apply hown.resolve_right
    intro h
    rw [hact] at h
    exact absurd h.2.1 (by decide)
  have hsent' : ∀ k, store'.sent family k = store.sent family k := sent_congr hannounced
  have hverdict : verdict index c = some (index c.attributes) := by rw [verdict, if_pos hact]
  have htold : told c.nlri = some (index c.attributes) := by
    cases hq : store.modifyNlri.get? c.nlri with
    | none => rw [← hl.sent _ hq, tableIndex, hsent, Option.map_some]
    | some c' => rw [← hl.waiting _ c' hq, hechoes _ c' c hq hsent]
  have htable : tableIndex family index store' = tableIndex family index store := funext fun k => by
    rw [tableIndex, tableIndex, hsent']
  -- the route of the table takes the place of what waited, and says the same
  refine ⟨store', h, hcons', hannounced, ⟨fun k c' hk => ?_, fun k hk => ?_, fun _ _ => rfl⟩,
    fun k c' old hk hold => ?_, hown, hothers⟩
  · by_cases hkc : k = c.nlri
    · rw [hkc, hown] at hk
      rw [hkc, htold, ← Option.some.inj hk, hverdict]
    · exact hl.waiting k c' (by rw [← hothers k hkc, hk])
  · by_cases hkc : k = c.nlri
    · rw [hkc, hown] at hk
      cases hk
    · rw [htable]
      exact hl.sent k (by rw [← hothers k hkc, hk])
  · rw [hsent'] at hold
    by_cases hkc : k = c.nlri
    · rw [hkc, hown] at hk
      rw [hkc, hsent] at hold
      rw [← Option.some.inj hk, ← Option.some.inj hold, hverdict]
    · exact hechoes k c' old (by rw [← hothers k hkc, hk]) hold

theorem Level.inserts {f : φ} (routes : List (Change κ A)) (hf : f ∈ families)
    (hcons : store.Consistent family index families)
    (hl : Level family index told store (tableIndex family index store))
    (hechoes : Echoes family index store)
    (hroutes : ∀ c ∈ routes, store.sent family c.nlri = some c ∧ c.action = .announce ∧
      family c.nlri = f) :
    ∃ store', routes.foldlM (Store.insertAnnounced family index) store = some store' ∧
      store'.Consistent family index families ∧ store'.announced = store.announced ∧
      Level family index told store' (tableIndex family index store') ∧ Echoes family index store' ∧
      (∀ k, store.modifyNlri.get? k ≠ none → store'.modifyNlri.get? k ≠ none) ∧
      ∀ c ∈ routes, store'.modifyNlri.get? c.nlri ≠ none := by
  induction routes generalizing store with
  | nil =>
    exact ⟨store, rfl, hcons, rfl, hl, hechoes, fun _ h => h, fun c hc => absurd hc List.not_mem_nil⟩
  | cons c routes ih =>
    obtain ⟨hsent, hact, hfam⟩ := hroutes c List.mem_cons_self
    obtain ⟨store₁, h₁, hcons₁, hannounced, hl₁, hechoes₁, hown, hothers⟩ :=
      hl.insert (hfam ▸ hf) hcons hechoes hsent hact
    obtain ⟨store', h', hcons', hannounced', hl', hechoes', hstay, hin⟩ := ih hcons₁ hl₁ hechoes₁
      fun c' hc' => by
        rw [sent_congr hannounced]
        exact hroutes c' (List.mem_cons_of_mem c hc')
    have hwaits : store₁.modifyNlri.get? c.nlri ≠ none := by simp [hown]
    refine ⟨store', by rw [List.foldlM_cons, h₁]; exact h', hcons', hannounced'.trans hannounced, hl',
      hechoes', fun k hk => hstay k ?_, fun c' hc' => ?_⟩
    · by_cases hkc : k = c.nlri
      · rwa [hkc]
      · rwa [hothers k hkc]
    · rcases List.mem_cons.mp hc' with rfl | hc'
      · exact hstay _ hwaits
      · exact hin c' hc'

theorem Level.resendFamily (hκ : DictOrder κ) {f : φ} (hf : f ∈ families)
    (hcons : store.Consistent family index families)
    (hl : Level family index told store (tableIndex family index store))
    (hechoes : Echoes family index store) :
    ∃ store', store.resendFamily family index hκ f = some store' ∧
      store'.Consistent family index families ∧
      Level family index told store' (tableIndex family index store') ∧ Echoes family index store' ∧
      ∀ k, store'.sent family k = if family k = f then none else store.sent family k := by
  have hmem : ∀ c, c ∈ ((store.announced.get? f).getD .empty).valuesIn hκ ↔
      ∃ d k, store.announced.get? f = some d ∧ d.get? k = some c := by
    intro c
    rw [Dict.mem_valuesIn]
    cases store.announced.get? f <;> simp
  set routes := (((store.announced.get? f).getD .empty).valuesIn hκ).filter fun c =>
    c.action = .announce with hroutes
  obtain ⟨store₁, h₁, hcons₁, hannounced, hl₁, hechoes₁, hstay, hin⟩ :=
    hl.inserts routes hf hcons hechoes fun c hc => by
      obtain ⟨d, k, hd, hk⟩ := (hmem c).mp (List.mem_filter.mp hc).1
      obtain ⟨hfam, -, rfl, hact⟩ := hcons.sent f d k c hd hk
      exact ⟨by rw [Store.sent, hfam, hd, Option.bind_some, hk], hact, hfam⟩
  have hsent : ∀ k, ({ store₁ with announced := store₁.announced.set f .empty } :
      Store κ φ ι A).sent family k = if family k = f then none else store.sent family k := by
    intro k
    rw [Store.sent, Store.sent, Dict.get?_set, hannounced]
    split_ifs
    · rfl
    · rfl
  refine ⟨{ store₁ with announced := store₁.announced.set f .empty },
    by rw [Store.resendFamily, ← hroutes, h₁, Option.map_some], ?_, ⟨hl₁.waiting, fun k hk => ?_,
    fun _ _ => rfl⟩, ?_, hsent⟩
  · refine ⟨hcons₁.sorted, hcons₁.nlri, hcons₁.cached, hcons₁.covered, fun g d k c hg hk => ?_,
      fun hoff k => ?_⟩
    · rw [Dict.get?_set] at hg
      split_ifs at hg with hgf
      · rw [← Option.some.inj hg, Dict.get?_empty] at hk
        cases hk
      · exact hcons₁.sent g d k c hg hk
    · have hnone := hcons₁.off hoff k
      rw [Store.sent, hannounced] at hnone
      rw [hsent]
      split_ifs
      · rfl
      · exact hnone
  · -- a prefix of the family that does not wait was not in the table
    rw [← hl₁.sent k hk, tableIndex, tableIndex, hsent, Store.sent, Store.sent, hannounced]
    split_ifs with hkf
    · cases hold : (store.announced.get? (family k)).bind fun d => d.get? k with
      | none => rfl
      | some old =>
        obtain ⟨d, hd, hdk⟩ := Option.bind_eq_some_iff.mp hold
        obtain ⟨-, -, holdk, hact⟩ := hcons.sent _ d k old hd hdk
        have hwaits := hin old (List.mem_filter.mpr ⟨(hmem old).mpr ⟨d, k, hkf ▸ hd, hdk⟩, by simpa⟩)
        exact absurd hk (holdk ▸ hwaits)
    · rfl
  · intro k c old hk hold
    rw [hsent] at hold
    split_ifs at hold
    exact hechoes₁ k c old hk (by rw [Store.sent, hannounced]; exact hold)

theorem Level.resend (hκ : DictOrder κ) (hcons : store.Consistent family index families)
    (hl : Level family index told store (tableIndex family index store))
    (hechoes : Echoes family index store) :
    ∃ store', store.resend family index families hκ = some store' ∧
      store'.Consistent family index families ∧
      Level family index told store' (tableIndex family index store') ∧
      ∀ k, store'.sent family k = none := by
  obtain ⟨store', hrun, hcons', hl', -, hdone⟩ := Runs.foldlM_visited (l := families)
    (Q := fun done (store : Store κ φ ι A) => store.Consistent family index families ∧
      Level family index told store (tableIndex family index store) ∧ Echoes family index store ∧
      ∀ k, family k ∈ done → store.sent family k = none)
    (fun done f rest store hfamilies hinv => by
      obtain ⟨hcons, hl, hechoes, hdone⟩ := hinv
      obtain ⟨store', h', hcons', hl', hechoes', hsent⟩ := hl.resendFamily hκ
        (hfamilies ▸ List.mem_append_right done List.mem_cons_self) hcons hechoes
      refine ⟨store', h', hcons', hl', hechoes', fun k hk => ?_⟩
      rw [hsent]
      split_ifs with hkf
      · rfl
      · exact hdone k ((List.mem_append.mp hk).resolve_right fun h => hkf (List.mem_singleton.mp h)))
    ⟨hcons, hl, hechoes, fun k hk => absurd hk List.not_mem_nil⟩
  refine ⟨store', hrun, hcons', hl', fun k => ?_⟩
  cases hsent : store'.sent family k with
  | none => rfl
  | some c =>
    obtain ⟨d, hd, hk⟩ := Option.bind_eq_some_iff.mp hsent
    have hfam := (hcons'.sent _ d k c hd hk).2.1
    exact absurd (hsent.symm.trans (hdone k hfam)) (Option.some_ne_none c)

theorem Tracks.establish (grouped : Bool) (hs : Tracks family index families told s) (hdown : s.up = false)
    (hκ : DictOrder κ) (hkeeps : ¬ s.Loses family index (.establish hκ)) :
    ∃ s', s.step family index families grouped (.establish hκ) = some s' ∧
      Tracks family index families told s' := by
  have hu : s.updates = none := by
    cases hu : s.updates with
    | none => rfl
    | some updates => exact absurd (hdown.symm.trans (hs.updates updates hu).1) Bool.false_ne_true
  have hl := hs.level
  have hclosed : s.closed family = s.store := by rw [closed, hu]
  have hshown : s.shown family index = tableIndex family index s.store := by
    funext k
    rw [shown, hdown, if_neg Bool.false_ne_true]
  rw [hclosed, hshown] at hl
  obtain ⟨store', hresend, hcons, hl', hsent⟩ := hl.resend hκ hs.consistent (not_not.mp hkeeps)
  have hnone : ∀ k, tableIndex family index store' k = none := fun k => by
    rw [tableIndex, hsent, Option.map_none]
  refine ⟨{ s with store := store', up := true }, by
      rw [step, hdown, if_neg Bool.false_ne_true, hresend, Option.map_some], hcons, fun updates h => ?_,
    ?_, fun h => absurd h Bool.false_ne_true.symm⟩
  · rw [hu] at h
    cases h
  · have hclosed' : closed family { s with store := store', up := true } = store' := by
      simp only [closed, hu]
    have hshown' : shown family index { s with store := store', up := true } =
        tableIndex family index store' := by
      funext k
      simp only [shown, flight, hu, if_true]
      rw [hs.down hdown k, hnone, Option.map_none]
    rw [hclosed', hshown']
    exact hl'

theorem tracks_init (cache : Bool) : Tracks family index families (fun _ => none)
    (Session.init cache : Session κ φ ι A) where
  consistent := consistent_init cache
  updates _ h := by cases h
  level := by
    refine ⟨fun k c hk => ?_, fun k _ => ?_, fun _ k => ?_⟩
    · simp [closed, Session.init, Store.init] at hk
    · simp [shown, Session.init, tableIndex, Store.sent, Store.init]
    · simp [shown, Session.init, closed]
  down _ _ := rfl

theorem Tracks.step (hs : Tracks family index families told s) {e : Event κ ι A}
    (hstep : s.step family index families grouped e = some s') (hkeeps : ¬ s.Loses family index e) :
    Tracks family index families (say family index families told e) s' := by
  cases e with
  | command c => exact hs.command hstep hkeeps
  | resume hι hκ =>
    cases hup : s.up with
    | true =>
      obtain ⟨t, ht, -, htracks⟩ := hs.resume grouped hup hι hκ
      obtain rfl := Option.some.inj (ht.symm.trans hstep)
      exact htracks
    | false =>
      rw [Session.step, hup, if_neg Bool.false_ne_true] at hstep
      cases hstep
  | reset hι hκ =>
    obtain ⟨t, ht, htracks⟩ := hs.reset grouped hι hκ hkeeps
    obtain rfl := Option.some.inj (ht.symm.trans hstep)
    exact htracks
  | establish hκ =>
    cases hup : s.up with
    | true =>
      rw [Session.step, if_pos hup] at hstep
      cases hstep
    | false =>
      obtain ⟨t, ht, htracks⟩ := hs.establish grouped hup hκ hkeeps
      obtain rfl := Option.some.inj (ht.symm.trans hstep)
      exact htracks

theorem Tracks.run {events : List (Event κ ι A)} (hs : Tracks family index families told s)
    (hkeeps : Lossless family index families grouped s events)
    (hrun : events.foldlM (Session.step family index families grouped) s = some s') :
    Tracks family index families (events.foldl (say family index families) told) s' := by
  induction events generalizing s told with
  | nil =>
    obtain rfl := Option.some.inj hrun
    exact hs
  | cons e events ih =>
    rw [List.foldlM_cons] at hrun
    obtain ⟨t, ht, hrun⟩ := Option.bind_eq_some_iff.mp hrun
    exact ih (hs.step ht hkeeps.1) (hkeeps.2 t ht) hrun

end Session

end Hispar.Exabgp
