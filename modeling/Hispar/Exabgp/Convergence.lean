import Hispar.Exabgp.Session

/-!
# What the neighbor comes to

A pass that starts after the last command finds every change that waits. It ends, and
what it leaves waiting says what the neighbor has already.
-/
namespace Hispar.Exabgp.Session
open Library Store

variable {κ φ ι A : Type*} [DecidableEq κ] [DecidableEq φ] [DecidableEq ι] {family : κ → φ}
  {index : A → ι} {families : List φ} {grouped : Bool} {told : κ → Option ι}
  {store store' : Store κ φ ι A} {s s' : Session κ φ ι A}

def left (s : Session κ φ ι A) : ℕ :=
  s.store.modifyNlri.items.length + (s.updates.map fun updates => updates.sending.length).getD 0

/-- Every change that waits is in a group that the pass has before it, or says what the table
is going to have. -/
def Ahead (family : κ → φ) (index : A → ι) (store closed : Store κ φ ι A) (rest : List (ι × ℕ)) : Prop :=
  ∀ k c, store.modifyNlri.get? k = some c → closed.Settled family index c ∨
    ∃ n, (index c.attributes, n) ∈ rest ∧
      (store.modifySorted.get? (index c.attributes)).map Prod.fst = some n

def Ready (family : κ → φ) (index : A → ι) (s : Session κ φ ι A) : Prop :=
  Ahead family index s.store (s.closed family) ((s.updates.map Pass.rest).getD [])

theorem ahead_snapshot (hι : DictOrder ι) (hcons : store.Consistent family index families) :
    Ahead family index store store (store.snapshot hι) := by
  intro k c hk
  obtain ⟨b, hb, -⟩ := Option.bind_eq_some_iff.mp ((hcons.sorted _ k c).mpr ⟨hk, rfl⟩)
  refine Or.inr ⟨b.1, List.mem_filterMap.mpr ⟨index c.attributes, ?_, by rw [hb, Option.map_some]⟩,
    by rw [hb, Option.map_some]⟩
  exact (hι.mem_arrange _ _).mpr (Dict.mem_keys_iff.mpr ⟨b, hb⟩)

theorem opened_length {store' : Store κ φ ι A} {entry : ι × ℕ} {updates : List (Update κ A)}
    {changed : List (Change κ A)}
    (ho : Opened family index families grouped store entry store' updates changed) :
    store'.modifyNlri.items.length + changed.length = store.modifyNlri.items.length := by
  have h := Dict.length_of_removed ho.nodup (fun k hk => by
    obtain ⟨c, hc, rfl⟩ := List.mem_map.mp hk
    exact Dict.mem_keys_iff.mpr ⟨c, (ho.waiting c hc).1⟩) ho.left
  rwa [List.length_map] at h

theorem advance_length (hκ : DictOrder κ) (rest : List (ι × ℕ))
    (hcons : store.Consistent family index families) {r : Option (Update κ A × Pass κ ι A)}
    (h : Store.advance family index grouped hκ rest store = some (store', r)) :
    store'.modifyNlri.items.length ≤ store.modifyNlri.items.length ∧ ∀ u updates,
      r = some (u, updates) →
        store'.modifyNlri.items.length + updates.sending.length < store.modifyNlri.items.length := by
  induction rest generalizing store with
  | nil =>
    obtain ⟨rfl, rfl⟩ := Prod.mk.inj (Option.some.inj h)
    exact ⟨le_rfl, nofun⟩
  | cons entry rest ih =>
    obtain ⟨store₁, updates, changed, hopen, ho⟩ := hcons.openBucket grouped hκ entry
    have hlength := opened_length ho
    rw [Store.advance, hopen, Option.bind_some] at h
    rcases ho.updates with ⟨rfl, rfl⟩ | ⟨hne, attributes, -, hupdates⟩
    · rw [List.length_nil, Nat.add_zero] at hlength
      rw [← hlength]
      exact ih ho.consistent h
    · have hpos := List.length_pos_iff.mpr hne
      have hle := length_updatesOf_le grouped attributes hne
      obtain ⟨u, us, hus⟩ := List.exists_cons_of_ne_nil
        (hupdates ▸ updatesOf_ne_nil grouped attributes hne)
      rw [← hupdates, hus, List.length_cons] at hle
      simp only [hus] at h
      obtain ⟨rfl, rfl⟩ := Prod.mk.inj (Option.some.inj h)
      refine ⟨by omega, fun v updates hv => ?_⟩
      obtain ⟨rfl, rfl⟩ := Prod.mk.inj (Option.some.inj hv)
      simp only
      omega

theorem advance_ready (hκ : DictOrder κ) (rest : List (ι × ℕ))
    (hcons : store.Consistent family index families) (hahead : Ahead family index store store rest)
    {r : Option (Update κ A × Pass κ ι A)}
    (h : Store.advance family index grouped hκ rest store = some (store', r)) (up : Bool)
    (table : κ → Option A) : Ready family index ⟨store', r.map Prod.snd, up, table⟩ ∧
      ((∀ k c, store.modifyNlri.get? k = some c → store.Settled family index c) → r = none) := by
  induction rest generalizing store with
  | nil =>
    obtain ⟨rfl, rfl⟩ := Prod.mk.inj (Option.some.inj h)
    exact ⟨hahead, fun _ => rfl⟩
  | cons entry rest ih =>
    obtain ⟨store₁, updates, changed, hopen, ho⟩ := hcons.openBucket grouped hκ entry
    have hsent : ∀ k, store₁.sent family k = store.sent family k := sent_congr ho.announced
    have hleft : ∀ k c, store₁.modifyNlri.get? k = some c → store.modifyNlri.get? k = some c := by
      intro k c hk
      rw [ho.left] at hk
      split_ifs at hk
      exact hk
    have hahead₁ : Ahead family index store₁ store₁ rest := by
      intro k c hk
      rw [settled_congr ho.cache (hsent _)]
      rcases hahead k c (hleft k c hk) with hsettled | ⟨n, hn, hgroup⟩
      · exact Or.inl hsettled
      · rcases List.mem_cons.mp hn with rfl | hn
        · exact Or.inl (ho.settled hgroup k c hk rfl)
        · exact Or.inr ⟨n, hn, (ho.groups _).trans hgroup⟩
    rw [Store.advance, hopen, Option.bind_some] at h
    cases updates with
    | nil =>
      obtain ⟨hready, hquiet⟩ := ih ho.consistent hahead₁ h
      refine ⟨hready, fun hall => hquiet fun k c hk => ?_⟩
      rw [settled_congr ho.cache (hsent _)]
      exact hall k c (hleft k c hk)
    | cons u us =>
      obtain ⟨rfl, rfl⟩ := Prod.mk.inj (Option.some.inj h)
      refine ⟨fun k c hk => ?_, fun hall => ?_⟩
      · have hout : k ∉ changed.map Change.nlri := fun hmem => by
          rw [ho.left, if_pos hmem] at hk
          cases hk
        refine (hahead₁ k c hk).imp_left fun hsettled => ?_
        refine (settled_congr record_cache ?_).mpr hsettled
        rw [(ho.consistent.nlri k c hk).1]
        exact (record_sent family hsettled.1 ho.nodup).2 k hout
      · obtain ⟨hne, -⟩ := ho.updates.resolve_left fun h => List.cons_ne_nil _ _ h.1
        obtain ⟨c, hc⟩ := List.exists_mem_of_ne_nil changed hne
        obtain ⟨hk, -, hnot⟩ := ho.waiting c hc
        exact absurd (hall c.nlri c hk) hnot

theorem Tracks.progress (hs : Tracks family index families told s) (hup : s.up = true)
    {hι : DictOrder ι} {hκ : DictOrder κ}
    (hstep : s.step family index families grouped (.resume hι hκ) = some s') :
    s'.left ≤ s.left ∧ (s'.updates ≠ none → s'.left < s.left) ∧
    (s.updates = none ∨ s.Ready family index → s'.Ready family index) ∧
    (s.updates = none → s.Ready family index → s'.updates = none) := by
  rcases resume_cases family index families grouped
    hup hι hκ with ⟨-, heq⟩ | ⟨rest, u, us, changed, hu, heq⟩
  · obtain ⟨⟨store', r⟩, hr, rfl⟩ := Option.map_eq_some_iff.mp (heq.symm.trans hstep)
    have htake : s.take (store', r) = ⟨store', r.map Prod.snd, s.up, (s.take (store', r)).table⟩ := by
      cases r <;> rfl
    have hupdates : (s.take (store', r)).updates = r.map Prod.snd := by rw [htake]
    have hstore : (s.take (store', r)).store = store' := by rw [htake]
    obtain ⟨hle, hlt⟩ := advance_length hκ _ hs.consistent_closed hr
    rw [closed_waiting.1] at hle hlt
    have hahead : s.updates = none ∨ s.Ready family index →
        Ahead family index (s.closed family) (s.closed family) (s.pending hι) := by
      intro h
      cases hu : s.updates with
      | none =>
        rw [closed, pending, hu]
        exact ahead_snapshot hι hs.consistent
      | some updates =>
        have hready := h.resolve_left fun hnone => by
          rw [hu] at hnone
          cases hnone
        rw [Ready, hu] at hready
        rw [pending, hu]
        intro k c hk
        rw [closed_waiting.2]
        exact hready k c (by rwa [closed_waiting.1] at hk)
    have hbound : (s.take (store', r)).left ≤ s.store.modifyNlri.items.length ∧
        ((s.take (store', r)).updates ≠ none →
          (s.take (store', r)).left < s.store.modifyNlri.items.length) := by
      rw [left, hupdates, hstore]
      cases r with
      | none => exact ⟨hle, fun h => absurd rfl h⟩
      | some r => exact ⟨(hlt r.1 r.2 rfl).le, fun _ => hlt r.1 r.2 rfl⟩
    have hleft : s.store.modifyNlri.items.length ≤ s.left := Nat.le_add_right _ _
    refine ⟨hbound.1.trans hleft, fun h => (hbound.2 h).trans_le hleft, fun h => ?_,
      fun hnone hready => ?_⟩
    · exact htake ▸ (advance_ready hκ _ hs.consistent_closed (hahead h) hr s.up _).1
    · have hall : ∀ k c, (s.closed family).modifyNlri.get? k = some c →
          (s.closed family).Settled family index c := by
        intro k c hk
        rw [closed_waiting.1] at hk
        rw [Ready, hnone] at hready
        refine (hready k c hk).resolve_right fun h => ?_
        obtain ⟨n, hn, -⟩ := h
        exact absurd hn List.not_mem_nil
      rw [hupdates, (advance_ready hκ _ hs.consistent_closed (hahead (Or.inl hnone)) hr s.up s.table).2 hall]
      rfl
  · obtain rfl := Option.some.inj (heq.symm.trans hstep)
    have hlt : (⟨s.store, some ⟨rest, us, changed⟩, s.up, u.apply s.table⟩ :
        Session κ φ ι A).left < s.left := by
      rw [left, left, hu]
      exact Nat.lt_succ_self _
    refine ⟨hlt.le, fun _ => hlt, fun h => ?_, fun h => ?_⟩
    · have hready := h.resolve_left fun hnone => by
        rw [hu] at hnone
        cases hnone
      have hclosed : closed family (⟨s.store, some ⟨rest, us, changed⟩, s.up, u.apply s.table⟩ :
          Session κ φ ι A) = s.closed family := by
        simp only [closed, hu]
      rw [Ready, hu] at hready
      rw [Ready, hclosed]
      exact hready
    · rw [hu] at h
      cases h

theorem Lossless.cons {e : Event κ ι A} {events : List (Event κ ι A)}
    (hkeeps : ¬ s.Loses family index e) (hstep : s.step family index families grouped e = some s')
    (h : Lossless family index families grouped s' events) :
    Lossless family index families grouped s (e :: events) :=
  ⟨hkeeps, fun t ht => by rwa [Option.some.inj (hstep.symm.trans ht)] at h⟩

end Hispar.Exabgp.Session
