import Hispar.Bgp.RouteServer
import Hispar.Bgp.Ties

/-!
# The local tables

Announcements and withdrawals keep the local table of every participant at the
best routes of the others. A lost session does not: it takes routes away and
has no one choose again.
-/
namespace Hispar.Bgp
open Library

/-- Every participant has chosen, for every prefix, the best of the others' routes. -/
def Consistent (s : Participants) : Prop :=
  ∀ p, Offers.Settled bestPathSelection s.keys (view p s)

def Message.IsUpdate (msg : Message) : Prop :=
  ∃ n, msg.neighbor = some n ∧ n.state ≠ some "down" ∧ n.update ≠ none

def Message.WellFormed (msg : Message) : Prop :=
  ∀ n u announce, msg.neighbor = some n → n.update = some u →
    u.announce = some ⟨some announce⟩ → ∃ a, u.attrs = some a ∧
      0 < aspathLength (asPathText (a.asPath.getD [])) ∧ ∀ kv ∈ announce.items, Canonical kv.2

variable {msg : Message} {n : Neighbor} {s s' : Participants} {items : List RouteItem}

theorem inputOf_routeServer (ports : PortsList) (m : String) :
    inputOf (routeServer ports) m = [] ∧ localOf (routeServer ports) m = [] ∧
      ipsOf (routeServer ports) m = (ports.get? m).getD [] := by
  rw [inputOf, localOf, ipsOf, routeServer, Dict.get?_mapValues]
  cases ports.get? m <;> exact ⟨rfl, rfl, rfl⟩

theorem consistent_routeServer (ports : PortsList) : Consistent (routeServer ports) :=
  fun p => Offers.settled_init fun m => by
    obtain ⟨hinput, hlocal, -⟩ := inputOf_routeServer ports m
    rw [view_offers, view_choice, hinput, hlocal]
    exact ⟨rfl, rfl⟩

theorem Processed.consistent (h : Processed n s s' items) (hs : Consistent s) : Consistent s' := by
  intro p
  rw [h.keys]
  have hbest := fun l r => @mem_of_bestPathSelection l r
  cases h.effect p with
  | idle hview => exact hview ▸ hs p
  | announced q _ _ h => exact Offers.settled_announced hbest (hs p) h
  | withdrawn q _ _ _ h => exact Offers.settled_withdrawn hbest (hs p) h

theorem processAll_consistent {msgs : List Message} (hmsgs : ∀ m ∈ msgs, m.IsUpdate)
    (hs : Consistent s) (h : processAll s msgs = some s') : Consistent s' :=
  Runs.foldlM_invariant (fun s₁ s₂ m hm hs₁ hstep => by
    obtain ⟨⟨_, items⟩, hproc, rfl⟩ := Option.map_eq_some_iff.mp hstep
    obtain ⟨n, hn, hstate, -⟩ := hmsgs m hm
    exact (processMessage_cases hn hstate hproc).consistent hs₁) hs h

theorem processAll_keys {msgs : List Message} (hmsgs : ∀ m ∈ msgs, m.IsUpdate)
    (h : processAll s msgs = some s') : s'.keys = s.keys := by
  refine Runs.foldlM_invariant (P := fun t => t.keys = s.keys) (fun s₁ s₂ m hm hkeys hstep => ?_)
    rfl h
  obtain ⟨⟨_, items⟩, hproc, rfl⟩ := Option.map_eq_some_iff.mp hstep
  obtain ⟨n, hn, hstate, -⟩ := hmsgs m hm
  rw [(processMessage_cases hn hstate hproc).keys, hkeys]

theorem Message.WellFormed.comparable (hwf : msg.WellFormed) (hn : msg.neighbor = some n) {r : Row}
    (hr : n.Announces r) : Comparable r := by
  obtain ⟨u, announce, hu, hannounce, kv, hkv, hrow⟩ := hr
  obtain ⟨a, ha, hpath, hcanonical⟩ := hwf n u announce hn hu hannounce
  rw [announcedRow, ha] at hrow
  obtain rfl := Option.some.inj hrow
  exact ⟨List.ne_nil_of_length_pos hpath, hcanonical kv hkv⟩

theorem Message.WellFormed.update_total (hwf : msg.WellFormed) (hn : msg.neighbor = some n)
    (hstate : n.state ≠ some "down") (peer : Peer) : ∃ out, peer.update msg = some out := by
  simp only [Peer.update, hn, if_neg hstate]
  split_ifs
  · cases hu : n.update with
    | none => exact ⟨_, rfl⟩
    | some u =>
      simp only [Peer.applyUpdate]
      split
      · rename_i announce hannounce
        obtain ⟨a, ha, -⟩ := hwf n u announce hn hu hannounce
        obtain ⟨acc, hacc⟩ := announceAll_total (ha ▸ Option.some_ne_none a) announce.items
          (peer.inputRib, [])
        rw [hacc]
        exact ⟨_, rfl⟩
      · exact ⟨_, rfl⟩
      · exact ⟨_, rfl⟩
  · exact ⟨_, rfl⟩

theorem updateRibs_total (hup : ∀ peer : Peer, ∃ out, peer.update msg = some out)
    {names : List String} (hnames : ∀ m ∈ names, m ∈ s.keys) (r : Option (List RouteItem)) :
    ∃ s' r', updateRibs msg names (s, r) = some (s', r') ∧ (names ≠ [] ∨ r ≠ none → r' ≠ none) := by
  induction names generalizing s r with
  | nil => exact ⟨s, r, rfl, fun h => h.resolve_left (not_not_intro rfl)⟩
  | cons name names ih =>
    obtain ⟨peer, hpeer⟩ := Dict.mem_keys_iff.mp (hnames name List.mem_cons_self)
    obtain ⟨⟨peer', items⟩, hout⟩ := hup peer
    simp only [updateRibs, hpeer, Option.bind_some, hout]
    split_ifs
    · obtain ⟨s', r', hrun, hr'⟩ := ih (s := s.modify name fun _ => peer')
        (fun m hm => by simpa using hnames m (List.mem_cons_of_mem name hm)) (some items)
      exact ⟨s', r', hrun, fun _ => hr' (Or.inr (Option.some_ne_none items))⟩
    · exact ⟨_, _, rfl, fun _ => Option.some_ne_none items⟩

theorem processMessage_total (hwf : msg.WellFormed) (hupdate : msg.IsUpdate) (hs : s.keys ≠ [])
    (hcomp : AllComparable s) :
    ∃ s' items, processMessage s msg = some (s', items) ∧ AllComparable s' ∧ s'.keys = s.keys := by
  obtain ⟨n, hn, hstate, -⟩ := hupdate
  obtain ⟨s₁, r', hrun, hr'⟩ := updateRibs_total (hwf.update_total hn hstate) (fun m hm => hm) none
  obtain ⟨items, rfl⟩ := Option.ne_none_iff_exists'.mp (hr' (Or.inl hs))
  have hcomp₁ : AllComparable s₁ := by
    rcases updateRibs_cases hn hstate hrun with ⟨rfl, -⟩ | ⟨q, -, peer, peer', _, hq, rfl, -, hrep⟩
    · exact hcomp
    · intro m r hr
      rw [(modify_input hq hrep.ips hrep.localRib m).2.2] at hr
      split_ifs at hr
      · rcases hrep.rows r hr with hr | hr
        · exact hcomp q r (by rwa [inputOf, hq])
        · exact hwf.comparable hn hr
      · exact hcomp m r hr
  obtain ⟨s', hs'⟩ := decideAll_total hcomp₁ items
  have hproc : processMessage s msg = some (s', items) := by
    rw [processMessage, hrun, Option.bind_some, Option.bind_some, hs']
    rfl
  have hp := processMessage_cases hn hstate hproc
  refine ⟨s', items, hproc, fun m r hr => ?_, hp.keys⟩
  rcases hp.rows m r hr with hr | hr
  · exact hcomp m r hr
  · exact hwf.comparable hn hr.2

theorem processAll_total {msgs : List Message} (hmsgs : ∀ m ∈ msgs, m.IsUpdate ∧ m.WellFormed)
    (hs : s.keys ≠ []) (hcomp : AllComparable s) : ∃ s', processAll s msgs = some s' := by
  obtain ⟨s', hrun, -⟩ := Runs.foldlM_total (P := fun s => s.keys ≠ [] ∧ AllComparable s)
    (f := fun s m => (processMessage s m).map Prod.fst) (fun s₁ m hm hs₁ => by
      obtain ⟨s₂, items, hstep, hcomp₂, hkeys⟩ :=
        processMessage_total (hmsgs m hm).2 (hmsgs m hm).1 hs₁.1 hs₁.2
      exact ⟨s₂, by rw [hstep]; rfl, hkeys ▸ hs₁.1, hcomp₂⟩) ⟨hs, hcomp⟩
  exact ⟨s', hrun⟩

theorem Consistent.localOf_eq (hs : Consistent s) {P : String} (hP : P ∈ s.keys) (p : String) :
    (othersRoutes s P p = [] → (localOf s P).getAll p = []) ∧
    (othersRoutes s P p ≠ [] → ∃ best, bestPathSelection (othersRoutes s P p) = some best ∧
      (localOf s P).getAll p = [best]) := by
  rw [othersRoutes_eq]
  rcases hs p P hP with ⟨hv, hn⟩ | ⟨best, hbest, hn⟩
  · exact ⟨fun _ => hn, fun hne => absurd hv hne⟩
  · exact ⟨fun hv => absurd hv (ne_nil_of_bestPathSelection hbest), fun _ => ⟨best, hbest, hn⟩⟩

theorem othersRoutes_eq_nil {P p : String} :
    othersRoutes s P p = [] ↔ ∀ Q ∈ s.keys, Q ≠ P → (inputOf s Q).getAll p = [] := by
  rw [othersRoutes_eq, Offers.others_eq_nil]
  rfl

theorem Consistent.mem_localOf (hs : Consistent s) {P : String} (hP : P ∈ s.keys) {r : Row}
    (hr : r ∈ localOf s P) : ∃ Q ∈ s.keys, Q ≠ P ∧ r ∈ inputOf s Q := by
  have hr' : r ∈ (localOf s P).getAll r.pfx := Rib.mem_getAll.mpr ⟨hr, rfl⟩
  obtain ⟨hnone, hsome⟩ := hs.localOf_eq hP r.pfx
  by_cases hv : othersRoutes s P r.pfx = []
  · rw [hnone hv] at hr'
    exact absurd hr' List.not_mem_nil
  · obtain ⟨best, hbest, hrow⟩ := hsome hv
    obtain rfl := List.mem_singleton.mp (hrow ▸ hr')
    obtain ⟨Q, hQ, hne, hmem, -⟩ := mem_othersRoutes (mem_of_bestPathSelection hbest)
    exact ⟨Q, hQ, hne, hmem⟩

/-- After any well-formed updates the local table of every participant holds exactly
the best of the others' routes. -/
theorem processAll_localOf (ports : PortsList) {msgs : List Message}
    (hmsgs : ∀ m ∈ msgs, m.IsUpdate ∧ m.WellFormed) :
    (ports.keys ≠ [] → ∃ s, processAll (routeServer ports) msgs = some s) ∧
    ∀ s, processAll (routeServer ports) msgs = some s → s.keys = ports.keys ∧ ∀ P ∈ s.keys,
      (∀ p, ((∀ Q ∈ s.keys, Q ≠ P → (inputOf s Q).getAll p = []) → (localOf s P).getAll p = []) ∧
        ((∃ Q ∈ s.keys, Q ≠ P ∧ (inputOf s Q).getAll p ≠ []) →
          ∃ best, bestPathSelection (othersRoutes s P p) = some best ∧
            (localOf s P).getAll p = [best])) ∧
      ∀ r ∈ localOf s P, ∃ Q ∈ s.keys, Q ≠ P ∧ r ∈ inputOf s Q := by
  constructor
  · intro hports
    apply processAll_total hmsgs
    · rwa [routeServer, Dict.keys_mapValues]
    · intro m r hr
      rw [(inputOf_routeServer ports m).1] at hr
      exact absurd hr List.not_mem_nil
  · intro s hrun
    have hupdates : ∀ m ∈ msgs, m.IsUpdate := fun m hm => (hmsgs m hm).1
    have hs : Consistent s := processAll_consistent hupdates (consistent_routeServer ports) hrun
    refine ⟨?_, fun P hP => ⟨fun p =>
      ⟨fun hnone => (hs.localOf_eq hP p).1 (othersRoutes_eq_nil.mpr hnone), ?_⟩,
      fun r hr => hs.mem_localOf hP hr⟩⟩
    · rw [processAll_keys hupdates hrun, routeServer, Dict.keys_mapValues]
    · intro ⟨Q, hQ, hne, hrows⟩
      exact (hs.localOf_eq hP p).2 fun e => hrows (othersRoutes_eq_nil.mp e Q hQ hne)

def twoPorts : PortsList :=
  ⟨⟨[("A", ["172.0.0.1"]), ("B", ["172.0.0.2"])], by decide⟩, by decide⟩

def announceFrom (ip : String) (path : List ℕ) : Message where
  neighbor := some {
    ip := some ip
    state := none
    update := some {
      attrs := some ⟨some "igp", some [.seq path, .seq []], some 0, some false⟩
      announce := some ⟨some (.single "10.0.0.0/8" ip)⟩
      withdraw := none } }
  notification := none

def announceA : Message := announceFrom "172.0.0.1" [100]

theorem announceFrom_isUpdate (ip : String) (path : List ℕ) : (announceFrom ip path).IsUpdate :=
  ⟨_, rfl, nofun, nofun⟩

theorem announceFrom_wellFormed {ip : String} {path : List ℕ} (hip : Canonical ip)
    (hpath : 0 < aspathLength (asPathText [.seq path, .seq []])) :
    (announceFrom ip path).WellFormed := by
  intro n u announce hn hu hannounce
  obtain rfl := Option.some.inj hn
  obtain rfl := Option.some.inj hu
  obtain rfl : Dict.single "10.0.0.0/8" ip = announce := by simpa using hannounce
  refine ⟨_, rfl, hpath, fun kv hkv => ?_⟩
  obtain rfl := List.mem_singleton.mp hkv
  exact hip

def withdrawA : Message where
  neighbor := some {
    ip := some "172.0.0.1"
    state := none
    update := some ⟨none, none, some ⟨some (.single "10.0.0.0/8" ())⟩⟩ }
  notification := none

theorem withdrawA_wellFormed : withdrawA.WellFormed := by
  intro n u announce hn hu hannounce
  obtain rfl := Option.some.inj hn
  obtain rfl := Option.some.inj hu
  exact nomatch hannounce

theorem processAll_localOf_withdrawA : ∃ s,
    processAll (routeServer twoPorts)
      [announceA, announceFrom "172.0.0.2" [200, 400], withdrawA] = some s ∧
    s.keys = ["A", "B"] ∧ localOf s "B" = [] ∧
    localOf s "A" = [⟨"10.0.0.0/8", "172.0.0.2", "igp", "200 400 ", .int 0, some false⟩] ∧
    ∀ P ∈ s.keys,
      (∀ p, ((∀ Q ∈ s.keys, Q ≠ P → (inputOf s Q).getAll p = []) → (localOf s P).getAll p = []) ∧
        ((∃ Q ∈ s.keys, Q ≠ P ∧ (inputOf s Q).getAll p ≠ []) →
          ∃ best, bestPathSelection (othersRoutes s P p) = some best ∧
            (localOf s P).getAll p = [best])) ∧
      ∀ r ∈ localOf s P, ∃ Q ∈ s.keys, Q ≠ P ∧ r ∈ inputOf s Q := by
  have hmsgs : ∀ m ∈ [announceA, announceFrom "172.0.0.2" [200, 400], withdrawA],
      m.IsUpdate ∧ m.WellFormed := by
    have hA : Canonical "172.0.0.1" := ⟨172 * 2 ^ 24 + 1, by norm_num, by decide⟩
    have hB : Canonical "172.0.0.2" := ⟨172 * 2 ^ 24 + 2, by norm_num, by decide⟩
    simp only [List.forall_mem_cons, List.not_mem_nil, false_implies, implies_true, and_true]
    exact ⟨⟨announceFrom_isUpdate _ _, announceFrom_wellFormed hA (by decide)⟩,
      ⟨announceFrom_isUpdate _ _, announceFrom_wellFormed hB (by decide)⟩,
      ⟨⟨_, rfl, nofun, nofun⟩, withdrawA_wellFormed⟩⟩
  obtain ⟨htotal, hall⟩ := processAll_localOf twoPorts hmsgs
  obtain ⟨s, hrun⟩ := htotal (by decide)
  have hlocal : (processAll (routeServer twoPorts)
      [announceA, announceFrom "172.0.0.2" [200, 400], withdrawA]).map
      (fun s => (localOf s "B", localOf s "A")) = some ([],
        [⟨"10.0.0.0/8", "172.0.0.2", "igp", "200 400 ", .int 0, some false⟩]) := by decide
  rw [hrun, Option.map_some, Option.some.injEq, Prod.mk.injEq] at hlocal
  exact ⟨s, hrun, (hall s hrun).1, hlocal.1, hlocal.2, (hall s hrun).2⟩

def Message.IsDown (msg : Message) (ip : String) : Prop :=
  ∃ n, msg.neighbor = some n ∧ n.ip = some ip ∧ n.state = some "down" ∧ n.update = none

/-- No route learned in the lost session is left, and what is left is the best of what remains. -/
structure AfterLoss (ip : String) (s s' : Participants) : Prop where
  lost : ∀ Q ∈ s.keys, ip ∈ ipsOf s Q → ∀ r ∈ inputOf s Q, ∀ P ∈ s'.keys, r ∉ localOf s' P
  best : ∀ P ∈ s'.keys, ∀ p,
    (othersRoutes s' P p = [] → (localOf s' P).getAll p = []) ∧
    (othersRoutes s' P p ≠ [] → ∃ best, bestPathSelection (othersRoutes s' P p) = some best ∧
      (localOf s' P).getAll p = [best])

/-- For every prefix lost with the session, all participants lose the session and the prefix. -/
def LostAlone (ip : String) (s : Participants) : Prop :=
  ∀ Q ∈ s.keys, ip ∈ ipsOf s Q → ∀ r ∈ inputOf s Q, ∀ P ∈ s.keys,
    ip ∈ ipsOf s P ∧ (inputOf s P).getAll r.pfx ≠ []

theorem consistent_iff : Consistent s ↔ ∀ P ∈ s.keys, ∀ p,
    (othersRoutes s P p = [] → (localOf s P).getAll p = []) ∧
    (othersRoutes s P p ≠ [] → ∃ best, bestPathSelection (othersRoutes s P p) = some best ∧
      (localOf s P).getAll p = [best]) := by
  constructor
  · exact fun hs P hP p => hs.localOf_eq hP p
  · intro h p P hP
    obtain ⟨hnone, hsome⟩ := h P hP p
    rw [← othersRoutes_eq]
    by_cases hv : othersRoutes s P p = []
    · exact Or.inl ⟨hv, hnone hv⟩
    · exact Or.inr (hsome hv)

/-- A lost session is made good exactly when no one else is there to choose anew. -/
theorem sessionDown_afterLoss_iff (ports : PortsList) {msgs : List Message}
    (hmsgs : ∀ m ∈ msgs, m.IsUpdate) (hrun : processAll (routeServer ports) msgs = some s)
    {down : Message} {ip : String} (hdown : down.IsDown ip) (hnames : s.keys ≠ []) :
    ∃ s', processMessage s down = some (s', []) ∧ (AfterLoss ip s s' ↔ LostAlone ip s) := by
  have hs : Consistent s := processAll_consistent hmsgs (consistent_routeServer ports) hrun
  obtain ⟨n, hn, hnip, hstate, hu⟩ := hdown
  obtain ⟨s', hproc, hkeys, -, -, hlost⟩ :=
    processMessage_down hn hstate hu hnames
  have hgone : ∀ m, n.isFrom (ipsOf s m) = true ↔ ip ∈ ipsOf s m := by simp [Neighbor.isFrom, hnip]
  have hsettled := fun p => Offers.settled_lost_iff (fun l r => mem_of_bestPathSelection)
    (hs p) (hlost p)
  have hiff : Consistent s' ↔ LostAlone ip s := by
    constructor
    · intro hs' P hP hPip r hr R hR
      have hne : (view r.pfx s).offers P ≠ [] :=
        List.ne_nil_of_mem (Rib.mem_getAll.mpr ⟨hr, rfl⟩)
      obtain ⟨hg, hoff⟩ := (hsettled r.pfx).mp (hkeys ▸ hs' r.pfx) P hP
        ⟨hP, (hgone P).mpr hPip⟩ hne R hR
      exact ⟨(hgone R).mp hg.2, hoff⟩
    · intro halone p
      rw [hkeys]
      refine (hsettled p).mpr fun P hP hg hoff R hR => ?_
      obtain ⟨r, hr⟩ := List.exists_mem_of_ne_nil _ hoff
      obtain ⟨hmem, rfl⟩ := Rib.mem_getAll.mp hr
      obtain ⟨hRip, hRoff⟩ := halone P hP ((hgone P).mp hg.2) r hmem R hR
      exact ⟨⟨hR, (hgone R).mpr hRip⟩, hRoff⟩
  refine ⟨s', hproc, fun h => hiff.mp (consistent_iff.mpr h.best), fun halone => ?_⟩
  refine ⟨fun P hP hPip r hr R hR hrR => ?_, consistent_iff.mp (hiff.mpr halone)⟩
  obtain ⟨hRip, hRoff⟩ := halone P hP hPip r hr R (hkeys ▸ hR)
  have hnil := (hlost r.pfx).goneChoice R ⟨hkeys ▸ hR, (hgone R).mpr hRip⟩ hRoff
  exact List.ne_nil_of_mem (Rib.mem_getAll.mpr ⟨hrR, rfl⟩) hnil

def downA : Message := ⟨some ⟨some "172.0.0.1", some "down", none⟩, none⟩

theorem downA_isDown : downA.IsDown "172.0.0.1" := ⟨_, rfl, rfl, rfl, rfl⟩

def rowA : Row :=
  ⟨"10.0.0.0/8", "172.0.0.1", "igp", "100 ", .int 0, some false⟩

theorem processAll_announceA : ∃ s, processAll (routeServer twoPorts) [announceA] = some s ∧
    s.keys = ["A", "B"] ∧ ipsOf s "A" = ["172.0.0.1"] ∧ inputOf s "A" = [rowA] ∧
    localOf s "B" = [rowA] := by
  have hrun : (processAll (routeServer twoPorts) [announceA]).map (fun s =>
      (s.keys, ipsOf s "A", inputOf s "A", localOf s "B")) =
      some (["A", "B"], ["172.0.0.1"], [rowA], [rowA]) := by decide
  obtain ⟨s, hs, he⟩ := Option.map_eq_some_iff.mp hrun
  simp only [Prod.mk.injEq] at he
  exact ⟨s, hs, he⟩

theorem sessionDown_afterLoss_iff_downA : ∃ s s',
    processAll (routeServer twoPorts) [announceA] = some s ∧
    processMessage s downA = some (s', []) ∧
    (AfterLoss "172.0.0.1" s s' ↔ LostAlone "172.0.0.1" s) := by
  obtain ⟨s, hrun, hkeys, -⟩ := processAll_announceA
  obtain ⟨s', h⟩ := sessionDown_afterLoss_iff twoPorts
    (fun m hm => List.mem_singleton.mp hm ▸ announceFrom_isUpdate _ _) hrun downA_isDown
    (by rw [hkeys]; decide)
  exact ⟨s, s', hrun, h⟩

theorem sessionDown_downA_stale : announceA.IsUpdate ∧ downA.IsDown "172.0.0.1" ∧ ∃ s s',
    processAll (routeServer twoPorts) [announceA] = some s ∧
    processMessage s downA = some (s', []) ∧ rowA ∈ localOf s' "B" ∧
    ¬ AfterLoss "172.0.0.1" s s' := by
  refine ⟨announceFrom_isUpdate _ _, downA_isDown, ?_⟩
  obtain ⟨s, hrun, hkeys, hips, hinput, hlocal⟩ := processAll_announceA
  have hdown : (processAll (routeServer twoPorts) [announceA]).bind (fun s =>
      (processMessage s downA).map fun out => (out.2.length, out.1.keys, localOf out.1 "B")) =
      some (0, ["A", "B"], [rowA]) := by decide
  rw [hrun, Option.bind_some] at hdown
  obtain ⟨⟨s', items⟩, hproc, he⟩ := Option.map_eq_some_iff.mp hdown
  simp only [Prod.mk.injEq, List.length_eq_zero_iff] at he
  obtain ⟨rfl, hkeys', hlocal'⟩ := he
  have hstale : rowA ∈ localOf s' "B" := by rw [hlocal']; exact List.mem_singleton_self rowA
  refine ⟨s, s', hrun, hproc, hstale, fun h => ?_⟩
  exact h.lost "A" (by rw [hkeys]; decide) (by rw [hips]; decide) rowA
    (by rw [hinput]; exact List.mem_singleton_self rowA) "B" (by rw [hkeys']; decide) hstale

end Hispar.Bgp
