import Hispar.Bgp.DecisionProcess

/-!
# The route server

The server takes one message after another. The participants' peers are offered
the message in turn until one reports route items; then the decision process
runs on each item.
-/
namespace Hispar.Bgp
open Library

/-- The addresses of each participant's routers. Its tables are kept in a file with the name
`'-'.join(ips)`, so no two participants have the same addresses. -/
structure PortsList extends Dict String (List String) where
  ownFiles : toDict.values.Nodup

def routeServer (participantsPortsList : PortsList) : Participants :=
  participantsPortsList.mapValues fun _ ips => Peer.init ips

/-- The list of route items is `None` until a peer was asked. -/
def updateRibs (route : Message) : List String → Participants × Option (List RouteItem) →
    Option (Participants × Option (List RouteItem))
  | [], acc => some acc
  | name :: names, (participants, _) =>
    (participants.get? name).bind fun peer => (peer.update route).bind fun (peer', routeList) =>
      let participants := participants.modify name fun _ => peer'
      if routeList.isEmpty then updateRibs route names (participants, some routeList)
      else some (participants, some routeList)

def processMessage (participants : Participants) (route : Message) :
    Option (Participants × List RouteItem) :=
  (updateRibs route participants.keys (participants, none)).bind fun acc =>
    acc.2.bind fun routeList => (decideAll acc.1 routeList).map fun participants =>
      (participants, routeList)

def processAll (participants : Participants) (routes : List Message) : Option Participants :=
  routes.foldlM (fun participants route => (processMessage participants route).map Prod.fst)
    participants

variable {msg : Message} {n : Neighbor} {s s' : Participants} {names : List String}

theorem updateRibs_cases (hn : msg.neighbor = some n) (hstate : n.state ≠ some "down")
    {r r' : Option (List RouteItem)} (h : updateRibs msg names (s, r) = some (s', r')) :
    (s' = s ∧ (r' = r ∨ r' = some [])) ∨ ∃ q ∈ names, ∃ peer peer' items,
      s.get? q = some peer ∧ s' = s.modify q (fun _ => peer') ∧ r' = some items ∧
      Reported n peer peer' items := by
  induction names generalizing r with
  | nil =>
    obtain ⟨rfl, rfl⟩ := Prod.mk.inj (Option.some.inj h)
    exact Or.inl ⟨rfl, Or.inl rfl⟩
  | cons name names ih =>
    obtain ⟨peer, hpeer, h⟩ := Option.bind_eq_some_iff.mp h
    obtain ⟨⟨peer', items⟩, hupdate, h⟩ := Option.bind_eq_some_iff.mp h
    rcases Peer.update_cases hn hstate hupdate with ⟨rfl, rfl⟩ | hreported
    · simp only [Dict.modify_self hpeer, List.isEmpty_nil, if_true] at h
      rcases ih h with ⟨rfl, hr⟩ | ⟨q, hq, hrest⟩
      · exact Or.inl ⟨rfl, Or.inr (hr.elim id id)⟩
      · exact Or.inr ⟨q, List.mem_cons_of_mem name hq, hrest⟩
    · simp only [mt List.isEmpty_iff.mp hreported.nonempty, Bool.false_eq_true, if_false] at h
      obtain ⟨rfl, rfl⟩ := Prod.mk.inj (Option.some.inj h)
      exact Or.inr ⟨name, List.mem_cons_self, peer, peer', items, hpeer, rfl, rfl, hreported⟩

theorem updateRibs_down (hn : msg.neighbor = some n) (hstate : n.state = some "down")
    (hu : n.update = none) (hnames : names.Nodup) (hmem : ∀ m ∈ names, m ∈ s.keys)
    (r : Option (List RouteItem)) : ∃ s' r', updateRibs msg names (s, r) = some (s', r') ∧
      (names ≠ [] → r' = some []) ∧ s'.keys = s.keys ∧
      ∀ m, s'.get? m = (s.get? m).map fun peer =>
        if m ∈ names ∧ n.isFrom peer.ips then peer.sessionDown else peer := by
  induction names generalizing s r with
  | nil => exact ⟨s, r, rfl, fun h => absurd rfl h, rfl, fun m => by simp⟩
  | cons name names ih =>
    obtain ⟨hname, hnames⟩ := List.nodup_cons.mp hnames
    obtain ⟨peer, hpeer⟩ := Dict.mem_keys_iff.mp (hmem name List.mem_cons_self)
    have hupdate := Peer.update_down hn hstate hu peer
    let s₁ := s.modify name fun _ => if n.isFrom peer.ips then peer.sessionDown else peer
    obtain ⟨s', r', hrun, hr', hkeys, hget⟩ := ih (s := s₁) hnames
      (fun m hm => by simpa [s₁] using hmem m (List.mem_cons_of_mem name hm)) (some [])
    refine ⟨s', r', ?_, fun _ => ?_, hkeys.trans (Dict.keys_modify _ _ _), fun m => ?_⟩
    · rw [updateRibs, hpeer, Option.bind_some, hupdate]
      exact hrun
    · cases names with
      | nil => exact (Prod.mk.inj (Option.some.inj hrun)).2.symm
      | cons => exact hr' (List.cons_ne_nil _ _)
    · rw [hget, Dict.get?_modify]
      by_cases hm : m = name
      · rw [if_pos hm, hm, hpeer]
        simp [hname]
      · simp [hm]

theorem modify_input {q : String} {peer peer' : Peer} (hpeer : s.get? q = some peer)
    (hips : peer'.ips = peer.ips) (hlocal : peer'.localRib = peer.localRib) (m : String) :
    ipsOf (s.modify q fun _ => peer') m = ipsOf s m ∧
    localOf (s.modify q fun _ => peer') m = localOf s m ∧
    inputOf (s.modify q fun _ => peer') m = if m = q then peer'.inputRib else inputOf s m := by
  simp only [ipsOf, localOf, inputOf, Dict.get?_modify]
  by_cases hm : m = q
  · simp [hm, hpeer, hips, hlocal]
  · simp [hm]

def RouteItem.withdrawnPfx : RouteItem → Option String
  | .withdraw (some route) => some route.pfx
  | _ => none

inductive Effect (n : Neighbor) (s s' : Participants) (items : List RouteItem) (p : String) : Prop
  | idle (hview : view p s' = view p s) (hitems : p ∉ items.filterMap RouteItem.withdrawnPfx)
  | announced (q : String) (hq : q ∈ s.keys) (hfrom : n.isFrom (ipsOf s q) = true)
      (h : Offers.Announced bestPathSelection s.keys q (view p s) (view p s'))
      (hitems : p ∉ items.filterMap RouteItem.withdrawnPfx)
  | withdrawn (q : String) (hq : q ∈ s.keys) (hfrom : n.isFrom (ipsOf s q) = true)
      (hoff : (view p s).offers q ≠ [])
      (h : Offers.Withdrawn bestPathSelection s.keys q (view p s) (view p s'))
      (hitems : p ∈ items.filterMap RouteItem.withdrawnPfx)

structure Processed (n : Neighbor) (s s' : Participants) (items : List RouteItem) : Prop where
  keys : s'.keys = s.keys
  ips : ∀ m, ipsOf s' m = ipsOf s m
  rows : ∀ m, ∀ r ∈ inputOf s' m, r ∈ inputOf s m ∨ (n.isFrom (ipsOf s m) = true ∧ n.Announces r)
  effect : ∀ p, Effect n s s' items p

theorem processed_idle (h : decideAll s [] = some s') : Processed n s s' [] := by
  obtain rfl := Option.some.inj h
  exact ⟨rfl, fun _ => rfl, fun _ _ hr => Or.inl hr, fun _ => .idle rfl List.not_mem_nil⟩

theorem pfx_announce (rows : List Row) :
    (rows.map RouteItem.announce).filterMap RouteItem.pfx = rows.map Row.pfx ∧
    (rows.map RouteItem.announce).filterMap RouteItem.withdrawnPfx = [] := by
  constructor
  · rw [List.filterMap_map, ← List.filterMap_eq_map]
    rfl
  · rw [List.filterMap_map]
    exact List.filterMap_eq_nil_iff.mpr fun _ _ => rfl

theorem pfx_withdraw (rib : Rib) (ks : List String) :
    (ks.map fun k => RouteItem.withdraw (rib.get k)).filterMap RouteItem.pfx =
      ks.filter (fun k => (rib.get k).isSome) ∧
    (ks.map fun k => RouteItem.withdraw (rib.get k)).filterMap RouteItem.withdrawnPfx =
      ks.filter (fun k => (rib.get k).isSome) := by
  have hget : ∀ k, (rib.get k).map Row.pfx = Option.guard (fun k => (rib.get k).isSome) k := by
    intro k
    cases hr : rib.get k with
    | none => simp [Option.guard, hr]
    | some r => simp [Option.guard, hr, (Rib.mem_of_get hr).2]
  have hsame : ∀ k, RouteItem.withdrawnPfx (.withdraw (rib.get k)) = (rib.get k).map Row.pfx := by
    intro k
    cases rib.get k <;> rfl
  rw [List.filterMap_map, List.filterMap_map, ← List.filterMap_eq_filter]
  exact ⟨List.filterMap_congr fun k _ => hget k,
    List.filterMap_congr fun k _ => (hsame k).trans (hget k)⟩

section reported
variable {q : String} {peer peer' : Peer} {items : List RouteItem}
  {T : List Row → List Row → List Row → Prop}
  {ps : List String}

structure Stored (n : Neighbor) (q : String) (peer' : Peer) (s s₁ : Participants) : Prop where
  keys : s₁.keys = s.keys
  ips : ∀ m, ipsOf s₁ m = ipsOf s m
  locals : ∀ m, localOf s₁ m = localOf s m
  rows : ∀ m, ∀ r ∈ inputOf s₁ m, r ∈ inputOf s m ∨ (n.isFrom (ipsOf s m) = true ∧ n.Announces r)
  offers : ∀ p m, (view p s₁).offers m =
    if m = q then peer'.inputRib.getAll p else (view p s).offers m

theorem Reported.stored (hq : s.get? q = some peer) (hrep : Reported n peer peer' items) :
    Stored n q peer' s (s.modify q fun _ => peer') := by
  have hmod := modify_input hq hrep.ips hrep.localRib
  refine ⟨Dict.keys_modify _ _ _, fun m => (hmod m).1, fun m => (hmod m).2.1, fun m r hr => ?_,
    fun p m => ?_⟩
  · rw [(hmod m).2.2] at hr
    split_ifs at hr with hm
    · rw [hm, inputOf, ipsOf, hq, Option.elim_some, Option.elim_some]
      exact (hrep.rows r hr).imp_right fun hr => ⟨hrep.isFrom, hr⟩
    · exact Or.inl hr
  · rw [view_offers, (hmod m).2.2]
    split_ifs <;> rfl

namespace Stored
variable {s₁ : Participants} {p : String}

theorem after (h : Stored n q peer' s s₁) (hd : Decided T ps s₁ s') (p m : String) :
    (view p s').offers m = if m = q then peer'.inputRib.getAll p else (view p s).offers m := by
  rw [view_offers, hd.input, ← view_offers, h.offers]

theorem chosen (h : Stored n q peer' s s₁) (hd : Decided T ps s₁ s') (hp : p ∈ ps) {i : String}
    (hi : i ∈ s.keys) :
    T (Offers.others s.keys (view p s').offers i) ((view p s).choice i) ((view p s').choice i) := by
  have hT := hd.chosen p hp i (h.keys ▸ hi)
  rwa [← othersRoutes_congr hd.keys hd.input, othersRoutes_eq, hd.keys, h.keys, view_choice,
    h.locals, ← view_choice] at hT

theorem view_same (h : Stored n q peer' s s₁) (hd : Decided T ps s₁ s')
    (hsame : peer'.inputRib.getAll p = (view p s).offers q) (hp : p ∉ ps) :
    view p s' = view p s := by
  apply Offers.State.ext <;> funext m
  · rw [h.after hd]
    split_ifs with hm
    · rw [hsame, hm]
    · rfl
  · rw [hd.same p hp m, view_choice, view_choice, h.locals]

theorem processed (h : Stored n q peer' s s₁) (hd : Decided T ps s₁ s')
    (heffect : ∀ p, Effect n s s' items p) : Processed n s s' items :=
  ⟨hd.keys.trans h.keys, fun m => (hd.ips m).trans (h.ips m),
    fun m r hr => h.rows m r (hd.input m ▸ hr), heffect⟩

end Stored

theorem processed_reported (hq : s.get? q = some peer) (hrep : Reported n peer peer' items)
    (h : decideAll (s.modify q fun _ => peer') items = some s') : Processed n s s' items := by
  have hmem : q ∈ s.keys := Dict.mem_keys_iff.mpr ⟨peer, hq⟩
  have hfrom : n.isFrom (ipsOf s q) = true := by rw [ipsOf, hq, Option.elim_some, hrep.isFrom]
  have hoffers : ∀ p, (view p s).offers q = peer.inputRib.getAll p := by
    intro p
    rw [view_offers, inputOf, hq, Option.elim_some]
  have hstored := hrep.stored hq
  have hchange := hrep.change
  cases hchange with
  | announced rows hnodup hin hout =>
    obtain ⟨hpfx, hwithdrawn⟩ := pfx_announce rows
    have hd := decideAll_spec (hpfx ▸ hnodup) (fun item hitem p hp s s' best hdec => by
      obtain ⟨row, -, rfl⟩ := List.mem_map.mp hitem
      exact Option.some.inj hp ▸ decisionProcess_announce hdec) h
    rw [hpfx] at hd
    have hno : ∀ p, p ∉ (rows.map RouteItem.announce).filterMap RouteItem.withdrawnPfx :=
      fun p => hwithdrawn ▸ List.not_mem_nil
    refine hstored.processed hd fun p => ?_
    by_cases hp : p ∈ rows.map Row.pfx
    · refine .announced q hmem hfrom ⟨fun m hm => ?_, ?_, fun i => hstored.chosen hd hp⟩ (hno p)
      · rw [hstored.after hd, if_neg hm]
      · rw [hstored.after hd, if_pos rfl]
        exact hin p hp
    · exact .idle (hstored.view_same hd ((hout p hp).trans (hoffers p).symm) hp) (hno p)
  | withdrawn ks hnodup hget =>
    obtain ⟨hpfx, hwithdrawn⟩ := pfx_withdraw peer.inputRib ks
    have hd := decideAll_spec (hpfx ▸ hnodup.filter _) (fun item hitem p hp s s' best hdec => by
      obtain ⟨k, -, rfl⟩ := List.mem_map.mp hitem
      obtain ⟨row, hrow, rfl⟩ := Option.map_eq_some_iff.mp hp
      rw [hrow] at hdec
      exact decisionProcess_withdraw hdec) h
    rw [hpfx] at hd
    refine hstored.processed hd fun p => ?_
    by_cases hp : p ∈ ks.filter fun k => (peer.inputRib.get k).isSome
    · obtain ⟨hks, hsome⟩ := List.mem_filter.mp hp
      have hoff : (view p s).offers q ≠ [] := by
        rw [hoffers]
        intro e
        rw [Rib.get_eq_none.mpr e] at hsome
        exact Bool.false_ne_true hsome
      refine .withdrawn q hmem hfrom hoff ⟨fun m hm => ?_, ?_, ?_, ?_⟩ (hwithdrawn ▸ hp)
      · rw [hstored.after hd, if_neg hm]
      · rw [hstored.after hd, if_pos rfl, hget, if_pos hks]
      · exact fun i hi => (hstored.chosen hd hp hi).1
      · exact fun i hi => (hstored.chosen hd hp hi).2
    · refine .idle (hstored.view_same hd ?_ hp) (hwithdrawn ▸ hp)
      rw [hget, hoffers]
      split_ifs with hks
      · -- withdrawn, but unknown to the table
        by_contra hne
        apply hp
        rw [List.mem_filter, Option.isSome_iff_ne_none, Ne, Rib.get_eq_none]
        exact ⟨hks, fun e => hne e.symm⟩
      · rfl

end reported

theorem processMessage_cases (hn : msg.neighbor = some n) (hstate : n.state ≠ some "down")
    {items : List RouteItem} (h : processMessage s msg = some (s', items)) :
    Processed n s s' items := by
  obtain ⟨⟨s₁, r⟩, hupdate, h⟩ := Option.bind_eq_some_iff.mp h
  obtain ⟨items', rfl, h⟩ := Option.bind_eq_some_iff.mp h
  obtain ⟨s₂, hdecide, he⟩ := Option.map_eq_some_iff.mp h
  obtain ⟨rfl, rfl⟩ := Prod.mk.inj he
  rcases updateRibs_cases hn hstate hupdate with
    ⟨rfl, hr⟩ | ⟨q, -, peer, peer', items, hq, rfl, hr, hrep⟩
  · obtain rfl := Option.some.inj (hr.resolve_left nofun)
    exact processed_idle hdecide
  · obtain rfl := Option.some.inj hr
    exact processed_reported hq hrep hdecide

theorem processMessage_down (hn : msg.neighbor = some n) (hstate : n.state = some "down")
    (hu : n.update = none) (hs : s.keys ≠ []) : ∃ s', processMessage s msg = some (s', []) ∧
      s'.keys = s.keys ∧ (∀ m, ipsOf s' m = ipsOf s m) ∧ (∀ m, inputOf s' m ⊆ inputOf s m) ∧
      ∀ p, Offers.Lost (fun m => m ∈ s.keys ∧ n.isFrom (ipsOf s m) = true) (view p s) (view p s') := by
  obtain ⟨s', r', hrun, hr', hkeys, hget⟩ :=
    updateRibs_down hn hstate hu s.nodup_keys (fun _ h => h) none
  have hgone : ∀ m, m ∈ s.keys ∧ n.isFrom (ipsOf s m) = true →
      ∃ peer, s.get? m = some peer ∧ s'.get? m = some peer.sessionDown := by
    intro m ⟨hm, hfrom⟩
    obtain ⟨peer, hpeer⟩ := Dict.mem_keys_iff.mp hm
    rw [ipsOf, hpeer, Option.elim_some] at hfrom
    exact ⟨peer, hpeer, by rw [hget, hpeer, Option.map_some, if_pos ⟨hm, hfrom⟩]⟩
  have hstay : ∀ m, ¬ (m ∈ s.keys ∧ n.isFrom (ipsOf s m) = true) → s'.get? m = s.get? m := by
    intro m hm
    rw [hget]
    cases hpeer : s.get? m with
    | none => rfl
    | some peer =>
      rw [ipsOf, hpeer, Option.elim_some] at hm
      rw [Option.map_some, if_neg hm]
  refine ⟨s', ?_, hkeys, fun m => ?_, fun m => ?_, fun p => ⟨fun m hm => ?_, fun m hm => ?_,
    fun m hm => ?_, fun m hm hoff => ?_⟩⟩
  · rw [processMessage, hrun, Option.bind_some, hr' hs]
    rfl
  · by_cases hm : m ∈ s.keys ∧ n.isFrom (ipsOf s m) = true
    · obtain ⟨peer, hpeer, hpeer'⟩ := hgone m hm
      rw [ipsOf, ipsOf, hpeer, hpeer']
      rfl
    · rw [ipsOf, ipsOf, hstay m hm]
  · by_cases hm : m ∈ s.keys ∧ n.isFrom (ipsOf s m) = true
    · obtain ⟨peer, hpeer, hpeer'⟩ := hgone m hm
      rw [inputOf, hpeer']
      exact List.nil_subset _
    · rw [inputOf, inputOf, hstay m hm]
      exact List.Subset.refl _
  · rw [view_offers, view_offers, inputOf, inputOf, hstay m hm]
  · obtain ⟨peer, -, hpeer'⟩ := hgone m hm
    rw [view_offers, inputOf, hpeer']
    rfl
  · rcases hm with hm | hoff
    · rw [view_choice, view_choice, localOf, localOf, hstay m hm]
    · by_cases hm : m ∈ s.keys ∧ n.isFrom (ipsOf s m) = true
      · obtain ⟨peer, hpeer, hpeer'⟩ := hgone m hm
        rw [view_offers, inputOf, hpeer, Option.elim_some] at hoff
        rw [view_choice, view_choice, localOf, localOf, hpeer, hpeer', Option.elim_some,
          Option.elim_some, (peer.getAll_sessionDown p).2, if_pos hoff]
      · rw [view_choice, view_choice, localOf, localOf, hstay m hm]
  · obtain ⟨peer, hpeer, hpeer'⟩ := hgone m hm
    rw [view_offers, inputOf, hpeer, Option.elim_some] at hoff
    rw [view_choice, localOf, hpeer', Option.elim_some, (peer.getAll_sessionDown p).2, if_neg hoff]

end Hispar.Bgp
