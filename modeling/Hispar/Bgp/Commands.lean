import Hispar.Bgp.LocalRoutes
import Hispar.VnhAssignment.Tables

/-!
# The commands to the routers

After each message the server queues a withdrawal for every withdrawn prefix of
a group, and an announcement for every prefix of a group that some participant
has a local route for, each with the group's virtual next hop.
-/
namespace Hispar.Bgp
open Library SetOperations VnhAssignment

inductive CommandKind where
  | announce
  | withdraw
  deriving DecidableEq

/-- A command on the queue, by what its text is made of. -/
structure Command where
  kind : CommandKind
  route : Row
  nextHop : Option String
  deriving DecidableEq

def Command.text (c : Command) : String :=
  match c.kind with
  | .announce => announceRoute c.route c.nextHop
  | .withdraw => withdrawRoute c.route c.nextHop

def Command.announces (c : Command) : Option String :=
  match c.kind with
  | .announce => some (chosenNextHop c.route c.nextHop)
  | .withdraw => none

section server
variable (hα : Hashing String) (sdx : SDX String)

/-- The withdrawal for an item, under the first name whose group has the prefix. -/
def withdrawCommand (queue : List Command) : RouteItem → Option (List Command)
  | .announce _ => some queue
  | .withdraw none => if sdx.vnh2pfx.keys.isEmpty then some queue else none
  | .withdraw (some route) =>
    match sdx.vnh2pfx.items.find? fun kv => route.pfx ∈ kv.2.toList hα with
    | none => some queue
    | some kv => (sdx.vnh2IP.get? kv.1).map fun ip => queue ++ [⟨.withdraw, route, some ip⟩]

def vnhPrefixes : List (String × String) :=
  sdx.vnh2pfx.items.flatMap fun kv => (kv.2.toList hα).map fun pfx => (kv.1, pfx)

/-- The announcement of a prefix, from the first participant that has a route. -/
def announceCommand (participants : Participants) (queue : List Command)
    (vnhPfx : String × String) : Option (List Command) :=
  match participants.items.findSome? fun kv => kv.2.getRoute vnhPfx.2 with
  | none => some queue
  | some route => (sdx.vnh2IP.get? vnhPfx.1).map fun ip => queue ++ [⟨.announce, route, some ip⟩]

def serve (st : Participants × List Command) (route : Message) :
    Option (Participants × List Command) :=
  (processMessage st.1 route).bind fun out =>
    (out.2.foldlM (withdrawCommand hα sdx) st.2).bind fun queue =>
      ((vnhPrefixes hα sdx).foldlM (announceCommand sdx out.1) queue).map fun queue =>
        (out.1, queue)

def serveAll (ports : PortsList) (routes : List Message) :
    Option (Participants × List Command) :=
  routes.foldlM (serve hα sdx) (routeServer ports, [])

end server

def announcedAt (queue : List Command) (p : String) : Option String :=
  (queue.reverse.find? fun c => c.route.pfx = p).bind Command.announces

theorem announcedAt_append (queue : List Command) (c : Command) (p : String) :
    announcedAt (queue ++ [c]) p = if c.route.pfx = p then c.announces else announcedAt queue p := by
  rw [announcedAt, List.reverse_append, List.reverse_singleton, List.singleton_append]
  by_cases h : c.route.pfx = p
  · rw [if_pos h, List.find?_cons_of_pos (by simpa using h), Option.bind_some]
  · rw [if_neg h, List.find?_cons_of_neg (by simpa using h), announcedAt]

structure Assigned (sdx : SDX String) : Prop where
  disjoint : ∀ v w c e, v ≠ w → sdx.vnh2pfx.get? v = some c → sdx.vnh2pfx.get? w = some e →
    Disjoint c.toSet e.toSet
  address : ∀ v ∈ sdx.vnh2pfx.keys, ∃ ip, sdx.vnh2IP.get? v = some ip ∧ ip ≠ ""

def Grouped (sdx : SDX String) (p : String) : Prop :=
  ∃ v c, sdx.vnh2pfx.get? v = some c ∧ p ∈ c.toSet

def GroupedAt (sdx : SDX String) (p ip : String) : Prop :=
  ∃ v c, sdx.vnh2pfx.get? v = some c ∧ p ∈ c.toSet ∧ sdx.vnh2IP.get? v = some ip

def HeldBy (s : Participants) (p : String) : Prop := ∃ Q ∈ s.keys, (inputOf s Q).getAll p ≠ []

/-- What the routers have been told: the prefixes of the groups that someone still
announces, each with the address of its group. -/
def Agrees (sdx : SDX String) (st : Participants × List Command) : Prop :=
  ∀ p ip, announcedAt st.2 p = some ip ↔ GroupedAt sdx p ip ∧ HeldBy st.1 p

variable {hα : Hashing String} {sdx : SDX String} {p ip : String} {queue queue' : List Command}
  {s s' : Participants} {items : List RouteItem} {n : Neighbor}

theorem mem_toList {c : Coll String} : p ∈ c.toList hα ↔ p ∈ c.toSet := by
  rw [← Coll.toSet_toList hα c, List.mem_toFinset]

theorem mem_vnhPrefixes {v : String} : (v, p) ∈ vnhPrefixes hα sdx ↔
    ∃ c, sdx.vnh2pfx.get? v = some c ∧ p ∈ c.toSet := by
  simp only [vnhPrefixes, List.mem_flatMap, List.mem_map, Prod.mk.injEq, Dict.get?_eq_some]
  constructor
  · rintro ⟨⟨v, c⟩, hc, _, hp, rfl, rfl⟩
    exact ⟨c, hc, mem_toList.mp hp⟩
  · rintro ⟨c, hc, hp⟩
    exact ⟨(v, c), hc, p, mem_toList.mpr hp, rfl, rfl⟩

theorem grouped_iff : Grouped sdx p ↔ p ∈ (vnhPrefixes hα sdx).map Prod.snd := by
  simp only [Grouped, List.mem_map, Prod.exists, exists_eq_right, mem_vnhPrefixes]

theorem Assigned.groupedAt (h : Assigned sdx) (hp : Grouped sdx p) :
    ∃ ip, GroupedAt sdx p ip ∧ ip ≠ "" := by
  obtain ⟨v, c, hv, hpc⟩ := hp
  obtain ⟨ip, hip, hne⟩ := h.address v (Dict.mem_keys_iff.mpr ⟨c, hv⟩)
  exact ⟨ip, ⟨v, c, hv, hpc, hip⟩, hne⟩

theorem Assigned.address_eq (h : Assigned sdx) (hp : GroupedAt sdx p ip) {v : String}
    {c : Coll String} (hv : sdx.vnh2pfx.get? v = some c) (hpc : p ∈ c.toSet) :
    sdx.vnh2IP.get? v = some ip := by
  obtain ⟨w, e, hw, hpe, hip⟩ := hp
  have hvw : v = w := by
    by_contra hvw
    exact Finset.disjoint_left.mp (h.disjoint v w c e hvw hv hw) hpc hpe
  rw [hvw, hip]

theorem withdrawCommand_spec {item : RouteItem}
    (h : withdrawCommand hα sdx queue item = some queue') :
    (item.withdrawnPfx = some p → Grouped sdx p → announcedAt queue' p = none) ∧
    (item.withdrawnPfx ≠ some p ∨ ¬ Grouped sdx p →
      announcedAt queue' p = announcedAt queue p) := by
  unfold withdrawCommand at h
  split at h
  · obtain rfl := Option.some.inj h
    exact ⟨nofun, fun _ => rfl⟩
  · split_ifs at h
    obtain rfl := Option.some.inj h
    exact ⟨nofun, fun _ => rfl⟩
  · rename_i route
    split at h
    · rename_i hfind
      obtain rfl := Option.some.inj h
      refine ⟨fun hp hg => ?_, fun _ => rfl⟩
      obtain ⟨v, c, hv, hpc⟩ := hg
      have hno := List.find?_eq_none.mp hfind (v, c) (Dict.get?_eq_some.mp hv)
      rw [decide_eq_true_eq, mem_toList, Option.some.inj hp] at hno
      exact absurd hpc hno
    · rename_i kv hfind
      obtain ⟨ip, -, rfl⟩ := Option.map_eq_some_iff.mp h
      have hin := List.find?_some hfind
      rw [decide_eq_true_eq, mem_toList] at hin
      have hgrouped : Grouped sdx route.pfx :=
        ⟨kv.1, kv.2, Dict.get?_eq_some.mpr (List.mem_of_find?_eq_some hfind), hin⟩
      refine ⟨fun hp _ => ?_, fun hp => ?_⟩
      · rw [announcedAt_append, if_pos (Option.some.inj hp)]
        rfl
      · rw [announcedAt_append, if_neg]
        rintro rfl
        exact hp.elim (fun hp => hp rfl) fun hp => hp hgrouped

theorem withdrawCommands_spec (h : items.foldlM (withdrawCommand hα sdx) queue = some queue') :
    (p ∈ items.filterMap RouteItem.withdrawnPfx → Grouped sdx p → announcedAt queue' p = none) ∧
    (p ∉ items.filterMap RouteItem.withdrawnPfx ∨ ¬ Grouped sdx p →
      announcedAt queue' p = announcedAt queue p) := by
  induction items generalizing queue with
  | nil =>
    obtain rfl := Option.some.inj h
    exact ⟨fun hp => absurd hp List.not_mem_nil, fun _ => rfl⟩
  | cons item items ih =>
    rw [List.foldlM_cons] at h
    obtain ⟨queue₁, h₁, h⟩ := Option.bind_eq_some_iff.mp h
    obtain ⟨hone, hsame⟩ := withdrawCommand_spec (p := p) h₁
    obtain ⟨hrest, hsame'⟩ := ih h
    have hmem : p ∈ (item :: items).filterMap RouteItem.withdrawnPfx ↔
        item.withdrawnPfx = some p ∨ p ∈ items.filterMap RouteItem.withdrawnPfx := by
      simp only [List.mem_filterMap, List.mem_cons, exists_eq_or_imp]
    rw [hmem, not_or]
    constructor
    · intro hp hg
      by_cases hp' : p ∈ items.filterMap RouteItem.withdrawnPfx
      · exact hrest hp' hg
      · rw [hsame' (Or.inl hp')]
        exact hone (hp.resolve_right hp') hg
    · intro hp
      rw [hsame' (hp.imp_left And.right), hsame (hp.imp_left And.left)]

def ChosenBy (s : Participants) (p : String) : Prop := ∃ P ∈ s.keys, (localOf s P).getAll p ≠ []

theorem announceCommand_spec {vnhPfx : String × String}
    (hip : vnhPfx.2 = p → sdx.vnh2IP.get? vnhPfx.1 = some ip ∧ ip ≠ "")
    (h : announceCommand sdx s queue vnhPfx = some queue') :
    (vnhPfx.2 = p → ChosenBy s p → announcedAt queue' p = some ip) ∧
    (vnhPfx.2 ≠ p ∨ ¬ ChosenBy s p → announcedAt queue' p = announcedAt queue p) := by
  have hlocal : ∀ kv ∈ s.items, kv.2.getRoute vnhPfx.2 = (localOf s kv.1).get vnhPfx.2 := by
    intro kv hkv
    have hget : s.get? kv.1 = some kv.2 := Dict.get?_eq_some.mpr hkv
    rw [localOf, hget, Option.elim_some, Peer.getRoute]
  unfold announceCommand at h
  split at h
  · rename_i hnone
    obtain rfl := Option.some.inj h
    refine ⟨fun hp hchosen => ?_, fun _ => rfl⟩
    obtain ⟨P, hP, hrows⟩ := hchosen
    obtain ⟨peer, hpeer⟩ := Dict.mem_keys_iff.mp hP
    have hno := List.findSome?_eq_none_iff.mp hnone (P, peer) (Dict.get?_eq_some.mp hpeer)
    rw [hlocal _ (Dict.get?_eq_some.mp hpeer), Rib.get_eq_none, hp] at hno
    exact absurd hno hrows
  · rename_i route hsome
    obtain ⟨addr, haddr, rfl⟩ := Option.map_eq_some_iff.mp h
    obtain ⟨kv, hkv, hroute⟩ := List.exists_of_findSome?_eq_some hsome
    rw [hlocal kv hkv] at hroute
    have hmem := Rib.mem_of_get hroute
    have hchosen : ChosenBy s vnhPfx.2 := ⟨kv.1, List.mem_map_of_mem hkv,
      List.ne_nil_of_mem (Rib.mem_getAll.mpr hmem)⟩
    rw [announcedAt_append, hmem.2]
    constructor
    · intro hp _
      obtain ⟨hget, hne⟩ := hip hp
      obtain rfl := Option.some.inj (haddr.symm.trans hget)
      rw [if_pos hp, Command.announces, chosenNextHop, if_neg hne]
    · intro hp
      rw [if_neg]
      rintro rfl
      exact hp.elim (fun hp => hp rfl) fun hp => hp hchosen

theorem announceCommands_spec {l : List (String × String)}
    (hip : ∀ vp ∈ l, vp.2 = p → sdx.vnh2IP.get? vp.1 = some ip ∧ ip ≠ "")
    (h : l.foldlM (announceCommand sdx s) queue = some queue') :
    (p ∈ l.map Prod.snd → ChosenBy s p → announcedAt queue' p = some ip) ∧
    (p ∉ l.map Prod.snd ∨ ¬ ChosenBy s p → announcedAt queue' p = announcedAt queue p) := by
  induction l generalizing queue with
  | nil =>
    obtain rfl := Option.some.inj h
    exact ⟨fun hp => absurd hp List.not_mem_nil, fun _ => rfl⟩
  | cons vp l ih =>
    rw [List.foldlM_cons] at h
    obtain ⟨queue₁, h₁, h⟩ := Option.bind_eq_some_iff.mp h
    obtain ⟨hone, hsame⟩ := announceCommand_spec (hip vp List.mem_cons_self) h₁
    obtain ⟨hrest, hsame'⟩ := ih (fun wp hwp => hip wp (List.mem_cons_of_mem vp hwp)) h
    rw [List.map_cons, List.mem_cons, not_or]
    constructor
    · intro hp hchosen
      by_cases hp' : p ∈ l.map Prod.snd
      · exact hrest hp' hchosen
      · rw [hsame' (Or.inl hp')]
        exact hone (hp.resolve_right hp').symm hchosen
    · intro hp
      rw [hsame' (hp.imp_left And.right), hsame (hp.imp_left fun hp => Ne.symm hp.1)]

structure Tracks (sdx : SDX String) (st : Participants × List Command) : Prop where
  agrees : Agrees sdx st
  tracked : ∀ p, Grouped sdx p → Offers.Tracked st.1.keys (view p st.1)
  two : ∀ q ∈ st.1.keys, ∃ j ∈ st.1.keys, j ≠ q

theorem commands_spec (hsdx : Assigned sdx) (hp : GroupedAt sdx p ip) {queue₁ : List Command}
    (h₁ : items.foldlM (withdrawCommand hα sdx) queue = some queue₁)
    (h₂ : (vnhPrefixes hα sdx).foldlM (announceCommand sdx s') queue₁ = some queue') :
    announcedAt queue' p = some ip ∧ ChosenBy s' p ∨ ¬ ChosenBy s' p ∧
      (p ∈ items.filterMap RouteItem.withdrawnPfx ∧ announcedAt queue' p = none ∨
        p ∉ items.filterMap RouteItem.withdrawnPfx ∧
          announcedAt queue' p = announcedAt queue p) := by
  have hgrouped : Grouped sdx p := let ⟨v, c, hv, hpc, _⟩ := hp; ⟨v, c, hv, hpc⟩
  obtain ⟨ip', hip', hne⟩ := hsdx.groupedAt hgrouped
  have haddr : ∀ vp ∈ vnhPrefixes hα sdx, vp.2 = p → sdx.vnh2IP.get? vp.1 = some ip ∧ ip ≠ "" := by
    intro vp hvp hvpp
    subst hvpp
    obtain ⟨c, hv, hpc⟩ := mem_vnhPrefixes.mp hvp
    have hget := hsdx.address_eq hp hv hpc
    have hget' := hsdx.address_eq hip' hv hpc
    exact ⟨hget, Option.some.inj (hget.symm.trans hget') ▸ hne⟩
  obtain ⟨hannounce, hsame⟩ := announceCommands_spec haddr h₂
  obtain ⟨hwithdraw, hsame'⟩ := withdrawCommands_spec (p := p) h₁
  by_cases hchosen : ChosenBy s' p
  · exact Or.inl ⟨hannounce (grouped_iff.mp hgrouped) hchosen, hchosen⟩
  · refine Or.inr ⟨hchosen, ?_⟩
    rw [hsame (Or.inr hchosen)]
    by_cases hw : p ∈ items.filterMap RouteItem.withdrawnPfx
    · exact Or.inl ⟨hw, hwithdraw hw hgrouped⟩
    · exact Or.inr ⟨hw, hsame' (Or.inl hw)⟩

theorem commands_ungrouped (hp : ¬ Grouped sdx p) {queue₁ : List Command}
    (h₁ : items.foldlM (withdrawCommand hα sdx) queue = some queue₁)
    (h₂ : (vnhPrefixes hα sdx).foldlM (announceCommand sdx s') queue₁ = some queue') :
    announcedAt queue' p = announcedAt queue p := by
  have hno : p ∉ (vnhPrefixes hα sdx).map Prod.snd := mt grouped_iff.mpr hp
  have haddr : ∀ vp ∈ vnhPrefixes hα sdx, vp.2 = p → sdx.vnh2IP.get? vp.1 = some "" ∧ "" ≠ "" :=
    fun vp hvp hvpp => absurd (hvpp ▸ List.mem_map_of_mem hvp) hno
  rw [(announceCommands_spec haddr h₂).2 (Or.inl hno), (withdrawCommands_spec h₁).2 (Or.inr hp)]

theorem GroupedAt.grouped (hp : GroupedAt sdx p ip) : Grouped sdx p :=
  let ⟨v, c, hv, hpc, _⟩ := hp
  ⟨v, c, hv, hpc⟩

theorem agrees_iff (hsdx : Assigned sdx) : Agrees sdx (s, queue) ↔
    (∀ p ip, GroupedAt sdx p ip → (HeldBy s p → announcedAt queue p = some ip) ∧
      (¬ HeldBy s p → announcedAt queue p = none)) ∧
    ∀ p, ¬ Grouped sdx p → announcedAt queue p = none := by
  constructor
  · intro h
    refine ⟨fun p ip hp => ⟨fun hheld => (h p ip).mpr ⟨hp, hheld⟩, fun hheld => ?_⟩, fun p hp => ?_⟩
    · exact Option.eq_none_iff_forall_ne_some.mpr fun ip' he => hheld ((h p ip').mp he).2
    · exact Option.eq_none_iff_forall_ne_some.mpr fun ip' he => hp ((h p ip').mp he).1.grouped
  · intro ⟨hgrouped, hungrouped⟩ p ip
    constructor
    · intro he
      by_cases hp : Grouped sdx p
      · obtain ⟨ip', hip', -⟩ := hsdx.groupedAt hp
        obtain ⟨hsome, hnone⟩ := hgrouped p ip' hip'
        by_cases hheld : HeldBy s p
        · obtain rfl := Option.some.inj (he.symm.trans (hsome hheld))
          exact ⟨hip', hheld⟩
        · exact absurd (he.symm.trans (hnone hheld)) nofun
      · exact absurd (he.symm.trans (hungrouped p hp)) nofun
    · exact fun ⟨hp, hheld⟩ => (hgrouped p ip hp).1 hheld

theorem Processed.tracked (h : Processed n s s' items) (hs : Offers.Tracked s.keys (view p s)) :
    Offers.Tracked s'.keys (view p s') := by
  rw [h.keys]
  cases h.effect p with
  | idle hview => exact hview ▸ hs
  | announced q hq _ h => exact Offers.tracked_announced hq h
  | withdrawn q _ _ _ h =>
    exact Offers.tracked_withdrawn (fun l r => mem_of_bestPathSelection) hs h

theorem serve_update (hsdx : Assigned sdx) {st st' : Participants × List Command} {msg : Message}
    (hn : msg.neighbor = some n) (hstate : n.state ≠ some "down") (hst : Tracks sdx st)
    (h : serve hα sdx st msg = some st') : Tracks sdx st' := by
  obtain ⟨s, queue⟩ := st
  obtain ⟨⟨s', items⟩, hproc, h⟩ := Option.bind_eq_some_iff.mp h
  obtain ⟨queue₁, h₁, h⟩ := Option.bind_eq_some_iff.mp h
  obtain ⟨queue', h₂, rfl⟩ := Option.map_eq_some_iff.mp h
  have hp := processMessage_cases hn hstate hproc
  have htracked : ∀ p, Grouped sdx p → Offers.Tracked s'.keys (view p s') :=
    fun p hg => hp.tracked (hst.tracked p hg)
  refine ⟨(agrees_iff hsdx).mpr ⟨fun p ip hip => ?_, fun p hg => ?_⟩, htracked, ?_⟩
  · obtain ⟨hheld, hnot⟩ := ((agrees_iff hsdx).mp hst.agrees).1 p ip hip
    -- a chosen route is held by someone, so an announcement is never wrong
    have hsound : ChosenBy s' p → HeldBy s' p := fun ⟨P, hP, hc⟩ =>
      (htracked p hip.grouped).sound P hP hc
    have hcommands := commands_spec hsdx hip h₁ h₂
    cases hp.effect p with
    | idle hview hno =>
      have hsame : HeldBy s' p ↔ HeldBy s p := by
        have hoff : ∀ Q, (inputOf s' Q).getAll p = (inputOf s Q).getAll p :=
          fun Q => congrArg (fun v => v.offers Q) hview
        simp only [HeldBy, hp.keys, hoff]
      rw [hsame] at hsound ⊢
      rcases hcommands with ⟨hsome, hc⟩ | ⟨-, ⟨hw, -⟩ | ⟨-, hq⟩⟩
      · exact ⟨fun _ => hsome, fun hn => absurd (hsound hc) hn⟩
      · exact absurd hw hno
      · exact ⟨fun h => hq.trans (hheld h), fun h => hq.trans (hnot h)⟩
    | announced q hq _ ha hno =>
      obtain ⟨j, hj, hjq⟩ := hst.two q hq
      have hchosen : ChosenBy s' p := by
        rw [ChosenBy, hp.keys]
        exact Offers.chosen_announced hq hj hjq ha
      rcases hcommands with ⟨hsome, -⟩ | ⟨hc, -⟩
      · exact ⟨fun _ => hsome, fun hn => absurd (hsound hchosen) hn⟩
      · exact absurd hchosen hc
    | withdrawn q hq _ hoff hw hyes =>
      have hiff : ChosenBy s' p ↔ HeldBy s' p := by
        rw [ChosenBy, HeldBy, hp.keys]
        exact Offers.chosen_withdrawn_iff (fun l r => mem_of_bestPathSelection)
          (hst.tracked p hip.grouped) hq hoff hw
      rcases hcommands with ⟨hsome, hc⟩ | ⟨hc, ⟨-, hnone⟩ | ⟨hno, -⟩⟩
      · exact ⟨fun _ => hsome, fun hn => absurd (hsound hc) hn⟩
      · exact ⟨fun h => absurd (hiff.mpr h) hc, fun _ => hnone⟩
      · exact absurd hyes hno
  · rw [commands_ungrouped hg h₁ h₂]
    exact ((agrees_iff hsdx).mp hst.agrees).2 p hg
  · intro q hq
    rw [hp.keys] at hq ⊢
    exact hst.two q hq

/-- Every prefix of a group that someone announces is announced by someone who does
not lose the session. -/
def Kept (sdx : SDX String) (n : Neighbor) (s : Participants) : Prop :=
  ∀ p, Grouped sdx p → HeldBy s p →
    ∃ Q ∈ s.keys, n.isFrom (ipsOf s Q) = false ∧ (inputOf s Q).getAll p ≠ []

theorem heldBy_lost {s s' : Participants} {p : String} (hkeys : s'.keys = s.keys)
    (hlost : Offers.Lost (fun m => m ∈ s.keys ∧ n.isFrom (ipsOf s m) = true) (view p s) (view p s')) :
    HeldBy s' p ↔ ∃ Q ∈ s.keys, n.isFrom (ipsOf s Q) = false ∧ (inputOf s Q).getAll p ≠ [] := by
  rw [HeldBy, hkeys]
  refine exists_congr fun Q => and_congr_right fun hQ => ?_
  by_cases hfrom : n.isFrom (ipsOf s Q) = true
  · have hnil : (inputOf s' Q).getAll p = [] := hlost.goneOffers Q ⟨hQ, hfrom⟩
    simp [hnil, hfrom]
  · have hsame : (inputOf s' Q).getAll p = (inputOf s Q).getAll p :=
      hlost.offers Q fun hg => hfrom hg.2
    simp [hsame, hfrom]

theorem serve_down (hsdx : Assigned sdx) {st st' : Participants × List Command} {msg : Message}
    (hn : msg.neighbor = some n) (hstate : n.state = some "down") (hu : n.update = none)
    (hst : Tracks sdx st) (h : serve hα sdx st msg = some st') :
    (Agrees sdx st' ↔ Kept sdx n st.1) ∧ (Kept sdx n st.1 → Tracks sdx st') := by
  obtain ⟨s, queue⟩ := st
  obtain ⟨⟨s', items⟩, hproc, h⟩ := Option.bind_eq_some_iff.mp h
  obtain ⟨queue₁, h₁, h⟩ := Option.bind_eq_some_iff.mp h
  obtain ⟨queue', h₂, rfl⟩ := Option.map_eq_some_iff.mp h
  have hnames : s.keys ≠ [] := by
    intro hnil
    rw [processMessage, hnil] at hproc
    cases hproc
  obtain ⟨s'', hproc', hkeys, -, -, hlost⟩ := processMessage_down hn hstate hu hnames
  obtain ⟨rfl, rfl⟩ := Prod.mk.inj (Option.some.inj (hproc.symm.trans hproc'))
  have hkept := fun p => heldBy_lost hkeys (hlost p)
  have hbefore : ∀ p, HeldBy s' p → HeldBy s p := by
    intro p h
    obtain ⟨Q, hQ, -, hoff⟩ := (hkept p).mp h
    exact ⟨Q, hQ, hoff⟩
  have hiff : Kept sdx n s ↔ ∀ p, Grouped sdx p → HeldBy s p → HeldBy s' p := by
    simp only [Kept, hkept]
  obtain ⟨hgrouped, hungrouped⟩ := (agrees_iff hsdx).mp hst.agrees
  have hagrees : Kept sdx n s → Agrees sdx (s', queue') ∧
      ∀ p, Grouped sdx p → Offers.Tracked s'.keys (view p s') := by
    intro hk
    have hk := hiff.mp hk
    have htracked : ∀ p, Grouped sdx p → Offers.Tracked s'.keys (view p s') := by
      intro p hg
      have hheld : Offers.Held s.keys (view p s) → Offers.Held s.keys (view p s') :=
        fun h => hkeys ▸ hk p hg h
      rw [hkeys]
      exact Offers.tracked_lost (hst.tracked p hg) (hlost p) hheld
    refine ⟨(agrees_iff hsdx).mpr ⟨fun p ip hip => ?_, fun p hg => ?_⟩, htracked⟩
    · obtain ⟨hheld, hnot⟩ := hgrouped p ip hip
      rcases commands_spec hsdx hip h₁ h₂ with ⟨hsome, P, hP, hc⟩ | ⟨-, ⟨hw, -⟩ | ⟨-, hq⟩⟩
      · exact ⟨fun _ => hsome, fun hn => absurd ((htracked p hip.grouped).sound P hP hc) hn⟩
      · exact absurd hw List.not_mem_nil
      · exact ⟨fun h => hq.trans (hheld (hbefore p h)),
          fun h => hq.trans (hnot fun hs => h (hk p hip.grouped hs))⟩
    · rw [commands_ungrouped hg h₁ h₂]
      exact hungrouped p hg
  refine ⟨⟨fun hafter => hiff.mpr fun p hg hheld => ?_, fun hk => (hagrees hk).1⟩, fun hk =>
    ⟨(hagrees hk).1, (hagrees hk).2, fun q hq => ?_⟩⟩
  · -- nothing takes the announcement back
    obtain ⟨ip, hip, -⟩ := hsdx.groupedAt hg
    have hannounced : announcedAt queue' p = some ip := by
      rcases commands_spec hsdx hip h₁ h₂ with ⟨hsome, -⟩ | ⟨-, ⟨hw, -⟩ | ⟨-, hq⟩⟩
      · exact hsome
      · exact absurd hw List.not_mem_nil
      · exact hq.trans ((hgrouped p ip hip).1 hheld)
    exact ((hafter p ip).mp hannounced).2
  · rw [hkeys] at hq ⊢
    exact hst.two q hq

def Message.IsRouting (msg : Message) : Prop :=
  ∃ n, msg.neighbor = some n ∧ (n.state = some "down" → n.update = none)

theorem tracks_init {ports : PortsList} (hports : 2 ≤ ports.keys.length) :
    Tracks sdx (routeServer ports, []) := by
  have hempty := inputOf_routeServer ports
  refine ⟨fun p ip => iff_of_false nofun fun ⟨_, Q, _, hrows⟩ => hrows ?_, fun p _ => ?_,
    fun q hq => ?_⟩
  · rw [(hempty Q).1]
    rfl
  · refine Offers.tracked_init fun m => ?_
    rw [view_offers, view_choice, (hempty m).1, (hempty m).2.1]
    exact ⟨rfl, rfl⟩
  · by_contra hno
    simp only [not_exists, not_and, not_not] at hno
    have hrep := List.eq_replicate_of_mem hno
    have hle := List.nodup_replicate.mp (hrep ▸ (routeServer ports).nodup_keys)
    rw [routeServer, Dict.keys_mapValues] at hle
    omega

/-- In every run that is processed without an exception, what the routers have been
told agrees with the tables after each message exactly when no lost session takes a
prefix of a group away from all participants. -/
theorem serveAll_agrees_iff (hsdx : Assigned sdx) {ports : PortsList}
    (hports : 2 ≤ ports.keys.length) {msgs : List Message} (hmsgs : ∀ m ∈ msgs, m.IsRouting)
    {st : Participants × List Command} (hrun : serveAll hα sdx ports msgs = some st) :
    (∀ done rest t, msgs = done ++ rest → serveAll hα sdx ports done = some t → Agrees sdx t) ↔
    ∀ done m rest t, msgs = done ++ m :: rest → serveAll hα sdx ports done = some t →
      ∀ n, m.neighbor = some n → n.state = some "down" → Kept sdx n t.1 := by
  refine Runs.foldlM_prefixes_iff (I := Tracks sdx) (fun _ h => h.agrees) ?_ (tracks_init hports) hrun
  intro st st' m hm hst hserve
  obtain ⟨n, hn, hplain⟩ := hmsgs m hm
  by_cases hstate : n.state = some "down"
  · obtain ⟨hiff, hkeep⟩ := serve_down hsdx hn hstate (hplain hstate) hst hserve
    have hgood : (∀ n, m.neighbor = some n → n.state = some "down" → Kept sdx n st.1) ↔
        Kept sdx n st.1 := by
      constructor
      · exact fun h => h n hn hstate
      · intro h n' hn' _
        obtain rfl := Option.some.inj (hn.symm.trans hn')
        exact h
    rw [hgood]
    exact ⟨hiff, hkeep⟩
  · have hst' := serve_update hsdx hn hstate hst hserve
    refine ⟨iff_of_true hst'.agrees fun n' hn' hdown => ?_, fun _ => hst'⟩
    obtain rfl := Option.some.inj (hn.symm.trans hn')
    exact absurd hdown hstate

def groupA : SDX String where
  vnh2IP := .single "VNH1" "172.0.1.1"
  vnh2MAC := .single "VNH1" (vnhMac + 1)
  vnh2pfx := .single "VNH1" (.list ["10.0.0.0/8"])
  part2VNH := .empty

example : Command.text ⟨.announce, rowA, some "172.0.1.1"⟩ =
    "announce route 10.0.0.0/8 next-hop 172.0.1.1 as-path [ 100  ]" := by decide

theorem assigned_groupA : Assigned groupA where
  disjoint v w c e hvw hv hw := by
    rw [groupA, Dict.get?_single] at hv hw
    split_ifs at hv hw with h₁ h₂
    exact absurd (h₁.symm.trans h₂) hvw
  address v hv := by
    obtain rfl := List.mem_singleton.mp hv
    exact ⟨"172.0.1.1", by decide, by decide⟩

theorem announceA_isRouting : announceA.IsRouting := ⟨_, rfl, nofun⟩

theorem downA_isRouting : downA.IsRouting := ⟨_, rfl, fun _ => rfl⟩

theorem serveAll_agrees_iff_announceA : ∃ st,
    serveAll .sorted groupA twoPorts [announceA] = some st ∧
    ((∀ done rest t, [announceA] = done ++ rest →
        serveAll .sorted groupA twoPorts done = some t → Agrees groupA t) ↔
      ∀ done m rest t, [announceA] = done ++ m :: rest →
        serveAll .sorted groupA twoPorts done = some t →
        ∀ n, m.neighbor = some n → n.state = some "down" → Kept groupA n t.1) := by
  have hrun : (serveAll .sorted groupA twoPorts [announceA]).isSome = true := by decide
  obtain ⟨st, hst⟩ := Option.isSome_iff_exists.mp hrun
  exact ⟨st, hst, serveAll_agrees_iff assigned_groupA (by decide)
    (fun m hm => List.mem_singleton.mp hm ▸ announceA_isRouting) hst⟩

theorem serveAll_downA_stale : (∀ m ∈ [announceA, downA], m.IsRouting) ∧ Assigned groupA ∧
    2 ≤ twoPorts.keys.length ∧ ∃ st, serveAll .sorted groupA twoPorts [announceA, downA] = some st ∧
    announcedAt st.2 "10.0.0.0/8" = some "172.0.1.1" ∧ ¬ HeldBy st.1 "10.0.0.0/8" ∧
    ¬ Agrees groupA st := by
  refine ⟨fun m hm => ?_, assigned_groupA, by decide, ?_⟩
  · rcases List.mem_cons.mp hm with rfl | hm
    · exact announceA_isRouting
    · exact List.mem_singleton.mp hm ▸ downA_isRouting
  · have hrun : (serveAll .sorted groupA twoPorts [announceA, downA]).map (fun st =>
        (announcedAt st.2 "10.0.0.0/8", st.1.keys, inputOf st.1 "A", inputOf st.1 "B")) =
        some (some "172.0.1.1", ["A", "B"], [], []) := by decide
    obtain ⟨st, hst, he⟩ := Option.map_eq_some_iff.mp hrun
    simp only [Prod.mk.injEq] at he
    obtain ⟨hannounced, hkeys, hA, hB⟩ := he
    have hheld : ¬ HeldBy st.1 "10.0.0.0/8" := by
      rintro ⟨Q, hQ, hrows⟩
      rw [hkeys] at hQ
      rcases List.mem_cons.mp hQ with rfl | hQ
      · exact hrows (by rw [hA]; rfl)
      · exact hrows (by rw [List.mem_singleton.mp hQ, hB]; rfl)
    exact ⟨st, hst, hannounced, hheld, fun h => hheld ((h _ _).mp hannounced).2⟩

end Hispar.Bgp
