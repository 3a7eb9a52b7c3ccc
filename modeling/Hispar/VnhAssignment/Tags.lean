import Hispar.Bgp.Commands
import Hispar.Exchange.Arp
import Hispar.VnhAssignment.Lookup

/-!
# The tags of packets

A router learns the address of a group as its next hop, asks for the hardware address
of that next hop, and sends its packets there. The answer is the address on which the
policies test, as long as nobody else claims to be the next hop.
-/
namespace Hispar.VnhAssignment
open Library Library.Atoms SetOperations Exchange

theorem getIpMacList_spec {ipList macList : Dict String String}
    (hmac : ∀ v ip, ipList.get? v = some ip → v ≠ "VNH" ∧ ∃ mac, macList.get? v = some mac)
    (hinj : ∀ v w ip, ipList.get? v = some ip → ipList.get? w = some ip → v = w) :
    ∃ t, getIpMacList ipList macList = some t ∧
      ∀ v ip, ipList.get? v = some ip → t.get? ip = macList.get? v := by
  have hloop := Runs.foldlM_visited (l := ipList.items)
    (f := fun (t : Dict String String) kv => if kv.1 = "VNH" then some t
      else (macList.get? kv.1).map fun mac => t.set kv.2 mac)
    (Q := fun done t => ∀ kv ∈ done, t.get? kv.2 = macList.get? kv.1) ?_
    (s := .empty) fun _ h => absurd h List.not_mem_nil
  · obtain ⟨t, ht, hspec⟩ := hloop
    exact ⟨t, ht, fun v ip hv => hspec (v, ip) (Dict.get?_eq_some.mp hv)⟩
  intro done kv rest t hl hdone
  have hget : ∀ kw ∈ done ++ [kv], ipList.get? kw.1 = some kw.2 := by
    intro kw hkw
    refine Dict.get?_eq_some.mpr (hl ▸ ?_)
    rcases List.mem_append.mp hkw with hkw | hkw
    · exact List.mem_append_left _ hkw
    · exact List.mem_append_right _ (List.mem_singleton.mp hkw ▸ List.mem_cons_self)
  have hkv := hget kv (List.mem_append_right _ (List.mem_singleton_self kv))
  obtain ⟨hname, mac, hmac'⟩ := hmac kv.1 kv.2 hkv
  refine ⟨t.set kv.2 mac, by rw [if_neg hname, hmac', Option.map_some], fun kw hkw => ?_⟩
  rw [Dict.get?_set]
  split_ifs with hip
  · rw [hinj kw.1 kv.1 kv.2 (hip ▸ hget kw hkw) hkv, hmac']
  · rcases List.mem_append.mp hkw with hkw | hkw
    · exact hdone kw hkw
    · exact absurd (congrArg Prod.snd (List.mem_singleton.mp hkw)) hip

section tables
variable {α : Type*} {sdx : SDX α} {v ip : String} {mac : ℕ}

def recomputation (text : ℕ → String) (sdx : SDX α) : Recomputation :=
  ⟨sdx.vnh2IP, sdx.vnh2MAC.mapValues fun _ mac => text mac⟩

theorem vname_ne (i : ℕ) : vname i ≠ "VNH" := by
  intro h
  have hchars := congrArg String.toList h
  rw [vname, String.toList_append] at hchars
  have hnil : (toString i).toList = [] := List.append_cancel_left (hchars.trans (List.append_nil _).symm)
  exact Nat.toDigits_ne_nil (Nat.toList_repr ▸ hnil)

theorem FromPool.table (h : FromPool sdx) (text : ℕ → String) :
    ∃ t, (recomputation text sdx).table = some t ∧ ∀ v ip mac, sdx.vnh2IP.get? v = some ip →
      sdx.vnh2MAC.get? v = some mac → t.get? ip = some (text mac) := by
  have hmac : ∀ v ip, sdx.vnh2IP.get? v = some ip → v ≠ "VNH" ∧
      ∃ mac, (sdx.vnh2MAC.mapValues fun _ mac => text mac).get? v = some mac := by
    intro v ip hv
    obtain ⟨i, rfl, -, hmac⟩ := h.ip v ip hv
    exact ⟨vname_ne i, text (vnhMac + i), by rw [Dict.get?_mapValues, hmac, Option.map_some]⟩
  obtain ⟨t, ht, hspec⟩ := getIpMacList_spec hmac fun v w ip => h.ip_injective
  refine ⟨t, ht, fun v ip mac hv hmac => ?_⟩
  rw [hspec v ip hv, Dict.get?_mapValues, hmac, Option.map_some]

end tables

section answers
variable {s : Arp} {ip mac : String}

def HasAddress (ip mac : String) (r : Recomputation) : Prop :=
  ∀ t, r.table = some t → t.get? ip = some mac

/-- No host claims the address, and every update that comes in has it. -/
def Respects (ip mac : String) : ArpEvent → Prop
  | .packet pkt _ first second => pkt.srcip ≠ ip ∧ (∀ r ∈ first, HasAddress ip mac r) ∧
    ∀ r ∈ second, HasAddress ip mac r
  | .updatePolicy r => HasAddress ip mac r

theorem replaced_hasAddress {r : Option Recomputation} (hr : ∀ r' ∈ r, HasAddress ip mac r')
    {macOf : Dict String String} (h : macOf.get? ip = some mac) :
    (replaced r macOf).get? ip = some mac := by
  cases r with
  | none => exact h
  | some r =>
    rw [replaced, Option.bind_some]
    cases ht : r.table with
    | none => exact h
    | some t => exact hr r rfl t ht

theorem step_respects {e : ArpEvent} (he : Respects ip mac e) (h : s.macOf.get? ip = some mac) :
    (s.step e).1.macOf.get? ip = some mac := by
  cases e with
  | updatePolicy r =>
    refine replaced_hasAddress (r := some r) (fun r' hr' => ?_) h
    obtain rfl := Option.some.inj hr'
    exact he
  | packet pkt egress first second =>
    obtain ⟨hsrc, hfirst, hsecond⟩ := he
    have hlocated : (s.recordLocation pkt).macOf.get? ip = some mac := by
      rw [Arp.macOf_recordLocation, h]
    have hlearned : ∀ m : Dict String String, m.get? ip = some mac →
        (m.set pkt.srcip pkt.srcmac).get? ip = some mac := by
      intro m hm
      rw [Dict.get?_set_of_ne _ _ (Ne.symm hsrc), hm]
    rw [Arp.step, Arp.handleArp]
    split_ifs
    · rw [Arp.handleRequest]
      split_ifs
      · exact replaced_hasAddress hfirst hlocated
      · exact hlearned _ (replaced_hasAddress hfirst hlocated)
    · rw [Arp.handleResponse]
      split_ifs
      · exact replaced_hasAddress hsecond (replaced_hasAddress hfirst (hlearned _ hlocated))
      · exact hlocated
    · exact hlocated

theorem answers_request {pkt : ArpPacket} {egress : List Location}
    {first second : Option Recomputation}
    (he : Respects ip mac (.packet pkt egress first second)) (h : s.macOf.get? ip = some mac)
    (hrequest : pkt.protocol = 1) (hdst : pkt.dstip = ip) :
    (s.step (.packet pkt egress first second)).2 =
      [⟨2, ⟨pkt.switch, pkt.inport⟩, ip, mac, pkt.srcip, pkt.srcmac⟩] := by
  have hlocated : (s.recordLocation pkt).macOf.get? ip = some mac := by
    rw [Arp.macOf_recordLocation, h]
  have hknown : pkt.dstip ∈ (s.recordLocation pkt).macOf.keys :=
    Dict.mem_keys_iff.mpr ⟨mac, hdst ▸ hlocated⟩
  have hmac := replaced_hasAddress he.2.1 hlocated
  rw [Arp.step, Arp.handleArp, if_pos hrequest, Arp.handleRequest, if_pos hknown, hdst]
  simp only [hmac]

theorem foldl_respects {l : List ArpEvent} (hl : ∀ e ∈ l, Respects ip mac e)
    (h : s.macOf.get? ip = some mac) :
    (l.foldl (fun s e => (s.step e).1) s).macOf.get? ip = some mac := by
  refine List.foldlRecOn (motive := fun s : Arp => s.macOf.get? ip = some mac) l _ h
    fun s hs e he => ?_
  exact step_respects (hl e he) hs

end answers

section announcements
variable {hα : Hashing String} {sdx : SDX String} {s : Bgp.Participants} {queue queue' : List Bgp.Command}

def AnnouncesGroups (sdx : SDX String) (queue : List Bgp.Command) : Prop :=
  ∀ c ∈ queue, ∀ ip, c.announces = some ip → Bgp.GroupedAt sdx c.route.pfx ip

theorem withdrawCommand_announces {item : Bgp.RouteItem} (h : AnnouncesGroups sdx queue)
    (hstep : Bgp.withdrawCommand hα sdx queue item = some queue') : AnnouncesGroups sdx queue' := by
  unfold Bgp.withdrawCommand at hstep
  split at hstep
  · exact Option.some.inj hstep ▸ h
  · split_ifs at hstep
    exact Option.some.inj hstep ▸ h
  · split at hstep
    · exact Option.some.inj hstep ▸ h
    · obtain ⟨ip, -, rfl⟩ := Option.map_eq_some_iff.mp hstep
      intro c hc ip' hip'
      rcases List.mem_append.mp hc with hc | hc
      · exact h c hc ip' hip'
      · rw [List.mem_singleton.mp hc] at hip'
        cases hip'

theorem announceCommand_announces (haddr : ∀ v ip, sdx.vnh2IP.get? v = some ip → ip ≠ "")
    {vnhPfx : String × String} (hmem : vnhPfx ∈ Bgp.vnhPrefixes hα sdx) (h : AnnouncesGroups sdx queue)
    (hstep : Bgp.announceCommand sdx s queue vnhPfx = some queue') : AnnouncesGroups sdx queue' := by
  obtain ⟨v, p⟩ := vnhPfx
  obtain ⟨group, hgroup, hp⟩ := Bgp.mem_vnhPrefixes.mp hmem
  unfold Bgp.announceCommand at hstep
  split at hstep
  · exact Option.some.inj hstep ▸ h
  · rename_i route hroute
    obtain ⟨ip, hip, rfl⟩ := Option.map_eq_some_iff.mp hstep
    obtain ⟨kv, -, hget⟩ := List.exists_of_findSome?_eq_some hroute
    have hpfx : route.pfx = p := (Bgp.Rib.mem_of_get hget).2
    intro c hc ip' hip'
    rcases List.mem_append.mp hc with hc | hc
    · exact h c hc ip' hip'
    · obtain rfl := List.mem_singleton.mp hc
      rw [Bgp.Command.announces, Bgp.chosenNextHop, if_neg (haddr v ip hip)] at hip'
      exact Option.some.inj hip' ▸ ⟨v, group, hgroup, hpfx ▸ hp, hip⟩

theorem serveAll_announces (haddr : ∀ v ip, sdx.vnh2IP.get? v = some ip → ip ≠ "")
    {ports : Bgp.PortsList} {routes : List Bgp.Message}
    {st : Bgp.Participants × List Bgp.Command} (h : Bgp.serveAll hα sdx ports routes = some st) :
    AnnouncesGroups sdx st.2 := by
  refine Runs.foldlM_invariant
    (P := fun st : Bgp.Participants × List Bgp.Command => AnnouncesGroups sdx st.2)
    (fun st st' route _ hst hserve => ?_) (fun _ hc => absurd hc List.not_mem_nil) h
  obtain ⟨out, -, hserve⟩ := Option.bind_eq_some_iff.mp hserve
  obtain ⟨queue₁, h₁, hserve⟩ := Option.bind_eq_some_iff.mp hserve
  obtain ⟨queue₂, h₂, rfl⟩ := Option.map_eq_some_iff.mp hserve
  have hwithdrawn : AnnouncesGroups sdx queue₁ :=
    Runs.foldlM_invariant (fun _ _ _ _ => withdrawCommand_announces) hst h₁
  exact Runs.foldlM_invariant (fun _ _ _ hmem => announceCommand_announces haddr hmem) hwithdrawn h₂

end announcements

/-- Disjoint groups, of which the participants' tables speak. -/
structure Consistent (sdx : SDX String) : Prop where
  disjoint : ∀ v w c e, v ≠ w → sdx.vnh2pfx.get? v = some c → sdx.vnh2pfx.get? w = some e →
    Disjoint c.toSet e.toSet
  entries : ∀ X v c, vnhEntry sdx.part2VNH X v = some c → sdx.vnh2pfx.get? v = some c

theorem consistent_leftBy {hα : Hashing String} {r : VnhRun String} (hr : r.Produced) :
    Consistent (leftBy hα [(r.updated, r.lcs)]) := by
  obtain ⟨sdx, h⟩ := step4_total hα r.updated hr.fits .init
  have hleft := step4_eq_left hα r.updated r.lcs .init
  rw [h] at hleft
  split_ifs at hleft
  obtain rfl := Option.some.inj hleft
  have hfresh : Fresh r (step4Left hα r.updated r.lcs .init).1 := by
    refine Overwritten.fresh ⟨fun v hv => ?_, fun X v c hc => ?_⟩ hr h
    · exact absurd hv List.not_mem_nil
    · cases hc
  exact ⟨hfresh.disjoint, fun X v c hc => (hfresh.participants X v c hc).1⟩

section tagged
variable {hα : Hashing String} {runs : List (Part2Prefix Key String × List (Coll String))}
  {sdx : SDX String}

theorem keeps_leftBy (hα : Hashing String)
    (runs later : List (Part2Prefix Key String × List (Coll String))) :
    Keeps (leftBy hα runs) (leftBy hα (runs ++ later)) := by
  induction later using List.reverseRecOn with
  | nil =>
    rw [List.append_nil]
    exact .refl _
  | append_singleton later run ih =>
    refine ih.trans ?_
    have hstep : leftBy hα (runs ++ (later ++ [run])) =
        (step4Left hα run.1 run.2 (leftBy hα (runs ++ later))).1 := by
      rw [← List.append_assoc, leftBy, List.foldl_append]
      rfl
    rw [hstep]
    exact ((FromPool.leftBy hα (runs ++ later)).step4LoopLeft 1 run.2).2

def Later (hα : Hashing String) (text : ℕ → String)
    (runs : List (Part2Prefix Key String × List (Coll String))) (r : Recomputation) : Prop :=
  ∃ later, r = recomputation text (leftBy hα (runs ++ later))

/-- The packet is not sent in the name of the next hop. -/
def NotClaimed (hα : Hashing String) (text : ℕ → String)
    (runs : List (Part2Prefix Key String × List (Coll String))) (ip : String) : ArpEvent → Prop
  | .packet pkt _ first second => pkt.srcip ≠ ip ∧ (∀ r ∈ first, Later hα text runs r) ∧
    ∀ r ∈ second, Later hα text runs r
  | .updatePolicy r => Later hα text runs r

theorem Later.hasAddress {text : ℕ → String} {r : Recomputation} (h : Later hα text runs r)
    {v ip : String} {mac : ℕ} (hip : (leftBy hα runs).vnh2IP.get? v = some ip)
    (hmac : (leftBy hα runs).vnh2MAC.get? v = some mac) : HasAddress ip (text mac) r := by
  obtain ⟨later, rfl⟩ := h
  intro t ht
  have hkeeps := keeps_leftBy hα runs later
  obtain ⟨t', ht', hspec⟩ := (FromPool.leftBy hα (runs ++ later)).table text
  obtain rfl := Option.some.inj (ht.symm.trans ht')
  exact hspec v ip mac (hkeeps.ip v ip hip) (hkeeps.mac v mac hmac)

theorem NotClaimed.respects {text : ℕ → String} {v ip : String} {mac : ℕ} {e : ArpEvent}
    (h : NotClaimed hα text runs ip e) (hip : (leftBy hα runs).vnh2IP.get? v = some ip)
    (hmac : (leftBy hα runs).vnh2MAC.get? v = some mac) : Respects ip (text mac) e := by
  cases e with
  | updatePolicy r => exact Later.hasAddress h hip hmac
  | packet pkt egress first second =>
    obtain ⟨hsrc, hfirst, hsecond⟩ := h
    exact ⟨hsrc, fun r hr => (hfirst r hr).hasAddress hip hmac,
      fun r hr => (hsecond r hr).hasAddress hip hmac⟩

theorem FromPool.address_ne (h : FromPool sdx) {v ip : String} (hip : sdx.vnh2IP.get? v = some ip) :
    ip ≠ "" := by
  obtain ⟨i, -, hpool, -⟩ := h.ip v ip hip
  obtain ⟨j, -, rfl⟩ := List.mem_map.mp (List.mem_of_getElem? hpool)
  intro hnil
  have hchars := congrArg String.toList hnil
  rw [String.toList_append] at hchars
  exact absurd (List.append_eq_nil_iff.mp hchars).1 (by decide)

/-- The messages were handled while the tables were consistent, and a router that was sent an
announcement asks for the address of the next hop in it. Whatever runs, updates and packets came
since, the answer is the address on which a participant tests that was given the group of the
prefix, if no host claimed to be the next hop. -/
theorem announced_tagged {ρ : Type*} (hsdx : Consistent (leftBy hα runs))
    {ports : Bgp.PortsList} {routes : List Bgp.Message}
    {st : Bgp.Participants × List Bgp.Command}
    (hserve : Bgp.serveAll hα (leftBy hα runs) ports routes = some st) {c : Bgp.Command} (hc : c ∈ st.2)
    {ip : String} (hip : c.announces = some ip) {X : Key} {groups : Dict String (Coll String)}
    (hX : (leftBy hα runs).part2VNH.get? X = some groups) {v : String} {group : Coll String}
    (hv : groups.get? v = some group) (hp : c.route.pfx ∈ group) (text : ℕ → String)
    (before after : List ArpEvent) {pkt : ArpPacket} {egress : List Location}
    {first second : Option Recomputation} (hrequest : pkt.protocol = 1) (hdst : pkt.dstip = ip)
    (hafter : ∀ e ∈ after ++ [.packet pkt egress first second], NotClaimed hα text runs ip e) :
    ∃ mac, ((runArp (before ++ .updatePolicy (recomputation text (leftBy hα runs)) :: after)).step
        (.packet pkt egress first second)).2 =
        [⟨2, ⟨pkt.switch, pkt.inport⟩, ip, text mac, pkt.srcip, pkt.srcmac⟩] ∧
      returnVnhop groups (leftBy hα runs).vnh2MAC c.route.pfx = some mac ∧
      ∀ (H : Header ρ) (frame : Frame ρ), frame.dstmac = some (.num mac) →
        H.prefixOf frame.header = c.route.pfx → Tagged H groups (leftBy hα runs).vnh2MAC frame := by
  have hpool := FromPool.leftBy hα runs
  set sdx := leftBy hα runs with hruns
  -- the announced address is that of the participant's group
  obtain ⟨w, group', hw, hp', hwip⟩ := serveAll_announces (fun _ _ => hpool.address_ne) hserve c hc ip hip
  have hentry : sdx.vnh2pfx.get? v = some group := hsdx.entries X v group (by
    rw [vnhEntry, hX, Option.bind_some, hv])
  obtain rfl : v = w := by
    by_contra hne
    exact Finset.disjoint_left.mp (hsdx.disjoint v w _ _ hne hentry hw) hp hp'
  obtain ⟨i, -, -, hmac⟩ := hpool.ip v ip hwip
  refine ⟨vnhMac + i, ?_, ?_, fun H frame hframe hprefix => ⟨v, group, _, hv, hprefix ▸ hp, hmac,
    hframe⟩⟩
  · have hall : ∀ e ∈ after ++ [.packet pkt egress first second],
        Respects ip (text (vnhMac + i)) e := fun e he => (hafter e he).respects hwip hmac
    have hlast := hall _ (List.mem_append_right _ (List.mem_singleton_self _))
    refine answers_request hlast ?_ hrequest hdst
    rw [runArp, List.foldl_append, List.foldl_cons]
    refine foldl_respects (fun e he => hall e (List.mem_append_left _ he)) ?_
    obtain ⟨t, ht, hspec⟩ := hpool.table text
    rw [Arp.step, replaced, Option.bind_some, ht, Option.getD_some]
    exact hspec v ip _ hwip hmac
  · have hdisj : ∀ v w c e, v ≠ w → groups.get? v = some c → groups.get? w = some e →
        Disjoint c.toSet e.toSet := fun v w c e hne hc he =>
      hsdx.disjoint v w c e hne (hsdx.entries X v c (by rw [vnhEntry, hX, Option.bind_some, hc]))
        (hsdx.entries X w e (by rw [vnhEntry, hX, Option.bind_some, he]))
    rw [returnVnhop_of_disjoint hdisj hv hp, hmac]

end tagged

def oneRun : VnhRun String where
  sets := .single (.str "B") [.list ["10.0.0.0/8"]]
  updated := .single (.str "B") [.list ["10.0.0.0/8"]]
  lcs := [.set {"10.0.0.0/8"}]

theorem produced_oneRun : oneRun.Produced where
  participants := by decide
  nonempty := nonemptySets_iff.mpr (by decide)
  run := ⟨.sorted, .insertion, 2, by decide +kernel⟩
  fits := by decide

def oneGroup : Part2Prefix Key String × List (Coll String) := (oneRun.updated, oneRun.lcs)

def whoHasIt : ArpPacket := ⟨1, 2, "172.0.0.2", "b2", "172.0.1.1", "ff", 1⟩

theorem announced_tagged_oneGroup : ∃ (c : Bgp.Command) (groups : Dict String (Coll String)) (mac : ℕ),
    c.route.pfx = "10.0.0.0/8" ∧ c.announces = some "172.0.1.1" ∧
    (leftBy .sorted [oneGroup]).part2VNH.get? (.str "B") = some groups ∧
    ((runArp [.updatePolicy (recomputation toString (leftBy .sorted
        [oneGroup]))]).step (.packet whoHasIt [] none none)).2 =
      [⟨2, ⟨1, 2⟩, "172.0.1.1", toString mac, "172.0.0.2", "b2"⟩] ∧
    ∀ frame : Frame String, frame.dstmac = some (.num mac) → frame.header = "10.0.0.0/8" →
      Tagged prefixHeader groups (leftBy .sorted [oneGroup]).vnh2MAC
        frame := by
  have hserve : (Bgp.serveAll .sorted (leftBy .sorted [oneGroup])
      Bgp.twoPorts [Bgp.announceA]).map (fun st => st.2.map fun c => (c.route.pfx, c.announces)) =
      some [("10.0.0.0/8", some "172.0.1.1")] := by decide +kernel
  obtain ⟨st, hst, hqueue⟩ := Option.map_eq_some_iff.mp hserve
  obtain ⟨c, hc, he⟩ := List.mem_map.mp (hqueue ▸ List.mem_singleton_self _)
  obtain ⟨hpfx, hannounces⟩ := Prod.mk.inj he
  have hgroups : ((leftBy .sorted [oneGroup]).part2VNH.get? (.str "B")).bind
      (fun groups => groups.get? "VNH1") = some (.set {"10.0.0.0/8"}) := by decide +kernel
  obtain ⟨groups, hX, hv⟩ := Option.bind_eq_some_iff.mp hgroups
  have hclaims : ∀ e ∈ [] ++ [ArpEvent.packet whoHasIt [] none none],
      NotClaimed .sorted toString [oneGroup] "172.0.1.1" e := by
    intro e he
    obtain rfl := List.mem_singleton.mp he
    exact ⟨by decide, nofun, nofun⟩
  obtain ⟨mac, hanswer, -, htagged⟩ := @announced_tagged .sorted [oneGroup] String (consistent_leftBy produced_oneRun)
    _ _ _ hst c hc _ hannounces _ _ hX _ _ hv (hpfx ▸ Finset.mem_singleton_self _) toString [] []
    whoHasIt [] none none rfl rfl hclaims
  exact ⟨c, groups, mac, hpfx, hannounces, hX, hanswer, fun frame hframe hheader =>
    htagged prefixHeader frame hframe (hheader.trans hpfx.symm)⟩

end Hispar.VnhAssignment
