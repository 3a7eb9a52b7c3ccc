import Hispar.Library.Dictionary
import Hispar.Library.Runs

/-!
# Address resolution

The handler answers requests for known hosts, floods the others and keeps them
as outstanding, and relays the response to an outstanding request. It learns
the address of whoever asks, and reads it again when the response comes; in
between, an update of the policies replaces the table of addresses.
-/
namespace Hispar.Exchange
open Library

structure Location where
  switch : ℕ
  portNo : ℕ
  deriving DecidableEq

structure ArpPacket where
  switch : ℕ
  inport : ℕ
  srcip : String
  srcmac : String
  dstip : String
  dstmac : String
  protocol : ℕ

structure Sent where
  msgType : ℕ
  outport : Location
  srcip : String
  srcmac : String
  dstip : String
  dstmac : String
  deriving DecidableEq

/-- The table that `get_ip_mac_list` makes, without the key of the whole pool. -/
def getIpMacList (ipList macList : Dict String String) : Option (Dict String String) :=
  ipList.items.foldlM (fun ipMacList kv => if kv.1 = "VNH" then some ipMacList
    else (macList.get? kv.1).map fun mac => ipMacList.set kv.2 mac) .empty

structure Recomputation where
  vnh2IP : Dict String String
  vnh2MAC : Dict String String

def Recomputation.table (r : Recomputation) : Option (Dict String String) :=
  getIpMacList r.vnh2IP r.vnh2MAC

def replaced (r : Option Recomputation) (macOf : Dict String String) : Dict String String :=
  (r.bind Recomputation.table).getD macOf

structure Arp where
  macOf : Dict String String
  locationOf : Dict String Location
  outstandingRequests : Dict String (Dict String Unit)

namespace Arp

def init : Arp := ⟨.empty, .empty, .empty⟩

def requestsOf (s : Arp) (ip : String) : Dict String Unit :=
  (s.outstandingRequests.get? ip).getD .empty

def Outstanding (s : Arp) (ip other : String) : Prop := other ∈ (s.requestsOf ip).keys

instance (s : Arp) (ip other : String) : Decidable (s.Outstanding ip other) :=
  inferInstanceAs (Decidable (other ∈ (s.requestsOf ip).keys))

def recordLocation (s : Arp) (pkt : ArpPacket) : Arp :=
  if pkt.srcip ∈ s.locationOf.keys then s
  else { s with locationOf := s.locationOf.set pkt.srcip ⟨pkt.switch, pkt.inport⟩ }

def setRequest (s : Arp) (ip other : String) : Dict String (Dict String Unit) :=
  s.outstandingRequests.set ip ((s.requestsOf ip).set other ())

def delRequest (s : Arp) (ip other : String) : Dict String (Dict String Unit) :=
  s.outstandingRequests.set ip ((s.requestsOf ip).erase other)

/-- A request; an update may come between the two uses of the table. -/
def handleRequest (s : Arp) (pkt : ArpPacket) (egress : List Location)
    (between : Option Recomputation) : Arp × List Sent :=
  let macOf := replaced between s.macOf
  if pkt.dstip ∈ s.macOf.keys then
    ({ s with macOf := macOf }, match macOf.get? pkt.dstip with
      | some mac => [⟨2, ⟨pkt.switch, pkt.inport⟩, pkt.dstip, mac, pkt.srcip, pkt.srcmac⟩]
      -- the lookup fails, outside of any `try`
      | none => [])
  else
    ({ s with
        macOf := macOf.set pkt.srcip pkt.srcmac
        outstandingRequests := s.setRequest pkt.srcip pkt.dstip },
      (egress.filter (· ≠ ⟨pkt.switch, pkt.inport⟩)).map fun loc =>
        ⟨1, loc, pkt.srcip, pkt.srcmac, pkt.dstip, pkt.dstmac⟩)

def relay (pkt : ArpPacket) : Option Location → Option String → Option String → List Sent
  | some loc, some srcmac, some dstmac => [⟨2, loc, pkt.srcip, srcmac, pkt.dstip, dstmac⟩]
  | _, _, _ => []

/-- A response; updates may come between the three uses of the table. A lookup that fails ends the
handling without a trace, after the request was deleted. -/
def handleResponse (s : Arp) (pkt : ArpPacket) (first second : Option Recomputation) :
    Arp × List Sent :=
  if s.Outstanding pkt.dstip pkt.srcip then
    let macOf₁ := replaced first (s.macOf.set pkt.srcip pkt.srcmac)
    let macOf₂ := replaced second macOf₁
    ({ s with macOf := macOf₂, outstandingRequests := s.delRequest pkt.dstip pkt.srcip },
      relay pkt (s.locationOf.get? pkt.dstip) (macOf₁.get? pkt.srcip) (macOf₂.get? pkt.dstip))
  else (s, [])

def handleArp (s : Arp) (pkt : ArpPacket) (egress : List Location)
    (first second : Option Recomputation) : Arp × List Sent :=
  let s := s.recordLocation pkt
  if pkt.protocol = 1 then s.handleRequest pkt egress first
  else if pkt.protocol = 2 then s.handleResponse pkt first second
  else (s, [])

end Arp

/-- A packet that is handled, with the locations at the edge of the network and the updates that
fall in between, or an update. -/
inductive ArpEvent where
  | packet (pkt : ArpPacket) (egress : List Location) (first second : Option Recomputation)
  | updatePolicy (r : Recomputation)

namespace Arp

def step (s : Arp) : ArpEvent → Arp × List Sent
  | .packet pkt egress first second => s.handleArp pkt egress first second
  | .updatePolicy r => ({ s with macOf := replaced (some r) s.macOf }, [])

end Arp

def runArp (l : List ArpEvent) : Arp := l.foldl (fun s e => (s.step e).1) .init

def ArpEvent.Answers (e : ArpEvent) (ip other mac : String) : Prop :=
  ∃ pkt egress first second, e = .packet pkt egress first second ∧ pkt.protocol = 2 ∧
    pkt.dstip = ip ∧ pkt.srcip = other ∧ pkt.srcmac = mac

/-- A response to an outstanding request is relayed to where the host that asked is, and only such
a response ends the request. -/
structure Arp.Relays (s : Arp) (e : ArpEvent) : Prop where
  relayed : ∀ ip other mac, e.Answers ip other mac → s.Outstanding ip other →
    ∃ loc dstmac, (s.step e).1.locationOf.get? ip = some loc ∧
      ⟨2, loc, other, mac, ip, dstmac⟩ ∈ (s.step e).2
  kept : ∀ ip other, s.Outstanding ip other → ¬ (s.step e).1.Outstanding ip other →
    ∃ mac, e.Answers ip other mac

/-- When a response to an outstanding request is handled, the addresses of both hosts are in the
table as it is when they are read. -/
def Arp.Knows (s : Arp) : ArpEvent → Prop
  | .packet pkt _ first second => pkt.protocol = 2 → s.Outstanding pkt.dstip pkt.srcip →
    (replaced first (s.macOf.set pkt.srcip pkt.srcmac)).get? pkt.srcip = some pkt.srcmac ∧
    pkt.dstip ∈ (replaced second (replaced first (s.macOf.set pkt.srcip pkt.srcmac))).keys
  | .updatePolicy _ => True

def Arp.Keeps (s : Arp) (r : Recomputation) : Prop :=
  ∀ macOf, r.table = some macOf → ∀ ip other, s.Outstanding ip other → ip ∈ macOf.keys

/-- So has the table of every update of the event, and one that comes while a response is handled
has the address of who responds. -/
def Arp.KeepsAll (s : Arp) : ArpEvent → Prop
  | .packet pkt _ first second => (∀ r ∈ first, s.Keeps r) ∧ (∀ r ∈ second, s.Keeps r) ∧
    ∀ r ∈ first, ∀ macOf, r.table = some macOf → pkt.protocol = 2 →
      s.Outstanding pkt.dstip pkt.srcip → macOf.get? pkt.srcip = some pkt.srcmac
  | .updatePolicy r => s.Keeps r

namespace Arp

theorem requestsOf_set (s : Arp) (ip ip' : String) (d : Dict String Unit) :
    ((s.outstandingRequests.set ip d).get? ip').getD .empty =
      if ip' = ip then d else s.requestsOf ip' := by
  rw [Dict.get?_set]
  split_ifs <;> rfl

variable {s : Arp} {ip other ip' other' : String}

theorem outstanding_setRequest {macOf : Dict String String} {locationOf : Dict String Location} :
    (Arp.mk macOf locationOf (s.setRequest ip other)).Outstanding ip' other' ↔
      ip' = ip ∧ other' = other ∨ s.Outstanding ip' other' := by
  rw [Outstanding, requestsOf, setRequest, requestsOf_set]
  split_ifs with h
  · subst h
    rw [Dict.mem_keys_set]
    simp [Outstanding]
  · simp [h, Outstanding]

theorem outstanding_delRequest {macOf : Dict String String} {locationOf : Dict String Location} :
    (Arp.mk macOf locationOf (s.delRequest ip other)).Outstanding ip' other' ↔
      s.Outstanding ip' other' ∧ ¬ (ip' = ip ∧ other' = other) := by
  rw [Outstanding, requestsOf, delRequest, requestsOf_set]
  split_ifs with h
  · subst h
    rw [Dict.mem_keys_erase]
    simp [Outstanding, and_comm]
  · simp [h, Outstanding]

@[simp] theorem outstanding_recordLocation (pkt : ArpPacket) :
    (s.recordLocation pkt).Outstanding ip other ↔ s.Outstanding ip other := by
  rw [recordLocation]
  split_ifs <;> rfl

@[simp] theorem macOf_recordLocation (s : Arp) (pkt : ArpPacket) :
    (s.recordLocation pkt).macOf = s.macOf := by
  rw [recordLocation]
  split_ifs <;> rfl

theorem mem_locationOf_recordLocation (pkt : ArpPacket) :
    ip ∈ (s.recordLocation pkt).locationOf.keys ↔ ip = pkt.srcip ∨ ip ∈ s.locationOf.keys := by
  rw [recordLocation]
  split_ifs with h
  · exact ⟨Or.inr, fun hip => hip.elim (fun he => he ▸ h) id⟩
  · exact Dict.mem_keys_set

theorem outstanding_handleRequest {pkt : ArpPacket} {egress : List Location}
    {between : Option Recomputation} :
    (s.handleRequest pkt egress between).1.Outstanding ip other ↔
      s.Outstanding ip other ∨ pkt.dstip ∉ s.macOf.keys ∧ ip = pkt.srcip ∧ other = pkt.dstip := by
  rw [handleRequest]
  split_ifs with h
  · rw [or_iff_left fun hnew => hnew.1 h]
    rfl
  · rw [outstanding_setRequest, and_iff_right h, or_comm]

theorem outstanding_handleResponse {pkt : ArpPacket} {first second : Option Recomputation} :
    (s.handleResponse pkt first second).1.Outstanding ip other ↔
      s.Outstanding ip other ∧ ¬ (ip = pkt.dstip ∧ other = pkt.srcip) := by
  rw [handleResponse]
  split_ifs with h
  · exact outstanding_delRequest
  · refine (and_iff_left_of_imp fun hout he => h ?_).symm
    rwa [he.1, he.2] at hout

theorem mem_relay {pkt : ArpPacket} {loc : Location} {mac dstmac : String} {l : Option Location}
    {m m' : Option String} : ⟨2, loc, pkt.srcip, mac, pkt.dstip, dstmac⟩ ∈ relay pkt l m m' ↔
      l = some loc ∧ m = some mac ∧ m' = some dstmac := by
  cases l <;> cases m <;> cases m' <;> simp [relay, eq_comm]

theorem sent_handleResponse {pkt : ArpPacket} (h : s.Outstanding pkt.dstip pkt.srcip)
    (first second : Option Recomputation) :
    (∃ loc dstmac, s.locationOf.get? pkt.dstip = some loc ∧
      ⟨2, loc, pkt.srcip, pkt.srcmac, pkt.dstip, dstmac⟩ ∈ (s.handleResponse pkt first second).2) ↔
    pkt.dstip ∈ s.locationOf.keys ∧
      (replaced first (s.macOf.set pkt.srcip pkt.srcmac)).get? pkt.srcip = some pkt.srcmac ∧
      pkt.dstip ∈ (replaced second (replaced first (s.macOf.set pkt.srcip pkt.srcmac))).keys := by
  rw [handleResponse, if_pos h, Dict.mem_keys_iff, Dict.mem_keys_iff]
  simp only [mem_relay]
  constructor
  · rintro ⟨loc, dstmac, hloc, -, hsrc, hdst⟩
    exact ⟨⟨loc, hloc⟩, hsrc, dstmac, hdst⟩
  · rintro ⟨⟨loc, hloc⟩, hsrc, dstmac, hdst⟩
    exact ⟨loc, dstmac, hloc, hloc, hsrc, hdst⟩

theorem locationOf_handleArp (s : Arp) (pkt : ArpPacket) (egress : List Location)
    (first second : Option Recomputation) :
    (s.handleArp pkt egress first second).1.locationOf = (s.recordLocation pkt).locationOf := by
  simp only [handleArp, handleRequest, handleResponse]
  split_ifs <;> rfl

theorem outstanding_step (s : Arp) (e : ArpEvent) :
    ((s.step e).1.Outstanding ip other → s.Outstanding ip other ∨
      ∃ pkt egress first second, e = .packet pkt egress first second ∧ pkt.protocol = 1 ∧
        pkt.dstip ∉ s.macOf.keys ∧ ip = pkt.srcip ∧ other = pkt.dstip) ∧
    (s.Outstanding ip other → ¬ (s.step e).1.Outstanding ip other →
      ∃ mac, e.Answers ip other mac) := by
  cases e with
  | updatePolicy r => exact ⟨Or.inl, fun h hnot => absurd h hnot⟩
  | packet pkt egress first second =>
    rw [step, handleArp]
    split_ifs with hrequest hresponse
    · rw [outstanding_handleRequest, outstanding_recordLocation, macOf_recordLocation]
      exact ⟨Or.imp_right fun hnew => ⟨pkt, egress, first, second, rfl, hrequest, hnew⟩,
        fun h hnot => absurd (Or.inl h) hnot⟩
    · rw [outstanding_handleResponse, outstanding_recordLocation]
      refine ⟨fun h => Or.inl h.1, fun h hnot => ?_⟩
      obtain ⟨rfl, rfl⟩ := not_not.mp fun hne => hnot ⟨h, hne⟩
      exact ⟨pkt.srcmac, pkt, egress, first, second, rfl, hresponse, rfl, rfl, rfl⟩
    · rw [outstanding_recordLocation]
      exact ⟨Or.inl, fun h hnot => absurd h hnot⟩

def Located (s : Arp) : Prop := ∀ ip other, s.Outstanding ip other → ip ∈ s.locationOf.keys

theorem Located.step (h : s.Located) (e : ArpEvent) : (s.step e).1.Located := by
  intro ip other hout
  have hold := (outstanding_step s e).1 hout
  cases e with
  | updatePolicy r => exact h ip other hout
  | packet pkt egress first second =>
    rw [Arp.step, locationOf_handleArp, mem_locationOf_recordLocation]
    rcases hold with hold | ⟨pkt', _, _, _, he, -, -, rfl, -⟩
    · exact Or.inr (h ip other hold)
    · obtain ⟨rfl, -⟩ := ArpEvent.packet.inj he
      exact Or.inl rfl

theorem relays_iff_knows (hs : s.Located) (e : ArpEvent) : s.Relays e ↔ s.Knows e := by
  have hkept : ∀ ip other, s.Outstanding ip other → ¬ (s.step e).1.Outstanding ip other →
      ∃ mac, e.Answers ip other mac := fun ip other => (outstanding_step s e).2
  cases e with
  | updatePolicy r =>
    refine iff_of_true ⟨fun ip other mac h => ?_, hkept⟩ trivial
    obtain ⟨_, _, _, _, he, -⟩ := h
    cases he
  | packet pkt egress first second =>
    by_cases hresponse : pkt.protocol = 2
    · have hstep : s.step (.packet pkt egress first second) =
          (s.recordLocation pkt).handleResponse pkt first second := by
        rw [step, handleArp, if_neg (by omega), if_pos hresponse]
      have hlocation := locationOf_handleArp s pkt egress first second
      have hrelayed : s.Outstanding pkt.dstip pkt.srcip →
          ((∃ loc dstmac, (s.recordLocation pkt).locationOf.get? pkt.dstip = some loc ∧
            ⟨2, loc, pkt.srcip, pkt.srcmac, pkt.dstip, dstmac⟩ ∈
              ((s.recordLocation pkt).handleResponse pkt first second).2) ↔ _) := fun hout =>
        sent_handleResponse ((outstanding_recordLocation pkt).mpr hout) first second
      rw [macOf_recordLocation] at hrelayed
      constructor
      · intro h _ hout
        have hsent := h.relayed pkt.dstip pkt.srcip pkt.srcmac
          ⟨pkt, egress, first, second, rfl, hresponse, rfl, rfl, rfl⟩ hout
        rw [step, hlocation, ← step, hstep] at hsent
        exact ((hrelayed hout).mp hsent).2
      · intro h
        refine ⟨fun ip other mac hanswers hout => ?_, hkept⟩
        obtain ⟨_, _, _, _, he, -, rfl, rfl, rfl⟩ := hanswers
        obtain ⟨rfl, -⟩ := ArpEvent.packet.inj he
        rw [step, hlocation, ← step, hstep]
        have hloc := (mem_locationOf_recordLocation pkt).mpr (Or.inr (hs _ _ hout))
        exact (hrelayed hout).mpr ⟨hloc, h hresponse hout⟩
    · refine iff_of_true ⟨fun ip other mac hanswers => ?_, hkept⟩ fun h => absurd h hresponse
      obtain ⟨_, _, _, _, he, hprotocol, -⟩ := hanswers
      obtain ⟨rfl, -⟩ := ArpEvent.packet.inj he
      exact absurd hprotocol hresponse

def Known (s : Arp) : Prop := ∀ ip other, s.Outstanding ip other → ip ∈ s.macOf.keys

theorem mem_replaced {r : Option Recomputation} (hr : ∀ r' ∈ r, s.Keeps r')
    (hout : s.Outstanding ip other) {macOf : Dict String String} (hip : ip ∈ macOf.keys) :
    ip ∈ (replaced r macOf).keys := by
  rcases r with _ | r
  · exact hip
  · rw [replaced, Option.bind_some]
    rcases htable : r.table with _ | table
    · exact hip
    · exact hr r rfl table htable ip other hout

theorem Known.knows (hs : s.Known) {e : ArpEvent} (hkeeps : s.KeepsAll e) : s.Knows e := by
  cases e with
  | updatePolicy r => trivial
  | packet pkt egress first second =>
    intro hresponse hout
    obtain ⟨hfirst, hsecond, haddress⟩ := hkeeps
    constructor
    · rcases first with _ | r
      · exact Dict.get?_set_self _ _ _
      · rw [replaced, Option.bind_some]
        rcases htable : r.table with _ | table
        · exact Dict.get?_set_self _ _ _
        · exact haddress r rfl table htable hresponse hout
    · have hlearnt : pkt.dstip ∈ (s.macOf.set pkt.srcip pkt.srcmac).keys :=
        Dict.mem_keys_set.mpr (Or.inr (hs _ _ hout))
      exact mem_replaced hsecond hout (mem_replaced hfirst hout hlearnt)

theorem Known.step (hs : s.Known) {e : ArpEvent} (hkeeps : s.KeepsAll e) : (s.step e).1.Known := by
  intro ip other hout
  cases e with
  | updatePolicy r =>
    have hr : ∀ r' ∈ some r, s.Keeps r' := fun r' hr' => Option.some.inj hr' ▸ hkeeps
    exact mem_replaced hr hout (hs ip other hout)
  | packet pkt egress first second =>
    obtain ⟨hfirst, hsecond, -⟩ := hkeeps
    rw [Arp.step, handleArp] at hout ⊢
    split_ifs at hout ⊢ with hrequest hresponse
    · rw [outstanding_handleRequest, outstanding_recordLocation, macOf_recordLocation] at hout
      rw [handleRequest, macOf_recordLocation]
      split_ifs with hmem
      · exact mem_replaced hfirst (hout.resolve_right fun h => h.1 hmem)
          (hs ip other (hout.resolve_right fun h => h.1 hmem))
      · rw [Dict.mem_keys_set]
        exact hout.elim (fun hold => Or.inr (mem_replaced hfirst hold (hs ip other hold)))
          fun hnew => Or.inl hnew.2.1
    · rw [outstanding_handleResponse, outstanding_recordLocation] at hout
      have hip := hs ip other hout.1
      rw [handleResponse, macOf_recordLocation]
      split_ifs
      · exact mem_replaced hsecond hout.1
          (mem_replaced hfirst hout.1 (Dict.mem_keys_set.mpr (Or.inr hip)))
      · rwa [macOf_recordLocation]
    · rw [outstanding_recordLocation] at hout
      rw [macOf_recordLocation]
      exact hs ip other hout

end Arp

theorem runArp_concat (l : List ArpEvent) (e : ArpEvent) :
    runArp (l ++ [e]) = ((runArp l).step e).1 := by
  rw [runArp, List.foldl_append]
  rfl

theorem located_runArp (l : List ArpEvent) : (runArp l).Located := by
  induction l using List.reverseRecOn with
  | nil => exact fun ip other hout => absurd hout List.not_mem_nil
  | append_singleton l e ih =>
    rw [runArp_concat]
    exact ih.step e

theorem known_runArp {l : List ArpEvent}
    (h : ∀ before e after, l = before ++ e :: after → (runArp before).KeepsAll e) :
    (runArp l).Known := by
  induction l using List.reverseRecOn with
  | nil => exact fun ip other hout => absurd hout List.not_mem_nil
  | append_singleton l e ih =>
    have hbefore := ih fun before e' after hl =>
      h before e' (after ++ [e]) (by rw [hl, List.append_assoc, List.cons_append])
    rw [runArp_concat]
    exact hbefore.step (h l e [] rfl)

/-- The events of a run relay the responses exactly if the addresses are known whenever they are
read; and they are, if every update keeps the hosts that ask. -/
theorem runArp_relays_iff (l : List ArpEvent) :
    ((∀ before e after, l = before ++ e :: after → (runArp before).Relays e) ↔
      ∀ before e after, l = before ++ e :: after → (runArp before).Knows e) ∧
    ((∀ before e after, l = before ++ e :: after → (runArp before).KeepsAll e) →
      ∀ before e after, l = before ++ e :: after → (runArp before).Relays e) := by
  have hiff : ∀ before e, (runArp before).Relays e ↔ (runArp before).Knows e := fun before e =>
    Arp.relays_iff_knows (located_runArp before) e
  refine ⟨by simp only [hiff], fun hkeeps before e after hl => ?_⟩
  have hknown : (runArp before).Known := known_runArp fun before' e' after' hbefore =>
    hkeeps before' e' (after' ++ e :: after) (by rw [hl, hbefore, List.append_assoc, List.cons_append])
  exact (hiff before e).mpr (hknown.knows (hkeeps before e after hl))

def requestUpdateResponse : List ArpEvent :=
  [.packet ⟨1, 1, "172.0.0.1", "08:00:27:89:3b:9f", "172.0.0.2", "ff:ff:ff:ff:ff:ff", 1⟩
      [⟨1, 1⟩, ⟨1, 2⟩] none none,
    .updatePolicy ⟨.single "VNH1" "172.0.1.1", .single "VNH1" "aa:00:00:00:00:01"⟩,
    .packet ⟨1, 2, "172.0.0.2", "08:00:27:92:18:1f", "172.0.0.1", "08:00:27:89:3b:9f", 2⟩
      [⟨1, 1⟩, ⟨1, 2⟩] none none]

theorem runArp_requestUpdateResponse : ¬ ∀ before e after,
    requestUpdateResponse = before ++ e :: after → (runArp before).Relays e := by
  intro h
  obtain ⟨_, _, -, hsent⟩ := (h (requestUpdateResponse.take 2) _ [] rfl).relayed "172.0.0.1" "172.0.0.2"
    "08:00:27:92:18:1f" ⟨_, _, _, _, rfl, rfl, rfl, rfl, rfl⟩ (by decide)
  have hnone : ((runArp (requestUpdateResponse.take 2)).step (.packet
      ⟨1, 2, "172.0.0.2", "08:00:27:92:18:1f", "172.0.0.1", "08:00:27:89:3b:9f", 2⟩
      [⟨1, 1⟩, ⟨1, 2⟩] none none)).2 = [] := by decide
  rw [hnone] at hsent
  exact List.not_mem_nil hsent

end Hispar.Exchange
