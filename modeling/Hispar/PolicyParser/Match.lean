import Hispar.Library.Dictionary
import Hispar.Library.Runs
import Hispar.Library.Texts

/-!
# Outbound rules against inbound entries

The routes of an outbound rule are participants, and the inbound entries of a
participant say whom it takes traffic from, for each subnet. An outbound
document is accepted where no route is in conflict. The entries for a
destination are found by all of their values, not by their subnet.
-/
namespace Hispar.PolicyParser
open Library

/-- A value of a document: a text, a list of names, or one of another kind, by its text. -/
inductive Value where
  | text (s : String)
  | names (l : List String)
  | other (shown : AsciiText)
  deriving DecidableEq

/-- What a whitelist or a blacklist is: a text, as for everyone, or a list of names. -/
inductive Listing where
  | text (s : String)
  | names (l : List String)
  deriving DecidableEq

def Listing.value : Listing → Value
  | .text s => .text s
  | .names l => .names l

def Listing.has (name : String) : Listing → Bool
  | .text s => decide (Contains name s)
  | .names l => decide (name ∈ l)

structure RuleData where
  srcip : Value
  dstport : Value
  srcport : Value
  time : Value
  latency : Value
  loss : Value
  cost : Value
  routes : List String
  default : List String
  updateInterval : Value
  policyType : Value
  checkInterval : Value

abbrev Outbound := Dict String (List RuleData)

structure Entry where
  subnet : String
  whitelist : Listing
  blacklist : Listing
  further : List Value

def Entry.values (item : Entry) : List Value :=
  .text item.subnet :: item.whitelist.value :: item.blacklist.value :: item.further

abbrev Inbound := Dict String (List Entry)

section matching
variable (participant : String)

/-- The loop over the entries of a route, which ends with the first conflict. -/
def conflicts : List Entry → Bool
  | [] => false
  | item :: itemList =>
    if item.blacklist.has participant then true
    else if item.whitelist ≠ .text "*" then
      if item.whitelist.has participant then conflicts itemList else true
    else conflicts itemList

variable (inboundData : Inbound)

/-- The loop over the routes of a rule, which ends with the first that has no entry. -/
def matchRoutes (ipPrefix : String) : List String → Dict String Bool → Option (Dict String Bool)
  | [], conflictDict => some conflictDict
  | route :: routes, conflictDict =>
    (inboundData.get? route).bind fun items =>
      let itemList := items.filter fun item => .text ipPrefix ∈ item.values
      if itemList.isEmpty then some (conflictDict.set route true)
      else matchRoutes ipPrefix routes
        (if conflicts participant itemList then conflictDict.set route true else conflictDict)

def matchRules (conflictDict : Dict String Bool) (kv : String × List RuleData) :
    Option (Dict String Bool) :=
  kv.2.foldlM (fun conflictDict rule =>
    matchRoutes participant inboundData kv.1 rule.routes conflictDict) conflictDict

def noConflicts : Dict String Bool :=
  inboundData.items.foldl (fun d kv => if kv.1 ≠ participant then d.set kv.1 false else d) .empty

def matchOutboundInbound (outboundData : Outbound) : Option Bool :=
  (outboundData.items.foldlM (matchRules participant inboundData)
    (noConflicts participant inboundData)).map fun conflictDict => conflictDict.values.all (!·)

end matching

def Routes (outboundData : Outbound) (ipPrefix route : String) : Prop :=
  ∃ kv ∈ outboundData.items, kv.1 = ipPrefix ∧ ∃ rule ∈ kv.2, route ∈ rule.routes

/-- The entries of a route, with a destination for which traffic is sent along it. -/
def Demand (outboundData : Outbound) (inboundData : Inbound) (ipPrefix : String)
    (items : List Entry) : Prop :=
  ∃ route, Routes outboundData ipPrefix route ∧ inboundData.get? route = some items

def Entry.Refuses (item : Entry) (participant : String) : Prop :=
  item.blacklist.has participant = true ∨
    item.whitelist ≠ .text "*" ∧ item.whitelist.has participant = false

structure Accepts (participant ipPrefix : String) (items : List Entry) : Prop where
  found : ∃ item ∈ items, item.subnet = ipPrefix
  taken : ∀ item ∈ items, item.subnet = ipPrefix → ¬ item.Refuses participant

structure AcceptsByValues (participant ipPrefix : String) (items : List Entry) : Prop where
  found : ∃ item ∈ items, .text ipPrefix ∈ item.values
  taken : ∀ item ∈ items, .text ipPrefix ∈ item.values → ¬ item.Refuses participant

section permitted
variable (participant : String) (outboundData : Outbound) (inboundData : Inbound)

/-- Every destination, rule and route of the document is accepted. -/
def Permitted : Prop :=
  ∀ ipPrefix items, Demand outboundData inboundData ipPrefix items →
    Accepts participant ipPrefix items

/-- A route is refused in any case: by an entry for the destination, or because no entry has it
among its values. -/
def RefusedAnyway : Prop :=
  ∃ ipPrefix items, Demand outboundData inboundData ipPrefix items ∧
    ((∃ item ∈ items, item.subnet = ipPrefix ∧ item.Refuses participant) ∨
      ∀ item ∈ items, .text ipPrefix ∉ item.values)

/-- No entry refuses the participant that has the destination among its values only. -/
def MisreadTaken : Prop :=
  ∀ ipPrefix items, Demand outboundData inboundData ipPrefix items →
    ∀ item ∈ items, .text ipPrefix ∈ item.values → item.subnet ≠ ipPrefix →
      ¬ item.Refuses participant

def SubnetsFound : Prop :=
  ∀ ipPrefix items, Demand outboundData inboundData ipPrefix items →
    ∃ item ∈ items, item.subnet = ipPrefix

end permitted

theorem Entry.subnet_mem_values (item : Entry) : .text item.subnet ∈ item.values :=
  List.mem_cons_self

def Clear (conflictDict : Dict String Bool) : Prop := ∀ route, conflictDict.get? route ≠ some true

theorem values_all_not {d : Dict String Bool} : d.values.all (!·) = true ↔ Clear d := by
  rw [List.all_eq_true]
  constructor
  · intro h route hroute
    have hmem : true ∈ d.values := List.mem_map_of_mem (f := Prod.snd) (Dict.get?_eq_some.mp hroute)
    exact absurd (h true hmem) (by decide)
  · intro h b hb
    obtain ⟨kv, hkv, rfl⟩ := List.mem_map.mp hb
    cases hv : kv.2 with
    | false => rfl
    | true => exact absurd (Dict.get?_eq_some.mpr (hv ▸ hkv)) (h kv.1)

theorem not_clear_set (d : Dict String Bool) (route : String) : ¬ Clear (d.set route true) :=
  fun h => h route (Dict.get?_set_self d route true)

theorem clear_noConflicts (participant : String) (inboundData : Inbound) :
    Clear (noConflicts participant inboundData) := by
  refine List.foldlRecOn (motive := Clear) inboundData.items _ (fun route h => by cases h)
    fun d hd kv _ => ?_
  split_ifs
  · intro route
    rw [Dict.get?_set]
    split_ifs
    · simp
    · exact hd route
  · exact hd

section loops
variable {participant : String} {inboundData : Inbound} {outboundData : Outbound}

theorem conflicts_iff (itemList : List Entry) :
    conflicts participant itemList = true ↔ ∃ item ∈ itemList, item.Refuses participant := by
  induction itemList with
  | nil => simp [conflicts]
  | cons item itemList ih =>
    rw [conflicts]
    split_ifs with hblack hwhite hlisted
    · simp [Entry.Refuses, hblack]
    · simp [Entry.Refuses, hblack, hlisted, ih]
    · simp [Entry.Refuses, hwhite, hlisted]
    · simp only [ne_eq, not_not] at hwhite
      simp [Entry.Refuses, hblack, hwhite, ih]

theorem acceptsByValues_iff {ipPrefix : String} {items : List Entry} :
    AcceptsByValues participant ipPrefix items ↔
      (items.filter fun item => .text ipPrefix ∈ item.values) ≠ [] ∧
      conflicts participant (items.filter fun item => .text ipPrefix ∈ item.values) = false := by
  rw [← Bool.not_eq_true, conflicts_iff, Ne, List.filter_eq_nil_iff]
  simp only [List.mem_filter, decide_eq_true_eq, not_forall, not_exists, not_and, not_not]
  exact ⟨fun h => ⟨by simpa using h.found, fun item hitem => h.taken item hitem.1 hitem.2⟩,
    fun h => ⟨by simpa using h.1, fun item hitem hvalue => h.2 item ⟨hitem, hvalue⟩⟩⟩

theorem matchRoutes_spec (ipPrefix : String) {routes : List String}
    (hnamed : ∀ route ∈ routes, route ∈ inboundData.keys) (d : Dict String Bool) :
    ∃ d', matchRoutes participant inboundData ipPrefix routes d = some d' ∧
      (Clear d' ↔ Clear d ∧ ∀ route ∈ routes, ∀ items, inboundData.get? route = some items →
        AcceptsByValues participant ipPrefix items) := by
  induction routes generalizing d with
  | nil => exact ⟨d, rfl, by simp⟩
  | cons route routes ih =>
    obtain ⟨hroute, hnamed⟩ := List.forall_mem_cons.mp hnamed
    obtain ⟨items, hitems⟩ := Dict.mem_keys_iff.mp hroute
    have hhead : (∀ route' ∈ route :: routes, ∀ items', inboundData.get? route' = some items' →
        AcceptsByValues participant ipPrefix items') ↔
        AcceptsByValues participant ipPrefix items ∧ ∀ route' ∈ routes, ∀ items',
          inboundData.get? route' = some items' → AcceptsByValues participant ipPrefix items' := by
      rw [List.forall_mem_cons]
      simp [hitems]
    rw [matchRoutes, hitems, Option.bind_some, hhead, acceptsByValues_iff]
    by_cases hempty : (items.filter fun item => .text ipPrefix ∈ item.values) = []
    · refine ⟨_, if_pos (List.isEmpty_iff.mpr hempty), iff_of_false (not_clear_set d route) ?_⟩
      exact fun h => h.2.1.1 hempty
    · obtain ⟨d', hd', hiff⟩ := ih hnamed (if conflicts participant
        (items.filter fun item => .text ipPrefix ∈ item.values) then d.set route true else d)
      refine ⟨d', (if_neg (mt List.isEmpty_iff.mp hempty)).trans hd', hiff.trans ?_⟩
      cases hconflict : conflicts participant
        (items.filter fun item => .text ipPrefix ∈ item.values) with
      | true => simp [not_clear_set]
      | false => simp [hempty]

theorem matchRules_spec {kv : String × List RuleData}
    (hnamed : ∀ rule ∈ kv.2, ∀ route ∈ rule.routes, route ∈ inboundData.keys) (d : Dict String Bool) :
    ∃ d', matchRules participant inboundData d kv = some d' ∧
      (Clear d' ↔ Clear d ∧ ∀ rule ∈ kv.2, ∀ route ∈ rule.routes, ∀ items,
        inboundData.get? route = some items → AcceptsByValues participant kv.1 items) :=
  Runs.foldlM_conj (fun d rule hrule => matchRoutes_spec kv.1 (hnamed rule hrule) d) d

def Named (outboundData : Outbound) (inboundData : Inbound) : Prop :=
  ∀ ipPrefix route, Routes outboundData ipPrefix route → route ∈ inboundData.keys

theorem matchOutboundInbound_spec (participant : String) (hnamed : Named outboundData inboundData) :
    ∃ b, matchOutboundInbound participant inboundData outboundData = some b ∧
      (b = true ↔ ∀ ipPrefix items, Demand outboundData inboundData ipPrefix items →
        AcceptsByValues participant ipPrefix items) := by
  obtain ⟨d, hd, hclear⟩ := Runs.foldlM_conj (fun d kv hkv => matchRules_spec
    (fun rule hrule route hroute => hnamed kv.1 route ⟨kv, hkv, rfl, rule, hrule, hroute⟩) d)
    (noConflicts participant inboundData)
  refine ⟨_, by rw [matchOutboundInbound, hd, Option.map_some], ?_⟩
  rw [values_all_not, hclear, and_iff_right (clear_noConflicts participant inboundData)]
  constructor
  · rintro h ipPrefix items ⟨route, ⟨kv, hkv, rfl, rule, hrule, hroute⟩, hitems⟩
    exact h kv hkv rule hrule route hroute items hitems
  · intro h kv hkv rule hrule route hroute items hitems
    exact h kv.1 items ⟨route, ⟨kv, hkv, rfl, rule, hrule, hroute⟩, hitems⟩

theorem refused_of_anyway (h : RefusedAnyway participant outboundData inboundData) :
    (¬ ∀ ipPrefix items, Demand outboundData inboundData ipPrefix items →
      AcceptsByValues participant ipPrefix items) ∧
    ¬ Permitted participant outboundData inboundData := by
  obtain ⟨ipPrefix, items, hdemand, ⟨item, hitem, rfl, hrefuses⟩ | hnone⟩ := h
  · exact ⟨fun h => (h _ items hdemand).taken item hitem item.subnet_mem_values hrefuses,
      fun h => (h _ items hdemand).taken item hitem rfl hrefuses⟩
  · refine ⟨fun h => ?_, fun h => ?_⟩
    · obtain ⟨item, hitem, hvalue⟩ := (h _ items hdemand).found
      exact hnone item hitem hvalue
    · obtain ⟨item, hitem, rfl⟩ := (h _ items hdemand).found
      exact hnone item hitem item.subnet_mem_values

theorem acceptsByValues_of_not_refused
    (h : ¬ RefusedAnyway participant outboundData inboundData) :
    ((∀ ipPrefix items, Demand outboundData inboundData ipPrefix items →
      AcceptsByValues participant ipPrefix items) ↔
      MisreadTaken participant outboundData inboundData) ∧
    (Permitted participant outboundData inboundData ↔ SubnetsFound outboundData inboundData) := by
  have htaken : ∀ ipPrefix items, Demand outboundData inboundData ipPrefix items →
      ∀ item ∈ items, item.subnet = ipPrefix → ¬ item.Refuses participant :=
    fun ipPrefix items hdemand item hitem hsubnet hrefuses =>
      h ⟨ipPrefix, items, hdemand, Or.inl ⟨item, hitem, hsubnet, hrefuses⟩⟩
  have hfound : ∀ ipPrefix items, Demand outboundData inboundData ipPrefix items →
      ∃ item ∈ items, .text ipPrefix ∈ item.values := by
    intro ipPrefix items hdemand
    by_contra hnone
    exact h ⟨ipPrefix, items, hdemand, Or.inr fun item hitem hvalue => hnone ⟨item, hitem, hvalue⟩⟩
  constructor
  · constructor
    · exact fun h ipPrefix items hdemand item hitem hvalue _ =>
        (h ipPrefix items hdemand).taken item hitem hvalue
    · intro h ipPrefix items hdemand
      refine ⟨hfound ipPrefix items hdemand, fun item hitem hvalue => ?_⟩
      by_cases hsubnet : item.subnet = ipPrefix
      · exact htaken ipPrefix items hdemand item hitem hsubnet
      · exact h ipPrefix items hdemand item hitem hvalue hsubnet
  · exact ⟨fun h ipPrefix items hdemand => (h ipPrefix items hdemand).found,
      fun h ipPrefix items hdemand => ⟨h ipPrefix items hdemand, htaken ipPrefix items hdemand⟩⟩

/-- The match accepts just the permitted documents exactly if a route is refused in any case, or
the entries that are found by other values than their subnet make no difference. -/
theorem matchOutboundInbound_permits_iff (participant : String)
    (hnamed : Named outboundData inboundData) :
    ∃ b, matchOutboundInbound participant inboundData outboundData = some b ∧
      ((b = true ↔ Permitted participant outboundData inboundData) ↔
        RefusedAnyway participant outboundData inboundData ∨
        (MisreadTaken participant outboundData inboundData ↔
          SubnetsFound outboundData inboundData)) := by
  obtain ⟨b, hb, hiff⟩ := matchOutboundInbound_spec participant hnamed
  refine ⟨b, hb, ?_⟩
  rw [hiff]
  by_cases h : RefusedAnyway participant outboundData inboundData
  · obtain ⟨hvalues, hpermitted⟩ := refused_of_anyway h
    exact iff_of_true (iff_of_false hvalues hpermitted) (Or.inl h)
  · obtain ⟨hvalues, hpermitted⟩ := acceptsByValues_of_not_refused h
    rw [hvalues, hpermitted, or_iff_right h]

end loops

def ruleToX : RuleData :=
  ⟨.text "*", .text "*", .text "*", .text "0, 24", .text "*", .text "*", .text "*", ["X"], [],
    .text "*", .text "loose", .text "*"⟩

def entryX : Entry :=
  ⟨"10.0.0.0/8", .text "*", .names [], [.other ⟨toString 10, isAscii_toString 10⟩]⟩

theorem named_ruleToX (ipPrefix : String) :
    Named (.single ipPrefix [ruleToX]) (.single "X" [entryX]) := by
  rintro _ route ⟨kv, hkv, -, rule, hrule, hroute⟩
  rw [List.mem_singleton.mp hkv] at hrule
  rw [List.mem_singleton.mp hrule] at hroute
  exact hroute

theorem matchOutboundInbound_permits_iff_ruleToX :
    ∃ b, matchOutboundInbound "A" (.single "X" [entryX]) (.single "10.0.0.0/8" [ruleToX]) = some b ∧
      ((b = true ↔ Permitted "A" (.single "10.0.0.0/8" [ruleToX]) (.single "X" [entryX])) ↔
        RefusedAnyway "A" (.single "10.0.0.0/8" [ruleToX]) (.single "X" [entryX]) ∨
        (MisreadTaken "A" (.single "10.0.0.0/8" [ruleToX]) (.single "X" [entryX]) ↔
          SubnetsFound (.single "10.0.0.0/8" [ruleToX]) (.single "X" [entryX]))) :=
  matchOutboundInbound_permits_iff "A" (named_ruleToX _)

theorem matchOutboundInbound_wildcard : Named (.single "*" [ruleToX]) (.single "X" [entryX]) ∧
    matchOutboundInbound "A" (.single "X" [entryX]) (.single "*" [ruleToX]) = some true ∧
    ¬ Permitted "A" (.single "*" [ruleToX]) (.single "X" [entryX]) := by
  refine ⟨named_ruleToX _, by decide, fun h => ?_⟩
  have hdemand : Demand (.single "*" [ruleToX]) (.single "X" [entryX]) "*" [entryX] :=
    ⟨"X", ⟨_, List.mem_singleton_self _, rfl, ruleToX, List.mem_singleton_self _,
      List.mem_singleton_self _⟩, rfl⟩
  obtain ⟨item, hitem, hsubnet⟩ := (h "*" [entryX] hdemand).found
  rw [List.mem_singleton.mp hitem] at hsubnet
  revert hsubnet
  decide

end Hispar.PolicyParser
