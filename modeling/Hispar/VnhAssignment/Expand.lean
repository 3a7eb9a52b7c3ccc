import Hispar.Library.Texts
import Hispar.VnhAssignment.Collect

/-!
# Guards of announced prefixes

A forwarding action is expanded by a test on the prefixes that the peer
announced, unless the accumulator says that a destination was chosen before.
The members of a chain share the list of the chain. All other calls take the
default of the parameter, which is one list for as long as the process runs.
-/
namespace Hispar.VnhAssignment
open Library Exchange

/-- The list bound to `acc` in a call: one that a chain made, or else the shared default. -/
structure Accs where
  shared : List String
  own : Option (List String)

def Accs.acc (a : Accs) : List String := a.own.getD a.shared

def Accs.append (a : Accs) (x : String) : Accs :=
  match a.own with
  | some acc => { a with own := some (acc ++ [x]) }
  | none => { a with shared := a.shared ++ [x] }

section expand
variable (s : Setting) (participant : String)

mutual
def step5aExpandPolicyWithPrefixes : Policy → Accs → Option (Policy × Accs)
  | .parallel policies, a => (step5aExpandAll policies ⟨a.shared, none⟩).map fun r =>
      (.parallel r.1, ⟨r.2.shared, a.own⟩)
  | .sequential policies, a => (step5aExpandAll policies ⟨a.shared, some []⟩).map fun r =>
      (.sequential r.1, ⟨r.2.shared, a.own⟩)
  | .ifThenElse pred t f, a =>
    (step5aExpandPolicyWithPrefixes pred ⟨a.shared, none⟩).bind fun r₁ =>
      (step5aExpandPolicyWithPrefixes t ⟨r₁.2.shared, none⟩).bind fun r₂ =>
        (step5aExpandPolicyWithPrefixes f ⟨r₂.2.shared, none⟩).map fun r₃ =>
          (.ifThenElse r₁.1 r₂.1 r₃.1, ⟨r₃.2.shared, a.own⟩)
  | .matching map, a => some (.matching map, if "dstip" ∈ map.keys then a.append "dstip" else a)
  | .matchPrefixesSet pfxes, a => some (.matchPrefixesSet pfxes, a.append "dstip")
  | .fwd outport, a =>
    if "dstip" ∈ a.acc then some (.fwd outport, a)
    else (s.announcedBy participant outport).map fun routes =>
      (.sequential [.matchPrefixesSet routes.toFinset, .fwd outport], a)
  | policy, a => some (policy, a)

def step5aExpandAll : List Policy → Accs → Option (List Policy × Accs)
  | [], a => some ([], a)
  | p :: policies, a => (step5aExpandPolicyWithPrefixes p a).bind fun r =>
      (step5aExpandAll policies r.2).map fun r' => (r.1 :: r'.1, r'.2)
end

end expand

def getDefaultForwardingPolicy (bestPath : Dict String (List String)) (participant : String)
    (participantList : Dict String (Dict String (List ℕ))) : Option Policy :=
  (bestPath.items.mapM fun kv =>
    -- `str(peer)` raises on other names
    if ¬ IsAscii kv.1 then none
    else (participantList.get? participant).bind fun ports =>
      ((ports.get? kv.1).bind List.head?).map fun port =>
        .sequential [.matchPrefixesSet kv.2.toFinset, .fwd port]).map .parallel

def step5a (s : Setting) (policy : Policy) (participant : String) (includeDefaultPolicy : Bool)
    (shared : List String) : Option (Policy × List String) :=
  (step5aExpandPolicyWithPrefixes s participant policy ⟨shared, none⟩).bind fun r =>
    if includeDefaultPolicy then
      (Bgp.bgpGetBestRoutes s.sdx s.rsClients participant).bind fun bestRoutes =>
        (getDefaultForwardingPolicy bestRoutes participant s.sdx.participant2Port).map fun p =>
          (.parallel [r.1, p], r.2.shared)
    else some (r.1, r.2.shared)

/-- A leaf that uses the shared list: no chain is right around it. -/
inductive LooseLeaf
  | dstMatch
  | fwd (outport : ℕ)

mutual
def loose (chained : Bool) : Policy → List LooseLeaf
  | .matching map => if chained then [] else if "dstip" ∈ map.keys then [.dstMatch] else []
  | .matchPrefixesSet _ => if chained then [] else [.dstMatch]
  | .fwd outport => if chained then [] else [.fwd outport]
  | .parallel policies => looseAll false policies
  | .sequential policies => looseAll true policies
  | .ifThenElse pred t f => loose false pred ++ loose false t ++ loose false f
  | _ => []

def looseAll (chained : Bool) : List Policy → List LooseLeaf
  | [] => []
  | p :: policies => loose chained p ++ looseAll chained policies
end

structure Accs.Agree (a b : Accs) : Prop where
  own : a.own = b.own
  shared : "dstip" ∈ a.shared ↔ "dstip" ∈ b.shared

theorem Accs.Agree.append {a b : Accs} (h : a.Agree b) :
    (a.append "dstip").Agree (b.append "dstip") := by
  obtain ⟨hown, hshared⟩ := h
  unfold Accs.append
  rw [← hown]
  cases a.own
  · exact ⟨rfl, by simp⟩
  · exact ⟨rfl, hshared⟩

theorem Accs.Agree.acc {a b : Accs} (h : a.Agree b) : "dstip" ∈ a.acc ↔ "dstip" ∈ b.acc := by
  unfold Accs.acc
  rw [← h.own]
  cases a.own
  · exact h.shared
  · exact Iff.rfl

structure Accs.Apart (a b : Accs) : Prop where
  own : a.own = b.own
  left : "dstip" ∈ a.shared
  right : "dstip" ∉ b.shared

section outcomes
variable {β γ : Type} {oa ob : Option (β × Accs)} {f g : β × Accs → Option (γ × Accs)}
  {l l' : List LooseLeaf}

def SameOutcome (oa ob : Option (β × Accs)) : Prop :=
  Option.Rel (fun ra rb => ra.1 = rb.1 ∧ ra.2.Agree rb.2) oa ob

/-- How two calls compare of which only the first finds a destination in the
shared list: it is the first leaf on that list that decides. -/
def Compared : List LooseLeaf → Option (β × Accs) → Option (β × Accs) → Prop
  | [], oa, ob => Option.Rel (fun ra rb => ra.1 = rb.1 ∧ ra.2.Apart rb.2) oa ob
  | .dstMatch :: _, oa, ob => SameOutcome oa ob
  | .fwd _ :: _, oa, ob => ∀ ra rb, oa = some ra → ob = some rb → ra.1 ≠ rb.1

theorem SameOutcome.bind (h : SameOutcome oa ob)
    (hfg : ∀ ra rb, oa = some ra → ob = some rb → ra.1 = rb.1 → ra.2.Agree rb.2 →
      SameOutcome (f ra) (g rb)) : SameOutcome (oa.bind f) (ob.bind g) := by
  cases h with
  | none => exact .none
  | some hr => exact hfg _ _ rfl rfl hr.1 hr.2

theorem Compared.bind (h : Compared l oa ob)
    (hsame : ∀ ra rb, oa = some ra → ob = some rb → ra.1 = rb.1 → ra.2.Agree rb.2 →
      SameOutcome (f ra) (g rb))
    (hnext : ∀ ra rb, oa = some ra → ob = some rb → ra.1 = rb.1 → ra.2.Apart rb.2 →
      Compared l' (f ra) (g rb))
    (hkeep : ∀ ra rb x y, ra.1 ≠ rb.1 → f ra = some x → g rb = some y → x.1 ≠ y.1) :
    Compared (l ++ l') (oa.bind f) (ob.bind g) := by
  cases l with
  | nil =>
    cases h with
    | none =>
      cases l' with
      | nil => exact .none
      | cons leaf l' =>
        cases leaf with
        | dstMatch => exact .none
        | fwd _ => exact fun _ _ h => nomatch h
    | some hr => exact hnext _ _ rfl rfl hr.1 hr.2
  | cons leaf l =>
    cases leaf with
    | dstMatch => exact SameOutcome.bind h hsame
    | fwd _ =>
      intro x y hx hy
      obtain ⟨ra, hra, hx⟩ := Option.bind_eq_some_iff.mp hx
      obtain ⟨rb, hrb, hy⟩ := Option.bind_eq_some_iff.mp hy
      exact hkeep ra rb x y (h ra rb hra hrb) hx hy

theorem SameOutcome.map {c : β → γ} {k k' : Accs → Accs}
    (hk : ∀ a b : Accs, a.Agree b → (k a).Agree (k' b)) (h : SameOutcome oa ob) :
    SameOutcome (oa.map fun r => (c r.1, k r.2)) (ob.map fun r => (c r.1, k' r.2)) := by
  cases h with
  | none => exact .none
  | some hr => exact .some ⟨congrArg c hr.1, hk _ _ hr.2⟩

theorem Compared.map {c : β → γ} (hc : Function.Injective c) {k k' : Accs → Accs}
    (hk : ∀ a b : Accs, a.Agree b → (k a).Agree (k' b))
    (hk' : ∀ a b : Accs, a.Apart b → (k a).Apart (k' b)) (h : Compared l oa ob) :
    Compared l (oa.map fun r => (c r.1, k r.2)) (ob.map fun r => (c r.1, k' r.2)) := by
  cases l with
  | nil =>
    cases h with
    | none => exact .none
    | some hr => exact .some ⟨congrArg c hr.1, hk' _ _ hr.2⟩
  | cons leaf l =>
    cases leaf with
    | dstMatch => exact SameOutcome.map hk h
    | fwd _ =>
      intro x y hx hy
      obtain ⟨ra, hra, rfl⟩ := Option.map_eq_some_iff.mp hx
      obtain ⟨rb, hrb, rfl⟩ := Option.map_eq_some_iff.mp hy
      exact fun he => h ra rb hra hrb (hc he)

end outcomes

section pairs
variable {s : Setting} {participant : String} {a b : Accs}

theorem Accs.Apart.append_compared (h : a.Apart b) (policy : Policy) :
    Compared (if a.own.isSome then [] else [.dstMatch])
      (some (policy, a.append "dstip")) (some (policy, b.append "dstip")) := by
  have hown := h.own
  unfold Accs.append
  cases ha : a.own with
  | none =>
    rw [← hown, ha]
    exact .some ⟨rfl, rfl, by simp⟩
  | some acc =>
    rw [← hown, ha]
    exact .some ⟨rfl, rfl, h.left, h.right⟩

theorem append_own (a : Accs) (x : String) : (a.append x).own.isSome = a.own.isSome := by
  unfold Accs.append
  cases a.own <;> rfl

theorem step5aExpand_own {p : Policy} {r : Policy × Accs}
    (h : step5aExpandPolicyWithPrefixes s participant p a = some r) :
    r.2.own.isSome = a.own.isSome := by
  cases p with
  | parallel policies =>
    obtain ⟨_, -, rfl⟩ := Option.map_eq_some_iff.mp h
    rfl
  | sequential policies =>
    obtain ⟨_, -, rfl⟩ := Option.map_eq_some_iff.mp h
    rfl
  | ifThenElse pred t f =>
    obtain ⟨_, -, h⟩ := Option.bind_eq_some_iff.mp h
    obtain ⟨_, -, h⟩ := Option.bind_eq_some_iff.mp h
    obtain ⟨_, -, rfl⟩ := Option.map_eq_some_iff.mp h
    rfl
  | matching map =>
    obtain rfl := Option.some.inj h
    dsimp only
    split_ifs
    · exact append_own a _
    · rfl
  | matchPrefixesSet pfxes =>
    obtain rfl := Option.some.inj h
    exact append_own a _
  | fwd outport =>
    rw [step5aExpandPolicyWithPrefixes] at h
    split_ifs at h
    · obtain rfl := Option.some.inj h
      rfl
    · obtain ⟨_, -, rfl⟩ := Option.map_eq_some_iff.mp h
      rfl
  | passthrough | drop | negate | modify =>
    obtain rfl := Option.some.inj h
    rfl

theorem step5aExpandAll_same {policies : List Policy} (ih : ∀ p ∈ policies, ∀ a b : Accs,
      a.Agree b → SameOutcome (step5aExpandPolicyWithPrefixes s participant p a)
        (step5aExpandPolicyWithPrefixes s participant p b)) (a b : Accs) (h : a.Agree b) :
    SameOutcome (step5aExpandAll s participant policies a)
      (step5aExpandAll s participant policies b) := by
  induction policies generalizing a b with
  | nil => exact .some ⟨rfl, h⟩
  | cons p policies ihps =>
    refine (ih p List.mem_cons_self a b h).bind fun ra rb _ _ he hab => ?_
    have hrest := ihps (fun q hq => ih q (List.mem_cons_of_mem p hq)) _ _ hab
    rw [he]
    exact hrest.map (c := fun l => rb.1 :: l) (k := id) (fun _ _ h => h)

theorem Accs.Agree.reset (h : a.Agree b) (own : Option (List String)) :
    (⟨a.shared, own⟩ : Accs).Agree ⟨b.shared, own⟩ := ⟨rfl, h.shared⟩

theorem Accs.Apart.reset (h : a.Apart b) (own : Option (List String)) :
    (⟨a.shared, own⟩ : Accs).Apart ⟨b.shared, own⟩ := ⟨rfl, h.left, h.right⟩

theorem Accs.Agree.back (h : a.own = b.own) (x y : Accs) (hxy : x.Agree y) :
    (⟨x.shared, a.own⟩ : Accs).Agree ⟨y.shared, b.own⟩ := ⟨h, hxy.shared⟩

theorem Accs.Apart.back (h : a.own = b.own) (x y : Accs) (hxy : x.Apart y) :
    (⟨x.shared, a.own⟩ : Accs).Apart ⟨y.shared, b.own⟩ := ⟨h, hxy.left, hxy.right⟩

theorem step5aExpand_same (p : Policy) (a b : Accs) (h : a.Agree b) :
    SameOutcome (step5aExpandPolicyWithPrefixes s participant p a)
      (step5aExpandPolicyWithPrefixes s participant p b) := by
  induction p generalizing a b with
  | parallel policies ih =>
    exact (step5aExpandAll_same ih _ _ (h.reset none)).map (c := Policy.parallel)
      (Accs.Agree.back h.own)
  | sequential policies ih =>
    exact (step5aExpandAll_same ih _ _ (h.reset (some []))).map (c := Policy.sequential)
      (Accs.Agree.back h.own)
  | ifThenElse pred t f hpred ht hf =>
    refine (hpred _ _ (h.reset none)).bind fun r₁ r₁' _ _ he₁ h₁ => ?_
    refine (ht _ _ (h₁.reset none)).bind fun r₂ r₂' _ _ he₂ h₂ => ?_
    rw [he₁, he₂]
    exact (hf _ _ (h₂.reset none)).map (c := fun p => Policy.ifThenElse r₁'.1 r₂'.1 p)
      (Accs.Agree.back h.own)
  | matching map =>
    refine .some ⟨rfl, ?_⟩
    dsimp only
    split_ifs
    · exact h.append
    · exact h
  | matchPrefixesSet pfxes => exact .some ⟨rfl, h.append⟩
  | fwd outport =>
    rw [step5aExpandPolicyWithPrefixes, step5aExpandPolicyWithPrefixes]
    by_cases hd : "dstip" ∈ a.acc
    · rw [if_pos hd, if_pos (h.acc.mp hd)]
      exact .some ⟨rfl, h⟩
    · rw [if_neg hd, if_neg fun hb => hd (h.acc.mpr hb)]
      cases s.announcedBy participant outport
      · exact .none
      · exact .some ⟨rfl, h⟩
  | passthrough | drop | negate | modify => exact .some ⟨rfl, h⟩

theorem step5aExpandAll_compared {policies : List Policy} (ih : ∀ p ∈ policies, ∀ a b : Accs,
      a.Apart b → Compared (loose a.own.isSome p)
        (step5aExpandPolicyWithPrefixes s participant p a)
        (step5aExpandPolicyWithPrefixes s participant p b)) (a b : Accs) (h : a.Apart b) :
    Compared (looseAll a.own.isSome policies) (step5aExpandAll s participant policies a)
      (step5aExpandAll s participant policies b) := by
  induction policies generalizing a b with
  | nil => exact .some ⟨rfl, h⟩
  | cons p policies ihps =>
    refine (ih p List.mem_cons_self a b h).bind (fun ra rb _ _ he hab => ?_)
      (fun ra rb hra _ he hab => ?_) fun ra rb x y hne hx hy => ?_
    · rw [he]
      exact (step5aExpandAll_same (fun q _ => step5aExpand_same q) _ _ hab).map
        (c := fun l => rb.1 :: l) (k := id) fun _ _ h => h
    · have hrest := ihps (fun q hq => ih q (List.mem_cons_of_mem p hq)) _ _ hab
      rw [step5aExpand_own hra] at hrest
      rw [he]
      exact hrest.map (c := fun l => rb.1 :: l) (fun _ _ he => (List.cons.inj he).2) (k := id)
        (fun _ _ h => h) fun _ _ h => h
    · obtain ⟨_, -, rfl⟩ := Option.map_eq_some_iff.mp hx
      obtain ⟨_, -, rfl⟩ := Option.map_eq_some_iff.mp hy
      exact fun he => hne (List.cons.inj he).1

theorem step5aExpand_compared (p : Policy) (a b : Accs) (h : a.Apart b) :
    Compared (loose a.own.isSome p) (step5aExpandPolicyWithPrefixes s participant p a)
      (step5aExpandPolicyWithPrefixes s participant p b) := by
  induction p generalizing a b with
  | parallel policies ih =>
    exact (step5aExpandAll_compared ih _ _ (h.reset none)).map (fun _ _ => Policy.parallel.inj)
      (Accs.Agree.back h.own) (Accs.Apart.back h.own)
  | sequential policies ih =>
    exact (step5aExpandAll_compared ih _ _ (h.reset (some []))).map
      (fun _ _ => Policy.sequential.inj) (Accs.Agree.back h.own) (Accs.Apart.back h.own)
  | ifThenElse pred t f hpred ht hf =>
    rw [loose, List.append_assoc]
    refine (hpred _ _ (h.reset none)).bind (fun r₁ r₁' _ _ he₁ h₁ => ?_)
      (fun r₁ r₁' _ _ he₁ h₁ => ?_) fun r₁ r₁' x y hne hx hy => ?_
    · refine (step5aExpand_same t _ _ (h₁.reset none)).bind fun r₂ r₂' _ _ he₂ h₂ => ?_
      rw [he₁, he₂]
      exact (step5aExpand_same f _ _ (h₂.reset none)).map
        (c := fun p => Policy.ifThenElse r₁'.1 r₂'.1 p) (Accs.Agree.back h.own)
    · refine (ht _ _ (h₁.reset none)).bind (fun r₂ r₂' _ _ he₂ h₂ => ?_)
        (fun r₂ r₂' _ _ he₂ h₂ => ?_) fun r₂ r₂' x y hne hx hy => ?_
      · rw [he₁, he₂]
        exact (step5aExpand_same f _ _ (h₂.reset none)).map
          (c := fun p => Policy.ifThenElse r₁'.1 r₂'.1 p) (Accs.Agree.back h.own)
      · rw [he₁, he₂]
        exact (hf _ _ (h₂.reset none)).map (c := fun p => Policy.ifThenElse r₁'.1 r₂'.1 p)
          (fun _ _ he => (Policy.ifThenElse.inj he).2.2) (Accs.Agree.back h.own)
          (Accs.Apart.back h.own)
      · obtain ⟨_, -, rfl⟩ := Option.map_eq_some_iff.mp hx
        obtain ⟨_, -, rfl⟩ := Option.map_eq_some_iff.mp hy
        exact fun he => hne (Policy.ifThenElse.inj he).2.1
    · obtain ⟨_, -, hx⟩ := Option.bind_eq_some_iff.mp hx
      obtain ⟨_, -, rfl⟩ := Option.map_eq_some_iff.mp hx
      obtain ⟨_, -, hy⟩ := Option.bind_eq_some_iff.mp hy
      obtain ⟨_, -, rfl⟩ := Option.map_eq_some_iff.mp hy
      exact fun he => hne (Policy.ifThenElse.inj he).1
  | matching map =>
    rw [loose]
    by_cases hd : "dstip" ∈ map.keys
    · simp only [step5aExpandPolicyWithPrefixes, if_pos hd]
      exact h.append_compared _
    · simp only [step5aExpandPolicyWithPrefixes, if_neg hd, ite_self]
      exact .some ⟨rfl, h⟩
  | matchPrefixesSet pfxes => exact h.append_compared _
  | fwd outport =>
    have hown := h.own
    rw [loose, step5aExpandPolicyWithPrefixes, step5aExpandPolicyWithPrefixes]
    cases ha : a.own with
    | none =>
      have hb : b.own = none := hown ▸ ha
      have hacc : a.acc = a.shared ∧ b.acc = b.shared := by simp [Accs.acc, ha, hb]
      rw [hacc.1, hacc.2, if_pos h.left, if_neg h.right]
      intro x y hx hy
      obtain rfl := Option.some.inj hx
      obtain ⟨_, -, rfl⟩ := Option.map_eq_some_iff.mp hy
      exact Policy.noConfusion
    | some acc =>
      have hacc : a.acc = acc ∧ b.acc = acc := by simp [Accs.acc, ha, ← hown]
      rw [hacc.1, hacc.2, Option.isSome_some, if_pos rfl]
      by_cases hd : "dstip" ∈ acc
      · rw [if_pos hd, if_pos hd]
        exact .some ⟨rfl, h⟩
      · rw [if_neg hd, if_neg hd]
        cases s.announcedBy participant outport
        · exact .none
        · exact .some ⟨rfl, h⟩
  | passthrough | drop | negate | modify => exact .some ⟨rfl, h⟩

end pairs

def Known (s : Setting) (part : String) (policy : Policy) : Prop :=
  ∀ n ∈ policy.outports, ∃ announced, s.announcedBy part n = some announced

def Setting.Sees (s : Setting) (part : String) (outport : ℕ) : Prop :=
  ∃ peers, s.sdx.participant2Port.get? part = some peers ∧ ∃ kv ∈ peers.items, outport ∈ kv.2

theorem known_of_sees {upper : String → String} {config : Dict String ParticipantConfig}
    {s : Setting} (hparse : sdxParseConfig upper config = some s.sdx)
    (hclients : s.rsClients.keys = config.keys) {X : String} (hX : X ∈ config.keys)
    {policy : Policy} (hports : ∀ n ∈ policy.outports, s.Sees X n) : Known s X policy := by
  obtain ⟨c, hc⟩ := Dict.mem_keys_iff.mp hX
  obtain ⟨peers, hpeers, hseen⟩ := sdxParseConfig_participant2Port hparse hc
  intro n hn
  obtain ⟨peers', hpeers', kv, hkv, hmem⟩ := hports n hn
  obtain rfl : peers = peers' := Option.some.inj (hpeers.symm.trans hpeers')
  -- the walk over the peers stops at one that has the port
  obtain ⟨found, hfound⟩ : ∃ found, peers.items.find? (fun kv => n ∈ kv.2) = some found :=
    Option.isSome_iff_exists.mp (List.find?_isSome.mpr ⟨kv, hkv, by simpa using hmem⟩)
  have hpeer : found.1 ∈ config.keys := by
    have hget : peers.get? found.1 = some found.2 :=
      Dict.get?_eq_some.mpr (List.mem_of_find?_eq_some hfound)
    rw [hseen, seenPorts] at hget
    split_ifs at hget with h₁ h₂
    · exact (sdxParseConfig_parsed hparse).peers X c hc _ h₁
    · exact h₂ ▸ hX
  obtain ⟨rsClient, hclient⟩ := Dict.mem_keys_iff.mp (hclients ▸ hpeer)
  refine ⟨rsClient.inputRib.map Bgp.Row.pfx, ?_⟩
  rw [Setting.announcedBy, hpeers, Option.bind_some, getFwdPeer, hfound, Option.map_some,
    Option.getD_some, Bgp.bgpGetAnnouncedRoutes, hclient, Option.map_some]

theorem step5aExpand_total {s : Setting} {part : String} (policy : Policy)
    (h : Known s part policy) (a : Accs) :
    ∃ r, step5aExpandPolicyWithPrefixes s part policy a = some r := by
  have hall : ∀ policies : List Policy, (∀ p ∈ policies, Known s part p → ∀ a : Accs,
      ∃ r, step5aExpandPolicyWithPrefixes s part p a = some r) →
      (∀ p ∈ policies, Known s part p) → ∀ a, ∃ r, step5aExpandAll s part policies a = some r := by
    intro policies
    induction policies with
    | nil => exact fun _ _ a => ⟨([], a), rfl⟩
    | cons p policies ihps =>
      intro ih hknown a
      obtain ⟨r, hr⟩ := ih p List.mem_cons_self (hknown p List.mem_cons_self) a
      obtain ⟨r', hr'⟩ := ihps (fun q hq => ih q (List.mem_cons_of_mem p hq))
        (fun q hq => hknown q (List.mem_cons_of_mem p hq)) r.2
      exact ⟨_, by rw [step5aExpandAll, hr, Option.bind_some, hr', Option.map_some]⟩
  have hmembers : ∀ {policies : List Policy}, (∀ n ∈ Policy.outportsList policies,
      ∃ announced, s.announcedBy part n = some announced) → ∀ p ∈ policies, Known s part p := by
    intro policies h p hp n hn
    rw [Policy.outportsList_eq] at h
    exact h n (List.mem_flatMap.mpr ⟨p, hp, hn⟩)
  induction policy generalizing a with
  | parallel policies ih =>
    obtain ⟨r, hr⟩ := hall policies ih (hmembers h) ⟨a.shared, none⟩
    exact ⟨_, by rw [step5aExpandPolicyWithPrefixes, hr, Option.map_some]⟩
  | sequential policies ih =>
    obtain ⟨r, hr⟩ := hall policies ih (hmembers h) ⟨a.shared, some []⟩
    exact ⟨_, by rw [step5aExpandPolicyWithPrefixes, hr, Option.map_some]⟩
  | ifThenElse pred t f hpred ht hf =>
    simp only [Known, Policy.outports, List.mem_append, or_imp, forall_and] at h
    obtain ⟨r₁, hr₁⟩ := hpred h.1.1 ⟨a.shared, none⟩
    obtain ⟨r₂, hr₂⟩ := ht h.1.2 ⟨r₁.2.shared, none⟩
    obtain ⟨r₃, hr₃⟩ := hf h.2 ⟨r₂.2.shared, none⟩
    exact ⟨_, by rw [step5aExpandPolicyWithPrefixes, hr₁, Option.bind_some, hr₂, Option.bind_some,
      hr₃, Option.map_some]⟩
  | fwd outport =>
    obtain ⟨announced, hann⟩ := h outport (List.mem_singleton_self outport)
    rw [step5aExpandPolicyWithPrefixes]
    split_ifs
    · exact ⟨_, rfl⟩
    · exact ⟨_, by rw [hann, Option.map_some]⟩
  | passthrough | drop | matching | negate | matchPrefixesSet | modify => exact ⟨_, rfl⟩

def SetsFrom (s : Setting) (part : String) (before after : List (Finset String)) (ports : List ℕ) :
    Prop :=
  before ⊆ after ∧ ∀ S ∈ after, S ∈ before ∨
    ∃ n ∈ ports, ∃ announced, s.announcedBy part n = some announced ∧ S = announced.toFinset

theorem SetsFrom.append {s : Setting} {part : String} {b a b' a' : List (Finset String)}
    {ports ports' : List ℕ} (h : SetsFrom s part b a ports) (h' : SetsFrom s part b' a' ports') :
    SetsFrom s part (b ++ b') (a ++ a') (ports ++ ports') := by
  refine ⟨List.append_subset.mpr ⟨List.Subset.trans h.1 (List.subset_append_left _ _),
    List.Subset.trans h'.1 (List.subset_append_right _ _)⟩, fun S hS => ?_⟩
  rcases List.mem_append.mp hS with hS | hS
  · refine (h.2 S hS).imp (List.mem_append_left _) fun ⟨n, hn, hann⟩ => ?_
    exact ⟨n, List.mem_append_left _ hn, hann⟩
  · refine (h'.2 S hS).imp (List.mem_append_right _) fun ⟨n, hn, hann⟩ => ?_
    exact ⟨n, List.mem_append_right _ hn, hann⟩

theorem SetsFrom.refl (s : Setting) (part : String) (b : List (Finset String)) (ports : List ℕ) :
    SetsFrom s part b b ports := ⟨List.Subset.refl b, fun _ => Or.inl⟩

theorem step5aExpand_prefixSets {s : Setting} {part : String} (p : Policy) {a : Accs}
    {r : Policy × Accs} (h : step5aExpandPolicyWithPrefixes s part p a = some r) :
    SetsFrom s part p.prefixSets r.1.prefixSets p.outports := by
  have hall : ∀ policies : List Policy, (∀ p ∈ policies, ∀ {a : Accs} {r : Policy × Accs},
      step5aExpandPolicyWithPrefixes s part p a = some r →
        SetsFrom s part p.prefixSets r.1.prefixSets p.outports) →
      ∀ {a : Accs} {r : List Policy × Accs}, step5aExpandAll s part policies a = some r →
        SetsFrom s part (Policy.prefixSetsList policies) (Policy.prefixSetsList r.1)
          (Policy.outportsList policies) := by
    intro policies
    induction policies with
    | nil =>
      intro _ a r h
      obtain rfl := Option.some.inj h
      exact .refl s part _ _
    | cons p policies ihps =>
      intro ih a r h
      obtain ⟨r₁, h₁, h⟩ := Option.bind_eq_some_iff.mp h
      obtain ⟨r₂, h₂, rfl⟩ := Option.map_eq_some_iff.mp h
      exact (ih p List.mem_cons_self h₁).append
        (ihps (fun q hq => ih q (List.mem_cons_of_mem p hq)) h₂)
  induction p generalizing a r with
  | parallel policies ih =>
    obtain ⟨r', h', rfl⟩ := Option.map_eq_some_iff.mp h
    exact hall policies ih h'
  | sequential policies ih =>
    obtain ⟨r', h', rfl⟩ := Option.map_eq_some_iff.mp h
    exact hall policies ih h'
  | ifThenElse pred t f hpred ht hf =>
    obtain ⟨r₁, h₁, h⟩ := Option.bind_eq_some_iff.mp h
    obtain ⟨r₂, h₂, h⟩ := Option.bind_eq_some_iff.mp h
    obtain ⟨r₃, h₃, rfl⟩ := Option.map_eq_some_iff.mp h
    exact ((hpred h₁).append (ht h₂)).append (hf h₃)
  | fwd outport =>
    rw [step5aExpandPolicyWithPrefixes] at h
    split_ifs at h
    · obtain rfl := Option.some.inj h
      exact .refl s part _ _
    · obtain ⟨announced, hann, rfl⟩ := Option.map_eq_some_iff.mp h
      refine ⟨List.nil_subset _, fun S hS => Or.inr ⟨outport, List.mem_singleton_self _, announced,
        hann, ?_⟩⟩
      simpa [Policy.prefixSets, Policy.prefixSetsList] using hS
  | passthrough | drop | matching | negate | matchPrefixesSet | modify =>
    obtain rfl := Option.some.inj h
    exact .refl s part _ _

structure Call where
  setting : Setting
  policy : Policy
  participant : String
  includeDefaultPolicy : Bool

def sharedAfter (history : List Call) : Option (List String) :=
  history.foldlM (fun shared c =>
    (step5a c.setting c.policy c.participant c.includeDefaultPolicy shared).map Prod.snd) []

/-- What the policy expands to is the same after any calls for other participants. -/
def HistoryFree (s : Setting) (part : String) (policy : Policy) : Prop :=
  ∀ h₁ h₂ shared₁ shared₂, (∀ c ∈ h₁ ++ h₂, c.participant ≠ part) →
    sharedAfter h₁ = some shared₁ → sharedAfter h₂ = some shared₂ →
    (step5a s policy part false shared₁).map Prod.fst =
      (step5a s policy part false shared₂).map Prod.fst

def FwdFirst (policy : Policy) : Prop := ∃ n rest, loose false policy = .fwd n :: rest

theorem step5a_default {s : Setting} {policy : Policy} {part : String} {shared : List String} :
    step5a s policy part false shared =
      (step5aExpandPolicyWithPrefixes s part policy ⟨shared, none⟩).map fun r =>
        (r.1, r.2.shared) := by
  rw [step5a]
  cases step5aExpandPolicyWithPrefixes s part policy ⟨shared, none⟩ <;> rfl

theorem SameOutcome.map_fst {oa ob : Option (Policy × Accs)} (h : SameOutcome oa ob) :
    oa.map Prod.fst = ob.map Prod.fst := by
  cases h with
  | none => rfl
  | some hr => exact congrArg some hr.1

theorem step5a_eq_of_not_fwdFirst (s : Setting) (part : String) {policy : Policy}
    (h : ¬ FwdFirst policy) (shared₁ shared₂ : List String) :
    (step5a s policy part false shared₁).map Prod.fst =
      (step5a s policy part false shared₂).map Prod.fst := by
  have hcompared : ∀ a b : Accs, a.own = none → a.Apart b →
      (step5aExpandPolicyWithPrefixes s part policy a).map Prod.fst =
        (step5aExpandPolicyWithPrefixes s part policy b).map Prod.fst := by
    intro a b hown hab
    have hc := @step5aExpand_compared s part policy a b hab
    rw [hown, Option.isSome_none] at hc
    cases hl : loose false policy with
    | nil =>
      rw [hl] at hc
      generalize step5aExpandPolicyWithPrefixes s part policy a = oa at hc
      generalize step5aExpandPolicyWithPrefixes s part policy b = ob at hc
      cases hc with
      | none => rfl
      | some hr => exact congrArg some hr.1
    | cons leaf rest =>
      cases leaf with
      | dstMatch =>
        rw [hl] at hc
        exact SameOutcome.map_fst hc
      | fwd n => exact absurd ⟨n, rest, hl⟩ h
  rw [step5a_default, step5a_default, Option.map_map, Option.map_map]
  change Option.map Prod.fst _ = Option.map Prod.fst _
  by_cases h₁ : "dstip" ∈ shared₁ <;> by_cases h₂ : "dstip" ∈ shared₂
  · exact (step5aExpand_same policy ⟨shared₁, none⟩ ⟨shared₂, none⟩
      ⟨rfl, iff_of_true h₁ h₂⟩).map_fst
  · exact hcompared ⟨shared₁, none⟩ ⟨shared₂, none⟩ rfl ⟨rfl, h₁, h₂⟩
  · exact (hcompared ⟨shared₂, none⟩ ⟨shared₁, none⟩ rfl ⟨rfl, h₂, h₁⟩).symm
  · exact (step5aExpand_same policy ⟨shared₁, none⟩ ⟨shared₂, none⟩
      ⟨rfl, iff_of_false h₁ h₂⟩).map_fst

def matchCall (s : Setting) (part : String) : Call := ⟨s, .matchPrefixesSet ∅, part ++ "'", false⟩

theorem matchCall_participant (s : Setting) (part : String) :
    (matchCall s part).participant ≠ part := by
  intro h
  have h := congrArg String.length h
  simp [matchCall, String.length_append] at h

/-- What a policy expands to depends on no earlier call unless a forwarding action
is the first leaf on the shared list, and then it does. -/
theorem step5a_historyFree_iff (s : Setting) (part : String) (policy : Policy) :
    (¬ FwdFirst policy → HistoryFree s part policy) ∧
      (Known s part policy → HistoryFree s part policy → ¬ FwdFirst policy) := by
  constructor
  · intro h h₁ h₂ shared₁ shared₂ _ _ _
    exact step5a_eq_of_not_fwdFirst s part h shared₁ shared₂
  · rintro hknown hfree ⟨n, rest, hl⟩
    have hrun := hfree [matchCall s part] [] ["dstip"] [] (fun c hc => by
      obtain rfl := List.mem_singleton.mp (by simpa using hc)
      exact matchCall_participant s part) rfl rfl
    obtain ⟨ra, hra⟩ := step5aExpand_total policy hknown ⟨["dstip"], none⟩
    obtain ⟨rb, hrb⟩ := step5aExpand_total policy hknown ⟨[], none⟩
    have hapart : Accs.Apart ⟨["dstip"], none⟩ ⟨[], none⟩ :=
      ⟨rfl, List.mem_singleton_self _, List.not_mem_nil⟩
    have hc := @step5aExpand_compared s part policy _ _ hapart
    rw [Option.isSome_none, hl] at hc
    refine hc ra rb hra hrb ?_
    rw [step5a_default, step5a_default, hra, hrb] at hrun
    exact Option.some.inj hrun

theorem step5a_history_matters : ∃ shared p₁ p₂,
    sharedAfter [matchCall twoParticipants "A"] = some shared ∧
    (∀ c ∈ [matchCall twoParticipants "A"], c.participant ≠ "A") ∧
    (step5a twoParticipants (.fwd 2) "A" false shared).map Prod.fst = some p₁ ∧
    (step5a twoParticipants (.fwd 2) "A" false []).map Prod.fst = some p₂ ∧ p₁ ≠ p₂ := by
  refine ⟨["dstip"], .fwd 2, .sequential [.matchPrefixesSet {"10.0.0.0/8", "20.0.0.0/8"}, .fwd 2],
    rfl, fun c hc => ?_, rfl, ?_, Policy.noConfusion⟩
  · rw [List.mem_singleton.mp hc]
    exact matchCall_participant _ _
  · have hann : twoParticipants.announcedBy "A" 2 = some ["10.0.0.0/8", "20.0.0.0/8"] := by decide
    rw [step5a_default, step5aExpandPolicyWithPrefixes, if_neg (by decide), hann]
    rfl

end Hispar.VnhAssignment
