import Hispar.VnhAssignment.Expand
import Hispar.VnhAssignment.Groups

/-!
# The assignment

The prefix sets of all policies and default routes are decomposed jointly, the
groups are numbered, and the policies are expanded. The sets of the policies'
own `match_prefixes_set` are not among those that are decomposed.
-/
namespace Hispar.VnhAssignment
open Library Library.Atoms Exchange SetOperations

section assignment
variable (hα : Hashing String) (hκ : DictOrder Key) (s : Setting)

def bestRoutesList (participant : String) : Option (List (List String)) :=
  (Bgp.bgpGetBestRoutes s.sdx s.rsClients participant).map fun bestRoutes =>
    bestRoutes.values.filter fun x => !x.isEmpty

def participant2Prefix (policies : Dict String Policy) : Option (Part2Prefix Key String) :=
  (getPart2prefixes hκ s policies).bind fun p2p =>
    (s.sdx.participants.keys.mapM fun participant => (bestRoutesList s participant).map
      (Key.str participant, ·)).map fun routes => Dict.ofItems hκ (p2p.items ++
        (routes.filter fun kv => !kv.2.isEmpty).map fun kv =>
          (kv.1, (p2p.get? kv.1).getD [] ++ kv.2.map Coll.list))

structure Assigned where
  part2prefixOld : Part2Prefix Key String
  part2prefixLcs : Part2Prefix Key String
  lcsOld : List (Coll String)
  tables : SDX String
  expanded : Dict String Policy

def expandPolicies (policies : Dict String Policy) (shared : List String) :
    Option (Dict String Policy × List String) :=
  s.sdx.participants.keys.foldlM (fun acc participant => (acc.1.get? participant).bind fun policy =>
    (step5a s policy participant false acc.2).map fun r => (acc.1.set participant r.1, r.2))
    (policies, shared)

def assignAndExpand (policies : Dict String Policy) (old : Assigned) (shared : List String) :
    Option Assigned :=
  (participant2Prefix hκ s policies).bind fun p2p =>
    let part2prefixOld := p2p.items.foldl (fun d kv => d.set kv.1 kv.2) old.part2prefixOld
    if p2p.items.isEmpty then
      some { old with
        part2prefixOld
        expanded := s.sdx.participants.keys.foldl (fun d participant => d.set participant .drop)
          policies }
    else (lcsParallel hα hκ p2p.keys.length p2p).bind fun r =>
      (step4 hα r.1 r.2 old.tables).bind fun tables =>
        if tables.part2VNH.items.isEmpty then some ⟨part2prefixOld, r.1, r.2, tables, policies⟩
        else (expandPolicies s policies shared).map fun e =>
          ⟨part2prefixOld, r.1, r.2, tables, e.1⟩

end assignment

def Assigned.init : Assigned := ⟨.empty, .empty, [], .init, .empty⟩

def CollectedList (s : Setting) (policies : Dict String Policy) (X : String) (l : List String) :
    Prop :=
  l ≠ [] ∧ ((∃ policy, policies.get? X = some policy ∧
      ∃ n ∈ policy.outports, s.announcedBy X n = some l) ∨
    ∃ bestRoutes, Bgp.bgpGetBestRoutes s.sdx s.rsClients X = some bestRoutes ∧
      ∃ Q, bestRoutes.get? Q = some l)

/-- A configured exchange whose participants have policies that forward to ports they see. The
names are unicode texts, and `str` raises on those that are not ASCII. -/
structure Installed (upper : String → String) (config : Dict String ParticipantConfig)
    (s : Setting) (policies : Dict String Policy) : Prop where
  parsed : sdxParseConfig upper config = some s.sdx
  ascii : ∀ X ∈ config.keys, IsAscii X
  clients : s.rsClients.keys = config.keys
  installed : ∀ X ∈ config.keys, ∃ policy, policies.get? X = some policy ∧
    ∀ n ∈ policy.outports, s.Sees X n
  only : ∀ X ∈ policies.keys, X ∈ config.keys

section collect
variable {s : Setting} {policies : Dict String Policy} {X : String} {policy : Policy}

theorem collected_spec (hpolicy : policies.get? X = some policy) (hknown : Known s X policy) :
    ∃ ls, collected s policies X = some ls ∧
      ∀ l, l ∈ ls ↔ l ≠ [] ∧ ∃ n ∈ policy.outports, s.announcedBy X n = some l := by
  have hspec := @getPrefix_spec s X policy []
  obtain ⟨accs, haccs, -⟩ := (Runs.mapM_forall₂_iff (R := fun _ _ => True) policy.outports).mpr
    fun n hn => (hknown n hn).imp fun _ h => ⟨h, trivial⟩
  rw [haccs, Option.map_some, List.nil_append] at hspec
  obtain ⟨r, hr, rfl⟩ := Option.map_eq_some_iff.mp hspec
  refine ⟨r.2.filter fun item => !item.isEmpty, ?_, fun l => ?_⟩
  · rw [collected, hpolicy, Option.bind_some, hr, Option.map_some]
  · rw [List.mem_filter, Runs.mem_mapM haccs, and_comm]
    simp

theorem bestRoutesList_spec {bestRoutes : Dict String (List String)}
    (h : Bgp.bgpGetBestRoutes s.sdx s.rsClients X = some bestRoutes) :
    ∃ ls, bestRoutesList s X = some ls ∧
      ∀ l, l ∈ ls ↔ l ≠ [] ∧ ∃ Q, bestRoutes.get? Q = some l := by
  refine ⟨_, by rw [bestRoutesList, h, Option.map_some], fun l => ?_⟩
  rw [List.mem_filter, and_comm, Dict.values, List.mem_map]
  simp only [Dict.get?_eq_some, Prod.exists, exists_eq_right]
  simp

theorem lastValue_participants {β γ : Type} (ks : List String) (f : String → List β)
    (g : Key → List β → γ) (k : Key) :
    Dict.lastValue (((ks.map fun X => (Key.str X, f X)).filter fun kv => !kv.2.isEmpty).map
      fun kv => (kv.1, g kv.1 kv.2)) k =
    match k with
    | .str X => if X ∈ ks ∧ f X ≠ [] then some (g (.str X) (f X)) else none
    | .int _ => none := by
  let value : Key → Option γ
    | .str X => if f X ≠ [] then some (g (.str X) (f X)) else none
    | .int _ => none
  have hwrites : ((ks.map fun X => (Key.str X, f X)).filter fun kv => !kv.2.isEmpty).map
      (fun kv => (kv.1, g kv.1 kv.2)) = (ks.map Key.str).filterMap fun k => (value k).map (k, ·) := by
    induction ks with
    | nil => rfl
    | cons X ks ih =>
      by_cases hX : f X = []
      · rw [List.map_cons, List.filter_cons_of_neg (by simp [hX]), ih, List.map_cons]
        simp [value, hX]
      · rw [List.map_cons, List.filter_cons_of_pos (by simp [hX]), List.map_cons, ih, List.map_cons]
        simp [value, hX]
  rw [hwrites, Dict.lastValue_filterMap]
  cases k with
  | int n => simp
  | str X =>
    simp only [List.mem_map, Key.str.injEq, exists_eq_right, value]
    by_cases hX : X ∈ ks <;> simp [hX]

end collect

section installed
variable {upper : String → String} {config : Dict String ParticipantConfig} {s : Setting}
  {policies : Dict String Policy} {X : String} {policy : Policy}
  (h : Installed upper config s policies)
include h

theorem Installed.known (hpolicy : policies.get? X = some policy) : Known s X policy := by
  have hX : X ∈ config.keys := h.only X (Dict.mem_keys_iff.mpr ⟨policy, hpolicy⟩)
  obtain ⟨policy', hpolicy', hports⟩ := h.installed X hX
  obtain rfl : policy = policy' := Option.some.inj (hpolicy.symm.trans hpolicy')
  exact known_of_sees h.parsed h.clients hX hports

theorem Installed.routes (hX : X ∈ config.keys) : ∃ bestRoutes,
    Bgp.bgpGetBestRoutes s.sdx s.rsClients X = some bestRoutes := by
  obtain ⟨-, bestRoutes, -, hbest, -⟩ :=
    Bgp.bgpGetBestRoutes_total (sdxParseConfig_parsed h.parsed) h.clients hX
  exact ⟨bestRoutes, hbest⟩

theorem Installed.keys : s.sdx.participants.keys = config.keys :=
  (sdxParseConfig_parsed h.parsed).keys

theorem Installed.lists : ∃ F G : String → List (List String),
    (∀ X ∈ s.sdx.participants.keys, collected s policies X = some (F X)) ∧
    (∀ X ∈ s.sdx.participants.keys, bestRoutesList s X = some (G X)) ∧
    ∀ X l, X ∈ s.sdx.participants.keys ∧ l ∈ F X ++ G X ↔ CollectedList s policies X l := by
  have hF : ∀ X ∈ s.sdx.participants.keys,
      collected s policies X = some ((collected s policies X).getD []) := by
    intro X hX
    obtain ⟨policy, hpolicy, -⟩ := h.installed X (h.keys ▸ hX)
    obtain ⟨ls, hls, -⟩ := collected_spec hpolicy (h.known hpolicy)
    rw [hls, Option.getD_some]
  have hG : ∀ X ∈ s.sdx.participants.keys,
      bestRoutesList s X = some ((bestRoutesList s X).getD []) := by
    intro X hX
    obtain ⟨bestRoutes, hbest⟩ := h.routes (h.keys ▸ hX)
    obtain ⟨ls, hls, -⟩ := bestRoutesList_spec hbest
    rw [hls, Option.getD_some]
  refine ⟨_, _, hF, hG, fun X l => ⟨?_, ?_⟩⟩
  · rintro ⟨hX, hl⟩
    obtain ⟨policy, hpolicy, -⟩ := h.installed X (h.keys ▸ hX)
    obtain ⟨ls, hls, hcollected⟩ := collected_spec hpolicy (h.known hpolicy)
    obtain ⟨bestRoutes, hbest⟩ := h.routes (h.keys ▸ hX)
    obtain ⟨ls', hls', hlisted⟩ := bestRoutesList_spec hbest
    rw [hls, hls', Option.getD_some, Option.getD_some] at hl
    rcases List.mem_append.mp hl with hl | hl
    · obtain ⟨hne, hann⟩ := (hcollected l).mp hl
      exact ⟨hne, Or.inl ⟨policy, hpolicy, hann⟩⟩
    · obtain ⟨hne, hQ⟩ := (hlisted l).mp hl
      exact ⟨hne, Or.inr ⟨bestRoutes, hbest, hQ⟩⟩
  · rintro ⟨hne, ⟨policy, hpolicy, hann⟩ | ⟨bestRoutes, hbest, hQ⟩⟩
    · have hX := h.keys ▸ h.only X (Dict.mem_keys_iff.mpr ⟨policy, hpolicy⟩)
      obtain ⟨ls, hls, hcollected⟩ := collected_spec hpolicy (h.known hpolicy)
      rw [hls, Option.getD_some]
      exact ⟨hX, List.mem_append_left _ ((hcollected l).mpr ⟨hne, hann⟩)⟩
    · obtain ⟨participant, hpart, -⟩ := Option.bind_eq_some_iff.mp hbest
      obtain ⟨ls, hls, hlisted⟩ := bestRoutesList_spec hbest
      rw [hls, Option.getD_some]
      exact ⟨Dict.mem_keys_iff.mpr ⟨participant, hpart⟩,
        List.mem_append_right _ ((hlisted l).mpr ⟨hne, hQ⟩)⟩

end installed

theorem participant2Prefix_get? (hκ : DictOrder Key) {s : Setting} {policies : Dict String Policy}
    {F G : String → List (List String)}
    (hF : ∀ X ∈ s.sdx.participants.keys, collected s policies X = some (F X))
    (hG : ∀ X ∈ s.sdx.participants.keys, bestRoutesList s X = some (G X)) :
    ∃ d, participant2Prefix hκ s policies = some d ∧ ∀ k, d.get? k = match k with
      | .str X => if X ∈ s.sdx.participants.keys ∧ F X ++ G X ≠ [] then
          some ((F X ++ G X).map Coll.list) else none
      | .int _ => none := by
  have hp2p : ∃ p2p, getPart2prefixes hκ s policies = some p2p ∧ ∀ k, p2p.get? k = match k with
      | .str X => if X ∈ s.sdx.participants.keys ∧ F X ≠ [] then some ((F X).map Coll.list) else none
      | .int _ => none := by
    refine ⟨_, by rw [getPart2prefixes, Runs.mapM_eq_map (h := fun X => (Key.str X, F X)) fun X hX => by
      rw [hF X hX, Option.map_some], Option.map_some], fun k => ?_⟩
    rw [Dict.get?_ofItems, lastValue_participants (g := fun _ l => l.map Coll.list)]
  obtain ⟨p2p, hp2p, hget⟩ := hp2p
  refine ⟨_, by rw [participant2Prefix, hp2p, Option.bind_some,
    Runs.mapM_eq_map (h := fun X => (Key.str X, G X)) fun X hX => by rw [hG X hX, Option.map_some],
    Option.map_some], fun k => ?_⟩
  rw [Dict.get?_ofItems, Dict.lastValue_append, Dict.lastValue_items,
    lastValue_participants (g := fun k l => (p2p.get? k).getD [] ++ l.map Coll.list), hget]
  cases k with
  | int n => rfl
  | str X =>
    by_cases hX : X ∈ s.sdx.participants.keys <;> by_cases h₁ : F X = [] <;>
      by_cases h₂ : G X = [] <;> simp [hX, h₁, h₂, hget]

theorem Installed.participant2Prefix_spec {upper : String → String}
    {config : Dict String ParticipantConfig} {s : Setting} {policies : Dict String Policy}
    (h : Installed upper config s policies) (hκ : DictOrder Key) :
    ∃ d, participant2Prefix hκ s policies = some d ∧ NonemptySets d ∧
      ∀ X S, S ∈ families d (.str X) ↔ ∃ l, CollectedList s policies X l ∧ l.toFinset = S := by
  obtain ⟨F, G, hF, hG, hmem⟩ := h.lists
  obtain ⟨d, hd, hget⟩ := participant2Prefix_get? hκ hF hG
  refine ⟨d, hd, fun k l hl c hc => ?_, fun X S => ?_⟩
  · rw [hget] at hl
    cases k with
    | int n => cases hl
    | str X =>
      obtain ⟨⟨hX, -⟩, hl⟩ := Option.ite_none_right_eq_some.mp hl
      obtain ⟨l', hl', rfl⟩ := List.mem_map.mp (Option.some.inj hl ▸ hc)
      obtain ⟨x, l', rfl⟩ := List.exists_cons_of_ne_nil ((hmem X l').mp ⟨hX, hl'⟩).1
      exact ⟨x, by simp [Coll.toSet]⟩
  · have hgetX : d.get? (.str X) = if X ∈ s.sdx.participants.keys ∧ F X ++ G X ≠ [] then
        some ((F X ++ G X).map Coll.list) else none := hget (.str X)
    simp only [← hmem]
    rw [families, hgetX]
    by_cases hX : X ∈ s.sdx.participants.keys ∧ F X ++ G X ≠ []
    · rw [if_pos hX, Option.elim_some, mem_members]
      constructor
      · rintro ⟨c, hc, rfl⟩
        obtain ⟨l, hl, rfl⟩ := List.mem_map.mp hc
        exact ⟨l, ⟨hX.1, hl⟩, rfl⟩
      · rintro ⟨l, ⟨-, hl⟩, rfl⟩
        exact ⟨.list l, List.mem_map_of_mem hl, rfl⟩
    · rw [if_neg hX, Option.elim_none]
      refine iff_of_false (Finset.notMem_empty S) ?_
      rintro ⟨l, ⟨hX', hl⟩, -⟩
      exact hX ⟨hX', List.ne_nil_of_mem hl⟩

def Expanded (s : Setting) (policies policies' : Dict String Policy) : Prop :=
  ∀ X, Option.Rel (fun policy policy' =>
    SetsFrom s X policy.prefixSets policy'.prefixSets policy.outports)
    (policies.get? X) (policies'.get? X)

theorem Expanded.refl (s : Setting) (policies : Dict String Policy) :
    Expanded s policies policies := by
  intro X
  cases policies.get? X with
  | none => exact .none
  | some policy => exact .some (.refl s X _ _)

theorem expandPolicies_spec {s : Setting} {policies : Dict String Policy}
    (hknown : ∀ X ∈ s.sdx.participants.keys, ∃ policy, policies.get? X = some policy ∧
      Known s X policy) (shared : List String) :
    ∃ r, expandPolicies s policies shared = some r ∧ Expanded s policies r.1 := by
  have hrun := Runs.foldlM_visited (l := s.sdx.participants.keys)
    (f := fun (acc : Dict String Policy × List String) participant =>
      (acc.1.get? participant).bind fun policy =>
        (step5a s policy participant false acc.2).map fun r => (acc.1.set participant r.1, r.2))
    (Q := fun done acc => Expanded s policies acc.1 ∧
      ∀ X, X ∉ done → acc.1.get? X = policies.get? X) (s := (policies, shared)) ?_
    ⟨.refl s policies, fun _ _ => rfl⟩
  · obtain ⟨r, hr, hexp, -⟩ := hrun
    exact ⟨r, hr, hexp⟩
  rintro done X rest acc hl ⟨hexp, hleft⟩
  have hX : X ∈ s.sdx.participants.keys := hl ▸ List.mem_append_right done List.mem_cons_self
  have hnew : X ∉ done := by
    have hnd := hl ▸ s.sdx.participants.nodup_keys
    exact fun hd => (List.nodup_append.mp hnd).2.2 X hd X List.mem_cons_self rfl
  obtain ⟨policy, hpolicy, hknown⟩ := hknown X hX
  obtain ⟨r, hr⟩ := step5aExpand_total policy hknown ⟨acc.2, none⟩
  refine ⟨_, by rw [hleft X hnew, hpolicy, Option.bind_some, step5a_default, hr]; rfl,
    fun Y => ?_, fun Y hY => ?_⟩
  · rw [Dict.get?_set]
    split_ifs with hYX
    · rw [hYX, hpolicy]
      exact .some (step5aExpand_prefixSets policy hr)
    · exact hexp Y
  · rw [List.mem_append, not_or, List.mem_singleton] at hY
    rw [Dict.get?_set_of_ne _ _ hY.2, hleft Y hY.1]

structure Grouped (hα : Hashing String) (hκ : DictOrder Key) (d : Part2Prefix Key String)
    (tables : SDX String) : Prop where
  joined : ∀ X x y, (∃ v c, vnhEntry tables.part2VNH X v = some c ∧ x ∈ c ∧ y ∈ c) ↔
    Joined hα hκ d X x y
  own : ∀ X v c, vnhEntry tables.part2VNH X v = some c → ∀ S ∈ families d X,
    c.toSet ⊆ S ∨ Disjoint c.toSet S

theorem vnhEntry_init (X : Key) (v : String) : vnhEntry (SDX.init : SDX String).part2VNH X v = none :=
  rfl

theorem grouped_of_empty {hα : Hashing String} {hκ : DictOrder Key} {d : Part2Prefix Key String}
    (hd : d.keys = []) : Grouped hα hκ d .init := by
  constructor
  · intro X x y
    refine iff_of_false (fun ⟨v, c, hc, _⟩ => ?_) fun hj => ?_
    · rw [vnhEntry_init] at hc
      cases hc
    · exact absurd (hd ▸ mem_keys_of_mem_prefixesOf hj.own) List.not_mem_nil
  · intro X v c hc
    rw [vnhEntry_init] at hc
    cases hc

theorem step4_grouped {hα : Hashing String} {hκ : DictOrder Key} {d m : Part2Prefix Key String}
    {lcs : List (Coll String)} (hround : Round hκ (planOf hκ d) d d.keys m lcs) {tables : SDX String}
    (h : step4 hα m lcs .init = some tables) : Grouped hα hκ d tables := by
  obtain ⟨hnew, hold⟩ := step4Loop_spec hα m lcs 1 h
  have hentry : ∀ X v c, vnhEntry tables.part2VNH X v = some c → c ∈ lcs ∧ Recorded hα m c X := by
    intro X v c hc
    by_cases hv : ∀ i < lcs.length, v ≠ vname (1 + i)
    · rw [(hold v hv).2 X, vnhEntry_init] at hc
      cases hc
    · simp only [not_forall, not_not] at hv
      obtain ⟨i, hi, rfl⟩ := hv
      rw [(hnew i hi).2 X, vnhEntry_init] at hc
      obtain ⟨hrec, hc⟩ := Option.ite_none_right_eq_some.mp hc
      obtain rfl := Option.some.inj hc
      exact ⟨List.getElem_mem hi, hrec⟩
  constructor
  · intro X x y
    rw [← recorded_iff_joined hround]
    constructor
    · rintro ⟨v, c, hc, hx, hy⟩
      obtain ⟨hmem, hrec⟩ := hentry X v c hc
      exact ⟨c, hmem, hx, hy, hrec⟩
    · rintro ⟨c, hc, hx, hy, hrec⟩
      obtain ⟨i, hi, rfl⟩ := List.mem_iff_getElem.mp hc
      exact ⟨vname (1 + i), _, by rw [(hnew i hi).2 X, if_pos hrec], hx, hy⟩
  · intro X v c hc S hS
    obtain ⟨hmem, hrec⟩ := hentry X v c hc
    exact recorded_subset_or_disjoint hround hmem hrec hS

/-- A participant's traffic is selected on the set, by its expanded policy or by a default
route. -/
def SelectedOn (s : Setting) (expanded : Dict String Policy) (X : String) (S : Finset String) : Prop :=
  (∃ policy, expanded.get? X = some policy ∧ S ∈ policy.prefixSets) ∨
    ∃ bestRoutes, Bgp.bgpGetBestRoutes s.sdx s.rsClients X = some bestRoutes ∧
      ∃ Q l, bestRoutes.get? Q = some l ∧ S = l.toFinset

/-- Prefixes of one group are not told apart by a set on which the participant's traffic
is selected. -/
def NeverSeparated (s : Setting) (out : Assigned) : Prop :=
  ∀ X v c, vnhEntry out.tables.part2VNH (.str X) v = some c → ∀ S, SelectedOn s out.expanded X S →
    c.toSet ⊆ S ∨ Disjoint c.toSet S

def NamesWhole (hα : Hashing String) (hκ : DictOrder Key) (policies : Dict String Policy)
    (d : Part2Prefix Key String) : Prop :=
  ∀ X policy, policies.get? X = some policy → ∀ S ∈ policy.prefixSets, ∀ x y,
    Joined hα hκ d (.str X) x y → x ∈ S → y ∈ S

theorem neverSeparated_iff {hα : Hashing String} {hκ : DictOrder Key} {s : Setting}
    {policies : Dict String Policy} {d : Part2Prefix Key String} {out : Assigned}
    (hgroups : Grouped hα hκ d out.tables)
    (hcollected : ∀ X l, CollectedList s policies X l → l.toFinset ∈ families d (.str X))
    (hexp : ∀ X v c, vnhEntry out.tables.part2VNH (.str X) v = some c →
      Expanded s policies out.expanded) :
    NeverSeparated s out ↔ NamesWhole hα hκ policies d := by
  constructor
  · intro h X policy hpolicy S hS x y hj hx
    obtain ⟨v, c, hc, hxc, hyc⟩ := (hgroups.joined _ x y).mpr hj
    have hrel := hexp X v c hc X
    rw [hpolicy] at hrel
    cases he : out.expanded.get? X with
    | none => rw [he] at hrel; cases hrel
    | some policy' =>
      rw [he] at hrel
      cases hrel with
      | some hsets =>
        rcases h X v c hc S (Or.inl ⟨policy', he, hsets.1 hS⟩) with hsub | hdisj
        · exact hsub hyc
        · exact absurd hx (Finset.disjoint_left.mp hdisj hxc)
  · intro h X v c hc S hS
    have hlist : ∀ l : List String, (l ≠ [] → CollectedList s policies X l) →
        c.toSet ⊆ l.toFinset ∨ Disjoint c.toSet l.toFinset := by
      intro l hl
      by_cases hne : l = []
      · exact Or.inr (by simp [hne])
      · exact hgroups.own _ v c hc _ (hcollected X l (hl hne))
    rcases hS with ⟨policy', he, hS⟩ | ⟨bestRoutes, hbest, Q, l, hQ, rfl⟩
    · have hrel := hexp X v c hc X
      rw [he] at hrel
      cases hp : policies.get? X with
      | none => rw [hp] at hrel; cases hrel
      | some policy =>
        rw [hp] at hrel
        cases hrel with
        | some hsets =>
          rcases hsets.2 S hS with hS | ⟨n, hn, announced, hann, rfl⟩
          · by_cases hmeet : ∃ x ∈ c.toSet, x ∈ S
            · obtain ⟨x, hx, hxS⟩ := hmeet
              refine Or.inl fun y hy => h X policy hp S hS x y ?_ hxS
              exact (hgroups.joined _ x y).mp ⟨v, c, hc, hx, hy⟩
            · exact Or.inr (Finset.disjoint_left.mpr fun x hx hxS => hmeet ⟨x, hx, hxS⟩)
          · exact hlist announced fun hne => ⟨hne, Or.inl ⟨policy, hp, n, hn, hann⟩⟩
    · exact hlist l fun hne => ⟨hne, Or.inr ⟨bestRoutes, hbest, Q, hQ⟩⟩

section run
variable {hα : Hashing String} {hκ : DictOrder Key} {upper : String → String}
  {config : Dict String ParticipantConfig} {s : Setting} {policies : Dict String Policy}

def FitsPool (hα : Hashing String) (hκ : DictOrder Key) (d : Part2Prefix Key String) : Prop :=
  ∀ n m lcs, lcsParallel hα hκ n d = some (m, lcs) → lcs.length ≤ 15

theorem assignAndExpand_spec (h : Installed upper config s policies) (shared : List String)
    {d : Part2Prefix Key String} (hd : participant2Prefix hκ s policies = some d)
    (hne : NonemptySets d) (hfits : FitsPool hα hκ d) :
    ∃ out, assignAndExpand hα hκ s policies .init shared = some out ∧
      Grouped hα hκ d out.tables ∧ ∀ X v c, vnhEntry out.tables.part2VNH X v = some c →
        Expanded s policies out.expanded := by
  rw [assignAndExpand, hd, Option.bind_some]
  by_cases hempty : d.items.isEmpty = true
  · refine ⟨_, if_pos hempty, grouped_of_empty ?_, fun X v c hc => ?_⟩
    · rw [Dict.keys, List.isEmpty_iff.mp hempty]
      rfl
    · rw [Assigned.init, vnhEntry_init] at hc
      cases hc
  rw [if_neg hempty]
  have hkeys : d.keys ≠ [] := by
    rw [Dict.keys, ne_eq, List.map_eq_nil_iff]
    exact fun he => hempty (List.isEmpty_iff.mpr he)
  obtain ⟨m, lcs, hrun, hround⟩ := lcsParallel_run hα hκ hkeys hne
  have hrun := hrun _ le_rfl
  obtain ⟨tables, htables⟩ := step4_total hα m (hfits _ _ _ hrun) .init
  have hgroups := step4_grouped hround htables
  have hinit : (Assigned.init).tables = .init := rfl
  rw [hrun, Option.bind_some, hinit, htables, Option.bind_some]
  split_ifs with hnone
  · exact ⟨_, rfl, hgroups, fun _ _ _ _ => .refl s policies⟩
  · have hknown : ∀ X ∈ s.sdx.participants.keys, ∃ policy, policies.get? X = some policy ∧
        Known s X policy := by
      intro X hX
      obtain ⟨policy, hpolicy, -⟩ := h.installed X (h.keys ▸ hX)
      exact ⟨policy, hpolicy, h.known hpolicy⟩
    obtain ⟨e, he, hexp⟩ := expandPolicies_spec hknown shared
    exact ⟨_, by rw [he, Option.map_some], hgroups, fun _ _ _ _ => hexp⟩

/-- Groups are never separated exactly when the sets that the policies name keep joined
prefixes together: those sets are not among the sets that are decomposed. -/
theorem assignAndExpand_neverSeparated_iff (hα : Hashing String) (hκ : DictOrder Key)
    (h : Installed upper config s policies) (shared : List String)
    (hfits : ∀ d, participant2Prefix hκ s policies = some d → FitsPool hα hκ d) :
    ∃ d out, participant2Prefix hκ s policies = some d ∧
      (∀ X S, S ∈ families d (.str X) ↔ ∃ l, CollectedList s policies X l ∧ l.toFinset = S) ∧
      assignAndExpand hα hκ s policies .init shared = some out ∧
      (NeverSeparated s out ↔ NamesWhole hα hκ policies d) := by
  obtain ⟨d, hd, hne, hfamilies⟩ := h.participant2Prefix_spec hκ
  obtain ⟨out, hout, hgroups, hexp⟩ := assignAndExpand_spec h shared hd hne (hfits d hd)
  refine ⟨d, out, hd, hfamilies, hout, neverSeparated_iff hgroups (fun X l hl => ?_) fun X => hexp _⟩
  exact (hfamilies X _).mpr ⟨l, hl, rfl⟩

end run

theorem fitsPool_of_card {hα : Hashing String} {hκ : DictOrder Key} {d : Part2Prefix Key String}
    (hkeys : d.keys ≠ []) (hne : NonemptySets d)
    (hcard : (d.keys.toFinset.biUnion (prefixesOf d)).card ≤ 15) : FitsPool hα hκ d := by
  intro n m lcs hrun
  have hround := lcsParallel_round hkeys hne hrun
  refine (hround.disjoint.length_le_card hround.nonempty).trans
    ((Finset.card_le_card fun x hx => ?_).trans hcard)
  obtain ⟨q, -, hq⟩ := (hround.support x).mp hx
  exact Finset.mem_biUnion.mpr ⟨q, List.mem_toFinset.mpr (mem_keys_of_mem_prefixesOf hq), hq⟩

def twoConfig : Dict String ParticipantConfig :=
  ⟨[("A", ⟨[⟨1, "08:00:27:89:3b:9f", "172.0.0.1"⟩], ["B"]⟩),
    ("B", ⟨[⟨2, "08:00:27:92:18:1f", "172.0.0.2"⟩], ["A"]⟩)],
    List.nodup_cons.mpr ⟨by decide, List.nodup_singleton _⟩⟩

def twoAnnouncers : Setting where
  sdx := (sdxParseConfig id twoConfig).getD .init
  rsClients := ⟨[("A", ⟨["172.0.0.1"],
      [⟨"30.0.0.0/8", "172.0.0.1", "igp", "100", .int 0, some false⟩], []⟩),
    ("B", ⟨["172.0.0.2"], [⟨"10.0.0.0/8", "172.0.0.2", "igp", "200", .int 0, some false⟩,
      ⟨"20.0.0.0/8", "172.0.0.2", "igp", "200", .int 0, some false⟩], []⟩)], by decide⟩

def restrictedPolicies : Dict String Policy := ⟨[("A", restrictedToOne), ("B", .fwd 1)], by decide⟩

def collectedPrefixes : Part2Prefix Key String :=
  ⟨[(.str "A", [.list ["10.0.0.0/8", "20.0.0.0/8"]]), (.str "B", [.list ["30.0.0.0/8"]])], by decide⟩

theorem installed_restrictedPolicies : Installed id twoConfig twoAnnouncers restrictedPolicies where
  parsed := by decide
  ascii := by simp [IsAscii, twoConfig, Dict.keys]
  clients := by decide
  installed := by
    intro X hX
    rcases List.mem_cons.mp hX with rfl | hX
    · refine ⟨restrictedToOne, rfl, fun n hn => ?_⟩
      obtain rfl := List.mem_singleton.mp hn
      exact ⟨⟨[("A", [1]), ("B", [2])], by decide⟩, by decide, ("B", [2]), by decide, by decide⟩
    · obtain rfl := List.mem_singleton.mp hX
      refine ⟨.fwd 1, rfl, fun n hn => ?_⟩
      obtain rfl := List.mem_singleton.mp hn
      exact ⟨⟨[("B", [2]), ("A", [1])], by decide⟩, by decide, ("A", [1]), by decide, by decide⟩
  only := by decide

theorem participant2Prefix_restrictedPolicies :
    participant2Prefix .insertion twoAnnouncers restrictedPolicies = some collectedPrefixes := by
  decide

theorem nonemptySets_collectedPrefixes : NonemptySets collectedPrefixes :=
  nonemptySets_iff.mpr (by decide)

theorem fitsPool_collectedPrefixes (hα : Hashing String) (hκ : DictOrder Key) :
    FitsPool hα hκ collectedPrefixes :=
  fitsPool_of_card (by decide) nonemptySets_collectedPrefixes (by decide)

theorem assignAndExpand_neverSeparated_iff_restrictedPolicies : ∃ d out,
    participant2Prefix .insertion twoAnnouncers restrictedPolicies = some d ∧
    (∀ X S, S ∈ families d (.str X) ↔
      ∃ l, CollectedList twoAnnouncers restrictedPolicies X l ∧ l.toFinset = S) ∧
    assignAndExpand .sorted .insertion twoAnnouncers restrictedPolicies .init [] = some out ∧
    (NeverSeparated twoAnnouncers out ↔ NamesWhole .sorted .insertion restrictedPolicies d) :=
  assignAndExpand_neverSeparated_iff .sorted .insertion installed_restrictedPolicies [] fun d hd => by
    obtain rfl := Option.some.inj (hd.symm.trans participant2Prefix_restrictedPolicies)
    exact fitsPool_collectedPrefixes .sorted .insertion

theorem assignAndExpand_restrictedPolicies :
    Installed id twoConfig twoAnnouncers restrictedPolicies ∧
    FitsPool .sorted .insertion collectedPrefixes ∧ ∃ out,
    assignAndExpand .sorted .insertion twoAnnouncers restrictedPolicies .init [] = some out ∧
    ¬ NeverSeparated twoAnnouncers out := by
  have hfits := fitsPool_collectedPrefixes .sorted .insertion
  obtain ⟨out, hout, hgroups, hexp⟩ := assignAndExpand_spec installed_restrictedPolicies []
    participant2Prefix_restrictedPolicies nonemptySets_collectedPrefixes hfits
  obtain ⟨d, hd, -, hfamilies⟩ := installed_restrictedPolicies.participant2Prefix_spec .insertion
  obtain rfl := Option.some.inj (hd.symm.trans participant2Prefix_restrictedPolicies)
  refine ⟨installed_restrictedPolicies, hfits, out, hout, fun hnever => ?_⟩
  have hwhole := (neverSeparated_iff hgroups (fun X l hl => (hfamilies X _).mpr ⟨l, hl, rfl⟩)
    fun X => hexp _).mp hnever
  have hjoined : Joined .sorted .insertion collectedPrefixes (.str "A") "10.0.0.0/8" "20.0.0.0/8" := by
    refine (joined_iff_of_noCollision ?_ (by decide)).mpr ⟨by decide, ?_⟩
    · refine noCollision_of_length (L := 1) (by decide) fun k hk => ?_
      rcases List.mem_cons.mp hk with rfl | hk
      · exact ⟨"A", rfl, rfl⟩
      · exact ⟨"B", List.mem_singleton.mp hk, rfl⟩
    · rintro S ⟨p, hS⟩
      obtain ⟨l, hl, hS⟩ := mem_families.mp hS
      obtain ⟨c, hc, rfl⟩ := mem_members.mp hS
      have hall : ∀ kv ∈ collectedPrefixes.items, ∀ c ∈ kv.2,
          "10.0.0.0/8" ∈ c.toSet ↔ "20.0.0.0/8" ∈ c.toSet := by decide
      exact hall (p, l) (Dict.get?_eq_some.mp hl) c hc
  have hin := hwhole "A" restrictedToOne rfl {"10.0.0.0/8"} List.mem_cons_self _ _ hjoined (by decide)
  exact absurd hin (by decide)

end Hispar.VnhAssignment
