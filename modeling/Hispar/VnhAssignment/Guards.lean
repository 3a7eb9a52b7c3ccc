import Hispar.VnhAssignment.Assignment
import Hispar.VnhAssignment.NextHops

/-!
# Traffic that goes astray

A forwarding action is guarded by the prefixes that the peer announced, unless
a destination was chosen. In a chain that is a choice on the packet's own path.
Outside of chains it is any choice that the pass has met before, so such a
forwarding action can be left bare on a path without any.
-/
namespace Hispar.VnhAssignment
open Library Exchange

def Setting.announcedAt (s : Setting) (part : String) (outport : ℕ) : List String :=
  ((s.sdx.participant2Port.get? part).elim [] fun peers =>
    peers.items.filter fun kv => outport ∈ kv.2).flatMap fun kv =>
      (Bgp.bgpGetAnnouncedRoutes s.rsClients kv.1).getD []

/-- A packet with its path: whether it passed a test of the policy on the destination, and
whether it was last forwarded without one to a port whose owners did not announce it. -/
structure Trace (ρ : Type*) where
  frame : Frame ρ
  tested : Bool
  astray : Bool
  deriving DecidableEq

def Trace.start {ρ : Type*} (pkt : Frame ρ) : Trace ρ := ⟨pkt, false, false⟩

def choosesDst : Policy → Bool
  | .matching map => "dstip" ∈ map.keys
  | .matchPrefixesSet _ => true
  | _ => false

section traces
variable {ρ : Type*} [DecidableEq ρ] (H : Header ρ) (s : Setting) (part : String)

def traceLeaf (leaf expanded : Policy) : PacketPolicy (Trace ρ) := fun tr =>
  (expanded.eval H tr.frame).image fun frame =>
    match leaf with
    | .fwd outport => { tr with
        frame, astray := !tr.tested && H.prefixOf tr.frame.header ∉ s.announcedAt part outport }
    | leaf => { tr with frame, tested := tr.tested || choosesDst leaf }

def enterBranch (outs : Finset (Trace ρ)) (tr : Trace ρ) : Trace ρ :=
  { tr with tested := tr.tested || decide (∃ out ∈ outs, out.tested = true) }

mutual
def traced : Policy → Policy → PacketPolicy (Trace ρ)
  | .parallel policies, .parallel expanded => PacketPolicy.parallel (tracedAll policies expanded)
  | .sequential policies, .sequential expanded =>
    PacketPolicy.sequential (tracedAll policies expanded)
  | .ifThenElse pred t f, .ifThenElse pred' t' f' => fun tr =>
      if traced pred pred' tr = ∅ then traced f f' tr
      else traced t t' (enterBranch (traced pred pred' tr) tr)
  | leaf, expanded => traceLeaf H s part leaf expanded

def tracedAll : List Policy → List Policy → List (PacketPolicy (Trace ρ))
  | p :: policies, p' :: expanded => traced p p' :: tracedAll policies expanded
  | _, _ => []
end

def LooseLeaf.choosesDst : LooseLeaf → Bool
  | .dstMatch => true
  | .fwd _ => false

def meetsDst (chained : Bool) (policy : Policy) : Bool :=
  (loose chained policy).any LooseLeaf.choosesDst

def guardedFwd (own : Option Bool) (shared : Bool) (outport : ℕ) : PacketPolicy (Trace ρ) := fun tr =>
  if own.getD shared then {{ tr with
    frame := tr.frame.write H "outport" (.num outport)
    astray := own.isNone && !tr.tested && H.prefixOf tr.frame.header ∉ s.announcedAt part outport }}
  else if H.prefixOf tr.frame.header ∈ (s.announcedBy part outport).getD [] then
    {{ tr with frame := tr.frame.write H "outport" (.num outport), astray := false }}
  else ∅

mutual
def guarded (own : Option Bool) (shared : Bool) : Policy → PacketPolicy (Trace ρ)
  | .parallel policies => guardedParallel shared policies
  | .sequential policies => guardedChain false shared policies
  | .ifThenElse pred t f => fun tr =>
      let outs := guarded none shared pred tr
      let shared := shared || meetsDst false pred
      if outs = ∅ then guarded none (shared || meetsDst false t) f tr
      else guarded none shared t (enterBranch outs tr)
  | .fwd outport => guardedFwd H s part own shared outport
  | leaf => traceLeaf H s part leaf leaf

def guardedParallel (shared : Bool) : List Policy → PacketPolicy (Trace ρ)
  | [] => PacketPolicy.drop
  | p :: policies => PacketPolicy.union (guarded none shared p)
      (guardedParallel (shared || meetsDst false p) policies)

def guardedChain (own shared : Bool) : List Policy → PacketPolicy (Trace ρ)
  | [] => PacketPolicy.passthrough
  | p :: policies => PacketPolicy.andThen (guarded (some own) shared p)
      (guardedChain (own || choosesDst p) (shared || meetsDst true p) policies)
end

end traces

section lists
variable {s : Setting} {part : String} {p : Policy} {a : Accs}

def Accs.flags (a : Accs) : Option Bool × Bool :=
  (a.own.map fun acc => decide ("dstip" ∈ acc), decide ("dstip" ∈ a.shared))

theorem Accs.flags_append (a : Accs) : (a.append "dstip").flags = (a.flags.1.map (· || true),
    a.flags.2 || (if a.flags.1.isSome then [] else [LooseLeaf.dstMatch]).any LooseLeaf.choosesDst) := by
  unfold Accs.flags Accs.append
  cases a.own <;> simp [LooseLeaf.choosesDst]

theorem Accs.flags_acc (a : Accs) : a.flags.1.getD a.flags.2 = decide ("dstip" ∈ a.acc) := by
  unfold Accs.flags Accs.acc
  cases a.own <;> rfl

theorem meetsAny_cons (chained : Bool) (p : Policy) (policies : List Policy) :
    (looseAll chained (p :: policies)).any LooseLeaf.choosesDst =
      (meetsDst chained p || (looseAll chained policies).any LooseLeaf.choosesDst) := by
  rw [looseAll, List.any_append, meetsDst]

theorem step5aExpandAll_shared {policies : List Policy} (ih : ∀ p ∈ policies, ∀ a r,
      step5aExpandPolicyWithPrefixes s part p a = some r →
        r.2.flags = (a.flags.1.map (· || choosesDst p), a.flags.2 || meetsDst a.flags.1.isSome p))
    {r : List Policy × Accs} (h : step5aExpandAll s part policies a = some r) :
    r.2.flags.2 = (a.flags.2 || (looseAll a.flags.1.isSome policies).any LooseLeaf.choosesDst) := by
  induction policies generalizing a r with
  | nil =>
    obtain rfl := Option.some.inj h
    exact (Bool.or_false _).symm
  | cons p policies ihps =>
    obtain ⟨r₁, h₁, h⟩ := Option.bind_eq_some_iff.mp h
    obtain ⟨r₂, h₂, rfl⟩ := Option.map_eq_some_iff.mp h
    have hp := ih p List.mem_cons_self a r₁ h₁
    have hrest := ihps (fun q hq => ih q (List.mem_cons_of_mem p hq)) h₂
    rw [hp] at hrest
    rw [hrest, meetsAny_cons, Bool.or_assoc, Option.isSome_map]

theorem step5aExpand_flags {r : Policy × Accs}
    (h : step5aExpandPolicyWithPrefixes s part p a = some r) :
    r.2.flags = (a.flags.1.map (· || choosesDst p), a.flags.2 || meetsDst a.flags.1.isSome p) := by
  have hown : ∀ own : Option (List String), own.map (fun acc => decide ("dstip" ∈ acc)) =
      (own.map fun acc => decide ("dstip" ∈ acc)).map (· || false) := by
    intro own
    cases own <;> simp
  induction p generalizing a r with
  | parallel policies ih =>
    obtain ⟨r', h', rfl⟩ := Option.map_eq_some_iff.mp h
    have hall := step5aExpandAll_shared (fun p hp a r => ih p hp) h'
    exact Prod.ext (hown a.own) hall
  | sequential policies ih =>
    obtain ⟨r', h', rfl⟩ := Option.map_eq_some_iff.mp h
    have hall := step5aExpandAll_shared (fun p hp a r => ih p hp) h'
    exact Prod.ext (hown a.own) hall
  | ifThenElse pred t f hpred ht hf =>
    obtain ⟨r₁, h₁, h⟩ := Option.bind_eq_some_iff.mp h
    obtain ⟨r₂, h₂, h⟩ := Option.bind_eq_some_iff.mp h
    obtain ⟨r₃, h₃, rfl⟩ := Option.map_eq_some_iff.mp h
    have h₁ := congrArg Prod.snd (hpred h₁)
    have h₂ := congrArg Prod.snd (ht h₂)
    have h₃ := congrArg Prod.snd (hf h₃)
    refine Prod.ext (hown a.own) ?_
    rw [meetsDst, loose, List.any_append, List.any_append, ← Bool.or_assoc, ← Bool.or_assoc]
    exact h₃.trans (congrArg (· || _) (h₂.trans (congrArg (· || _) h₁)))
  | matching map =>
    obtain rfl := Option.some.inj h
    rw [choosesDst, meetsDst, loose]
    by_cases hd : "dstip" ∈ map.keys
    · rw [if_pos hd, if_pos hd, decide_eq_true hd]
      exact a.flags_append
    · rw [if_neg hd, if_neg hd, ite_self, decide_eq_false hd]
      exact Prod.ext (hown a.own) (Bool.or_false _).symm
  | matchPrefixesSet pfxes =>
    obtain rfl := Option.some.inj h
    exact a.flags_append
  | fwd outport =>
    have hkeep : r.2 = a := by
      rw [step5aExpandPolicyWithPrefixes] at h
      split_ifs at h
      · obtain rfl := Option.some.inj h
        rfl
      · obtain ⟨_, -, rfl⟩ := Option.map_eq_some_iff.mp h
        rfl
    rw [hkeep]
    refine Prod.ext (hown a.own) ?_
    rw [meetsDst, loose]
    cases a.flags.1 <;> exact (Bool.or_false _).symm
  | passthrough | drop | negate | modify =>
    obtain rfl := Option.some.inj h
    exact Prod.ext (hown a.own) (Bool.or_false _).symm

end lists

section runs
variable {ρ : Type*} [DecidableEq ρ] {H : Header ρ} {s : Setting} {part : String}
  {p p' : Policy} {policies policies' : List Policy} {tr out : Trace ρ}

theorem traced_leaf (h : p.IsLeaf) : traced H s part p p' = traceLeaf H s part p p' := by
  cases p <;> first | exact h.elim | rfl

theorem traced_parallel_cons :
    traced H s part (.parallel (p :: policies)) (.parallel (p' :: policies')) tr =
    traced H s part p p' tr ∪ traced H s part (.parallel policies) (.parallel policies') tr := by
  rw [traced, traced, tracedAll]
  rfl

theorem traced_sequential_cons :
    traced H s part (.sequential (p :: policies)) (.sequential (p' :: policies')) tr =
      (traced H s part p p' tr).biUnion
        (traced H s part (.sequential policies) (.sequential policies')) := by
  rw [traced, traced, tracedAll, PacketPolicy.sequential_cons]
  rfl

theorem traced_ifThenElse {pred t f pred' t' f' : Policy} :
    traced H s part (.ifThenElse pred t f) (.ifThenElse pred' t' f') tr =
      if traced H s part pred pred' tr = ∅ then traced H s part f f' tr
      else traced H s part t t' (enterBranch (traced H s part pred pred' tr) tr) := by
  rw [traced]

structure Guarded (H : Header ρ) (s : Setting) (part : String) (a : Accs) (p p' : Policy)
    (tr : Trace ρ) : Prop where
  frames : (traced H s part p p' tr).image Trace.frame = p'.eval H tr.frame
  guards : (a.flags.1 = some true → tr.tested = true) →
    traced H s part p p' tr = guarded H s part a.flags.1 a.flags.2 p tr
  keeps : tr.tested = true → ∀ out ∈ traced H s part p p' tr, out.tested = true

def OwnAnnounced (s : Setting) (part : String) (p : Policy) : Prop :=
  ∀ n ∈ p.outports, ∀ routes, s.announcedBy part n = some routes →
    ∀ pfx ∈ routes, pfx ∈ s.announcedAt part n

theorem ownAnnounced_members (h : ∀ n ∈ Policy.outportsList policies, ∀ routes,
      s.announcedBy part n = some routes → ∀ pfx ∈ routes, pfx ∈ s.announcedAt part n) :
    ∀ p ∈ policies, OwnAnnounced s part p := by
  intro p hp n hn
  rw [Policy.outportsList_eq] at h
  exact h n (List.mem_flatMap.mpr ⟨p, hp, hn⟩)

theorem traceLeaf_frames : (traceLeaf H s part p p' tr).image Trace.frame = p'.eval H tr.frame := by
  rw [traceLeaf, Finset.image_image]
  refine Eq.trans (Finset.image_congr fun frame _ => ?_) Finset.image_id
  cases p <;> rfl

theorem guarded_leaf {a : Accs} (hleaf : p.IsLeaf) (hfwd : ∀ n, p ≠ .fwd n) (tr : Trace ρ) :
    Guarded H s part a p p tr where
  frames := by rw [traced_leaf hleaf, traceLeaf_frames]
  guards := fun _ => by
    rw [traced_leaf hleaf]
    cases p <;> first | exact hleaf.elim | exact absurd rfl (hfwd _) | rfl
  keeps := fun htested out hout => by
    rw [traced_leaf hleaf] at hout
    obtain ⟨frame, -, rfl⟩ := Finset.mem_image.mp hout
    cases p <;> first
      | exact absurd rfl (hfwd _)
      | exact (Bool.or_eq_true _ _).mpr (Or.inl htested)

theorem traced_chooses {a : Accs} {r : Policy × Accs}
    (h : step5aExpandPolicyWithPrefixes s part p a = some r) (hchooses : choosesDst p = true)
    (hout : out ∈ traced H s part p r.1 tr) : out.tested = true := by
  cases p with
  | matching map =>
    obtain ⟨frame, -, rfl⟩ := Finset.mem_image.mp hout
    exact (Bool.or_eq_true _ _).mpr (Or.inr hchooses)
  | matchPrefixesSet pfxes =>
    obtain ⟨frame, -, rfl⟩ := Finset.mem_image.mp hout
    exact (Bool.or_eq_true _ _).mpr (Or.inr rfl)
  | _ => exact absurd hchooses Bool.false_ne_true

theorem eval_guard {routes : List String} {outport : ℕ} {pkt : Frame ρ} :
    (Policy.sequential [.matchPrefixesSet routes.toFinset, .fwd outport]).eval H pkt =
      if H.prefixOf pkt.header ∈ routes then {pkt.write H "outport" (.num outport)} else ∅ := by
  have hset : (Policy.matchPrefixesSet routes.toFinset).eval H pkt =
      if H.prefixOf pkt.header ∈ routes then {pkt} else ∅ := by
    rw [Policy.eval, PacketPolicy.filter]
    simp only [List.mem_toFinset, decide_eq_true_eq]
  rw [Policy.eval_sequential_cons, hset]
  split_ifs
  · rw [Finset.singleton_biUnion, Policy.eval_sequential_cons]
    exact Finset.singleton_biUnion
  · exact Finset.biUnion_empty

theorem guarded_fwd {outport : ℕ} {a : Accs} {r : Policy × Accs}
    (hann : OwnAnnounced s part (.fwd outport))
    (h : step5aExpandPolicyWithPrefixes s part (.fwd outport) a = some r) (tr : Trace ρ) :
    Guarded H s part a (.fwd outport) r.1 tr where
  frames := by rw [traced_leaf (p := .fwd outport) trivial, traceLeaf_frames]
  guards := fun htested => by
    rw [traced_leaf (p := .fwd outport) trivial, traceLeaf, guarded, guardedFwd, a.flags_acc]
    rw [step5aExpandPolicyWithPrefixes] at h
    by_cases hd : "dstip" ∈ a.acc
    · rw [if_pos hd] at h
      obtain rfl := Option.some.inj h
      have hpath : a.flags.1.isNone = true ∨ tr.tested = true := by
        cases hown : a.flags.1 with
        | none => exact Or.inl rfl
        | some own =>
          have hacc := a.flags_acc
          rw [hown, Option.getD_some, decide_eq_true hd] at hacc
          exact Or.inr (htested (hacc ▸ hown))
      rw [if_pos (decide_eq_true hd), Policy.eval, PacketPolicy.modify, Finset.image_singleton]
      rcases hpath with h | h
      · rw [h, Bool.true_and]
      · simp [h]
    · rw [if_neg hd] at h
      obtain ⟨routes, hroutes, rfl⟩ := Option.map_eq_some_iff.mp h
      rw [if_neg (by simpa using hd), hroutes, Option.getD_some, eval_guard]
      split_ifs with hpfx
      · have hown := hann outport (List.mem_singleton_self _) routes hroutes _ hpfx
        rw [Finset.image_singleton]
        simp [hown]
      · rfl
  keeps := fun htested out hout => by
    rw [traced_leaf (p := .fwd outport) trivial] at hout
    obtain ⟨frame, -, rfl⟩ := Finset.mem_image.mp hout
    exact htested

section lists
variable {a : Accs} {r : List Policy × Accs}

theorem guarded_parallel (ih : ∀ p ∈ policies, ∀ (a : Accs) (r : Policy × Accs),
      step5aExpandPolicyWithPrefixes s part p a = some r → ∀ tr : Trace ρ, Guarded H s part a p r.1 tr)
    (hown : a.flags.1 = none) (h : step5aExpandAll s part policies a = some r) (tr : Trace ρ) :
    (traced H s part (.parallel policies) (.parallel r.1) tr).image Trace.frame =
        (Policy.parallel r.1).eval H tr.frame ∧
      traced H s part (.parallel policies) (.parallel r.1) tr =
        guardedParallel H s part a.flags.2 policies tr ∧
      (tr.tested = true →
        ∀ out ∈ traced H s part (.parallel policies) (.parallel r.1) tr, out.tested = true) := by
  induction policies generalizing a r with
  | nil =>
    obtain rfl := Option.some.inj h
    exact ⟨rfl, rfl, fun _ out hout => absurd hout (Finset.notMem_empty out)⟩
  | cons p policies ihps =>
    obtain ⟨r₁, h₁, h⟩ := Option.bind_eq_some_iff.mp h
    obtain ⟨r₂, h₂, rfl⟩ := Option.map_eq_some_iff.mp h
    have hflags := step5aExpand_flags h₁
    rw [hown] at hflags
    obtain ⟨hframes, hguards, hkeeps⟩ := ih p List.mem_cons_self a r₁ h₁ tr
    obtain ⟨hframes', hguards', hkeeps'⟩ :=
      ihps (fun q hq => ih q (List.mem_cons_of_mem p hq)) (congrArg Prod.fst hflags) h₂
    refine ⟨?_, ?_, fun htested out hout => ?_⟩
    · rw [traced_parallel_cons, Finset.image_union, hframes, hframes']
      rfl
    · rw [hown] at hguards
      rw [hflags] at hguards'
      rw [traced_parallel_cons, hguards (fun h => absurd h (by simp)), hguards']
      rfl
    · rw [traced_parallel_cons] at hout
      rcases Finset.mem_union.mp hout with hout | hout
      · exact hkeeps htested out hout
      · exact hkeeps' htested out hout

theorem guarded_chain (ih : ∀ p ∈ policies, ∀ (a : Accs) (r : Policy × Accs),
      step5aExpandPolicyWithPrefixes s part p a = some r → ∀ tr : Trace ρ, Guarded H s part a p r.1 tr)
    {own : Bool} (hown : a.flags.1 = some own) (h : step5aExpandAll s part policies a = some r)
    (tr : Trace ρ) :
    (traced H s part (.sequential policies) (.sequential r.1) tr).image Trace.frame =
        (Policy.sequential r.1).eval H tr.frame ∧
      ((own = true → tr.tested = true) →
        traced H s part (.sequential policies) (.sequential r.1) tr =
          guardedChain H s part own a.flags.2 policies tr) ∧
      (tr.tested = true →
        ∀ out ∈ traced H s part (.sequential policies) (.sequential r.1) tr, out.tested = true) := by
  induction policies generalizing a r own tr with
  | nil =>
    obtain rfl := Option.some.inj h
    exact ⟨rfl, fun _ => rfl, fun htested out hout => Finset.mem_singleton.mp hout ▸ htested⟩
  | cons p policies ihps =>
    obtain ⟨r₁, h₁, h⟩ := Option.bind_eq_some_iff.mp h
    obtain ⟨r₂, h₂, rfl⟩ := Option.map_eq_some_iff.mp h
    have hflags := step5aExpand_flags h₁
    rw [hown] at hflags
    obtain ⟨hframes, hguards, hkeeps⟩ := ih p List.mem_cons_self a r₁ h₁ tr
    have hrest := ihps (fun q hq => ih q (List.mem_cons_of_mem p hq)) (congrArg Prod.fst hflags) h₂
    refine ⟨?_, fun htested => ?_, fun htested out hout => ?_⟩
    · rw [traced_sequential_cons, Policy.eval_sequential_cons, ← hframes, Finset.image_biUnion,
        Finset.biUnion_image]
      exact Finset.biUnion_congr rfl fun mid _ => (hrest mid).1
    · have hguards := hguards fun h => htested (Option.some.inj (hown.symm.trans h))
      rw [hown] at hguards
      rw [traced_sequential_cons, guardedChain, PacketPolicy.andThen, ← hguards]
      refine Finset.biUnion_congr rfl fun mid hmid => ?_
      have hmid' : (own || choosesDst p) = true → mid.tested = true := by
        intro hor
        rcases (Bool.or_eq_true _ _).mp hor with hold | hchooses
        · exact hkeeps (htested hold) mid hmid
        · exact traced_chooses h₁ hchooses hmid
      rw [(hrest mid).2.1 hmid', hflags]
      rfl
    · rw [traced_sequential_cons] at hout
      obtain ⟨mid, hmid, hout⟩ := Finset.mem_biUnion.mp hout
      exact (hrest mid).2.2 (hkeeps htested mid hmid) out hout

end lists

theorem step5aExpand_guarded (p : Policy) (hann : OwnAnnounced s part p) (a : Accs)
    (r : Policy × Accs) (h : step5aExpandPolicyWithPrefixes s part p a = some r) (tr : Trace ρ) :
    Guarded H s part a p r.1 tr := by
  induction p generalizing a r tr with
  | parallel policies ih =>
    obtain ⟨r', h', rfl⟩ := Option.map_eq_some_iff.mp h
    obtain ⟨hframes, hguards, hkeeps⟩ := guarded_parallel (a := ⟨a.shared, none⟩)
      (fun p hp => ih p hp (ownAnnounced_members hann p hp)) rfl h' tr
    exact ⟨hframes, fun _ => hguards, hkeeps⟩
  | sequential policies ih =>
    obtain ⟨r', h', rfl⟩ := Option.map_eq_some_iff.mp h
    obtain ⟨hframes, hguards, hkeeps⟩ := guarded_chain (a := ⟨a.shared, some []⟩)
      (fun p hp => ih p hp (ownAnnounced_members hann p hp)) rfl h' tr
    exact ⟨hframes, fun _ => hguards (fun h => absurd h (by simp)), hkeeps⟩
  | ifThenElse pred t f hpred ht hf =>
    obtain ⟨r₁, h₁, h⟩ := Option.bind_eq_some_iff.mp h
    obtain ⟨r₂, h₂, h⟩ := Option.bind_eq_some_iff.mp h
    obtain ⟨r₃, h₃, rfl⟩ := Option.map_eq_some_iff.mp h
    simp only [OwnAnnounced, Policy.outports, List.mem_append, or_imp, forall_and] at hann
    have hs₁ : r₁.2.flags.2 = (a.flags.2 || meetsDst false pred) :=
      congrArg Prod.snd (step5aExpand_flags h₁)
    have hs₂ : r₂.2.flags.2 = (r₁.2.flags.2 || meetsDst false t) :=
      congrArg Prod.snd (step5aExpand_flags h₂)
    have hp₁ := hpred hann.1.1 _ r₁ h₁ tr
    have hp₂ := fun tr => ht hann.1.2 _ r₂ h₂ tr
    have hp₃ := hf hann.2 _ r₃ h₃ tr
    have hempty : traced H s part pred r₁.1 tr = ∅ ↔ r₁.1.eval H tr.frame = ∅ := by
      rw [← hp₁.frames, Finset.image_eq_empty]
    have hnone : ∀ b : Bool, (none : Option Bool) = some true → b = true := fun _ h => by cases h
    refine ⟨?_, fun _ => ?_, fun htested out hout => ?_⟩
    · rw [traced_ifThenElse, Policy.eval_ifThenElse]
      by_cases he : traced H s part pred r₁.1 tr = ∅
      · rw [if_pos he, if_pos (hempty.mp he), hp₃.frames]
      · rw [if_neg he, if_neg fun h => he (hempty.mpr h), (hp₂ _).frames]
        rfl
    · rw [traced_ifThenElse, hp₁.guards (hnone _), (hp₂ _).guards (hnone _),
        hp₃.guards (hnone _)]
      change (if _ = ∅ then guarded H s part none r₂.2.flags.2 f tr
        else guarded H s part none r₁.2.flags.2 t _) = _
      rw [hs₂, hs₁]
      rfl
    · rw [traced_ifThenElse] at hout
      split_ifs at hout
      · exact hp₃.keeps htested out hout
      · exact (hp₂ _).keeps ((Bool.or_eq_true _ _).mpr (Or.inl htested)) out hout
  | fwd outport => exact guarded_fwd hann h tr
  | passthrough | drop | matching | negate | matchPrefixesSet | modify =>
    obtain rfl := Option.some.inj h
    refine guarded_leaf ?_ (fun _ => Policy.noConfusion) tr
    exact trivial

theorem ownAnnounced_of_sees (hports : ∀ n ∈ p.outports, s.Sees part n) : OwnAnnounced s part p := by
  intro n hn routes hroutes pfx hpfx
  obtain ⟨peers, hpeers, kv, hkv, hmem⟩ := hports n hn
  obtain ⟨found, hfound⟩ : ∃ found, peers.items.find? (fun kv => n ∈ kv.2) = some found :=
    Option.isSome_iff_exists.mp (List.find?_isSome.mpr ⟨kv, hkv, by simpa using hmem⟩)
  have howns : n ∈ found.2 := by simpa using List.find?_some hfound
  rw [Setting.announcedBy, hpeers, Option.bind_some, getFwdPeer, hfound, Option.map_some,
    Option.getD_some] at hroutes
  rw [Setting.announcedAt, hpeers, Option.elim_some]
  refine List.mem_flatMap.mpr ⟨found, ?_, ?_⟩
  · exact List.mem_filter.mpr ⟨List.mem_of_find?_eq_some hfound, by simpa using howns⟩
  · rw [hroutes]
    exact hpfx

/-- Every packet that is forwarded has a destination prefix that the port's owners announced,
unless it passed a test of the policy on the way. -/
def NeverAstray (H : Header ρ) (s : Setting) (part : String) (policy expanded : Policy) : Prop :=
  ∀ pkt, ∀ out ∈ traced H s part policy expanded (.start pkt), out.astray = false

/-- No packet takes its last forwarding action, untested, outside of a chain and after a test
outside of chains elsewhere, to a port whose owners did not announce its prefix. -/
def NeverBare (H : Header ρ) (s : Setting) (part : String) (policy : Policy) : Prop :=
  ∀ pkt, ∀ out ∈ guarded H s part none false policy (.start pkt), out.astray = false

/-- In a fresh process: it is the forwarding actions left bare outside of chains that can
send packets astray. -/
theorem step5a_neverAstray_iff {upper : String → String} {config : Dict String ParticipantConfig}
    (hparse : sdxParseConfig upper config = some s.sdx) (hclients : s.rsClients.keys = config.keys)
    {X : String} (hX : X ∈ config.keys) {policy : Policy} (hports : ∀ n ∈ policy.outports, s.Sees X n) :
    ∃ r, step5a s policy X false [] = some r ∧
      (∀ pkt, (traced H s X policy r.1 (.start pkt)).image Trace.frame = r.1.eval H pkt) ∧
      (NeverAstray H s X policy r.1 ↔ NeverBare H s X policy) := by
  obtain ⟨r, hr⟩ := step5aExpand_total policy (known_of_sees hparse hclients hX hports) ⟨[], none⟩
  have hguarded := fun pkt => step5aExpand_guarded (H := H) policy (ownAnnounced_of_sees hports) _ r hr
    (.start pkt)
  refine ⟨(r.1, r.2.shared), by rw [step5a_default, hr, Option.map_some], fun pkt =>
    (hguarded pkt).frames, forall_congr' fun pkt => ?_⟩
  rw [(hguarded pkt).guards fun h => nomatch h]
  exact Iff.rfl

end runs

def onePrefixAside : Policy := .ifThenElse (.matchPrefixesSet {"10.0.0.0/8"}) (.fwd 1) (.fwd 2)

theorem sees_onePrefixAside : ∀ n ∈ onePrefixAside.outports, twoAnnouncers.Sees "A" n := by
  intro n hn
  refine ⟨⟨[("A", [1]), ("B", [2])], by decide⟩, by decide, ?_⟩
  rcases List.mem_cons.mp hn with rfl | hn
  · exact ⟨("A", [1]), by decide, by decide⟩
  · obtain rfl := List.mem_singleton.mp hn
    exact ⟨("B", [2]), by decide, by decide⟩

theorem step5a_neverAstray_iff_onePrefixAside : ∃ r,
    step5a twoAnnouncers onePrefixAside "A" false [] = some r ∧
    (∀ pkt, (traced prefixHeader twoAnnouncers "A" onePrefixAside r.1 (.start pkt)).image Trace.frame =
      r.1.eval prefixHeader pkt) ∧
    (NeverAstray prefixHeader twoAnnouncers "A" onePrefixAside r.1 ↔
      NeverBare prefixHeader twoAnnouncers "A" onePrefixAside) :=
  step5a_neverAstray_iff installed_restrictedPolicies.parsed installed_restrictedPolicies.clients
    (by decide) sees_onePrefixAside

theorem step5a_onePrefixAside : sdxParseConfig id twoConfig = some twoAnnouncers.sdx ∧
    twoAnnouncers.rsClients.keys = twoConfig.keys ∧ "A" ∈ twoConfig.keys ∧
    (∀ n ∈ onePrefixAside.outports, twoAnnouncers.Sees "A" n) ∧
    ∃ r, step5a twoAnnouncers onePrefixAside "A" false [] = some r ∧
      ¬ NeverAstray prefixHeader twoAnnouncers "A" onePrefixAside r.1 := by
  refine ⟨by decide, by decide, by decide, sees_onePrefixAside,
    (onePrefixAside, ["dstip"]), rfl, fun hnever => ?_⟩
  have hstopped : traced prefixHeader twoAnnouncers "A" (.matchPrefixesSet {"10.0.0.0/8"})
      (.matchPrefixesSet {"10.0.0.0/8"}) (.start ⟨none, none, none, "40.0.0.0/8"⟩) = ∅ := by decide
  have hnever := hnever ⟨none, none, none, "40.0.0.0/8"⟩ ⟨⟨some (.num 2), none, none, "40.0.0.0/8"⟩,
    false, true⟩
  rw [onePrefixAside, traced_ifThenElse, if_pos hstopped] at hnever
  exact absurd (hnever (by decide)) (by decide)

end Hispar.VnhAssignment
