import Hispar.VnhAssignment.NextHops

/-!
# The predicate in front of the default routes

The matches that a policy writes are collected into one predicate: packets that
pass it are left to the policy, and all others to the default routes. Members
without a match are skipped, and a member with one must not come after a first
member without.
-/
namespace Hispar.VnhAssignment
open Library Exchange

def union (p q : Policy) : Policy := .parallel [p, q]

def intersection (p q : Policy) : Policy := .sequential [p, q]

mutual
def extractAllMatchesFromPolicy : Policy → Option (Option Policy)
  | .parallel [] | .sequential [] => none
  | .parallel (p :: policies) => (extractAllMatchesFromPolicy p).bind fun first =>
      extractRest union policies first
  | .sequential (p :: policies) => (extractAllMatchesFromPolicy p).bind fun first =>
      extractRest intersection policies first
  | .ifThenElse pred _ _ => some (some pred)
  | .matching map => some (some (.matching map))
  | _ => some none

/-- The members after the first. An operator raises where its left side is `None`. -/
def extractRest (join : Policy → Policy → Policy) :
    List Policy → Option Policy → Option (Option Policy)
  | [], p => some p
  | sub :: policies, p => (extractAllMatchesFromPolicy sub).bind fun
    | none => extractRest join policies p
    | some ans => p.bind fun p => extractRest join policies (some (join p ans))
end

section step
variable (hα : Hashing String) (hm : Hashing ℕ) (s : Setting) (sdx : SDX String)

def defaultVnhopPolicy (participant : String) : Option Policy :=
  (Bgp.bgpGetBestRoutes s.sdx s.rsClients participant).bind fun bestRoutes =>
    (getDefaultForwardingPolicy bestRoutes participant s.sdx.participant2Port).bind
      (step5bExpandPolicyWithVnhop hα hm sdx participant)

def step5b (policy : Policy) (participant : String) : Option Policy :=
  (step5bExpandPolicyWithVnhop hα hm sdx participant policy).bind fun expanded =>
    (extractAllMatchesFromPolicy expanded).bind fun
      | none => some expanded
      | some policyMatches =>
        if participant ∈ s.sdx.participants.keys then
          (defaultVnhopPolicy hα hm s sdx participant).map fun bgp =>
            .ifThenElse policyMatches expanded bgp
        else some expanded

end step

mutual
def hasMatch : Policy → Bool
  | .matching _ | .ifThenElse _ _ _ => true
  | .parallel policies | .sequential policies => hasMatchAny policies
  | _ => false

def hasMatchAny : List Policy → Bool
  | [] => false
  | p :: policies => hasMatch p || hasMatchAny policies
end

mutual
def FirstHasMatch : Policy → Prop
  | .parallel [] | .sequential [] => False
  | .parallel (p :: policies) | .sequential (p :: policies) =>
    FirstHasMatch p ∧ FirstHasMatchAll policies ∧ (hasMatchAny policies = true → hasMatch p = true)
  | _ => True

def FirstHasMatchAll : List Policy → Prop
  | [] => True
  | p :: policies => FirstHasMatch p ∧ FirstHasMatchAll policies
end

section written
variable {ρ : Type*} [DecidableEq ρ] (H : Header ρ)

mutual
/-- The matches of the tree: of one member in parallel, of all in a sequence, and of an
`if_` the condition. Members without a match do not count. -/
def written : Policy → PacketPolicy (Frame ρ)
  | .matching map => PacketPolicy.filter (Frame.testAll H map)
  | .ifThenElse pred _ _ => pred.eval H
  | .parallel policies => PacketPolicy.parallel (writtenList policies)
  | .sequential policies => PacketPolicy.sequential (writtenList policies)
  | _ => PacketPolicy.passthrough

def writtenList : List Policy → List (PacketPolicy (Frame ρ))
  | [] => []
  | p :: policies => if hasMatch p then written p :: writtenList policies else writtenList policies
end

def asked (policy : Policy) : PacketPolicy (Frame ρ) :=
  if hasMatch policy then written H policy else PacketPolicy.passthrough

def Outcome (described : Prop) (any : Bool) (meaning : PacketPolicy (Frame ρ)) :
    Option (Option Policy) → Prop
  | none => ¬ described
  | some none => described ∧ any = false
  | some (some q) => described ∧ any = true ∧ q.eval H = meaning

def Extracted (policy : Policy) : Prop :=
  Outcome H (FirstHasMatch policy) (hasMatch policy) (written H policy)
    (extractAllMatchesFromPolicy policy)

variable {H}

section join
variable {join : Policy → Policy → Policy}
  {op : PacketPolicy (Frame ρ) → PacketPolicy (Frame ρ) → PacketPolicy (Frame ρ)}
  {all : List (PacketPolicy (Frame ρ)) → PacketPolicy (Frame ρ)}
  {policies : List Policy}

theorem extractRest_some (hjoin : ∀ p q, (join p q).eval H = op (p.eval H) (q.eval H))
    (hassoc : ∀ p q r, op (op p q) r = op p (op q r)) (hnil : ∀ p, op p (all []) = p)
    (hcons : ∀ p ps, all (p :: ps) = op p (all ps)) (hpolicies : ∀ p ∈ policies, Extracted H p)
    (p : Policy) : Outcome H (FirstHasMatchAll policies) true
      (op (p.eval H) (all (writtenList H policies))) (extractRest join policies (some p)) := by
  induction policies generalizing p with
  | nil => exact ⟨trivial, rfl, (hnil _).symm⟩
  | cons sub policies ih =>
    obtain ⟨hsub, hrest⟩ := List.forall_mem_cons.mp hpolicies
    have ih := ih hrest
    rw [Extracted] at hsub
    rw [extractRest, FirstHasMatchAll, writtenList]
    cases ho : extractAllMatchesFromPolicy sub with
    | none =>
      rw [ho] at hsub
      exact fun h => hsub h.1
    | some o =>
      rw [ho] at hsub
      cases o with
      | none =>
        obtain ⟨hdescribed, hno⟩ := hsub
        simp only [hno, Bool.false_eq_true, if_false, hdescribed, true_and]
        exact ih p
      | some ans =>
        obtain ⟨hdescribed, hyes, heval⟩ := hsub
        have ih := ih (join p ans)
        rw [hjoin, hassoc, heval, ← hcons] at ih
        simp only [hyes, if_true, hdescribed, true_and]
        exact ih

theorem extractRest_none (join : Policy → Policy → Policy) (hpolicies : ∀ p ∈ policies, Extracted H p)
    (meaning : PacketPolicy (Frame ρ)) :
    Outcome H (FirstHasMatchAll policies ∧ hasMatchAny policies = false) false meaning
      (extractRest join policies none) := by
  induction policies with
  | nil => exact ⟨⟨trivial, rfl⟩, rfl⟩
  | cons sub policies ih =>
    obtain ⟨hsub, hrest⟩ := List.forall_mem_cons.mp hpolicies
    have ih := ih hrest
    rw [Extracted] at hsub
    rw [extractRest, FirstHasMatchAll, hasMatchAny]
    cases ho : extractAllMatchesFromPolicy sub with
    | none =>
      rw [ho] at hsub
      exact fun h => hsub h.1.1
    | some o =>
      rw [ho] at hsub
      cases o with
      | none =>
        obtain ⟨hdescribed, hno⟩ := hsub
        simp only [hno, Bool.false_or, hdescribed, true_and]
        exact ih
      | some ans =>
        refine fun h => absurd h.2 ?_
        rw [hsub.2.1, Bool.true_or]
        exact Bool.true_eq_false_eq_False

theorem extractNode_spec
    (op : PacketPolicy (Frame ρ) → PacketPolicy (Frame ρ) → PacketPolicy (Frame ρ))
    (all : List (PacketPolicy (Frame ρ)) → PacketPolicy (Frame ρ))
    (hjoin : ∀ p q, (join p q).eval H = op (p.eval H) (q.eval H))
    (hassoc : ∀ p q r, op (op p q) r = op p (op q r)) (hnil : ∀ p, op p (all []) = p)
    (hcons : ∀ p ps, all (p :: ps) = op p (all ps)) {p : Policy}
    (hpolicies : ∀ p' ∈ p :: policies, Extracted H p') :
    Outcome H (FirstHasMatch p ∧ FirstHasMatchAll policies ∧
        (hasMatchAny policies = true → hasMatch p = true)) (hasMatchAny (p :: policies))
      (all (writtenList H (p :: policies)))
      ((extractAllMatchesFromPolicy p).bind fun first => extractRest join policies first) := by
  obtain ⟨hp, hrest⟩ := List.forall_mem_cons.mp hpolicies
  rw [Extracted] at hp
  rw [hasMatchAny, writtenList]
  cases ho : extractAllMatchesFromPolicy p with
  | none =>
    rw [ho] at hp
    exact fun h => hp h.1
  | some first =>
    rw [ho] at hp
    rw [Option.bind_some]
    cases first with
    | none =>
      obtain ⟨hdescribed, hno⟩ := hp
      have hloop := extractRest_none join hrest
        (all (if hasMatch p = true then written H p :: writtenList H policies
          else writtenList H policies))
      simp only [hno, hdescribed, true_and, Bool.false_or, Bool.false_eq_true, if_false,
        imp_false, Bool.not_eq_true] at hloop ⊢
      cases hr : extractRest join policies none with
      | none =>
        rw [hr] at hloop
        exact hloop
      | some r =>
        rw [hr] at hloop
        cases r with
        | none => exact ⟨hloop.1, hloop.1.2⟩
        | some q => exact absurd hloop.2.1 Bool.false_ne_true
    | some q =>
      obtain ⟨hdescribed, hyes, heval⟩ := hp
      have hloop := extractRest_some hjoin hassoc hnil hcons hrest q
      simp only [hyes, hdescribed, true_and, Bool.true_or, if_true, implies_true, and_true, hcons,
        ← heval]
      exact hloop

end join

theorem extractAllMatches_spec (policy : Policy) : Extracted H policy := by
  induction policy with
  | parallel policies ih =>
    cases policies with
    | nil => exact fun h => h
    | cons p policies =>
      refine extractNode_spec PacketPolicy.union PacketPolicy.parallel
        (fun p q => ?_) (fun p q r => ?_) (fun p => ?_) (fun p ps => rfl) ih
      · funext pkt
        exact congrArg (p.eval H pkt ∪ ·) (Finset.union_empty _)
      · funext pkt
        exact Finset.union_assoc _ _ _
      · funext pkt
        exact Finset.union_empty _
  | sequential policies ih =>
    cases policies with
    | nil => exact fun h => h
    | cons p policies =>
      refine extractNode_spec PacketPolicy.andThen PacketPolicy.sequential
        (fun p q => ?_) PacketPolicy.andThen_assoc (fun p => ?_) PacketPolicy.sequential_cons ih
      · exact congrArg (PacketPolicy.andThen · _) PacketPolicy.passthrough_andThen
      · funext pkt
        exact Finset.biUnion_singleton_eq_self
  | ifThenElse pred t f _ _ _ => exact ⟨trivial, rfl, rfl⟩
  | matching map => exact ⟨trivial, rfl, rfl⟩
  | passthrough | drop | negate | matchPrefixesSet | modify | fwd => exact ⟨trivial, rfl⟩

variable (H)

def Described (policy : Policy) (pkt : Frame ρ) : Prop :=
  hasMatch policy = true → written H policy pkt ≠ ∅

/-- A place where the policy takes a packet and the predicate does not. The matches see the
packet `o`, and the policy the packet `c` that the members in front have made of it. -/
inductive LeftOut : Policy → Frame ρ → Frame ρ → Prop
  | rewritten {map : Dict String Value} {o c : Frame ρ} (fails : ¬ o.testAll H map)
      (passes : c.testAll H map) : LeftOut (.matching map) o c
  | branch {pred t f : Policy} {o c : Frame ρ} (fails : pred.eval H o = ∅)
      (taken : (Policy.ifThenElse pred t f).eval H c ≠ ∅) : LeftOut (.ifThenElse pred t f) o c
  | unmatched {policies : List Policy} {p : Policy} {o c : Frame ρ} (hp : p ∈ policies)
      (beside : hasMatchAny policies) (without : hasMatch p = false) (taken : p.eval H c ≠ ∅) :
      LeftOut (.parallel policies) o c
  | member {policies : List Policy} {p : Policy} {o c : Frame ρ} (hp : p ∈ policies)
      (place : LeftOut p o c) : LeftOut (.parallel policies) o c
  | chain {before after : List Policy} {p : Policy} {o o' c c' : Frame ρ}
      (seen : o' ∈ PacketPolicy.sequential (before.map (asked H)) o)
      (sent : c' ∈ (Policy.sequential before).eval H c) (place : LeftOut p o' c')
      (taken : (Policy.sequential (p :: after)).eval H c' ≠ ∅) :
      LeftOut (.sequential (before ++ p :: after)) o c

/-- A place where the policy stops a packet that the matches describe. -/
inductive Stopped : Policy → Frame ρ → Frame ρ → Prop
  | rewritten {map : Dict String Value} {o c : Frame ρ} (passes : o.testAll H map)
      (fails : ¬ c.testAll H map) : Stopped (.matching map) o c
  | branch {pred t f : Policy} {o c : Frame ρ} (passes : pred.eval H o ≠ ∅)
      (stops : (Policy.ifThenElse pred t f).eval H c = ∅) : Stopped (.ifThenElse pred t f) o c
  | unmatched {p : Policy} {o c : Frame ρ} (without : hasMatch p = false) (stops : p.eval H c = ∅) :
      Stopped p o c
  | member {policies : List Policy} {p : Policy} {o c : Frame ρ} (hp : p ∈ policies)
      (asks : hasMatch p) (place : Stopped p o c) : Stopped (.parallel policies) o c
  | chain {before after : List Policy} {p : Policy} {o o' c c' : Frame ρ}
      (seen : o' ∈ PacketPolicy.sequential (before.map (asked H)) o)
      (passes : PacketPolicy.sequential ((p :: after).map (asked H)) o' ≠ ∅)
      (sent : c' ∈ (Policy.sequential before).eval H c) (place : Stopped p o' c') :
      Stopped (.sequential (before ++ p :: after)) o c

variable {H} {policies : List Policy} {p : Policy} {o c : Frame ρ}

theorem hasMatchAny_iff : hasMatchAny policies = true ↔ ∃ p ∈ policies, hasMatch p = true := by
  induction policies with
  | nil => simp [hasMatchAny]
  | cons p policies ih => simp [hasMatchAny, ih]

theorem mem_writtenList {q : PacketPolicy (Frame ρ)} : q ∈ writtenList H policies ↔
    ∃ p ∈ policies, hasMatch p = true ∧ written H p = q := by
  induction policies with
  | nil => simp [writtenList]
  | cons p policies ih =>
    rw [writtenList]
    by_cases hp : hasMatch p = true
    · rw [if_pos hp, List.mem_cons, ih, List.exists_mem_cons_iff, and_iff_right hp,
        eq_comm (a := q)]
    · rw [if_neg hp, ih, List.exists_mem_cons_iff]
      exact (or_iff_right fun h => hp h.1).symm

theorem sequential_writtenList (policies : List Policy) :
    PacketPolicy.sequential (writtenList H policies) =
      PacketPolicy.sequential (policies.map (asked H)) := by
  induction policies with
  | nil => rfl
  | cons p policies ih =>
    rw [writtenList, List.map_cons, PacketPolicy.sequential_cons, asked]
    split_ifs
    · rw [PacketPolicy.sequential_cons, ih]
    · rw [PacketPolicy.passthrough_andThen, ih]

theorem eval_sequential (policies : List Policy) :
    (Policy.sequential policies).eval H = PacketPolicy.sequential (policies.map (Policy.eval H)) := by
  rw [Policy.eval, Policy.evalList_eq]

theorem hasMatch_of_asked (h : asked H p o = ∅) :
    hasMatch p = true ∧ written H p o = ∅ := by
  rw [asked] at h
  split_ifs at h with hp
  · exact ⟨hp, h⟩
  · exact absurd h (Finset.singleton_ne_empty o)

theorem asked_sequential_ne_empty
    (h : PacketPolicy.sequential (policies.map (asked H)) o ≠ ∅) :
    asked H (.sequential policies) o ≠ ∅ := by
  rw [asked]
  split_ifs
  · rwa [written, sequential_writtenList]
  · exact Finset.singleton_ne_empty o

theorem described_iff : Described H p o ↔ asked H p o ≠ ∅ := by
  rw [Described, asked]
  split_ifs with hmatch
  · exact forall_prop_of_true hmatch
  · exact iff_of_true (fun h => absurd h hmatch) (Finset.singleton_ne_empty o)

theorem LeftOut.taken (h : LeftOut H p o c) : p.eval H c ≠ ∅ := by
  induction h with
  | rewritten fails passes =>
    rw [Policy.eval, PacketPolicy.filter_pass passes]
    exact Finset.singleton_ne_empty _
  | branch fails taken => exact taken
  | unmatched hp beside without taken =>
    obtain ⟨out, hout⟩ := Finset.nonempty_iff_ne_empty.mpr taken
    exact Finset.ne_empty_of_mem (Policy.mem_eval_parallel.mpr ⟨_, hp, hout⟩)
  | member hp place ih =>
    obtain ⟨out, hout⟩ := Finset.nonempty_iff_ne_empty.mpr ih
    exact Finset.ne_empty_of_mem (Policy.mem_eval_parallel.mpr ⟨_, hp, hout⟩)
  | chain seen sent place taken ih =>
    rw [eval_sequential] at sent taken ⊢
    rw [List.map_append, PacketPolicy.sequential_append, PacketPolicy.andThen_ne_empty]
    exact ⟨_, sent, taken⟩

theorem leftOut_of_taken (ho : asked H p o = ∅) (hc : p.eval H c ≠ ∅) : LeftOut H p o c := by
  induction p generalizing o c with
  | matching map =>
    obtain ⟨-, ho⟩ := hasMatch_of_asked ho
    refine .rewritten (fun hpass => ?_) ?_
    · rw [written, PacketPolicy.filter_pass hpass] at ho
      exact Finset.singleton_ne_empty o ho
    · by_contra hfail
      exact hc (PacketPolicy.filter_stop (by simpa using hfail))
  | ifThenElse pred t f _ _ _ => exact .branch (hasMatch_of_asked ho).2 hc
  | parallel policies ih =>
    obtain ⟨hmatch, ho⟩ := hasMatch_of_asked ho
    obtain ⟨out, hout⟩ := Finset.nonempty_iff_ne_empty.mpr hc
    obtain ⟨p, hp, hout⟩ := Policy.mem_eval_parallel.mp hout
    have htaken : p.eval H c ≠ ∅ := Finset.ne_empty_of_mem hout
    by_cases hpm : hasMatch p = true
    · refine .member hp (ih p hp ?_ htaken)
      rw [asked, if_pos hpm, Finset.eq_empty_iff_forall_notMem]
      intro x hx
      have hx' : x ∈ written H (.parallel policies) o :=
        PacketPolicy.mem_parallel.mpr ⟨_, mem_writtenList.mpr ⟨p, hp, hpm, rfl⟩, hx⟩
      exact Finset.notMem_empty x (ho ▸ hx')
    · exact .unmatched hp hmatch (by simpa using hpm) htaken
  | sequential policies ih =>
    obtain ⟨-, ho⟩ := hasMatch_of_asked ho
    rw [written, sequential_writtenList] at ho
    rw [eval_sequential] at hc
    obtain ⟨before, p, after, o', c', rfl, hseen, hsent, hunmet, htaken⟩ :=
      PacketPolicy.exists_stop ho hc
    rw [← eval_sequential] at hsent htaken
    refine .chain hseen hsent (ih p (by simp) hunmet fun hnone => htaken ?_) htaken
    rw [Policy.eval_sequential_cons, hnone, Finset.biUnion_empty]
  | passthrough | drop | negate | matchPrefixesSet | modify | fwd =>
    exact absurd ho (Finset.singleton_ne_empty o)

theorem Stopped.described (h : Stopped H p o c) : asked H p o ≠ ∅ := by
  induction h with
  | @rewritten map o c passes fails =>
    have hmatch : hasMatch (.matching map) = true := rfl
    rw [asked, if_pos hmatch, written, PacketPolicy.filter_pass passes]
    exact Finset.singleton_ne_empty o
  | branch passes stops => exact passes
  | unmatched without stops =>
    rw [asked, if_neg (by simp [without])]
    exact Finset.singleton_ne_empty _
  | @member policies p o c hp hmatch place ih =>
    rw [asked, if_pos hmatch] at ih
    obtain ⟨x, hx⟩ := Finset.nonempty_iff_ne_empty.mpr ih
    have hany : hasMatch (.parallel policies) = true := hasMatchAny_iff.mpr ⟨p, hp, hmatch⟩
    rw [asked, if_pos hany]
    exact Finset.ne_empty_of_mem
      (PacketPolicy.mem_parallel.mpr ⟨_, mem_writtenList.mpr ⟨p, hp, hmatch, rfl⟩, hx⟩)
  | chain seen passes sent place ih =>
    apply asked_sequential_ne_empty
    rw [List.map_append, PacketPolicy.sequential_append, PacketPolicy.andThen_ne_empty]
    exact ⟨_, seen, passes⟩

theorem stopped_of_described (ho : asked H p o ≠ ∅) (hc : p.eval H c = ∅) :
    Stopped H p o c := by
  induction p generalizing o c with
  | matching map =>
    refine .rewritten ?_ fun hpass => ?_
    · by_contra hfail
      exact ho (PacketPolicy.filter_stop (by simpa using hfail))
    · rw [Policy.eval, PacketPolicy.filter_pass hpass] at hc
      exact Finset.singleton_ne_empty c hc
  | ifThenElse pred t f _ _ _ => exact .branch ho hc
  | parallel policies ih =>
    by_cases hmatch : hasMatch (.parallel policies) = true
    · rw [asked, if_pos hmatch] at ho
      obtain ⟨x, hx⟩ := Finset.nonempty_iff_ne_empty.mpr ho
      obtain ⟨_, hq, hx⟩ := PacketPolicy.mem_parallel.mp hx
      obtain ⟨p, hp, hpm, rfl⟩ := mem_writtenList.mp hq
      refine .member hp hpm (ih p hp ?_ ?_)
      · rw [asked, if_pos hpm]
        exact Finset.ne_empty_of_mem hx
      · rw [Finset.eq_empty_iff_forall_notMem]
        intro out hout
        exact Finset.notMem_empty out (hc ▸ Policy.mem_eval_parallel.mpr ⟨p, hp, hout⟩)
    · exact .unmatched (by simpa using hmatch) hc
  | sequential policies ih =>
    by_cases hmatch : hasMatch (.sequential policies) = true
    · rw [asked, if_pos hmatch, written, sequential_writtenList] at ho
      rw [eval_sequential] at hc
      obtain ⟨before, p, after, c', o', rfl, hsent, hseen, hstop, hpasses⟩ :=
        PacketPolicy.exists_stop hc ho
      rw [← eval_sequential] at hsent
      refine .chain hseen hpasses hsent (ih p (by simp) (fun hnone => hpasses ?_) hstop)
      rw [List.map_cons, PacketPolicy.sequential_cons, PacketPolicy.andThen, hnone,
        Finset.biUnion_empty]
    · exact .unmatched (by simpa using hmatch) hc
  | passthrough | drop | negate | matchPrefixesSet | modify | fwd => exact .unmatched rfl hc

variable (H)

theorem agrees_iff (policy bgp : Policy) (pkt : Frame ρ) :
    ((asked H policy pkt = ∅ ↔ policy.eval H pkt = ∅) ∨ bgp.eval H pkt = policy.eval H pkt) ↔
      (LeftOut H policy pkt pkt →
        Described H policy pkt ∨ bgp.eval H pkt = policy.eval H pkt) ∧
      (Stopped H policy pkt pkt → policy.eval H pkt ≠ ∅ ∨ bgp.eval H pkt = ∅) := by
  rw [described_iff]
  constructor
  · intro hagree
    constructor
    · intro hleft
      by_cases hnone : asked H policy pkt = ∅
      · exact Or.inr (hagree.resolve_left fun hiff => hleft.taken (hiff.mp hnone))
      · exact Or.inl hnone
    · intro hstopped
      by_cases hempty : policy.eval H pkt = ∅
      · rw [← hempty]
        exact Or.inr (hagree.resolve_left fun hiff => hstopped.described (hiff.mpr hempty))
      · exact Or.inl hempty
  · rintro ⟨hleft, hstopped⟩
    by_cases hnone : asked H policy pkt = ∅ <;> by_cases hempty : policy.eval H pkt = ∅
    · exact Or.inl (iff_of_true hnone hempty)
    · exact Or.inr ((hleft (leftOut_of_taken hnone hempty)).resolve_left (not_not_intro hnone))
    · rw [hempty]
      exact Or.inr ((hstopped (stopped_of_described hnone hempty)).resolve_left
        (not_not_intro hempty))
    · exact Or.inl (iff_of_false hnone hempty)

end written

end Hispar.VnhAssignment
