import Hispar.SetOperations.LcsParallel

/-!
# The virtual next hop tables

`step4` numbers the groups and writes them into tables that live as long as the
SDX object. It writes the entries of the numbers it uses and removes nothing,
so what a later run leaves of an earlier one is decided by how many groups
there were and by who was recorded under which number.
-/
namespace Hispar.VnhAssignment
open Library Library.Atoms SetOperations

def vnhPool : List String := (List.range 16).map fun i => "172.0.1." ++ toString i

def vnhMac : ℕ := 0xaa0000000000

variable {α : Type*} [DecidableEq α]

/-- The tables of an SDX object that an assignment reads and writes. -/
structure SDX (α : Type*) where
  vnh2IP : Dict String String
  vnh2MAC : Dict String ℕ
  vnh2pfx : Dict String (Coll α)
  part2VNH : Dict Key (Dict String (Coll α))

def SDX.init : SDX α := ⟨.empty, .empty, .empty, .empty⟩

def vname (count : ℕ) : String := "VNH" ++ toString count

def nextAddress (sdx : SDX α) (count : ℕ) : Option (SDX α) :=
  if vname count ∈ sdx.vnh2IP.keys then some sdx
  else vnhPool[count]?.map fun ip => { sdx with
    vnh2IP := sdx.vnh2IP.set (vname count) ip
    vnh2MAC := sdx.vnh2MAC.set (vname count) (vnhMac + count) }

/-- The test by which a group counts as one of a participant. -/
def isRecorded (hα : Hashing α) (pset : Coll α) (lists : List (Coll α)) : Bool :=
  Coll.list (pset.toList hα) ∈ lists ∨ pset ∈ lists

def recordParticipants (hα : Hashing α) (part2pfxUpdated : Part2Prefix Key α) (pset : Coll α)
    (name : String) (part2VNH : Dict Key (Dict String (Coll α))) :
    Dict Key (Dict String (Coll α)) :=
  part2pfxUpdated.items.foldl (fun t kv => if isRecorded hα pset kv.2 then
    t.set kv.1 (((t.get? kv.1).getD .empty).set name pset) else t) part2VNH

def step4Loop (hα : Hashing α) (part2pfxUpdated : Part2Prefix Key α) : ℕ → List (Coll α) →
    SDX α → Option (SDX α)
  | _, [], sdx => some sdx
  | count, pset :: lcs, sdx => (nextAddress sdx count).bind fun sdx =>
    step4Loop hα part2pfxUpdated (count + 1) lcs { sdx with
      vnh2pfx := sdx.vnh2pfx.set (vname count) pset
      part2VNH := recordParticipants hα part2pfxUpdated pset (vname count) sdx.part2VNH }

def step4 (hα : Hashing α) (part2pfxUpdated : Part2Prefix Key α) (lcs : List (Coll α))
    (sdx : SDX α) : Option (SDX α) :=
  step4Loop hα part2pfxUpdated 1 lcs sdx

def vnhEntry (part2VNH : Dict Key (Dict String (Coll α))) (participant : Key) (name : String) :
    Option (Coll α) :=
  (part2VNH.get? participant).bind fun t => t.get? name

theorem vname_injective : Function.Injective vname := by
  intro a b h
  have h := congrArg String.toList h
  simp only [vname, String.toList_append] at h
  exact Nat.repr_inj.mp (String.toList_injective (List.append_cancel_left h))

def Recorded (hα : Hashing α) (m : Part2Prefix Key α) (pset : Coll α) (X : Key) : Prop :=
  ∃ l, m.get? X = some l ∧ isRecorded hα pset l = true

instance (hα : Hashing α) (m : Part2Prefix Key α) (pset : Coll α) (X : Key) :
    Decidable (Recorded hα m pset X) :=
  decidable_of_iff ((m.get? X).elim false (isRecorded hα pset) = true) (by
    unfold Recorded
    cases m.get? X <;> simp)

omit [DecidableEq α] in
theorem vnhEntry_set (t : Dict Key (Dict String (Coll α))) (X Y : Key) (name v : String)
    (pset : Coll α) : vnhEntry (t.set X (((t.get? X).getD .empty).set name pset)) Y v =
      if Y = X ∧ v = name then some pset else vnhEntry t Y v := by
  rw [vnhEntry, Dict.get?_set]
  by_cases hY : Y = X
  · subst hY
    rw [if_pos rfl, Option.bind_some, Dict.get?_set]
    by_cases hv : v = name
    · simp [hv]
    · simp only [hv, if_false, and_false, vnhEntry]
      cases t.get? Y <;> rfl
  · simp only [hY, if_false, false_and, vnhEntry]

theorem vnhEntry_recordParticipants (hα : Hashing α) (m : Part2Prefix Key α) (pset : Coll α)
    (name : String) (t : Dict Key (Dict String (Coll α))) (X : Key) (v : String) :
    vnhEntry (recordParticipants hα m pset name t) X v =
      if v = name ∧ Recorded hα m pset X then some pset else vnhEntry t X v := by
  let mine : Key × List (Coll α) → Bool := fun kv => kv.1 = X && isRecorded hα pset kv.2
  have hfold : ∀ (items : List (Key × List (Coll α))) (t : Dict Key (Dict String (Coll α))),
      vnhEntry (items.foldl (fun t kv => if isRecorded hα pset kv.2 then
        t.set kv.1 (((t.get? kv.1).getD .empty).set name pset) else t) t) X v =
      if v = name ∧ items.any mine = true then some pset else vnhEntry t X v := by
    intro items
    induction items with
    | nil => simp
    | cons kv items ih =>
      intro t
      rw [List.foldl_cons, ih, List.any_cons]
      generalize items.any mine = rest
      by_cases hrec : isRecorded hα pset kv.2 = true
      · have hmine : mine kv = decide (kv.1 = X) := by simp only [mine, hrec, Bool.and_true]
        rw [if_pos hrec, vnhEntry_set, hmine]
        by_cases hv : v = name <;> by_cases hX : X = kv.1 <;> simp [hv, hX, eq_comm]
      · have hmine : mine kv = false := by simp only [mine, hrec, Bool.and_false]
        rw [if_neg hrec, hmine, Bool.false_or]
  have hany : m.items.any mine = true ↔ Recorded hα m pset X := by
    simp only [List.any_eq_true, mine, Bool.and_eq_true, decide_eq_true_eq, Prod.exists, Recorded,
      Dict.get?_eq_some]
    constructor
    · rintro ⟨_, l, hl, rfl, hrec⟩
      exact ⟨l, hl, hrec⟩
    · rintro ⟨l, hl, hrec⟩
      exact ⟨X, l, hl, rfl, hrec⟩
  rw [recordParticipants, hfold]
  simp only [hany]

omit [DecidableEq α] in
theorem nextAddress_tables {sdx sdx' : SDX α} {count : ℕ} (h : nextAddress sdx count = some sdx') :
    sdx'.vnh2pfx = sdx.vnh2pfx ∧ sdx'.part2VNH = sdx.part2VNH := by
  rw [nextAddress] at h
  split_ifs at h
  · exact Option.some.inj h ▸ ⟨rfl, rfl⟩
  · obtain ⟨ip, -, rfl⟩ := Option.map_eq_some_iff.mp h
    exact ⟨rfl, rfl⟩

theorem step4Loop_spec (hα : Hashing α) (m : Part2Prefix Key α) (lcs : List (Coll α)) (count : ℕ)
    {sdx sdx' : SDX α} (h : step4Loop hα m count lcs sdx = some sdx') :
    (∀ i, (hi : i < lcs.length) → sdx'.vnh2pfx.get? (vname (count + i)) = some lcs[i] ∧
      ∀ X, vnhEntry sdx'.part2VNH X (vname (count + i)) =
        if Recorded hα m lcs[i] X then some lcs[i]
        else vnhEntry sdx.part2VNH X (vname (count + i))) ∧
    ∀ v, (∀ i < lcs.length, v ≠ vname (count + i)) → sdx'.vnh2pfx.get? v = sdx.vnh2pfx.get? v ∧
      ∀ X, vnhEntry sdx'.part2VNH X v = vnhEntry sdx.part2VNH X v := by
  induction lcs generalizing count sdx with
  | nil =>
    obtain rfl := Option.some.inj h
    exact ⟨fun i hi => absurd hi (Nat.not_lt_zero i), fun _ _ => ⟨rfl, fun _ => rfl⟩⟩
  | cons pset lcs ih =>
    obtain ⟨sdx₁, h₁, h⟩ := Option.bind_eq_some_iff.mp h
    obtain ⟨hpfx, hpart⟩ := nextAddress_tables h₁
    obtain ⟨hnew, hold⟩ := ih (count + 1) h
    simp only [hpfx, hpart, vnhEntry_recordParticipants] at hnew hold
    refine ⟨fun i hi => ?_, fun v hv => ?_⟩
    · cases i with
      | zero =>
        have hfirst : ∀ i < lcs.length, vname (count + 0) ≠ vname (count + 1 + i) := fun i _ he => by
          have := vname_injective he
          omega
        obtain ⟨h₁, h₂⟩ := hold _ hfirst
        refine ⟨by rw [h₁, add_zero, Dict.get?_set_self]; rfl, fun X => ?_⟩
        rw [h₂, add_zero]
        simp only [true_and, List.getElem_cons_zero]
      | succ i =>
        obtain ⟨h₁, h₂⟩ := hnew i (Nat.lt_of_succ_lt_succ hi)
        rw [show count + 1 + i = count + (i + 1) by omega] at h₁ h₂
        refine ⟨h₁, fun X => ?_⟩
        have hne : vname (count + (i + 1)) ≠ vname count := fun he => by
          have := vname_injective he
          omega
        rw [h₂]
        simp only [hne, false_and, if_false, List.getElem_cons_succ]
    · have hv₀ : v ≠ vname count := hv 0 (Nat.succ_pos _)
      obtain ⟨h₁, h₂⟩ := hold v fun i hi => by
        rw [show count + 1 + i = count + (i + 1) by omega]
        exact hv (i + 1) (Nat.succ_lt_succ hi)
      refine ⟨by rw [h₁, Dict.get?_set_of_ne _ _ hv₀], fun X => ?_⟩
      rw [h₂, if_neg fun h => hv₀ h.1]

theorem step4_total (hα : Hashing α) (m : Part2Prefix Key α) {lcs : List (Coll α)}
    (hlen : lcs.length ≤ 15) (sdx : SDX α) : ∃ sdx', step4 hα m lcs sdx = some sdx' := by
  suffices hgen : ∀ (lcs : List (Coll α)) (count : ℕ) (sdx : SDX α), count + lcs.length ≤ 16 →
      ∃ sdx', step4Loop hα m count lcs sdx = some sdx' from hgen lcs 1 sdx (by omega)
  intro lcs
  induction lcs with
  | nil => exact fun _ sdx _ => ⟨sdx, rfl⟩
  | cons pset lcs ih =>
    intro count sdx hc
    rw [List.length_cons] at hc
    have hpool : vnhPool.length = 16 := by simp [vnhPool]
    obtain ⟨sdx₁, h₁⟩ : ∃ sdx₁, nextAddress sdx count = some sdx₁ := by
      rw [nextAddress]
      split_ifs
      · exact ⟨sdx, rfl⟩
      · rw [List.getElem?_eq_getElem (by omega : count < vnhPool.length)]
        exact ⟨_, rfl⟩
    obtain ⟨sdx', h'⟩ := ih (count + 1) { sdx₁ with
      vnh2pfx := sdx₁.vnh2pfx.set (vname count) pset
      part2VNH := recordParticipants hα m pset (vname count) sdx₁.part2VNH } (by omega)
    exact ⟨sdx', by rw [step4Loop, h₁]; exact h'⟩

structure VnhRun (α : Type*) where
  sets : Part2Prefix Key α
  updated : Part2Prefix Key α
  lcs : List (Coll α)

structure VnhRun.Produced (r : VnhRun α) : Prop where
  participants : r.sets.keys ≠ []
  nonempty : NonemptySets r.sets
  run : ∃ (hα : Hashing α) (hκ : DictOrder Key) (n : ℕ),
    lcsParallel hα hκ n r.sets = some (r.updated, r.lcs)
  fits : r.lcs.length ≤ 15

structure Fresh (r : VnhRun α) (sdx : SDX α) : Prop where
  groups : ∀ v c, sdx.vnh2pfx.get? v = some c → c ∈ r.lcs
  disjoint : ∀ v w c e, v ≠ w → sdx.vnh2pfx.get? v = some c → sdx.vnh2pfx.get? w = some e →
    Disjoint c.toSet e.toSet
  participants : ∀ X v c, vnhEntry sdx.part2VNH X v = some c → sdx.vnh2pfx.get? v = some c ∧
    c ∈ r.lcs ∧ c.toSet ⊆ prefixesOf r.sets X

/-- The run writes over whatever the tables hold before it: it uses every number
in use, and records under it every participant recorded there, unless the entry
is again the group of that number and lies inside the participant's sets. -/
structure Overwritten (hα : Hashing α) (r : VnhRun α) (sdx : SDX α) : Prop where
  names : ∀ v ∈ sdx.vnh2pfx.keys, ∃ i < r.lcs.length, v = vname (1 + i)
  entries : ∀ X v c, vnhEntry sdx.part2VNH X v = some c → ∃ i, ∃ hi : i < r.lcs.length,
    v = vname (1 + i) ∧ (Recorded hα r.updated r.lcs[i] X ∨
      (c = r.lcs[i] ∧ c.toSet ⊆ prefixesOf r.sets X))

theorem Recorded.subset {hα : Hashing α} {m : Part2Prefix Key α} {pset : Coll α} {X : Key}
    {l : List (Coll α)} (hl : m.get? X = some l) (h : Recorded hα m pset X) :
    pset.toSet ⊆ prefixes l := by
  obtain ⟨l', hl', hrec⟩ := h
  obtain rfl : l = l' := Option.some.inj (hl.symm.trans hl')
  intro x hx
  rw [isRecorded, decide_eq_true_eq] at hrec
  rcases hrec with hrec | hrec
  · refine mem_prefixes.mpr ⟨_, hrec, ?_⟩
    rwa [Coll.mem_def, Coll.toSet, Coll.toSet_toList]
  · exact mem_prefixes.mpr ⟨pset, hrec, hx⟩

namespace VnhRun.Produced
variable {r : VnhRun α} (h : r.Produced)
include h

theorem round : ∃ hκ : DictOrder Key, Round hκ (planOf hκ r.sets) r.sets r.sets.keys r.updated r.lcs := by
  obtain ⟨hα, hκ, n, hrun⟩ := h.run
  exact ⟨hκ, lcsParallel_round h.participants h.nonempty hrun⟩

theorem recorded_subset {hα : Hashing α} {pset : Coll α} {X : Key}
    (hrec : Recorded hα r.updated pset X) : pset.toSet ⊆ prefixesOf r.sets X := by
  obtain ⟨hκ, hround⟩ := h.round
  obtain ⟨l, hl, -⟩ := id hrec
  have hX : X ∈ r.sets.keys := hround.keys ▸ Dict.mem_keys_iff.mpr ⟨l, hl⟩
  obtain ⟨l', hl', hU⟩ := hround.union X hX
  exact hU ▸ hrec.subset hl'

end VnhRun.Produced

section fresh
variable {hα : Hashing α} {r : VnhRun α} {sdx sdx' : SDX α}

theorem Fresh.names (hf : Fresh r sdx') (hr : r.Produced)
    (h : step4 hα r.updated r.lcs sdx = some sdx') {v : String} {c : Coll α}
    (hc : sdx'.vnh2pfx.get? v = some c) : ∃ i < r.lcs.length, v = vname (1 + i) := by
  obtain ⟨hnew, -⟩ := step4Loop_spec hα r.updated r.lcs 1 h
  obtain ⟨hκ, hround⟩ := hr.round
  by_contra hv
  simp only [not_exists, not_and] at hv
  obtain ⟨j, hj, rfl⟩ := List.mem_iff_getElem.mp (hf.groups v c hc)
  have hd := hf.disjoint v (vname (1 + j)) _ _ (hv j hj) hc (hnew j hj).1
  obtain ⟨x, hx⟩ := hround.nonempty _ (List.getElem_mem hj)
  exact Finset.disjoint_left.mp hd hx hx

theorem Fresh.overwritten (hf : Fresh r sdx') (hr : r.Produced)
    (h : step4 hα r.updated r.lcs sdx = some sdx') : Overwritten hα r sdx := by
  obtain ⟨hnew, hold⟩ := step4Loop_spec hα r.updated r.lcs 1 h
  refine ⟨fun v hv => ?_, fun X v c hc => ?_⟩
  · by_contra hv'
    simp only [not_exists, not_and] at hv'
    obtain ⟨c, hc⟩ := Dict.mem_keys_iff.mp hv
    obtain ⟨i, hi, hvi⟩ := hf.names hr h ((hold v hv').1.trans hc)
    exact hv' i hi hvi
  · by_cases hv : ∀ i < r.lcs.length, v ≠ vname (1 + i)
    · have hc' := (hold v hv).2 X ▸ hc
      obtain ⟨i, hi, hvi⟩ := hf.names hr h (hf.participants X v c hc').1
      exact absurd hvi (hv i hi)
    · simp only [not_forall, not_not] at hv
      obtain ⟨i, hi, rfl⟩ := hv
      refine ⟨i, hi, rfl, ?_⟩
      by_cases hrec : Recorded hα r.updated r.lcs[i] X
      · exact Or.inl hrec
      · obtain ⟨hpfx, hentry⟩ := hnew i hi
        have hc' : vnhEntry sdx'.part2VNH X (vname (1 + i)) = some c := by
          rw [hentry X, if_neg hrec, hc]
        obtain ⟨hget, -, hsub⟩ := hf.participants X _ c hc'
        exact Or.inr ⟨(Option.some.inj (hpfx.symm.trans hget)).symm, hsub⟩

theorem Overwritten.value (ho : Overwritten hα r sdx)
    (h : step4 hα r.updated r.lcs sdx = some sdx') {v : String} {c : Coll α}
    (hc : sdx'.vnh2pfx.get? v = some c) :
    ∃ i, ∃ hi : i < r.lcs.length, v = vname (1 + i) ∧ c = r.lcs[i] := by
  obtain ⟨hnew, hold⟩ := step4Loop_spec hα r.updated r.lcs 1 h
  by_cases hv : ∀ i < r.lcs.length, v ≠ vname (1 + i)
  · rw [(hold v hv).1] at hc
    obtain ⟨i, hi, hvi⟩ := ho.names v (Dict.mem_keys_iff.mpr ⟨c, hc⟩)
    exact absurd hvi (hv i hi)
  · simp only [not_forall, not_not] at hv
    obtain ⟨i, hi, rfl⟩ := hv
    exact ⟨i, hi, rfl, Option.some.inj (hc.symm.trans (hnew i hi).1)⟩

theorem Overwritten.entry (ho : Overwritten hα r sdx)
    (h : step4 hα r.updated r.lcs sdx = some sdx') {X : Key} {v : String} {c : Coll α}
    (hc : vnhEntry sdx'.part2VNH X v = some c) :
    ∃ i, ∃ hi : i < r.lcs.length, v = vname (1 + i) ∧ c = r.lcs[i] ∧
      (Recorded hα r.updated r.lcs[i] X ∨ c.toSet ⊆ prefixesOf r.sets X) := by
  obtain ⟨hnew, hold⟩ := step4Loop_spec hα r.updated r.lcs 1 h
  by_cases hv : ∀ i < r.lcs.length, v ≠ vname (1 + i)
  · rw [(hold v hv).2 X] at hc
    obtain ⟨i, hi, hvi, -⟩ := ho.entries X v c hc
    exact absurd hvi (hv i hi)
  · simp only [not_forall, not_not] at hv
    obtain ⟨i, hi, rfl⟩ := hv
    rw [(hnew i hi).2 X] at hc
    split_ifs at hc with hrec
    · exact ⟨i, hi, rfl, (Option.some.inj hc).symm, Or.inl hrec⟩
    · obtain ⟨j, hj, hij, hcase⟩ := ho.entries X _ c hc
      obtain rfl : i = j := by
        have := vname_injective hij
        omega
      obtain ⟨he, hsub⟩ := hcase.resolve_left hrec
      exact ⟨i, hi, rfl, he, Or.inr hsub⟩

theorem Overwritten.fresh (ho : Overwritten hα r sdx) (hr : r.Produced)
    (h : step4 hα r.updated r.lcs sdx = some sdx') : Fresh r sdx' := by
  obtain ⟨hnew, -⟩ := step4Loop_spec hα r.updated r.lcs 1 h
  obtain ⟨hκ, hround⟩ := hr.round
  refine ⟨fun v c hc => ?_, fun v w c e hvw hc he => ?_, fun X v c hc => ?_⟩
  · obtain ⟨i, hi, -, rfl⟩ := ho.value h hc
    exact List.getElem_mem hi
  · obtain ⟨i, hi, rfl, rfl⟩ := ho.value h hc
    obtain ⟨j, hj, rfl, rfl⟩ := ho.value h he
    have hij : i ≠ j := fun h => hvw (h ▸ rfl)
    rcases Nat.lt_or_gt_of_ne hij with hlt | hlt
    · exact List.pairwise_iff_getElem.mp hround.disjoint i j hi hj hlt
    · exact (List.pairwise_iff_getElem.mp hround.disjoint j i hj hi hlt).symm
  · obtain ⟨i, hi, rfl, rfl, hrec | hsub⟩ := ho.entry h hc
    · exact ⟨(hnew i hi).1, List.getElem_mem hi, hr.recorded_subset hrec⟩
    · exact ⟨(hnew i hi).1, List.getElem_mem hi, hsub⟩

theorem step4_fresh (hr : r.Produced) (h : step4 hα r.updated r.lcs sdx = some sdx') :
    Fresh r sdx' ↔ Overwritten hα r sdx :=
  ⟨fun hf => hf.overwritten hr h, fun ho => ho.fresh hr h⟩

end fresh

/-- In every sequence of runs on a new object, the tables speak of the last run
alone exactly when it writes over everything they held before. -/
theorem step4_fresh_iff (hα : Hashing α) {earlier : List (VnhRun α)} {last : VnhRun α}
    (hruns : ∀ r ∈ earlier ++ [last], r.Produced) :
    ∃ sdx sdx' : SDX α,
      earlier.foldlM (fun sdx r => step4 hα r.updated r.lcs sdx) SDX.init = some sdx ∧
      step4 hα last.updated last.lcs sdx = some sdx' ∧
      (Fresh last sdx' ↔ Overwritten hα last sdx) := by
  obtain ⟨sdx, hsdx, -⟩ := Runs.foldlM_total (P := fun _ : SDX α => True) (l := earlier)
    (f := fun sdx r => step4 hα r.updated r.lcs sdx)
    (fun s r hr _ => by
      obtain ⟨s', hs'⟩ := step4_total hα r.updated (hruns r (List.mem_append_left _ hr)).fits s
      exact ⟨s', hs', trivial⟩) (s := SDX.init) trivial
  have hlast := hruns last (List.mem_append_right _ (List.mem_singleton_self last))
  obtain ⟨sdx', hsdx'⟩ := step4_total hα last.updated hlast.fits sdx
  exact ⟨sdx, sdx', hsdx, hsdx', step4_fresh hlast hsdx'⟩

def firstRun : VnhRun ℕ where
  sets := .single (.str "A") [.list [0], .list [1]]
  updated := .single (.str "A") [.list [0], .list [1]]
  lcs := [.set {0}, .set {1}]

def secondRun : VnhRun ℕ where
  sets := .single (.str "A") [.list [0]]
  updated := .single (.str "A") [.list [0]]
  lcs := [.set {0}]

theorem produced_firstRun : firstRun.Produced where
  participants := by decide
  nonempty := nonemptySets_iff.mpr (by decide)
  run := ⟨.ascending, .insertion, 1, by decide⟩
  fits := by decide

theorem produced_secondRun : secondRun.Produced where
  participants := by decide
  nonempty := nonemptySets_iff.mpr (by decide)
  run := ⟨.ascending, .insertion, 1, by decide⟩
  fits := by decide

theorem step4_fresh_iff_secondRun : ∃ sdx sdx' : SDX ℕ,
    [firstRun].foldlM (fun sdx r => step4 .ascending r.updated r.lcs sdx) SDX.init = some sdx ∧
    step4 .ascending secondRun.updated secondRun.lcs sdx = some sdx' ∧
    (Fresh secondRun sdx' ↔ Overwritten .ascending secondRun sdx) :=
  step4_fresh_iff .ascending (by
    intro r hr
    rcases List.mem_append.mp hr with hr | hr
    · exact List.mem_singleton.mp hr ▸ produced_firstRun
    · exact List.mem_singleton.mp hr ▸ produced_secondRun)

theorem step4_secondRun_stale : (∀ r ∈ [firstRun, secondRun], r.Produced) ∧
    ∃ sdx : SDX ℕ, [firstRun, secondRun].foldlM
      (fun sdx r => step4 .ascending r.updated r.lcs sdx) SDX.init = some sdx ∧
    sdx.vnh2pfx.get? "VNH2" = some (.set {1}) ∧ ¬ Fresh secondRun sdx := by
  refine ⟨fun r hr => ?_, ?_⟩
  · rcases List.mem_cons.mp hr with rfl | hr
    · exact produced_firstRun
    · exact List.mem_singleton.mp hr ▸ produced_secondRun
  · have hrun : ([firstRun, secondRun].foldlM
        (fun sdx r => step4 .ascending r.updated r.lcs sdx) SDX.init).map
        (fun sdx => sdx.vnh2pfx.get? "VNH2") = some (some (Coll.set {1})) := by decide
    obtain ⟨sdx, hsdx, hstale⟩ := Option.map_eq_some_iff.mp hrun
    refine ⟨sdx, hsdx, hstale, fun hf => ?_⟩
    exact absurd (hf.groups _ _ hstale) (by decide)

end Hispar.VnhAssignment
