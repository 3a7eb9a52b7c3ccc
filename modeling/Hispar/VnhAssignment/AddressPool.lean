import Hispar.SetOperations.Fewest
import Hispar.VnhAssignment.Tables

/-!
# The pool of addresses

The names of the groups keep the addresses they were given first. A group for
which the pool has no address ends the run, and the tables stay as the groups
before it left them.
-/
namespace Hispar.VnhAssignment
open Library Library.Atoms SetOperations

section run
variable {α : Type*} [DecidableEq α] (hα : Hashing α) (part2pfxUpdated : Part2Prefix Key α)

/-- The tables that are left, and whether the run came to its end. -/
def step4LoopLeft : ℕ → List (Coll α) → SDX α → SDX α × Bool
  | _, [], sdx => (sdx, true)
  | count, pset :: lcs, sdx =>
    match nextAddress sdx count with
    | none => (sdx, false)
    | some sdx => step4LoopLeft (count + 1) lcs { sdx with
        vnh2pfx := sdx.vnh2pfx.set (vname count) pset
        part2VNH := recordParticipants hα part2pfxUpdated pset (vname count) sdx.part2VNH }

def step4Left (lcs : List (Coll α)) (sdx : SDX α) : SDX α × Bool :=
  step4LoopLeft hα part2pfxUpdated 1 lcs sdx

theorem step4Loop_eq_left (count : ℕ) (lcs : List (Coll α)) (sdx : SDX α) :
    step4Loop hα part2pfxUpdated count lcs sdx =
      if (step4LoopLeft hα part2pfxUpdated count lcs sdx).2 then
        some (step4LoopLeft hα part2pfxUpdated count lcs sdx).1 else none := by
  induction lcs generalizing count sdx with
  | nil => rfl
  | cons pset lcs ih =>
    rw [step4Loop, step4LoopLeft]
    cases nextAddress sdx count with
    | none => rfl
    | some sdx => exact ih (count + 1) _

theorem step4_eq_left (lcs : List (Coll α)) (sdx : SDX α) :
    step4 hα part2pfxUpdated lcs sdx =
      if (step4Left hα part2pfxUpdated lcs sdx).2 then
        some (step4Left hα part2pfxUpdated lcs sdx).1 else none :=
  step4Loop_eq_left hα part2pfxUpdated 1 lcs sdx

def leftBy (runs : List (Part2Prefix Key α × List (Coll α))) : SDX α :=
  runs.foldl (fun sdx run => (step4Left hα run.1 run.2 sdx).1) SDX.init

end run

section addresses
variable {α : Type*} {sdx sdx' sdx'' : SDX α}

structure FromPool (sdx : SDX α) : Prop where
  ip : ∀ v ip, sdx.vnh2IP.get? v = some ip → ∃ i, v = vname i ∧ vnhPool[i]? = some ip ∧
    sdx.vnh2MAC.get? v = some (vnhMac + i)
  mac : ∀ v mac, sdx.vnh2MAC.get? v = some mac → ∃ i, v = vname i ∧ mac = vnhMac + i

structure Keeps (sdx sdx' : SDX α) : Prop where
  ip : ∀ v ip, sdx.vnh2IP.get? v = some ip → sdx'.vnh2IP.get? v = some ip
  mac : ∀ v mac, sdx.vnh2MAC.get? v = some mac → sdx'.vnh2MAC.get? v = some mac

theorem Keeps.refl (sdx : SDX α) : Keeps sdx sdx := ⟨fun _ _ h => h, fun _ _ h => h⟩

theorem Keeps.trans (h : Keeps sdx sdx') (h' : Keeps sdx' sdx'') : Keeps sdx sdx'' :=
  ⟨fun v ip hv => h'.ip v ip (h.ip v ip hv), fun v mac hv => h'.mac v mac (h.mac v mac hv)⟩

theorem nodup_vnhPool : vnhPool.Nodup := by
  refine List.Nodup.map (fun i j h => ?_) List.nodup_range
  have h := congrArg String.toList h
  simp only [String.toList_append] at h
  exact Nat.repr_inj.mp (String.toList_injective (List.append_cancel_left h))

theorem length_vnhPool : vnhPool.length = 16 := by simp [vnhPool]

theorem FromPool.init : FromPool (SDX.init : SDX α) where
  ip _ _ h := by cases h
  mac _ _ h := by cases h

namespace FromPool
variable (h : FromPool sdx)
include h

theorem lt_of_mem {count : ℕ} (hc : vname count ∈ sdx.vnh2IP.keys) : count < 16 := by
  obtain ⟨ip, hip⟩ := Dict.mem_keys_iff.mp hc
  obtain ⟨i, hi, hpool, -⟩ := h.ip _ ip hip
  rw [vname_injective hi, ← length_vnhPool]
  exact (List.getElem?_eq_some_iff.mp hpool).1

theorem ip_injective {v w ip : String} (hv : sdx.vnh2IP.get? v = some ip)
    (hw : sdx.vnh2IP.get? w = some ip) : v = w := by
  obtain ⟨i, rfl, hi, -⟩ := h.ip v ip hv
  obtain ⟨j, rfl, hj, -⟩ := h.ip w ip hw
  have hlt := (List.getElem?_eq_some_iff.mp hi).1
  rw [(List.getElem?_inj hlt nodup_vnhPool).mp (hi.trans hj.symm)]

theorem mac_injective {v w : String} {mac : ℕ} (hv : sdx.vnh2MAC.get? v = some mac)
    (hw : sdx.vnh2MAC.get? w = some mac) : v = w := by
  obtain ⟨i, rfl, hi⟩ := h.mac v mac hv
  obtain ⟨j, rfl, hj⟩ := h.mac w mac hw
  rw [show i = j by omega]

theorem nextAddress_eq_none {count : ℕ} : nextAddress sdx count = none ↔ 16 ≤ count := by
  rw [nextAddress]
  split_ifs with hc
  · have hlt := h.lt_of_mem hc
    simp [hlt]
  · rw [Option.map_eq_none_iff, List.getElem?_eq_none_iff, length_vnhPool]

theorem nextAddress {count : ℕ} (hnext : nextAddress sdx count = some sdx') :
    FromPool sdx' ∧ Keeps sdx sdx' ∧ vname count ∈ sdx'.vnh2IP.keys := by
  rw [VnhAssignment.nextAddress] at hnext
  split_ifs at hnext with hc
  · obtain rfl := Option.some.inj hnext
    exact ⟨h, .refl sdx, hc⟩
  · obtain ⟨ip, hip, rfl⟩ := Option.map_eq_some_iff.mp hnext
    have hip' : ∀ v, v ∈ sdx.vnh2IP.keys → v ≠ vname count := fun v hv he => hc (he ▸ hv)
    refine ⟨⟨fun v w hv => ?_, fun v mac hv => ?_⟩, ⟨fun v w hv => ?_, fun v mac hv => ?_⟩, ?_⟩
    · rw [Dict.get?_set] at hv
      split_ifs at hv with he
      · obtain rfl := Option.some.inj hv
        exact ⟨count, he, hip, by rw [he, Dict.get?_set_self]⟩
      · obtain ⟨i, hi, hpool, hmac⟩ := h.ip v w hv
        exact ⟨i, hi, hpool, by rw [Dict.get?_set_of_ne _ _ he, hmac]⟩
    · rw [Dict.get?_set] at hv
      split_ifs at hv with he
      · exact ⟨count, he, (Option.some.inj hv).symm⟩
      · exact h.mac v mac hv
    · rw [Dict.get?_set_of_ne _ _ (hip' v (Dict.mem_keys_iff.mpr ⟨w, hv⟩)), hv]
    · rw [Dict.get?_set]
      split_ifs with he
      · obtain ⟨i, hi, rfl⟩ := h.mac v mac hv
        rw [vname_injective (he.symm.trans hi)]
      · exact hv
    · exact Dict.mem_keys_iff.mpr ⟨ip, Dict.get?_set_self _ _ _⟩

end FromPool
end addresses

section runs
variable {α : Type*} [DecidableEq α] {hα : Hashing α} {m : Part2Prefix Key α} {sdx : SDX α}

def bound (hα : Hashing α) (m : Part2Prefix Key α) (sdx : SDX α) (count : ℕ) (pset : Coll α) : SDX α :=
  { sdx with
    vnh2pfx := sdx.vnh2pfx.set (vname count) pset
    part2VNH := recordParticipants hα m pset (vname count) sdx.part2VNH }

theorem step4LoopLeft_cons {count : ℕ} {pset : Coll α} {lcs : List (Coll α)} {sdx' : SDX α}
    (h : nextAddress sdx count = some sdx') : step4LoopLeft hα m count (pset :: lcs) sdx =
      step4LoopLeft hα m (count + 1) lcs (bound hα m sdx' count pset) := by
  rw [step4LoopLeft, h]
  rfl

theorem step4LoopLeft_stop {count : ℕ} {pset : Coll α} {lcs : List (Coll α)}
    (h : nextAddress sdx count = none) :
    step4LoopLeft hα m count (pset :: lcs) sdx = (sdx, false) := by
  rw [step4LoopLeft, h]

theorem FromPool.step4LoopLeft (h : FromPool sdx) (count : ℕ) (lcs : List (Coll α)) :
    FromPool (step4LoopLeft hα m count lcs sdx).1 ∧
      Keeps sdx (step4LoopLeft hα m count lcs sdx).1 := by
  induction lcs generalizing count sdx with
  | nil => exact ⟨h, .refl sdx⟩
  | cons pset lcs ih =>
    cases hnext : VnhAssignment.nextAddress sdx count with
    | none =>
      rw [step4LoopLeft_stop hnext]
      exact ⟨h, .refl sdx⟩
    | some sdx' =>
      obtain ⟨hpool, hkeeps, -⟩ := h.nextAddress hnext
      have hbound : FromPool (bound hα m sdx' count pset) := ⟨hpool.ip, hpool.mac⟩
      obtain ⟨hpool', hkeeps'⟩ := ih hbound (count + 1)
      rw [step4LoopLeft_cons hnext]
      exact ⟨hpool', hkeeps.trans ⟨hkeeps'.ip, hkeeps'.mac⟩⟩

theorem FromPool.step4LoopLeft_eq (h : FromPool sdx) (count : ℕ) (hcount : count ≤ 16)
    (lcs : List (Coll α)) : VnhAssignment.step4LoopLeft hα m count lcs sdx =
      ((VnhAssignment.step4LoopLeft hα m count (lcs.take (16 - count)) sdx).1,
        decide (count + lcs.length ≤ 16)) := by
  induction lcs generalizing count sdx with
  | nil => simp [VnhAssignment.step4LoopLeft, hcount]
  | cons pset lcs ih =>
    by_cases hlast : count = 16
    · subst hlast
      rw [step4LoopLeft_stop (h.nextAddress_eq_none.mpr (le_refl 16))]
      simp [VnhAssignment.step4LoopLeft]
    · have hlt : count < 16 := lt_of_le_of_ne hcount hlast
      obtain ⟨sdx', hnext⟩ : ∃ sdx', VnhAssignment.nextAddress sdx count = some sdx' :=
        Option.ne_none_iff_exists'.mp (mt h.nextAddress_eq_none.mp (Nat.not_le.mpr hlt))
      obtain ⟨hpool, -, -⟩ := h.nextAddress hnext
      have hbound : FromPool (bound hα m sdx' count pset) := ⟨hpool.ip, hpool.mac⟩
      have htake : (pset :: lcs).take (16 - count) = pset :: lcs.take (16 - (count + 1)) := by
        rw [show 16 - count = (16 - (count + 1)) + 1 by omega, List.take_succ_cons]
      rw [htake, step4LoopLeft_cons hnext, step4LoopLeft_cons hnext, ih hbound (count + 1) hlt,
        List.length_cons, Nat.add_right_comm, Nat.add_assoc]

theorem FromPool.named (h : FromPool sdx) {count : ℕ} {lcs : List (Coll α)}
    (hrun : (VnhAssignment.step4LoopLeft hα m count lcs sdx).2 = true) {i : ℕ} (hi : i < lcs.length) :
    vname (count + i) ∈ (VnhAssignment.step4LoopLeft hα m count lcs sdx).1.vnh2IP.keys := by
  induction lcs generalizing count sdx i with
  | nil => exact absurd hi (Nat.not_lt_zero i)
  | cons pset lcs ih =>
    cases hnext : VnhAssignment.nextAddress sdx count with
    | none =>
      rw [step4LoopLeft_stop hnext] at hrun
      exact absurd hrun Bool.false_ne_true
    | some sdx' =>
      obtain ⟨hpool, -, hmem⟩ := h.nextAddress hnext
      have hbound : FromPool (bound hα m sdx' count pset) := ⟨hpool.ip, hpool.mac⟩
      rw [step4LoopLeft_cons hnext] at hrun ⊢
      cases i with
      | zero =>
        obtain ⟨ip, hip⟩ := Dict.mem_keys_iff.mp hmem
        exact Dict.mem_keys_iff.mpr ⟨ip, (hbound.step4LoopLeft (count + 1) lcs).2.ip _ ip hip⟩
      | succ i =>
        rw [show count + (i + 1) = count + 1 + i by omega]
        exact ih hbound hrun (Nat.lt_of_succ_lt_succ hi)

theorem FromPool.leftBy (hα : Hashing α) (runs : List (Part2Prefix Key α × List (Coll α))) :
    FromPool (leftBy hα runs) := by
  rw [VnhAssignment.leftBy]
  refine List.foldlRecOn runs _ FromPool.init fun sdx h run _ => ?_
  exact (h.step4LoopLeft 1 run.2).1

/-- Every name has an address of its own in both tables, and keeps those it had before. -/
structure Addressed (sdx sdx' : SDX α) : Prop where
  keeps : Keeps sdx sdx'
  ip : ∀ v w ip, sdx'.vnh2IP.get? v = some ip → sdx'.vnh2IP.get? w = some ip → v = w
  mac : ∀ v w mac, sdx'.vnh2MAC.get? v = some mac → sdx'.vnh2MAC.get? w = some mac → v = w
  both : ∀ v ∈ sdx'.vnh2IP.keys, v ∈ sdx'.vnh2MAC.keys

/-- In every state that earlier runs left, a run with at most fifteen groups completes and binds
each of them, and a longer one fails and leaves what its first fifteen groups make. -/
theorem step4Left_spec (hα : Hashing α) (runs : List (Part2Prefix Key α × List (Coll α)))
    (m : Part2Prefix Key α) (lcs : List (Coll α)) :
    Addressed (leftBy hα runs) (step4Left hα m lcs (leftBy hα runs)).1 ∧
    (lcs.length ≤ 15 → (step4Left hα m lcs (leftBy hα runs)).2 = true ∧
      ∀ i, (hi : i < lcs.length) →
        (step4Left hα m lcs (leftBy hα runs)).1.vnh2pfx.get? (vname (1 + i)) = some lcs[i] ∧
        vname (1 + i) ∈ (step4Left hα m lcs (leftBy hα runs)).1.vnh2IP.keys) ∧
    (15 < lcs.length → step4Left hα m lcs (leftBy hα runs) =
      ((step4Left hα m (lcs.take 15) (leftBy hα runs)).1, false)) := by
  have hpool := FromPool.leftBy hα runs
  obtain ⟨hleft, hkeeps⟩ : FromPool (step4Left hα m lcs (leftBy hα runs)).1 ∧ Keeps _ _ :=
    hpool.step4LoopLeft 1 lcs
  have heq : step4Left hα m lcs (leftBy hα runs) =
      ((step4Left hα m (lcs.take 15) (leftBy hα runs)).1, decide (1 + lcs.length ≤ 16)) :=
    hpool.step4LoopLeft_eq 1 (by omega) lcs
  refine ⟨⟨hkeeps, fun v w ip => hleft.ip_injective, fun v w mac => hleft.mac_injective,
    fun v hv => ?_⟩, fun hlen => ?_, fun hlen => ?_⟩
  · obtain ⟨ip, hip⟩ := Dict.mem_keys_iff.mp hv
    obtain ⟨i, -, -, hmac⟩ := hleft.ip v ip hip
    exact Dict.mem_keys_iff.mpr ⟨_, hmac⟩
  · have hrun : (step4Left hα m lcs (leftBy hα runs)).2 = true := by
      rw [heq]
      exact decide_eq_true (by omega)
    have hstep4 := step4_eq_left hα m lcs (leftBy hα runs)
    rw [if_pos hrun] at hstep4
    refine ⟨hrun, fun i hi => ⟨?_, hpool.named hrun hi⟩⟩
    exact ((step4Loop_spec hα m lcs 1 hstep4).1 i hi).1
  · rw [heq, decide_eq_false (by omega)]

end runs

def sixteenGroups : List (Coll ℕ) := (List.range 16).map fun i => .set {i}

theorem step4Left_sixteenGroups : sixteenGroups.Nodup ∧
    ¬ ((step4Left .ascending .empty sixteenGroups (leftBy .ascending [])).2 = true ∨
      (step4Left .ascending .empty sixteenGroups (leftBy .ascending [])).1 =
        (leftBy .ascending [] : SDX ℕ)) := by
  refine ⟨by decide, ?_⟩
  rintro (hrun | hsame)
  · exact absurd hrun (by decide)
  · exact absurd (congrArg (fun sdx => sdx.vnh2pfx.get? "VNH1") hsame) (by decide)

/-- After every history a run gets an address for each of its groups exactly when some disjoint
family of at most fifteen sets builds the sets of all participants. -/
theorem step4_completes_iff {α : Type*} [DecidableEq α] {hα : Hashing α} {hκ : DictOrder Key} {n : ℕ}
    {d m : Part2Prefix Key α} {lcs : List (Coll α)} (hne : d.keys ≠ []) (hd : NonemptySets d)
    (hl : NothingLost hκ d) (hrun : lcsParallel hα hκ n d = some (m, lcs))
    (runs : List (Part2Prefix Key α × List (Coll α))) :
    (∃ sdx, step4 hα m lcs (leftBy hα runs) = some sdx) ↔
      ∃ blocks : List (Finset α), blocks.length ≤ 15 ∧ Splits (families d).all blocks := by
  have hdec := (lcsParallel_round hne hd hrun).decomposes hl
  have hleft : (step4Left hα m lcs (leftBy hα runs)).2 = decide (1 + lcs.length ≤ 16) :=
    congrArg Prod.snd ((FromPool.leftBy hα runs).step4LoopLeft_eq 1 (by omega) lcs)
  have hcompletes : (∃ sdx, step4 hα m lcs (leftBy hα runs) = some sdx) ↔ lcs.length ≤ 15 := by
    rw [step4_eq_left, hleft]
    by_cases hle : 1 + lcs.length ≤ 16
    · rw [if_pos (decide_eq_true hle)]
      exact iff_of_true ⟨_, rfl⟩ (by omega)
    · rw [if_neg (by simpa using hle)]
      simp only [reduceCtorEq, exists_false, false_iff]
      omega
  rw [hcompletes]
  constructor
  · exact fun hle => ⟨lcs.map Coll.toSet, by rwa [List.length_map], hdec.splits⟩
  · rintro ⟨blocks, hle, hb⟩
    exact (hdec.length_le hb).trans hle

theorem step4_completes_iff_crossing : ∃ (m : Part2Prefix Key ℕ) (lcs : List (Coll ℕ)),
    lcsParallel .ascending .insertion 2 crossing = some (m, lcs) ∧
    ((∃ sdx, step4 .ascending m lcs (leftBy .ascending [(m, lcs)]) = some sdx) ↔
      ∃ blocks : List (Finset ℕ), blocks.length ≤ 15 ∧ Splits (families crossing).all blocks) := by
  obtain ⟨r, hr⟩ := Option.isSome_iff_exists.mp
    (by decide : (lcsParallel .ascending .insertion 2 crossing).isSome = true)
  exact ⟨r.1, r.2, hr, step4_completes_iff (by decide) (nonemptySets_iff.mpr (by decide))
    (nothingLost_of_noCollision noCollision_crossing) hr [(r.1, r.2)]⟩

end Hispar.VnhAssignment
