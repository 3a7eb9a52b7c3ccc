import Hispar.VnhAssignment.AddressPool
import Hispar.VnhAssignment.Groups
import Hispar.VnhAssignment.NextHops

/-!
# The next hops of a participant's prefixes

From new tables a run numbers the groups, and records a group for the participants
in whose lists it is found. A lookup meets the group of a prefix where it was
recorded, and the address that no group has otherwise.
-/
namespace Hispar.VnhAssignment
open Library Library.Atoms SetOperations

section numbered
variable {α : Type*} [DecidableEq α] {hα : Hashing α} {m : Part2Prefix Key α} {lcs : List (Coll α)}
  {sdx : SDX α}

structure Numbered (hα : Hashing α) (m : Part2Prefix Key α) (lcs : List (Coll α)) (sdx : SDX α) :
    Prop where
  groups : ∀ v c, sdx.vnh2pfx.get? v = some c ↔ ∃ i : ℕ, lcs[i]? = some c ∧ v = vname (1 + i)
  entries : ∀ X v c, vnhEntry sdx.part2VNH X v = some c ↔
    ∃ i : ℕ, lcs[i]? = some c ∧ v = vname (1 + i) ∧ Recorded hα m c X
  macs : ∀ i < lcs.length, sdx.vnh2MAC.get? (vname (1 + i)) = some (vnhMac + (1 + i))
  short : lcs.length ≤ 15

theorem numbered_of_step4 (h : step4 hα m lcs SDX.init = some sdx) : Numbered hα m lcs sdx := by
  obtain ⟨hnew, hold⟩ := step4Loop_spec hα m lcs 1 h
  have hempty : ∀ v, (∀ i < lcs.length, v ≠ vname (1 + i)) → sdx.vnh2pfx.get? v = none ∧
      ∀ X, vnhEntry sdx.part2VNH X v = none := hold
  have hindex : ∀ v, (∃ i < lcs.length, v = vname (1 + i)) ∨ ∀ i < lcs.length, v ≠ vname (1 + i) :=
    fun v => by
      by_cases hv : ∃ i < lcs.length, v = vname (1 + i)
      · exact Or.inl hv
      · exact Or.inr fun i hi he => hv ⟨i, hi, he⟩
  have hleft := step4_eq_left hα m lcs SDX.init
  rw [h] at hleft
  have hrun : (step4Left hα m lcs SDX.init).2 = true := by
    by_contra hrun
    rw [if_neg hrun] at hleft
    cases hleft
  rw [if_pos hrun] at hleft
  obtain rfl := Option.some.inj hleft
  have hinit : FromPool (SDX.init : SDX α) := .init
  obtain ⟨hpool, -⟩ := hinit.step4LoopLeft 1 lcs
  refine ⟨fun v c => ⟨fun hc => ?_, ?_⟩, fun X v c => ⟨fun hc => ?_, ?_⟩, fun i hi => ?_, ?_⟩
  · rcases hindex v with ⟨i, hi, rfl⟩ | hv
    · rw [(hnew i hi).1] at hc
      exact ⟨i, (List.getElem?_eq_getElem hi).trans hc, rfl⟩
    · rw [(hempty v hv).1] at hc
      cases hc
  · rintro ⟨i, hc, rfl⟩
    obtain ⟨hi, rfl⟩ := List.getElem?_eq_some_iff.mp hc
    exact (hnew i hi).1
  · rcases hindex v with ⟨i, hi, rfl⟩ | hv
    · rw [(hnew i hi).2 X] at hc
      split_ifs at hc with hrec
      · obtain rfl := Option.some.inj hc
        exact ⟨i, List.getElem?_eq_getElem hi, rfl, hrec⟩
      · cases hc
    · rw [(hempty v hv).2 X] at hc
      cases hc
  · rintro ⟨i, hc, rfl, hrec⟩
    obtain ⟨hi, rfl⟩ := List.getElem?_eq_some_iff.mp hc
    rw [(hnew i hi).2 X, if_pos hrec]
  · obtain ⟨ip, hip⟩ := Dict.mem_keys_iff.mp (FromPool.init.named hrun hi)
    obtain ⟨j, hj, -, hmac⟩ := hpool.ip _ ip hip
    rw [vname_injective hj] at hmac ⊢
    exact hmac
  · have heq : (step4LoopLeft hα m 1 lcs SDX.init).2 = decide (1 + lcs.length ≤ 16) :=
      congrArg Prod.snd (hinit.step4LoopLeft_eq 1 (by omega) lcs)
    have hlen : decide (1 + lcs.length ≤ 16) = true := heq.symm.trans hrun
    have := of_decide_eq_true hlen
    omega

def EntriesNonempty (part2VNH : Dict Key (Dict String (Coll α))) : Prop :=
  ∀ X groups, part2VNH.get? X = some groups → ∃ v c, groups.get? v = some c

theorem EntriesNonempty.recordParticipants {t : Dict Key (Dict String (Coll α))}
    (h : EntriesNonempty t) (pset : Coll α) (name : String) :
    EntriesNonempty (recordParticipants hα m pset name t) := by
  rw [VnhAssignment.recordParticipants]
  refine List.foldlRecOn (motive := EntriesNonempty) m.items _ h fun t ht kv _ => ?_
  split_ifs
  · intro X groups hX
    rw [Dict.get?_set] at hX
    split_ifs at hX
    · obtain rfl := Option.some.inj hX
      exact ⟨name, pset, Dict.get?_set_self _ _ _⟩
    · exact ht X groups hX
  · exact ht

theorem EntriesNonempty.step4Loop {sdx₀ : SDX α} (h₀ : EntriesNonempty sdx₀.part2VNH) {count : ℕ}
    (h : step4Loop hα m count lcs sdx₀ = some sdx) : EntriesNonempty sdx.part2VNH := by
  induction lcs generalizing count sdx₀ with
  | nil => exact Option.some.inj h ▸ h₀
  | cons pset lcs ih =>
    obtain ⟨sdx₁, h₁, h⟩ := Option.bind_eq_some_iff.mp h
    have hsame : sdx₁.part2VNH = sdx₀.part2VNH := (nextAddress_tables h₁).2
    exact ih ((hsame ▸ h₀).recordParticipants pset _) h

end numbered

section joined
variable {α : Type*} [DecidableEq α] {hα : Hashing α} {hκ : DictOrder Key} {d : Part2Prefix Key α}
  {X : Key} {x : α}

/-- The lists that share no prefix with the others are in the order of the runtime. -/
def ListedInOrder (hα : Hashing α) (l : List (Coll α)) : Prop :=
  ∀ L, Coll.list L ∈ l → (∀ z ∈ L, l.countP (fun c => decide (z ∈ c)) = 1) → hα.enum L.toFinset = L

theorem joined_self_of_many (hn : NoCollision d.keys) (hlen : 1 < d.keys.length)
    (hx : x ∈ prefixesOf d X) : Joined hα hκ d X x x :=
  (joined_iff_of_noCollision hn hlen).mpr ⟨hx, fun _ _ => Iff.rfl⟩

theorem joined_self_iff_of_single (hX : d.keys = [X]) {l : List (Coll α)} (hl : d.get? X = some l)
    (hn : NoCollision d.keys) (hx : x ∈ prefixesOf d X) : Joined hα hκ d X x x ↔
      ∀ L, Coll.list L ∈ l → x ∈ L → (∀ z ∈ L, l.countP (fun c => decide (z ∈ c)) = 1) →
        hα.enum L.toFinset = L := by
  have hplan : planOf hκ d = .leaf [X] := by
    rw [planOf, hX]
    rfl
  have halone : ∀ z, Alone d ((planOf hκ d).mates X) X z ↔
      l.countP (fun c => decide (z ∈ c)) = 1 := by
    intro z
    rw [hplan, Plan.mates, if_pos List.mem_cons_self, Alone]
    constructor
    · rintro ⟨⟨l', hl', hone⟩, -⟩
      obtain rfl := Option.some.inj (hl.symm.trans hl')
      exact hone
    · exact fun hone => ⟨⟨l, hl, hone⟩, fun q hq hne => absurd (List.mem_singleton.mp hq) hne⟩
  have hlost : NothingLost hκ d := nothingLost_of_noCollision hn
  constructor
  · intro hj L hL hxL hone
    exact hj.listed (by rw [hplan]; rfl) l hl L hL hxL fun z hz => (halone z).mpr (hone z hz)
  · intro hlisted
    refine ⟨hx, mem_keptPrefixes.mpr (hlost.covered X x hx), same_visible_of_same fun _ _ => Iff.rfl,
      fun before after hd z => ⟨fun hz => ?_, fun hz => ?_⟩, fun _ l' hl' L hL hxL hone => ?_⟩
    · exact same_visible_of_same (hlost.told before X after hd x hx z hz)
    · exact same_seen_of_same (hlost.same_of_visible hx hz)
    · obtain rfl := Option.some.inj (hl.symm.trans hl')
      exact hlisted L hL hxL fun z hz => (halone z).mp (hone z hz)

end joined

section lookup
variable {hα : Hashing String} {hκ : DictOrder Key} {d m : Part2Prefix Key String}
  {lcs : List (Coll String)} {sdx : SDX String}

/-- Every participant has an entry, and a lookup in it gives the address of the one group that
holds the prefix. -/
def LooksUp (d : Part2Prefix Key String) (sdx : SDX String) : Prop :=
  ∀ X ∈ d.keys, ∃ groups, sdx.part2VNH.get? X = some groups ∧ ∀ p ∈ prefixesOf d X, ∃ v c mac,
    sdx.vnh2pfx.get? v = some c ∧ p ∈ c ∧ (∀ w e, sdx.vnh2pfx.get? w = some e → p ∈ e → w = v) ∧
    sdx.vnh2MAC.get? v = some mac ∧ mac ≠ unassignedMac ∧
    returnVnhop groups sdx.vnh2MAC p = some mac

theorem vnhEntry_of_get? {X : Key} {groups : Dict String (Coll String)}
    (hX : sdx.part2VNH.get? X = some groups) (v : String) :
    vnhEntry sdx.part2VNH X v = groups.get? v := by
  rw [vnhEntry, hX, Option.bind_some]

section round
variable (h : Round hκ (planOf hκ d) d d.keys m lcs)
include h

theorem index_unique {i j : ℕ} {c e : Coll String} (hi : lcs[i]? = some c) (hj : lcs[j]? = some e)
    {p : String} (hp : p ∈ c) (hp' : p ∈ e) : i = j := by
  obtain ⟨hi', rfl⟩ := List.getElem?_eq_some_iff.mp hi
  obtain ⟨hj', rfl⟩ := List.getElem?_eq_some_iff.mp hj
  by_contra hne
  rcases Nat.lt_or_gt_of_ne hne with hlt | hlt
  · exact Finset.disjoint_left.mp (List.pairwise_iff_getElem.mp h.disjoint i j hi' hj' hlt) hp hp'
  · exact Finset.disjoint_left.mp (List.pairwise_iff_getElem.mp h.disjoint j i hj' hi' hlt) hp' hp

theorem length_le_card : lcs.length ≤ (keptPrefixes hκ (planOf hκ d) d).card :=
  h.prefixes_eq ▸ h.disjoint.length_le_card h.nonempty

variable (ht : Numbered hα m lcs sdx)
include ht

theorem noneCut_of_numbered {X : Key} {groups : Dict String (Coll String)}
    (hX : sdx.part2VNH.get? X = some groups) : NoneCut groups sdx.vnh2MAC [] := by
  have hentry : ∀ v c, groups.get? v = some c →
      ∃ i : ℕ, lcs[i]? = some c ∧ v = vname (1 + i) ∧ Recorded hα m c X := by
    intro v c hc
    exact (ht.entries X v c).mp ((vnhEntry_of_get? hX v).trans hc)
  have hmac : ∀ v ∈ groups.keys, ∃ i : ℕ, i < lcs.length ∧ v = vname (1 + i) ∧
      sdx.vnh2MAC.get? v = some (vnhMac + (1 + i)) := by
    intro v hv
    obtain ⟨c, hc⟩ := Dict.mem_keys_iff.mp hv
    obtain ⟨i, hi, rfl, -⟩ := hentry v c hc
    have hlt := (List.getElem?_eq_some_iff.mp hi).1
    exact ⟨i, hlt, rfl, ht.macs i hlt⟩
  refine ⟨fun v w c e hvw hc he => ?_, by simp, fun v hv => ?_, fun v hv w hw heq => ?_⟩
  · obtain ⟨i, hi, rfl, -⟩ := hentry v c hc
    obtain ⟨j, hj, rfl, -⟩ := hentry w e he
    refine Finset.disjoint_left.mpr fun p hp hp' => hvw ?_
    rw [index_unique h hi hj hp hp']
  · obtain ⟨i, hlt, -, hget⟩ := hmac v hv
    have hshort := ht.short
    refine ⟨_, hget, ?_, ?_⟩
    · omega
    · rw [vnhMac, unassignedMac]
      omega
  · obtain ⟨i, -, rfl, hget⟩ := hmac v hv
    obtain ⟨j, -, rfl, hget'⟩ := hmac w hw
    rw [hget, hget', Option.some.injEq] at heq
    rw [show i = j by omega]

theorem looksUp_iff_joined (hd : NonemptySets d) (hentries : EntriesNonempty sdx.part2VNH) :
    LooksUp d sdx ↔ (∀ X l, d.get? X = some l → l ≠ []) ∧
      ∀ X, ∀ x ∈ prefixesOf d X, Joined hα hκ d X x x := by
  constructor
  · intro hlook
    refine ⟨fun X l hl hnil => ?_, fun X x hx => ?_⟩
    · obtain ⟨groups, hX, -⟩ := hlook X (Dict.mem_keys_iff.mpr ⟨l, hl⟩)
      obtain ⟨v, c, hc⟩ := hentries X groups hX
      obtain ⟨i, hi, -, hrec⟩ := (ht.entries X v c).mp ((vnhEntry_of_get? hX v).trans hc)
      have hcl : c ∈ lcs := List.mem_of_getElem? hi
      obtain ⟨y, hy⟩ := h.nonempty c hcl
      -- the group lies inside the participant's sets, of which there are none
      obtain ⟨S, hS, -⟩ := mem_prefixesOf.mp (joined_of_recorded h hcl hy hy hrec).own
      obtain ⟨l', hl', hmem⟩ := mem_families.mp hS
      obtain rfl := Option.some.inj (hl.symm.trans hl')
      rw [hnil] at hmem
      exact absurd hmem (by simp [members])
    · obtain ⟨groups, hX, hfound⟩ := hlook X (mem_keys_of_mem_prefixesOf hx)
      obtain ⟨-, -, mac, -, -, -, -, hmac, hret⟩ := hfound x hx
      rw [returnVnhop] at hret
      split at hret
      · rename_i kv hkv
        have hxc : x ∈ kv.2 := by simpa using List.find?_some hkv
        have hget : groups.get? kv.1 = some kv.2 :=
          Dict.get?_eq_some.mpr (List.mem_of_find?_eq_some hkv)
        obtain ⟨i, hi, -, hrec⟩ := (ht.entries X kv.1 kv.2).mp
          ((vnhEntry_of_get? hX kv.1).trans hget)
        exact joined_of_recorded h (List.mem_of_getElem? hi) hxc hxc hrec
      · exact absurd (Option.some.inj hret).symm hmac
  · rintro ⟨hlists, hjoined⟩ X hX
    have hfound : ∀ p ∈ prefixesOf d X, ∃ i : ℕ, ∃ c, lcs[i]? = some c ∧ p ∈ c ∧
        vnhEntry sdx.part2VNH X (vname (1 + i)) = some c := by
      intro p hp
      obtain ⟨c, hc, hpc, -, hrec⟩ := recorded_of_joined h (hjoined X p hp)
      obtain ⟨i, hi⟩ := List.mem_iff_getElem?.mp hc
      exact ⟨i, c, hi, hpc, (ht.entries X _ c).mpr ⟨i, hi, rfl, hrec⟩⟩
    obtain ⟨l, hl⟩ := Dict.mem_keys_iff.mp hX
    obtain ⟨c, hc⟩ := List.exists_mem_of_ne_nil l (hlists X l hl)
    obtain ⟨x, hx⟩ := hd X l hl c hc
    obtain ⟨i, c', -, -, hentry⟩ := hfound x (mem_prefixesOf.mpr
      ⟨c.toSet, mem_families.mpr ⟨l, hl, mem_members.mpr ⟨c, hc, rfl⟩⟩, hx⟩)
    obtain ⟨groups, hgroups, -⟩ := Option.bind_eq_some_iff.mp hentry
    refine ⟨groups, hgroups, fun p hp => ?_⟩
    obtain ⟨i, c, hi, hpc, hentry⟩ := hfound p hp
    have hlt := (List.getElem?_eq_some_iff.mp hi).1
    have hget : groups.get? (vname (1 + i)) = some c := (vnhEntry_of_get? hgroups _).symm.trans hentry
    have hcut := noneCut_of_numbered h ht hgroups
    obtain ⟨mac, hmac, -, hne⟩ := hcut.mac _ (Dict.mem_keys_iff.mpr ⟨c, hget⟩)
    refine ⟨vname (1 + i), c, mac, (ht.groups _ c).mpr ⟨i, hi, rfl⟩, hpc, fun w e he hpe => ?_, hmac,
      hne, (returnVnhop_of_disjoint hcut.disjoint hget hpc).trans hmac⟩
    obtain ⟨j, hj, rfl⟩ := (ht.groups w e).mp he
    rw [index_unique h hj hi hpe hpc]

end round

theorem looksUp_iff_listed (h : Round hκ (planOf hκ d) d d.keys m lcs) (hd : NonemptySets d)
    (hn : NoCollision d.keys) (hsdx : step4 hα m lcs SDX.init = some sdx) :
    LooksUp d sdx ↔ (∀ X l, d.get? X = some l → l ≠ []) ∧
      ∀ X l, d.keys = [X] → d.get? X = some l → ListedInOrder hα l := by
  have hentries : EntriesNonempty sdx.part2VNH :=
    EntriesNonempty.step4Loop (fun X groups hX => by cases hX) hsdx
  refine (looksUp_iff_joined h (numbered_of_step4 hsdx) hd hentries).trans ?_
  refine and_congr_right fun _ => ⟨fun hjoined X l hX hl L hL hone => ?_, fun hlisted X x hx => ?_⟩
  · obtain ⟨x, hx⟩ := hd X l hl _ hL
    have hxX : x ∈ prefixesOf d X := mem_prefixesOf.mpr
      ⟨_, mem_families.mpr ⟨l, hl, mem_members.mpr ⟨_, hL, rfl⟩⟩, hx⟩
    have hxL : x ∈ L := List.mem_toFinset.mp hx
    exact (joined_self_iff_of_single hX hl hn hxX).mp (hjoined X x hxX) L hL hxL hone
  · by_cases hlen : 1 < d.keys.length
    · exact joined_self_of_many hn hlen hx
    · have hmem := mem_keys_of_mem_prefixesOf hx
      obtain ⟨Y, hY⟩ : ∃ Y, d.keys = [Y] := by
        refine List.length_eq_one_iff.mp ?_
        have := List.length_pos_of_mem hmem
        omega
      obtain rfl : X = Y := List.mem_singleton.mp (hY ▸ hmem)
      obtain ⟨l, hl⟩ := Dict.mem_keys_iff.mp hmem
      exact (joined_self_iff_of_single hY hl hn hx).mpr fun L hL _ => hlisted X l hY hl L hL

/-- Where names cannot collide, all prefixes are found exactly when every participant has a list
and a single participant's lists come in the order of the runtime. -/
theorem step4_looksUp_iff (hα : Hashing String) (hκ : DictOrder Key) (hne : d.keys ≠ [])
    (hd : NonemptySets d) (hn : NoCollision d.keys) :
    ∃ m lcs, (∀ n ≥ d.keys.length, lcsParallel hα hκ n d = some (m, lcs)) ∧
      (lcs.length ≤ 15 → ∃ sdx, step4 hα m lcs SDX.init = some sdx ∧
        (LooksUp d sdx ↔ (∀ X l, d.get? X = some l → l ≠ []) ∧
          ∀ X l, d.keys = [X] → d.get? X = some l → ListedInOrder hα l)) := by
  obtain ⟨m, lcs, hrun, hround⟩ := lcsParallel_run hα hκ hne hd
  refine ⟨m, lcs, hrun, fun hfits => ?_⟩
  obtain ⟨sdx, hsdx⟩ := step4_total hα m hfits SDX.init
  exact ⟨sdx, hsdx, looksUp_iff_listed hround hd hn hsdx⟩

end lookup

def descendingList : Part2Prefix Key String := .single (.str "A") [.list ["20.0.0.0/8", "10.0.0.0/8"]]

theorem noCollision_descendingList : NoCollision descendingList.keys :=
  noCollision_of_length (L := 1) Nat.one_pos (List.forall_mem_singleton.mpr ⟨"A", rfl, rfl⟩)

theorem step4_looksUp_iff_descendingList :
    ∃ m lcs, (∀ n ≥ descendingList.keys.length,
      lcsParallel .sorted .insertion n descendingList = some (m, lcs)) ∧
      (lcs.length ≤ 15 → ∃ sdx, step4 .sorted m lcs SDX.init = some sdx ∧
        (LooksUp descendingList sdx ↔ (∀ X l, descendingList.get? X = some l → l ≠ []) ∧
          ∀ X l, descendingList.keys = [X] → descendingList.get? X = some l →
            ListedInOrder .sorted l)) :=
  step4_looksUp_iff .sorted .insertion (by decide) (nonemptySets_iff.mpr (by decide))
    noCollision_descendingList

theorem step4_descendingList_unrecorded : NonemptySets descendingList ∧
    NoCollision descendingList.keys ∧ ∃ m lcs sdx,
      (∀ n ≥ 1, lcsParallel .sorted .insertion n descendingList = some (m, lcs)) ∧
      lcs.length ≤ 15 ∧ step4 .sorted m lcs SDX.init = some sdx ∧ ¬ LooksUp descendingList sdx := by
  have hd : NonemptySets descendingList := nonemptySets_iff.mpr (by decide)
  obtain ⟨m, lcs, hrun, hround⟩ := lcsParallel_run .sorted .insertion (by decide) hd
  have hfits : lcs.length ≤ 15 := (length_le_card hround).trans (by decide)
  obtain ⟨sdx, hsdx⟩ := step4_total .sorted m hfits SDX.init
  refine ⟨hd, noCollision_descendingList, m, lcs, sdx, hrun, hfits, hsdx, fun hlook => ?_⟩
  have hlisted := ((looksUp_iff_listed hround hd noCollision_descendingList hsdx).mp hlook).2
    (.str "A") _ rfl rfl _ List.mem_cons_self (by decide)
  have hsorted := Hashing.pairwise_sorted (["20.0.0.0/8", "10.0.0.0/8"] : List String).toFinset
  rw [hlisted] at hsorted
  exact absurd hsorted (by decide)

end Hispar.VnhAssignment
