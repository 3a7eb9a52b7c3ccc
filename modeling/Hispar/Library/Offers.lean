import Mathlib

/-!
# Choices among the offers of the others

Each member of a group offers values, and keeps at most one value chosen from
what the other members offer. An event changes the offers of one member and
lets the members choose again; the loss of members takes their offers away and
lets no one choose.
-/
namespace Hispar.Library.Offers
variable {ι R : Type*} [DecidableEq ι]

@[ext] structure State (ι R : Type*) where
  offers : ι → List R
  choice : ι → List R

def others (names : List ι) (offers : ι → List R) (i : ι) : List R :=
  names.flatMap fun j => if i ≠ j then offers j else []

def Chosen (choose : List R → Option R) (values old new : List R) : Prop :=
  (values = [] ∧ new = old) ∨ ∃ r, choose values = some r ∧ new = [r]

structure Announced (choose : List R → Option R) (names : List ι) (q : ι) (s s' : State ι R) :
    Prop where
  same : ∀ j, j ≠ q → s'.offers j = s.offers j
  offered : s'.offers q ≠ []
  choice : ∀ i ∈ names, Chosen choose (others names s'.offers i) (s.choice i) (s'.choice i)

structure Withdrawn (choose : List R → Option R) (names : List ι) (q : ι) (s s' : State ι R) :
    Prop where
  same : ∀ j, j ≠ q → s'.offers j = s.offers j
  offered : s'.offers q = []
  idle : ∀ i ∈ names, s.choice i = [] → s'.choice i = []
  choice : ∀ i ∈ names, s.choice i ≠ [] → Chosen choose (others names s'.offers i) [] (s'.choice i)

structure Lost (gone : ι → Prop) (s s' : State ι R) : Prop where
  offers : ∀ i, ¬ gone i → s'.offers i = s.offers i
  goneOffers : ∀ i, gone i → s'.offers i = []
  choice : ∀ i, ¬ gone i ∨ s.offers i = [] → s'.choice i = s.choice i
  goneChoice : ∀ i, gone i → s.offers i ≠ [] → s'.choice i = []

def Settled (choose : List R → Option R) (names : List ι) (s : State ι R) : Prop :=
  ∀ i ∈ names, Chosen choose (others names s.offers i) [] (s.choice i)

def Held (names : List ι) (s : State ι R) : Prop := ∃ i ∈ names, s.offers i ≠ []

variable {choose : List R → Option R} {names : List ι} {s s' : State ι R} {q i : ι}

theorem mem_others {offers : ι → List R} {r : R} :
    r ∈ others names offers i ↔ ∃ j ∈ names, j ≠ i ∧ r ∈ offers j := by
  simp only [others, List.mem_flatMap]
  constructor
  · rintro ⟨j, hj, hr⟩
    split_ifs at hr with hij
    · exact ⟨j, hj, Ne.symm hij, hr⟩
    · exact absurd hr List.not_mem_nil
  · rintro ⟨j, hj, hij, hr⟩
    exact ⟨j, hj, by rwa [if_pos (Ne.symm hij)]⟩

theorem others_eq_nil {offers : ι → List R} :
    others names offers i = [] ↔ ∀ j ∈ names, j ≠ i → offers j = [] := by
  simp only [List.eq_nil_iff_forall_not_mem, mem_others, not_exists, not_and]
  exact ⟨fun h j hj hij r => h r j hj hij, fun h r j hj hij => h j hj hij r⟩

theorem others_congr {offers offers' : ι → List R} (h : ∀ j ∈ names, j ≠ i → offers j = offers' j) :
    others names offers i = others names offers' i := by
  apply List.flatMap_congr
  intro j hj
  split_ifs with hij
  · exact h j hj (Ne.symm hij)
  · rfl

variable (hchoose : ∀ l r, choose l = some r → r ∈ l)
include hchoose

theorem Chosen.eq_nil_iff {values new : List R} (h : Chosen choose values [] new) :
    new = [] ↔ values = [] := by
  rcases h with ⟨hv, hn⟩ | ⟨r, hr, hn⟩
  · exact iff_of_true hn hv
  · have hne : values ≠ [] := List.ne_nil_of_mem (hchoose values r hr)
    exact iff_of_false (hn ▸ List.cons_ne_nil r []) hne

omit hchoose in
theorem Chosen.ne_nil {values old new : List R} (h : Chosen choose values old new)
    (hv : values ≠ []) : new ≠ [] := by
  rcases h with ⟨hv', -⟩ | ⟨r, -, hn⟩
  · exact absurd hv' hv
  · exact hn ▸ List.cons_ne_nil r []

omit hchoose in
theorem settled_init (h : ∀ i, s.offers i = [] ∧ s.choice i = []) : Settled choose names s :=
  fun i _ => Or.inl ⟨others_eq_nil.mpr fun j _ _ => (h j).1, (h i).2⟩

theorem settled_announced (hs : Settled choose names s) (h : Announced choose names q s s') :
    Settled choose names s' := by
  intro i hi
  rcases h.choice i hi with ⟨hv, hn⟩ | hr
  · -- nothing is offered to this member now, so nothing was
    have hold : others names s.offers i = [] := by
      rw [others_eq_nil] at hv ⊢
      intro j hj hji
      by_cases hjq : j = q
      · exact absurd (hjq ▸ hv j hj hji) h.offered
      · exact h.same j hjq ▸ hv j hj hji
    exact Or.inl ⟨hv, hn.trans (((hs i hi).eq_nil_iff hchoose).mpr hold)⟩
  · exact Or.inr hr

theorem settled_withdrawn (hs : Settled choose names s) (h : Withdrawn choose names q s s') :
    Settled choose names s' := by
  intro i hi
  by_cases hc : s.choice i = []
  · have hold := others_eq_nil.mp (((hs i hi).eq_nil_iff hchoose).mp hc)
    refine Or.inl ⟨others_eq_nil.mpr fun j hj hji => ?_, h.idle i hi hc⟩
    by_cases hjq : j = q
    · exact hjq ▸ h.offered
    · exact (h.same j hjq).trans (hold j hj hji)
  · exact h.choice i hi hc

/-- After a loss the choices are settled only where the lost members were all there
was: no one else offers or chooses anything. -/
theorem settled_lost_iff {gone : ι → Prop} (hs : Settled choose names s) (h : Lost gone s s') :
    Settled choose names s' ↔ ∀ i ∈ names, gone i → s.offers i ≠ [] →
      ∀ j ∈ names, gone j ∧ s.offers j ≠ [] := by
  constructor
  · intro hs' i hi hgone hoff
    -- the lost member has no choice left, so no one still offers anything
    have hempty : ∀ j ∈ names, s'.offers j = [] := by
      intro j hj
      by_cases hji : j = i
      · exact hji ▸ h.goneOffers i hgone
      · have hc := h.goneChoice i hgone hoff
        exact others_eq_nil.mp (((hs' i hi).eq_nil_iff hchoose).mp hc) j hj hji
    intro j hj
    by_contra hj'
    rw [not_and_or, not_not] at hj'
    have hsame := h.choice j hj'
    have hnone : s'.choice j = [] :=
      ((hs' j hj).eq_nil_iff hchoose).mpr (others_eq_nil.mpr fun k hk _ => hempty k hk)
    have hothers := ((hs j hj).eq_nil_iff hchoose).mp (hsame ▸ hnone)
    have hij : i ≠ j := fun e => hj'.elim (fun hg => hg (e ▸ hgone)) fun ho => hoff (e ▸ ho)
    exact hoff (others_eq_nil.mp hothers i hi hij)
  · intro hall i hi
    by_cases hlost : ∃ j ∈ names, gone j ∧ s.offers j ≠ []
    · obtain ⟨j, hj, hgone, hoff⟩ := hlost
      have hboth := hall j hj hgone hoff
      refine Or.inl ⟨others_eq_nil.mpr fun k hk _ => h.goneOffers k (hboth k hk).1, ?_⟩
      exact h.goneChoice i (hboth i hi).1 (hboth i hi).2
    · simp only [not_exists, not_and, not_not] at hlost
      have hoffers : ∀ j ∈ names, s'.offers j = s.offers j := by
        intro j hj
        by_cases hg : gone j
        · rw [h.goneOffers j hg, hlost j hj hg]
        · exact h.offers j hg
      have hchoice : s'.choice i = s.choice i := by
        apply h.choice
        by_cases hg : gone i
        · exact Or.inr (hlost i hi hg)
        · exact Or.inl hg
      rw [hchoice, others_congr fun j hj _ => hoffers j hj]
      exact hs i hi

structure Tracked (names : List ι) (s : State ι R) : Prop where
  sound : ∀ i ∈ names, s.choice i ≠ [] → Held names s
  shared : ∀ i ∈ names, ∀ j ∈ names, i ≠ j → s.offers i ≠ [] → s.offers j ≠ [] → s.choice i ≠ []

omit [DecidableEq ι] hchoose in
theorem tracked_init (h : ∀ i, s.offers i = [] ∧ s.choice i = []) : Tracked names s where
  sound i _ hc := absurd (h i).2 hc
  shared i _ _ _ _ hi _ := absurd (h i).1 hi

omit hchoose in
theorem held_of_others {values : List R} (hv : others names s.offers i = values)
    (hne : values ≠ []) : Held names s := by
  obtain ⟨r, hr⟩ := List.exists_mem_of_ne_nil values hne
  obtain ⟨j, hj, -, hrj⟩ := mem_others.mp (hv ▸ hr)
  exact ⟨j, hj, List.ne_nil_of_mem hrj⟩

omit hchoose in
theorem others_ne_nil {offers : ι → List R} {j : ι} (hj : j ∈ names) (hji : j ≠ i)
    (hoff : offers j ≠ []) : others names offers i ≠ [] :=
  fun h => hoff (others_eq_nil.mp h j hj hji)

omit hchoose in
theorem tracked_announced (hq : q ∈ names) (h : Announced choose names q s s') :
    Tracked names s' where
  sound _ _ _ := ⟨q, hq, h.offered⟩
  shared i hi _ hj hij _ hoff := (h.choice i hi).ne_nil (others_ne_nil hj (Ne.symm hij) hoff)

theorem tracked_withdrawn (hs : Tracked names s) (h : Withdrawn choose names q s s') :
    Tracked names s' where
  sound i hi hc := by
    have hold : s.choice i ≠ [] := fun e => hc (h.idle i hi e)
    have hvalues := mt ((h.choice i hi hold).eq_nil_iff hchoose).mpr hc
    exact held_of_others rfl hvalues
  shared i hi j hj hij hoffi hoffj := by
    have hne : ∀ k, s'.offers k ≠ [] → k ≠ q := fun k hk e => hk (e ▸ h.offered)
    have hi' := h.same i (hne i hoffi) ▸ hoffi
    have hj' := h.same j (hne j hoffj) ▸ hoffj
    have hold := hs.shared i hi j hj hij hi' hj'
    exact (h.choice i hi hold).ne_nil (others_ne_nil hj (Ne.symm hij) hoffj)

omit [DecidableEq ι] hchoose in
theorem tracked_lost {gone : ι → Prop} (hs : Tracked names s) (h : Lost gone s s')
    (hheld : Held names s → Held names s') : Tracked names s' where
  sound i hi hc := by
    apply hheld
    apply hs.sound i hi
    intro e
    apply hc
    by_cases hg : gone i ∧ s.offers i ≠ []
    · exact h.goneChoice i hg.1 hg.2
    · rw [not_and_or, not_not] at hg
      rw [h.choice i hg, e]
  shared i hi j hj hij hoffi hoffj := by
    have hne : ∀ k, s'.offers k ≠ [] → ¬ gone k := fun k hk hg => hk (h.goneOffers k hg)
    rw [h.choice i (Or.inl (hne i hoffi))]
    exact hs.shared i hi j hj hij (h.offers i (hne i hoffi) ▸ hoffi) (h.offers j (hne j hoffj) ▸ hoffj)

omit hchoose in
theorem chosen_announced (hq : q ∈ names) {j : ι} (hj : j ∈ names) (hjq : j ≠ q)
    (h : Announced choose names q s s') : ∃ i ∈ names, s'.choice i ≠ [] :=
  ⟨j, hj, (h.choice j hj).ne_nil (others_ne_nil hq (Ne.symm hjq) h.offered)⟩

theorem chosen_withdrawn_iff (hs : Tracked names s) (hq : q ∈ names) (hoff : s.offers q ≠ [])
    (h : Withdrawn choose names q s s') : (∃ i ∈ names, s'.choice i ≠ []) ↔ Held names s' := by
  constructor
  · intro ⟨i, hi, hc⟩
    exact (tracked_withdrawn hchoose hs h).sound i hi hc
  · intro ⟨j, hj, hoffj⟩
    have hjq : j ≠ q := fun e => hoffj (e ▸ h.offered)
    have hold := hs.shared q hq j hj (Ne.symm hjq) hoff (h.same j hjq ▸ hoffj)
    exact ⟨q, hq, (h.choice q hq hold).ne_nil (others_ne_nil hj hjq hoffj)⟩

end Hispar.Library.Offers
