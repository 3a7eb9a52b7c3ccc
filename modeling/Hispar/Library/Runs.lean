import Mathlib

/-!
# Loops over a list that may fail

A loop with an accumulator is a fold of a partial step. An invariant that every
step keeps holds after the loop; a loop each of whose steps succeeds where the
invariant holds succeeds itself.
-/
namespace Hispar.Library.Runs
variable {σ α β : Type*} {f : σ → α → Option σ} {P : σ → Prop} {l : List α}

theorem foldlM_invariant (hstep : ∀ s s', ∀ a ∈ l, P s → f s a = some s' → P s') {s s' : σ}
    (hs : P s) (hrun : l.foldlM f s = some s') : P s' := by
  induction l generalizing s with
  | nil => exact Option.some.inj hrun ▸ hs
  | cons a l ih =>
    rw [List.foldlM_cons] at hrun
    obtain ⟨s₁, h₁, hrun⟩ := Option.bind_eq_some_iff.mp hrun
    exact ih (fun s s' b hb => hstep s s' b (List.mem_cons_of_mem a hb))
      (hstep s s₁ a List.mem_cons_self hs h₁) hrun

theorem foldlM_total (hstep : ∀ s, ∀ a ∈ l, P s → ∃ s', f s a = some s' ∧ P s') {s : σ}
    (hs : P s) : ∃ s', l.foldlM f s = some s' ∧ P s' := by
  induction l generalizing s with
  | nil => exact ⟨s, rfl, hs⟩
  | cons a l ih =>
    obtain ⟨s₁, h₁, hs₁⟩ := hstep s a List.mem_cons_self hs
    obtain ⟨s', hrun, hs'⟩ := ih (fun s b hb => hstep s b (List.mem_cons_of_mem a hb)) hs₁
    exact ⟨s', by rw [List.foldlM_cons, h₁]; exact hrun, hs'⟩

theorem foldlM_conj {C : σ → Prop} {G : α → Prop}
    (hstep : ∀ s, ∀ a ∈ l, ∃ s', f s a = some s' ∧ (C s' ↔ C s ∧ G a)) (s : σ) :
    ∃ s', l.foldlM f s = some s' ∧ (C s' ↔ C s ∧ ∀ a ∈ l, G a) := by
  induction l generalizing s with
  | nil => exact ⟨s, rfl, by simp⟩
  | cons a l ih =>
    obtain ⟨s₁, h₁, hs₁⟩ := hstep s a List.mem_cons_self
    obtain ⟨s', hrun, hs'⟩ := ih (fun s b hb => hstep s b (List.mem_cons_of_mem a hb)) s₁
    exact ⟨s', by rw [List.foldlM_cons, h₁]; exact hrun,
      by rw [hs', hs₁, List.forall_mem_cons, and_assoc]⟩

theorem foldlM_flatMap {γ : Type*} (g : γ → List α) (l : List γ) (s : σ) :
    (l.flatMap g).foldlM f s = l.foldlM (fun s c => (g c).foldlM f s) s := by
  induction l generalizing s with
  | nil => rfl
  | cons c l ih =>
    rw [List.flatMap_cons, List.foldlM_append, List.foldlM_cons]
    exact congrArg _ (funext ih)

theorem foldlM_visited {Q : List α → σ → Prop}
    (hstep : ∀ done a rest s, l = done ++ a :: rest → Q done s →
      ∃ s', f s a = some s' ∧ Q (done ++ [a]) s') {s : σ} (hs : Q [] s) :
    ∃ s', l.foldlM f s = some s' ∧ Q l s' := by
  suffices hgen : ∀ rest done s, l = done ++ rest → Q done s →
      ∃ s', rest.foldlM f s = some s' ∧ Q l s' from hgen l [] s rfl hs
  intro rest
  induction rest with
  | nil =>
    intro done s hl hs
    exact ⟨s, rfl, by rwa [hl, List.append_nil]⟩
  | cons a rest ih =>
    intro done s hl hs
    obtain ⟨s₁, h₁, hs₁⟩ := hstep done a rest s hl hs
    obtain ⟨s', hrun, hs'⟩ := ih (done ++ [a]) s₁ (by simp [hl]) hs₁
    exact ⟨s', by rw [List.foldlM_cons, h₁]; exact hrun, hs'⟩

theorem foldlM_visited_invariant {Q : List α → σ → Prop}
    (hstep : ∀ done a rest s s', l = done ++ a :: rest → Q done s → f s a = some s' →
      Q (done ++ [a]) s') {s s' : σ} (hs : Q [] s) (hrun : l.foldlM f s = some s') : Q l s' := by
  suffices hgen : ∀ rest done s, l = done ++ rest → Q done s → rest.foldlM f s = some s' → Q l s' from
    hgen l [] s rfl hs hrun
  intro rest
  induction rest with
  | nil =>
    intro done s hl hs hrun
    obtain rfl := Option.some.inj hrun
    rwa [hl, List.append_nil]
  | cons a rest ih =>
    intro done s hl hs hrun
    rw [List.foldlM_cons] at hrun
    obtain ⟨s₁, h₁, hrun⟩ := Option.bind_eq_some_iff.mp hrun
    exact ih (done ++ [a]) s₁ (by simp [hl]) (hstep done a rest s s₁ hl hs h₁) hrun

theorem foldlM_completes_iff_forall {I : σ → Prop} {G : α → Prop}
    (hstep : ∀ s, ∀ a ∈ l, I s → ((∃ s', f s a = some s') ↔ G a) ∧ ∀ s', f s a = some s' → I s')
    {s : σ} (hs : I s) : (∃ s', l.foldlM f s = some s') ↔ ∀ a ∈ l, G a := by
  induction l generalizing s with
  | nil => exact iff_of_true ⟨s, rfl⟩ fun a ha => absurd ha List.not_mem_nil
  | cons a l ih =>
    obtain ⟨hiff, hkeep⟩ := hstep s a List.mem_cons_self hs
    have ih := fun s (hs : I s) => ih (fun s b hb => hstep s b (List.mem_cons_of_mem a hb)) hs
    rw [List.forall_mem_cons, ← hiff]
    constructor
    · rintro ⟨s', hrun⟩
      rw [List.foldlM_cons] at hrun
      obtain ⟨s₁, h₁, hrun⟩ := Option.bind_eq_some_iff.mp hrun
      exact ⟨⟨s₁, h₁⟩, (ih s₁ (hkeep s₁ h₁)).mp ⟨s', hrun⟩⟩
    · rintro ⟨⟨s₁, h₁⟩, hrest⟩
      obtain ⟨s', hrun⟩ := (ih s₁ (hkeep s₁ h₁)).mpr hrest
      exact ⟨s', by rw [List.foldlM_cons, h₁]; exact hrun⟩

/-- A property of all states along a run, against a condition on its steps: where the
invariant holds, a step keeps the property exactly when it meets the condition, and one
that meets the condition keeps the invariant. -/
theorem foldlM_prefixes_iff {I : σ → Prop} {G : σ → α → Prop} (hI : ∀ s, I s → P s)
    (hstep : ∀ s s', ∀ a ∈ l, I s → f s a = some s' → (P s' ↔ G s a) ∧ (G s a → I s'))
    {s s' : σ} (hs : I s) (hrun : l.foldlM f s = some s') :
    (∀ done rest t, l = done ++ rest → done.foldlM f s = some t → P t) ↔
    ∀ done a rest t, l = done ++ a :: rest → done.foldlM f s = some t → G t a := by
  induction l generalizing s with
  | nil =>
    constructor
    · intro _ done a rest t hl
      cases done <;> cases hl
    · intro _ done rest t hl ht
      obtain ⟨rfl, -⟩ := List.nil_eq_append_iff.mp hl
      exact Option.some.inj ht ▸ hI s hs
  | cons a l ih =>
    rw [List.foldlM_cons] at hrun
    obtain ⟨s₁, h₁, hrun⟩ := Option.bind_eq_some_iff.mp hrun
    obtain ⟨hiff, hkeep⟩ := hstep s s₁ a List.mem_cons_self hs h₁
    have ih := fun hs₁ => ih (fun s s' b hb => hstep s s' b (List.mem_cons_of_mem a hb)) hs₁ hrun
    have hcons : ∀ done t, (a :: done).foldlM f s = some t ↔ done.foldlM f s₁ = some t := by
      intro done t
      rw [List.foldlM_cons, h₁]
      rfl
    constructor
    · intro hall
      have hgood := hiff.mp (hall [a] l s₁ rfl ((hcons [] s₁).mpr rfl))
      have hrest := (ih (hkeep hgood)).mp fun done rest t hl ht =>
        hall (a :: done) rest t (congrArg (a :: ·) hl) ((hcons done t).mpr ht)
      intro done b rest t hl ht
      cases done with
      | nil =>
        obtain ⟨rfl, -⟩ := List.cons.inj hl
        exact Option.some.inj ht ▸ hgood
      | cons c done =>
        obtain ⟨rfl, htail⟩ := List.cons.inj hl
        exact hrest done b rest t htail ((hcons done t).mp ht)
    · intro hall
      have hgood := hall [] a l s rfl rfl
      have hrest := (ih (hkeep hgood)).mpr fun done b rest t hl ht =>
        hall (a :: done) b rest t (congrArg (a :: ·) hl) ((hcons done t).mpr ht)
      intro done rest t hl ht
      cases done with
      | nil => exact Option.some.inj ht ▸ hI s hs
      | cons c done =>
        obtain ⟨rfl, htail⟩ := List.cons.inj hl
        exact hrest done rest t htail ((hcons done t).mp ht)

section measure
variable {w : σ → ℕ} {T : α → Prop}

theorem foldlM_length_le (hstep : ∀ s s', ∀ a ∈ l, f s a = some s' → w s' < w s) {s s' : σ}
    (hrun : l.foldlM f s = some s') : l.length + w s' ≤ w s := by
  induction l generalizing s with
  | nil =>
    obtain rfl := Option.some.inj hrun
    simp
  | cons a l ih =>
    rw [List.foldlM_cons] at hrun
    obtain ⟨s₁, h₁, hrun⟩ := Option.bind_eq_some_iff.mp hrun
    have hrest := ih (fun s s' b hb => hstep s s' b (List.mem_cons_of_mem a hb)) hrun
    have hfirst := hstep s s₁ a List.mem_cons_self h₁
    rw [List.length_cons]
    omega

theorem exists_foldlM_idle (hstep : ∀ s s' a, T a → f s a = some s' → w s' < w s) (s : σ) :
    ∃ (l : List α) (s' : σ), (∀ a ∈ l, T a) ∧ l.foldlM f s = some s' ∧ ∀ a, T a → f s' a = none := by
  induction hn : w s using Nat.strong_induction_on generalizing s with
  | h n ih =>
    by_cases hidle : ∀ a, T a → f s a = none
    · exact ⟨[], s, fun _ h => absurd h List.not_mem_nil, rfl, hidle⟩
    · simp only [not_forall] at hidle
      obtain ⟨a, ha, hsome⟩ := hidle
      obtain ⟨s₁, h₁⟩ := Option.ne_none_iff_exists'.mp hsome
      obtain ⟨l, s', hl, hrun, hs'⟩ := ih (w s₁) (hn ▸ hstep s s₁ a ha h₁) s₁ rfl
      refine ⟨a :: l, s', List.forall_mem_cons.mpr ⟨ha, hl⟩, ?_, hs'⟩
      rw [List.foldlM_cons, h₁]
      exact hrun

end measure

theorem mapM_eq_map {g : α → Option β} {h : α → β} (hgh : ∀ a ∈ l, g a = some (h a)) :
    l.mapM g = some (l.map h) := by
  induction l with
  | nil => rfl
  | cons a l ih =>
    rw [List.mapM_cons, hgh a List.mem_cons_self, ih fun b hb => hgh b (List.mem_cons_of_mem a hb)]
    rfl

theorem mem_mapM {g : α → Option β} {bs : List β} (h : l.mapM g = some bs) {b : β} :
    b ∈ bs ↔ ∃ a ∈ l, g a = some b := by
  induction l generalizing bs with
  | nil =>
    obtain rfl := Option.some.inj h
    simp
  | cons a l ih =>
    rw [List.mapM_cons] at h
    obtain ⟨c, hc, h⟩ := Option.bind_eq_some_iff.mp h
    obtain ⟨cs, hcs, h⟩ := Option.bind_eq_some_iff.mp h
    obtain rfl : c :: cs = bs := Option.some.inj h
    rw [List.mem_cons, ih hcs]
    simp only [List.mem_cons, or_and_right, exists_or, exists_eq_left, hc, Option.some.injEq,
      eq_comm (a := b)]

theorem exists_of_mapM {g : α → Option β} {bs : List β} (h : l.mapM g = some bs) {a : α}
    (ha : a ∈ l) : ∃ b ∈ bs, g a = some b := by
  induction l generalizing bs with
  | nil => exact absurd ha List.not_mem_nil
  | cons c l ih =>
    rw [List.mapM_cons] at h
    obtain ⟨b, hb, h⟩ := Option.bind_eq_some_iff.mp h
    obtain ⟨bs', hbs, h⟩ := Option.bind_eq_some_iff.mp h
    obtain rfl : b :: bs' = bs := Option.some.inj h
    rcases List.mem_cons.mp ha with rfl | ha
    · exact ⟨b, List.mem_cons_self, hb⟩
    · obtain ⟨b', hb', hg⟩ := ih hbs ha
      exact ⟨b', List.mem_cons_of_mem b hb', hg⟩

theorem mapM_forall₂_iff {g : α → Option β} {R : α → β → Prop} (l : List α) :
    (∃ bs, l.mapM g = some bs ∧ List.Forall₂ R l bs) ↔ ∀ a ∈ l, ∃ b, g a = some b ∧ R a b := by
  induction l with
  | nil => simp
  | cons a l ih =>
    rw [List.forall_mem_cons, ← ih, List.mapM_cons]
    constructor
    · rintro ⟨bs, hbs, hR⟩
      obtain ⟨b, hb, hbs⟩ := Option.bind_eq_some_iff.mp hbs
      obtain ⟨bs', hbs', hbs⟩ := Option.bind_eq_some_iff.mp hbs
      obtain rfl : b :: bs' = bs := Option.some.inj hbs
      obtain ⟨hab, hR⟩ := List.forall₂_cons.mp hR
      exact ⟨⟨b, hb, hab⟩, bs', hbs', hR⟩
    · rintro ⟨⟨b, hb, hab⟩, bs, hbs, hR⟩
      exact ⟨b :: bs, by rw [hb, hbs]; rfl, .cons hab hR⟩

theorem exists_of_forall₂ {R : α → β → Prop} {bs : List β} (h : List.Forall₂ R l bs) {a : α}
    (ha : a ∈ l) : ∃ b ∈ bs, R a b := by
  induction h with
  | nil => exact absurd ha List.not_mem_nil
  | @cons a' b l bs hab _ ih =>
    rcases List.mem_cons.mp ha with rfl | ha
    · exact ⟨b, List.mem_cons_self, hab⟩
    · obtain ⟨b', hb', hR⟩ := ih ha
      exact ⟨b', List.mem_cons_of_mem b hb', hR⟩

theorem exists_iff_of_forall₂ {R : α → β → Prop} {bs : List β} (h : List.Forall₂ R l bs)
    {q : α → Prop} {q' : β → Prop} (hq : ∀ a ∈ l, ∀ b, R a b → (q' b ↔ q a)) :
    (∃ b ∈ bs, q' b) ↔ ∃ a ∈ l, q a := by
  induction h with
  | nil => simp
  | @cons a b l bs hab _ ih =>
    rw [List.exists_mem_cons_iff, List.exists_mem_cons_iff, hq a List.mem_cons_self b hab,
      ih fun a' ha' => hq a' (List.mem_cons_of_mem a ha')]

theorem count_mapM [DecidableEq β] {g : α → Option β} {bs : List β} (h : l.mapM g = some bs)
    (b : β) : bs.count b = (l.filter fun a => g a = some b).length := by
  induction l generalizing bs with
  | nil =>
    obtain rfl := Option.some.inj h
    rfl
  | cons a l ih =>
    rw [List.mapM_cons] at h
    obtain ⟨c, hc, h⟩ := Option.bind_eq_some_iff.mp h
    obtain ⟨cs, hcs, h⟩ := Option.bind_eq_some_iff.mp h
    obtain rfl : c :: cs = bs := Option.some.inj h
    rw [List.count_cons, ih hcs, List.filter_cons, hc]
    by_cases hcb : c = b <;> simp [hcb]

theorem foldl_candidate_mem (better : β → α → Prop) [∀ b a, Decidable (better b a)]
    (value : α → β) (l : List α) (b : β) :
    l.foldl (fun b a => if better b a then value a else b) b ∈ b :: l.map value := by
  induction l generalizing b with
  | nil => exact List.mem_singleton_self b
  | cons a l ih =>
    rw [List.foldl_cons, List.map_cons]
    have h := ih (if better b a then value a else b)
    split_ifs at h ⊢
    · exact List.mem_cons_of_mem b h
    · rcases List.mem_cons.mp h with h | h
      · rw [h]
        exact List.mem_cons_self
      · exact List.mem_cons_of_mem b (List.mem_cons_of_mem _ h)

theorem foldl_candidate_lowest (gt : β → β → Prop) [∀ b c, Decidable (gt b c)]
    (hasymm : ∀ b c, gt b c → ¬ gt c b) (htrans : ∀ b c e, ¬ gt b c → ¬ gt c e → ¬ gt b e)
    (value : α → β) (l : List α) (b : β) :
    ∀ c ∈ b :: l.map value,
      ¬ gt (l.foldl (fun b a => if gt b (value a) then value a else b) b) c := by
  have hirrefl : ∀ c, ¬ gt c c := fun c h => hasymm c c h h
  induction l generalizing b with
  | nil =>
    intro c hc
    rw [List.mem_singleton.mp hc]
    exact hirrefl b
  | cons a l ih =>
    have hnew := ih (if gt b (value a) then value a else b)
    have hb : ¬ gt (if gt b (value a) then value a else b) b := by
      split_ifs with h
      · exact hasymm _ _ h
      · exact hirrefl b
    have ha : ¬ gt (if gt b (value a) then value a else b) (value a) := by
      split_ifs with h
      · exact hirrefl _
      · exact h
    intro c hc
    rw [List.foldl_cons]
    have hfirst := hnew _ List.mem_cons_self
    rcases List.mem_cons.mp hc with rfl | hc
    · exact htrans _ _ _ hfirst hb
    · rcases List.mem_cons.mp hc with rfl | hc
      · exact htrans _ _ _ hfirst ha
      · exact hnew c (List.mem_cons_of_mem _ hc)

theorem eq_of_mem_of_nodup_flatMap {g : α → List β} (h : (l.flatMap g).Nodup) {a a' : α}
    (ha : a ∈ l) (ha' : a' ∈ l) {b : β} (hb : b ∈ g a) (hb' : b ∈ g a') : a = a' := by
  by_contra hne
  have hpair := (List.nodup_flatMap.mp h).2
  have : Std.Symm (Function.onFun List.Disjoint g) := ⟨fun _ _ h => h.symm⟩
  exact hpair.forall ha ha' hne hb hb'

theorem eq_replicate_append_of_sorted {γ : Type*} [LinearOrder γ] {a : γ} {l : List γ}
    (hl : l.Pairwise (· ≤ ·)) (ha : ∀ b ∈ l, a ≤ b) :
    ∃ rest, l = List.replicate (l.count a) a ++ rest ∧ a ∉ rest := by
  induction l with
  | nil => exact ⟨[], rfl, List.not_mem_nil⟩
  | cons b l ih =>
    obtain ⟨hb, hl⟩ := List.pairwise_cons.mp hl
    by_cases hab : b = a
    · subst hab
      obtain ⟨rest, hrest, hnot⟩ := ih hl hb
      refine ⟨rest, ?_, hnot⟩
      rw [List.count_cons_self, List.replicate_succ, List.cons_append, ← hrest]
    · have hlt : a < b := lt_of_le_of_ne (ha b List.mem_cons_self) (Ne.symm hab)
      have hnot : a ∉ b :: l := by
        intro h
        rcases List.mem_cons.mp h with h | h
        · exact hab h.symm
        · exact absurd (hb a h) (not_le.mpr hlt)
      exact ⟨b :: l, by rw [List.count_eq_zero.mpr hnot]; rfl, hnot⟩

end Hispar.Library.Runs
