import Hispar.Bgp.BestPath

/-!
# The route that is selected

The selected route has a shortest AS path, no route of its neighbouring AS is
as short with a lower MED, and of all such routes its next hop is the lowest.
Only the last step looks at the order of the list, so the order matters only
where two next hops are the same.
-/
namespace Hispar.Bgp

/-- No route that is as short and comes from the same AS has a lower MED. -/
def LowestMedOfGroup (routes : List Row) (r : Row) : Prop :=
  ∀ x ∈ routes, aspathLength x.asPath = aspathLength r.asPath →
    getAdvertisedAs x.asPath = getAdvertisedAs r.asPath → r.med.gt x.med = false

structure Candidate (routes : List Row) (r : Row) : Prop where
  member : r ∈ routes
  shortest : ∀ x ∈ routes, aspathLength r.asPath ≤ aspathLength x.asPath
  med : LowestMedOfGroup routes r

structure Best (routes : List Row) (r : Row) : Prop extends Candidate routes r where
  router : ∀ x ∈ routes, aspathLength x.asPath = aspathLength r.asPath →
    LowestMedOfGroup routes x → ∀ a b, ipToLong r.nextHop = some a → ipToLong x.nextHop = some b →
      a ≤ b

variable {routes best post : List Row} {r x : Row}

theorem foldl_shorter_eq (done : List Row) {n : ℕ} (hne : best ≠ [])
    (hbest : best = done.filter fun r => aspathLength r.asPath = n)
    (hmin : ∀ x ∈ done, n ≤ aspathLength x.asPath) (routes : List Row) :
    ∃ m, (routes.foldl shorter (best, n)).1 =
        (done ++ routes).filter (fun r => aspathLength r.asPath = m) ∧
      ∀ x ∈ done ++ routes, m ≤ aspathLength x.asPath := by
  induction routes generalizing done best n with
  | nil => exact ⟨n, by rw [List.append_nil]; exact hbest, by rwa [List.append_nil]⟩
  | cons route routes ih =>
    have hcons : done ++ route :: routes = (done ++ [route]) ++ routes := by simp
    have hempty : best.isEmpty = false := List.isEmpty_eq_false_iff.mpr hne
    have hmin' : ∀ k, k ≤ n → k ≤ aspathLength route.asPath →
        ∀ x ∈ done ++ [route], k ≤ aspathLength x.asPath := by
      intro k hk hroute x hx
      rcases List.mem_append.mp hx with hx | hx
      · exact hk.trans (hmin x hx)
      · exact List.mem_singleton.mp hx ▸ hroute
    rw [List.foldl_cons, shorter, hempty, if_neg Bool.false_ne_true, hcons]
    rcases lt_trichotomy n (aspathLength route.asPath) with h | h | h
    · rw [if_neg h.ne, if_neg (not_lt.mpr h.le)]
      refine ih _ hne ?_ (hmin' n le_rfl h.le)
      rw [List.filter_append, List.filter_singleton, decide_eq_false h.ne', ← hbest]
      exact (List.append_nil best).symm
    · rw [if_pos h]
      refine ih _ (by simp) ?_ (hmin' n le_rfl h.le)
      rw [List.filter_append, List.filter_singleton, decide_eq_true h.symm, ← hbest]
      rfl
    · rw [if_neg h.ne', if_pos h]
      refine ih _ (by simp) ?_ (hmin' _ h.le le_rfl)
      rw [List.filter_append, List.filter_singleton, decide_eq_true rfl]
      have hlonger : done.filter (fun r => aspathLength r.asPath = aspathLength route.asPath) = [] := by
        refine List.filter_eq_nil_iff.mpr fun x hx => ?_
        rw [decide_eq_true_eq]
        exact fun he => absurd (hmin x hx) (by omega)
      rw [hlonger]
      rfl

theorem shortestPaths_eq_filter (hne : routes ≠ []) :
    ∃ m, shortestPaths routes = routes.filter (fun r => aspathLength r.asPath = m) ∧
      ∀ x ∈ routes, m ≤ aspathLength x.asPath := by
  obtain ⟨route, routes, rfl⟩ := List.exists_cons_of_ne_nil hne
  refine foldl_shorter_eq [route] (List.cons_ne_nil route []) ?_ (fun x hx => ?_) routes
  · rw [List.filter_singleton, decide_eq_true rfl]
    rfl
  · exact List.mem_singleton.mp hx ▸ le_rfl

theorem mem_shortestPaths_iff : r ∈ shortestPaths routes ↔
    r ∈ routes ∧ ∀ x ∈ routes, aspathLength r.asPath ≤ aspathLength x.asPath := by
  cases routes with
  | nil => simp [shortestPaths]
  | cons route routes =>
    obtain ⟨m, hshortest, hmin⟩ := shortestPaths_eq_filter (List.cons_ne_nil route routes)
    obtain ⟨first, hfirst⟩ :=
      List.exists_mem_of_ne_nil _ (shortestPaths_ne_nil (List.cons_ne_nil route routes))
    rw [hshortest, List.mem_filter, decide_eq_true_eq] at hfirst
    rw [hshortest, List.mem_filter, decide_eq_true_eq]
    refine and_congr_right fun hr => ⟨fun h x hx => h ▸ hmin x hx, fun h => ?_⟩
    exact le_antisymm (hfirst.2 ▸ h first hfirst.1) (hmin r hr)

theorem Med.gt_asymm (a b : Med) (h : a.gt b = true) : ¬ b.gt a = true := by
  cases a <;> cases b <;> simp_all [Med.gt]
  omega

theorem Med.not_gt_trans (a b c : Med) (hab : ¬ a.gt b = true) (hbc : ¬ b.gt c = true) :
    ¬ a.gt c = true := by
  cases a <;> cases b <;> cases c <;> simp_all [Med.gt]
  omega

theorem Med.gt_irrefl (a : Med) : a.gt a = false := by
  cases a <;> simp [Med.gt]

theorem Med.eq_of_not_gt {a b : Med} (hab : a.gt b = false) (hba : b.gt a = false) : a = b := by
  cases a <;> cases b <;> simp_all [Med.gt]
  omega

theorem mem_withLowestMed {l kept : List Row} (h : withLowestMed l = some kept) :
    r ∈ kept ↔ r ∈ l ∧ ∀ x ∈ l, r.med.gt x.med = false := by
  cases l with
  | nil => cases h
  | cons first rest =>
    obtain rfl := Option.some.inj h
    have hlow : ∀ x ∈ first :: rest, (lowestMed first rest).gt x.med = false := by
      intro x hx
      have hgt := Library.Runs.foldl_candidate_lowest (fun a b : Med => a.gt b = true)
        Med.gt_asymm Med.not_gt_trans Row.med rest first.med x.med
        (List.mem_map_of_mem (f := Row.med) hx)
      exact Bool.eq_false_iff.mpr hgt
    obtain ⟨y, hy, hmed⟩ : ∃ y ∈ first :: rest, y.med = lowestMed first rest :=
      List.mem_map.mp (Library.Runs.foldl_candidate_mem _ Row.med rest first.med)
    rw [List.mem_filter, decide_eq_true_eq]
    refine and_congr_right fun hr => ⟨fun he x hx => he ▸ hlow x hx, fun hmin => ?_⟩
    exact Med.eq_of_not_gt (hmed ▸ hmin y hy) (hlow r hr)

theorem mem_fromAs {a : String} :
    r ∈ fromAs best a ↔ r ∈ best ∧ getAdvertisedAs r.asPath = some a := by
  rw [fromAs, List.mem_filter, decide_eq_true_eq]

theorem mem_keepMed_iff {asList : List String} {a : String} {kept : List Row}
    (hcount : asList.count a = (fromAs best a).length) (h : keepMed best asList a = some kept) :
    r ∈ kept ↔ r ∈ fromAs best a ∧ ∀ x ∈ fromAs best a, r.med.gt x.med = false := by
  rw [keepMed] at h
  split_ifs at h with hone
  · exact mem_withLowestMed h
  · obtain rfl := Option.some.inj h
    refine ⟨fun hr => ⟨hr, fun x hx => ?_⟩, And.left⟩
    -- a route that is alone has the lowest MED
    have hlen : (fromAs best a).length ≤ 1 := by omega
    obtain ⟨y, hy⟩ : ∃ y, fromAs best a = [y] :=
      List.length_eq_one_iff.mp (le_antisymm hlen (List.length_pos_of_mem hr))
    have hxr : x = r := by
      rw [hy, List.mem_singleton] at hx hr
      rw [hx, hr]
    rw [hxr]
    exact Med.gt_irrefl r.med

theorem group_of_sorted {asList : List String} (hsorted : asList.Pairwise (· ≤ ·)) {i : ℕ}
    (hi : i < asList.length) (hstart : ∀ a ∈ asList.take i, a ∉ asList.drop i) :
    0 < asList.count asList[i] ∧
      asList.drop i = List.replicate (asList.count asList[i]) asList[i] ++
        asList.drop (i + asList.count asList[i]) ∧
      ∀ a ∈ asList.take (i + asList.count asList[i]),
        a ∉ asList.drop (i + asList.count asList[i]) := by
  generalize ha : asList[i] = a
  have hdrop : asList.drop i = a :: asList.drop (i + 1) := ha ▸ List.drop_eq_getElem_cons hi
  have hsub := hsorted.sublist (List.drop_sublist i asList)
  have hle : ∀ b ∈ asList.drop i, a ≤ b := by
    intro b hb
    rw [hdrop] at hb hsub
    rcases List.mem_cons.mp hb with rfl | hb
    · exact le_rfl
    · exact (List.pairwise_cons.mp hsub).1 b hb
  obtain ⟨rest, hrest, hnot⟩ := Library.Runs.eq_replicate_append_of_sorted hsub hle
  have hbefore : a ∉ asList.take i := fun ht => hstart a ht (hdrop ▸ List.mem_cons_self)
  have hcount : (asList.drop i).count a = asList.count a := by
    conv_rhs => rw [← List.take_append_drop i asList]
    rw [List.count_append, List.count_eq_zero.mpr hbefore, zero_add]
  rw [hcount] at hrest
  have hnext : asList.drop (i + asList.count a) = rest := by
    rw [← List.drop_drop, hrest, List.drop_left' (List.length_replicate ..)]
  have htake : asList.take (i + asList.count a) =
      asList.take i ++ List.replicate (asList.count a) a := by
    rw [List.take_add, hrest, List.take_left' (List.length_replicate ..)]
  refine ⟨?_, hnext ▸ hrest, fun b hb hbr => ?_⟩
  · rw [← hcount, hdrop, List.count_cons_self]
    exact Nat.succ_pos _
  · rw [hnext] at hbr
    rcases List.mem_append.mp (htake ▸ hb) with hb | hb
    · exact hstart b hb (hrest ▸ List.mem_append_right _ hbr)
    · exact hnot (List.eq_of_mem_replicate hb ▸ hbr)

theorem mem_postMedLoop_iff {asList : List String} (hsorted : asList.Pairwise (· ≤ ·)) {n i : ℕ}
    (hn : asList.length ≤ n + i) (hstart : ∀ a ∈ asList.take i, a ∉ asList.drop i)
    {post post' : List Row} (h : postMedLoop best asList n i post = some post') :
    r ∈ post' ↔ r ∈ post ∨ ∃ a ∈ asList.drop i, ∃ kept, keepMed best asList a = some kept ∧
      r ∈ kept := by
  have hend : ∀ i, ¬ i < asList.length → asList.drop i = [] := fun i hi =>
    List.drop_eq_nil_of_le (not_lt.mp hi)
  induction n generalizing i post with
  | zero =>
    have hi : ¬ i < asList.length := by omega
    rw [postMedLoop, if_neg hi] at h
    simp [← Option.some.inj h, hend i hi]
  | succ n ih =>
    rw [postMedLoop] at h
    by_cases hi : i < asList.length
    · rw [List.getElem?_eq_getElem hi] at h
      obtain ⟨kept, hkept, h⟩ := Option.bind_eq_some_iff.mp h
      obtain ⟨hpos, hgroup, hnext⟩ := group_of_sorted hsorted hi hstart
      generalize asList[i] = a at hkept h hpos hgroup hnext
      have hstep : (if 1 < asList.count a then i + asList.count a else i + 1) =
          i + asList.count a := by
        split_ifs <;> omega
      rw [hstep] at h
      refine (ih (i := i + asList.count a) (by omega) hnext h).trans ?_
      rw [hgroup, List.mem_append, or_assoc]
      refine or_congr_right ?_
      constructor
      · rintro (hr | ⟨b, hb, hr⟩)
        · exact ⟨a, List.mem_append_left _ (List.mem_replicate.mpr ⟨hpos.ne', rfl⟩), kept, hkept, hr⟩
        · exact ⟨b, List.mem_append_right _ hb, hr⟩
      · rintro ⟨b, hb, kept', hkept', hr⟩
        rcases List.mem_append.mp hb with hb | hb
        · obtain rfl := List.eq_of_mem_replicate hb
          exact Or.inl (Option.some.inj (hkept.symm.trans hkept') ▸ hr)
        · exact Or.inr ⟨b, hb, kept', hkept', hr⟩
    · rw [List.getElem?_eq_none (not_lt.mp hi)] at h
      simp [← Option.some.inj h, hend i hi]

theorem mem_postMed_iff (h : postMed best = some post) : r ∈ post ↔
    r ∈ best ∧ ∀ x ∈ best, getAdvertisedAs x.asPath = getAdvertisedAs r.asPath →
      r.med.gt x.med = false := by
  obtain ⟨ases, hases, h⟩ := Option.bind_eq_some_iff.mp h
  have hperm := List.perm_insertionSort (· ≤ ·) ases
  have hcount : ∀ a, (ases.insertionSort (· ≤ ·)).count a = (fromAs best a).length := fun a =>
    (hperm.count_eq a).trans (Library.Runs.count_mapM hases a)
  have hloop := mem_postMedLoop_iff (r := r) (List.pairwise_insertionSort (· ≤ ·) ases)
    (Nat.le_add_right _ _) (by simp) h
  rw [hloop, List.drop_zero, or_iff_right List.not_mem_nil]
  constructor
  · rintro ⟨a, -, kept, hkept, hr⟩
    obtain ⟨hfrom, hmin⟩ := (mem_keepMed_iff (hcount a) hkept).mp hr
    obtain ⟨hrb, hra⟩ := mem_fromAs.mp hfrom
    exact ⟨hrb, fun x hx hxa => hmin x (mem_fromAs.mpr ⟨hx, hxa.trans hra⟩)⟩
  · rintro ⟨hrb, hmin⟩
    obtain ⟨a, ha, hra⟩ := Library.Runs.exists_of_mapM hases hrb
    obtain ⟨kept, hkept, -⟩ := keepMed_total (ases.insertionSort (· ≤ ·)) hrb hra
    refine ⟨a, hperm.mem_iff.mpr ha, kept, hkept, (mem_keepMed_iff (hcount a) hkept).mpr ⟨?_, ?_⟩⟩
    · exact mem_fromAs.mpr ⟨hrb, hra⟩
    · intro x hx
      obtain ⟨hxb, hxa⟩ := mem_fromAs.mp hx
      exact hmin x hxb (hxa.trans hra.symm)

theorem lowestRouter_le (hpost : ∀ x ∈ post, Comparable x) (h : lowestRouter post = some r)
    (hx : x ∈ post) {a b : ℕ} (ha : ipToLong r.nextHop = some a) (hb : ipToLong x.nextHop = some b) :
    a ≤ b := by
  obtain ⟨ips, hips, h⟩ := Option.bind_eq_some_iff.mp h
  cases ips with
  | nil => cases h
  | cons first rest =>
    simp only at h
    generalize hlow : rest.foldl (fun lowest ip => if lowest > ip then ip else lowest) first =
      lowest at h
    have hle : ∀ c ∈ first :: rest, lowest ≤ c := by
      intro c hc
      have hgt := Library.Runs.foldl_candidate_lowest (fun a b : ℕ => a > b)
        (fun _ _ h => Nat.lt_asymm h)
        (fun _ _ _ h h' => not_lt.mpr ((not_lt.mp h).trans (not_lt.mp h')))
        id rest first c (by simpa using hc)
      exact not_lt.mp (hlow ▸ hgt)
    have hmem : lowest ∈ first :: rest := by
      have hcand := Library.Runs.foldl_candidate_mem (fun lowest ip : ℕ => lowest > ip) id rest first
      simpa [hlow] using hcand
    -- the text that is looked up is read back as the lowest address
    obtain ⟨y, hy, hya⟩ := (Library.Runs.mem_mapM hips).mp hmem
    obtain ⟨n, hn, htext⟩ := (hpost y hy).address
    obtain rfl : n = lowest := Option.some.inj (hn.symm.trans hya)
    have hr : r.nextHop = longToIp n := by simpa using List.find?_some h
    have han : a = n := by
      rw [hr, ← htext, hya] at ha
      exact (Option.some.inj ha).symm
    rw [han]
    exact hle b ((Library.Runs.mem_mapM hips).mpr ⟨x, hx, hb⟩)

theorem candidate_iff (h : postMed (shortestPaths routes) = some post) :
    r ∈ post ↔ Candidate routes r := by
  have hsame : ∀ {r : Row}, r ∈ shortestPaths routes → ∀ x, x ∈ shortestPaths routes ↔
      x ∈ routes ∧ aspathLength x.asPath = aspathLength r.asPath := by
    intro r hr x
    obtain ⟨hr, hmin⟩ := mem_shortestPaths_iff.mp hr
    rw [mem_shortestPaths_iff]
    refine and_congr_right fun hx => ⟨fun h => le_antisymm (h r hr) (hmin x hx), fun h y hy => ?_⟩
    exact h ▸ hmin y hy
  rw [mem_postMed_iff h]
  constructor
  · rintro ⟨hr, hmed⟩
    refine ⟨(mem_shortestPaths_iff.mp hr).1, (mem_shortestPaths_iff.mp hr).2, fun x hx hlen has => ?_⟩
    exact hmed x ((hsame hr x).mpr ⟨hx, hlen⟩) has
  · intro hc
    have hr := mem_shortestPaths_iff.mpr ⟨hc.member, hc.shortest⟩
    refine ⟨hr, fun x hx has => ?_⟩
    obtain ⟨hx, hlen⟩ := (hsame hr x).mp hx
    exact hc.med x hx hlen has

theorem eq_of_candidate_of_length_one {l : List Row} (hl : ∀ x, Candidate routes x → x ∈ l)
    (hlen : l.length = 1) (h : l.getLast? = some r) (hx : Candidate routes x) : x = r := by
  obtain ⟨y, rfl⟩ := List.length_eq_one_iff.mp hlen
  obtain rfl : y = r := Option.some.inj h
  exact List.mem_singleton.mp (hl x hx)

theorem bestPathSelection_best (hne : routes ≠ []) (hroutes : ∀ r ∈ routes, Comparable r) :
    ∃ r, bestPathSelection routes = some r ∧ Best routes r := by
  obtain ⟨r, hr⟩ := bestPathSelection_total hne hroutes
  refine ⟨r, hr, ?_⟩
  obtain ⟨post, hpost, hpne⟩ := postMed_total (shortestPaths_ne_nil hne) fun r hr =>
    hroutes r (mem_shortestPaths hr)
  -- a candidate against which no other candidate is lower
  suffices h : Candidate routes r ∧ ∀ x, Candidate routes x → ∀ a b, ipToLong r.nextHop = some a →
      ipToLong x.nextHop = some b → a ≤ b by
    refine ⟨h.1, fun x hx hlen hmed => h.2 x ⟨hx, fun y hy => ?_, hmed⟩⟩
    exact hlen ▸ h.1.shortest y hy
  simp only [bestPathSelection] at hr
  split_ifs at hr with h₁
  · have hshort : ∀ x, Candidate routes x → x ∈ shortestPaths routes := fun x hx =>
      mem_shortestPaths_iff.mpr ⟨hx.member, hx.shortest⟩
    obtain ⟨x, hx⟩ := List.exists_mem_of_ne_nil post hpne
    have hx := (candidate_iff hpost).mp hx
    refine ⟨eq_of_candidate_of_length_one hshort h₁ hr hx ▸ hx, fun y hy a b ha hb => ?_⟩
    rw [eq_of_candidate_of_length_one hshort h₁ hr hy, ha] at hb
    exact (Option.some.inj hb).le
  · rw [hpost, Option.bind_some] at hr
    have hmem : ∀ x, Candidate routes x → x ∈ post := fun x hx => (candidate_iff hpost).mpr hx
    split_ifs at hr with h₂
    · refine ⟨(candidate_iff hpost).mp (List.mem_of_getLast? hr), fun y hy a b ha hb => ?_⟩
      rw [eq_of_candidate_of_length_one hmem h₂ hr hy, ha] at hb
      exact (Option.some.inj hb).le
    · refine ⟨(candidate_iff hpost).mp (mem_lowestRouter hr), fun y hy a b ha hb => ?_⟩
      refine lowestRouter_le (fun x hx => hroutes x ?_) hr (hmem y hy) ha hb
      exact ((candidate_iff hpost).mp hx).member

theorem Best.unique (hroutes : ∀ r ∈ routes, Comparable r) (hnd : (routes.map Row.nextHop).Nodup)
    (hr : Best routes r) (hx : Best routes x) : r = x := by
  obtain ⟨a, ha, hra⟩ := (hroutes r hr.member).address
  obtain ⟨b, hb, hxb⟩ := (hroutes x hx.member).address
  have hlen : aspathLength r.asPath = aspathLength x.asPath :=
    le_antisymm (hr.shortest x hx.member) (hx.shortest r hr.member)
  have hab : a = b := le_antisymm (hr.router x hx.member hlen.symm hx.med a b ha hb)
    (hx.router r hr.member hlen hr.med b a hb ha)
  exact List.inj_on_of_nodup_map hnd hr.member hx.member (by rw [hra, hxb, hab])

theorem Best.perm {routes' : List Row} (h : routes.Perm routes') (hr : Best routes r) :
    Best routes' r where
  member := h.mem_iff.mp hr.member
  shortest x hx := hr.shortest x (h.mem_iff.mpr hx)
  med x hx := hr.med x (h.mem_iff.mpr hx)
  router x hx hlen hmed := hr.router x (h.mem_iff.mpr hx) hlen fun y hy => hmed y (h.mem_iff.mp hy)

/-- The selection returns a best route, and where next hops are distinct it returns the
same one for every order of the routes. -/
theorem bestPathSelection_spec (hne : routes ≠ []) (hroutes : ∀ r ∈ routes, Comparable r) :
    ∃ r, bestPathSelection routes = some r ∧ Best routes r ∧
      ((routes.map Row.nextHop).Nodup → ∀ routes', routes.Perm routes' →
        bestPathSelection routes' = some r) := by
  obtain ⟨r, hr, hbest⟩ := bestPathSelection_best hne hroutes
  refine ⟨r, hr, hbest, fun hnd routes' hperm => ?_⟩
  have hroutes' : ∀ r ∈ routes', Comparable r := fun r hr => hroutes r (hperm.mem_iff.mpr hr)
  obtain ⟨r', hr', hbest'⟩ := bestPathSelection_best
    (fun h => hne (List.perm_nil.mp (h ▸ hperm))) hroutes'
  rw [hr', (hbest'.perm hperm.symm).unique hroutes hnd hbest]

def threeRoutes : List Row :=
  [⟨"10.0.0.0/8", "172.0.0.3", "igp", "300 7", .int 5, some false⟩,
    ⟨"10.0.0.0/8", "172.0.0.1", "igp", "300 8", .int 9, some false⟩,
    ⟨"10.0.0.0/8", "172.0.0.2", "igp", "200 7", .int 20, some false⟩]

theorem comparable_threeRoutes : ∀ r ∈ threeRoutes, Comparable r := by
  intro r hr
  simp only [threeRoutes, List.mem_cons, List.not_mem_nil, or_false] at hr
  rcases hr with rfl | rfl | rfl
  · exact ⟨by decide, 2885681155, by norm_num, by decide⟩
  · exact ⟨by decide, 2885681153, by norm_num, by decide⟩
  · exact ⟨by decide, 2885681154, by norm_num, by decide⟩

theorem bestPathSelection_spec_threeRoutes : ∃ r, bestPathSelection threeRoutes = some r ∧
    Best threeRoutes r ∧ ((threeRoutes.map Row.nextHop).Nodup → ∀ routes',
      threeRoutes.Perm routes' → bestPathSelection routes' = some r) :=
  bestPathSelection_spec (List.cons_ne_nil _ _) comparable_threeRoutes

end Hispar.Bgp
