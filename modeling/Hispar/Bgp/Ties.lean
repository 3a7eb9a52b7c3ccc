import Hispar.Bgp.DecisionProcess
import Hispar.Bgp.Selection

/-!
# Ties between empty AS paths

Routes with an AS path can always be compared. Between several routes without
one the MED decides next, for which the first AS of each path is asked for.
-/
namespace Hispar.Bgp
open Library

def emptyPaths (routes : List Row) : ℕ := routes.countP fun r => aspathLength r.asPath = 0

section selection
variable {routes : List Row}

theorem getAdvertisedAs_eq_none {asPath : String} (h : aspathLength asPath = 0) :
    getAdvertisedAs asPath = none := by
  rw [getAdvertisedAs, List.eq_nil_of_length_eq_zero h, List.head?_nil]

theorem bestPathSelection_completes_iff (hne : routes ≠ [])
    (hcanonical : ∀ r ∈ routes, Canonical r.nextHop) :
    (∃ r, bestPathSelection routes = some r) ↔ emptyPaths routes ≤ 1 := by
  by_cases hempty : ∃ r ∈ routes, aspathLength r.asPath = 0
  · obtain ⟨r, hr, hzero⟩ := hempty
    obtain ⟨m, hshortest, hmin⟩ := shortestPaths_eq_filter hne
    obtain rfl : m = 0 := Nat.le_zero.mp (hzero ▸ hmin r hr)
    have hlength : (shortestPaths routes).length = emptyPaths routes := by
      rw [hshortest, emptyPaths, List.countP_eq_length_filter]
    have hmem : r ∈ shortestPaths routes := by
      rw [hshortest]
      exact List.mem_filter.mpr ⟨hr, decide_eq_true hzero⟩
    rw [bestPathSelection, hlength]
    by_cases hone : emptyPaths routes = 1
    · rw [if_pos hone]
      refine iff_of_true ?_ hone.le
      exact ⟨_, List.getLast?_eq_some_getLast (List.ne_nil_of_mem hmem)⟩
    · have hpos : 0 < emptyPaths routes := hlength ▸ List.length_pos_of_mem hmem
      have hpost : postMed (shortestPaths routes) = none := by
        rw [postMed]
        cases hases : (shortestPaths routes).mapM fun route => getAdvertisedAs route.asPath with
        | none => rfl
        | some ases =>
          obtain ⟨a, -, ha⟩ := Runs.exists_of_mapM hases hmem
          rw [getAdvertisedAs_eq_none hzero] at ha
          cases ha
      rw [if_neg hone, hpost]
      refine iff_of_false ?_ (by omega)
      rintro ⟨_, h⟩
      cases h
  · have hnone : emptyPaths routes = 0 :=
      List.countP_eq_zero.mpr fun r hr hzero => hempty ⟨r, hr, of_decide_eq_true hzero⟩
    refine iff_of_true
      (bestPathSelection_total hne fun r hr => ⟨fun h => ?_, hcanonical r hr⟩) (by omega)
    exact hempty ⟨r, hr, List.length_eq_zero_iff.mpr h⟩

end selection

def CanonicalRows (s : Participants) : Prop := ∀ n, ∀ r ∈ inputOf s n, Canonical r.nextHop

/-- Some participant gets two routes with an empty AS path for the prefix from the others. -/
def Tied (s : Participants) (p : String) : Prop :=
  ∃ X ∈ s.keys, 1 < emptyPaths (othersRoutes s X p)

section turns
variable {s s' : Participants} {p name : String} {acc : Participants × List RouteItem}

theorem CanonicalRows.others (h : CanonicalRows s) (n p : String) :
    ∀ r ∈ othersRoutes s n p, Canonical r.nextHop := by
  intro r hr
  obtain ⟨q, -, -, hr, -⟩ := mem_othersRoutes hr
  exact h q r hr

theorem tied_congr (hkeys : s'.keys = s.keys) (hinput : ∀ n, inputOf s' n = inputOf s n) :
    Tied s' p ↔ Tied s p := by
  simp only [Tied, hkeys, othersRoutes_congr hkeys hinput]

theorem announceTurn_completes_iff (h : CanonicalRows acc.1) :
    (∃ acc', announceTurn p acc name = some acc') ↔ emptyPaths (othersRoutes acc.1 name p) ≤ 1 := by
  simp only [announceTurn]
  by_cases hroutes : othersRoutes acc.1 name p = []
  · rw [hroutes]
    exact iff_of_true ⟨acc, rfl⟩ (Nat.zero_le 1)
  · have hempty : (othersRoutes acc.1 name p).isEmpty = false := List.isEmpty_eq_false_iff.mpr hroutes
    rw [← bestPathSelection_completes_iff hroutes (h.others name p), hempty,
      if_neg Bool.false_ne_true]
    cases bestPathSelection (othersRoutes acc.1 name p) <;> simp

theorem withdrawTurn_completes (h : CanonicalRows acc.1) (hname : name ∈ acc.1.keys)
    (hone : emptyPaths (othersRoutes acc.1 name p) ≤ 1) :
    ∃ acc', withdrawTurn p acc name = some acc' := by
  obtain ⟨peer, hpeer⟩ := Dict.mem_keys_iff.mp hname
  have hdel := deleteLocal_chose (p := p) hname
  simp only [withdrawTurn, hpeer, Option.bind_some, othersRoutes_congr hdel.keys hdel.input]
  split_ifs with hold hroutes
  · exact ⟨acc, rfl⟩
  · exact ⟨_, rfl⟩
  · obtain ⟨best, hbest⟩ := (bestPathSelection_completes_iff (mt List.isEmpty_iff.mpr hroutes)
      (h.others name p)).mpr hone
    rw [hbest]
    exact ⟨_, rfl⟩

theorem turns_completes_iff {T : List Row → List Row → List Row → Prop}
    {turn : Participants × List RouteItem → String → Option (Participants × List RouteItem)}
    {G : String → Prop} (hspec : ∀ acc acc' name, name ∈ acc.1.keys → turn acc name = some acc' →
      Chose T [name] p acc.1 acc'.1)
    (hturn : ∀ acc name, acc.1.keys = s.keys → (∀ n, inputOf acc.1 n = inputOf s n) →
      name ∈ acc.1.keys → ((∃ acc', turn acc name = some acc') ↔ G name)) :
    (∃ acc', s.keys.foldlM turn (s, []) = some acc') ↔ ∀ name ∈ s.keys, G name := by
  refine Runs.foldlM_completes_iff_forall
    (I := fun acc => acc.1.keys = s.keys ∧ ∀ n, inputOf acc.1 n = inputOf s n)
    (fun acc name hname hacc => ?_) ⟨rfl, fun _ => rfl⟩
  have hmem : name ∈ acc.1.keys := hacc.1 ▸ hname
  refine ⟨hturn acc name hacc.1 hacc.2 hmem, fun acc' hacc' => ?_⟩
  have hchose := hspec acc acc' name hmem hacc'
  exact ⟨hchose.keys.trans hacc.1, fun n => (hchose.input n).trans (hacc.2 n)⟩

theorem not_tied_iff : ¬ Tied s p ↔ ∀ X ∈ s.keys, emptyPaths (othersRoutes s X p) ≤ 1 := by
  simp only [Tied, not_exists, not_and, not_lt]

theorem CanonicalRows.congr (h : CanonicalRows s) (hinput : ∀ n, inputOf s' n = inputOf s n) :
    CanonicalRows s' := fun n => hinput n ▸ h n

theorem decisionProcess_announce_completes_iff (h : CanonicalRows s) (row : Row) :
    (∃ out, decisionProcess s (.announce row) = some out) ↔ ¬ Tied s row.pfx := by
  rw [not_tied_iff]
  refine turns_completes_iff (fun _ _ _ => announceTurn_spec) fun acc name hkeys hinput _ => ?_
  rw [announceTurn_completes_iff (h.congr hinput), othersRoutes_congr hkeys hinput]

theorem decisionProcess_withdraw_completes (h : CanonicalRows s) {row : Row} (hrow : ¬ Tied s row.pfx) :
    ∃ out, decisionProcess s (.withdraw (some row)) = some out := by
  rw [not_tied_iff] at hrow
  refine (turns_completes_iff (G := fun name => emptyPaths (othersRoutes s name row.pfx) ≤ 1)
    (fun _ _ _ => withdrawTurn_spec) fun acc name hkeys hinput hname => ?_).mpr hrow
  have hone := hrow name (hkeys ▸ hname)
  refine iff_of_true (withdrawTurn_completes (h.congr hinput) hname ?_) hone
  rwa [othersRoutes_congr hkeys hinput]

theorem decisionProcess_input {item : RouteItem} {out : Participants × List RouteItem}
    (h : decisionProcess s item = some out) :
    out.1.keys = s.keys ∧ ∀ n, inputOf out.1 n = inputOf s n := by
  cases item with
  | announce row => exact ⟨(decisionProcess_announce h).keys, (decisionProcess_announce h).input⟩
  | withdraw route =>
    cases route with
    | none =>
      obtain rfl := Option.some.inj h
      exact ⟨rfl, fun _ => rfl⟩
    | some row => exact ⟨(decisionProcess_withdraw h).keys, (decisionProcess_withdraw h).input⟩

theorem decideAll_completes_iff (h : CanonicalRows s) {items : List RouteItem}
    (hwithdrawn : ∀ row, .withdraw (some row) ∈ items → ¬ Tied s row.pfx) :
    (∃ s', decideAll s items = some s') ↔ ∀ item ∈ items, ∀ p, item.pfx = some p → ¬ Tied s p := by
  refine Runs.foldlM_completes_iff_forall
    (I := fun s₁ : Participants => s₁.keys = s.keys ∧ ∀ n, inputOf s₁ n = inputOf s n)
    (fun s₁ item hitem hs₁ => ?_) ⟨rfl, fun _ => rfl⟩
  have hcanonical := h.congr hs₁.2
  have hmap : (∃ s', (decisionProcess s₁ item).map Prod.fst = some s') ↔
      ∃ out, decisionProcess s₁ item = some out := by
    cases decisionProcess s₁ item <;> simp
  rw [hmap]
  constructor
  · cases item with
    | announce row =>
      rw [decisionProcess_announce_completes_iff hcanonical, tied_congr hs₁.1 hs₁.2]
      exact ⟨fun hrow p hp => Option.some.inj hp ▸ hrow, fun hrow => hrow row.pfx rfl⟩
    | withdraw route =>
      cases route with
      | none => exact iff_of_true ⟨_, rfl⟩ fun p hp => nomatch hp
      | some row =>
        have hrow := hwithdrawn row hitem
        refine iff_of_true (decisionProcess_withdraw_completes hcanonical ?_)
          fun p hp => Option.some.inj hp ▸ hrow
        rwa [tied_congr hs₁.1 hs₁.2]
  · intro s₂ h₂
    obtain ⟨out, hout, rfl⟩ := Option.map_eq_some_iff.mp h₂
    obtain ⟨hkeys, hinput⟩ := decisionProcess_input hout
    exact ⟨hkeys.trans hs₁.1, fun n => (hinput n).trans (hs₁.2 n)⟩

end turns

section others
variable {keys : List String} {f g : String → List Row} {q X p : String} {s s' : Participants}

theorem emptyPaths_append (l l' : List Row) : emptyPaths (l ++ l') = emptyPaths l + emptyPaths l' :=
  List.countP_append

theorem emptyPaths_others_cons (j : String) : emptyPaths (Offers.others (j :: keys) f X) =
    (if X ≠ j then emptyPaths (f j) else 0) + emptyPaths (Offers.others keys f X) := by
  rw [Offers.others, List.flatMap_cons, emptyPaths_append]
  split_ifs <;> rfl

theorem emptyPaths_others_le (h : ∀ j ∈ keys, emptyPaths (g j) ≤ emptyPaths (f j)) :
    emptyPaths (Offers.others keys g X) ≤ emptyPaths (Offers.others keys f X) := by
  induction keys with
  | nil => exact le_rfl
  | cons j keys ih =>
    have hj := h j List.mem_cons_self
    have hrest := ih fun i hi => h i (List.mem_cons_of_mem j hi)
    rw [emptyPaths_others_cons, emptyPaths_others_cons]
    split_ifs <;> omega

theorem emptyPaths_others_eq_zero : emptyPaths (othersRoutes s X p) = 0 ↔
    ∀ Y ∈ s.keys, Y ≠ X → ∀ r ∈ inputOf s Y, r.pfx = p → aspathLength r.asPath ≠ 0 := by
  rw [emptyPaths, List.countP_eq_zero, othersRoutes_eq]
  simp only [Offers.mem_others, decide_eq_true_eq, view_offers]
  constructor
  · exact fun h Y hY hne r hr hp => h r ⟨Y, hY, hne, Rib.mem_getAll.mpr ⟨hr, hp⟩⟩
  · rintro h r ⟨Y, hY, hne, hr⟩
    obtain ⟨hr, hp⟩ := Rib.mem_getAll.mp hr
    exact h Y hY hne r hr hp

theorem AllComparable.not_tied (h : AllComparable s) (p : String) : ¬ Tied s p := by
  rw [not_tied_iff]
  intro X _
  have hzero : emptyPaths (othersRoutes s X p) = 0 := emptyPaths_others_eq_zero.mpr
    fun Y _ _ r hr _ hlength => (h Y r hr).asPath (List.length_eq_zero_iff.mp hlength)
  omega

theorem decideAll_total (h : AllComparable s) (items : List RouteItem) :
    ∃ s', decideAll s items = some s' :=
  (decideAll_completes_iff (fun n r hr => (h n r hr).nextHop) fun row _ => h.not_tied row.pfx).mpr
    fun _ _ p _ => h.not_tied p

structure Shrunk (s s' : Participants) : Prop where
  keys : s'.keys = s.keys
  rows : ∀ m, inputOf s' m ⊆ inputOf s m
  count : ∀ m p, emptyPaths ((inputOf s' m).getAll p) ≤ emptyPaths ((inputOf s m).getAll p)

theorem Shrunk.refl (s : Participants) : Shrunk s s :=
  ⟨rfl, fun _ => List.Subset.refl _, fun _ _ => le_rfl⟩

structure Untied (s : Participants) : Prop where
  keys : s.keys ≠ []
  canonical : CanonicalRows s
  untied : ∀ p, ¬ Tied s p

theorem Shrunk.untied (h : Shrunk s s') (hs : Untied s) : Untied s' := by
  refine ⟨h.keys ▸ hs.keys, fun m r hr => hs.canonical m r (h.rows m hr), fun p => ?_⟩
  have hs := not_tied_iff.mp (hs.untied p)
  refine not_tied_iff.mpr fun X hX => ?_
  have hle : emptyPaths (Offers.others s.keys (fun j => (inputOf s' j).getAll p) X) ≤
      emptyPaths (Offers.others s.keys (fun j => (inputOf s j).getAll p) X) :=
    emptyPaths_others_le fun j _ => h.count j p
  have hX := hs X (h.keys ▸ hX)
  rw [othersRoutes_eq] at hX ⊢
  rw [h.keys]
  exact hle.trans hX

end others
end Hispar.Bgp
