import Hispar.Bgp.BestPath
import Hispar.Bgp.Peer
import Hispar.Library.Offers

/-!
# The decision process

For one route item, every participant in turn chooses anew among the routes
that the other participants hold for the prefix.
-/
namespace Hispar.Bgp
open Library

abbrev Participants := Dict String Peer

def othersRoutes (participants : Participants) (name pfx : String) : List Row :=
  participants.items.flatMap fun kv => if name ≠ kv.1 then kv.2.inputRib.getAll pfx else []

def deleteLocal (participants : Participants) (name pfx : String) : Participants :=
  participants.modify name fun peer => { peer with localRib := peer.localRib.delete pfx }

def addLocal (participants : Participants) (name : String) (best : Row) : Participants :=
  participants.modify name fun peer => { peer with localRib := peer.localRib.add best.pfx best }

def announceTurn (pfx : String) (acc : Participants × List RouteItem) (name : String) :
    Option (Participants × List RouteItem) :=
  let routes := othersRoutes acc.1 name pfx
  if routes.isEmpty then some acc
  else (bestPathSelection routes).map fun best =>
    (addLocal (deleteLocal acc.1 name pfx) name best, acc.2 ++ [.announce best])

def withdrawTurn (pfx : String) (acc : Participants × List RouteItem) (name : String) :
    Option (Participants × List RouteItem) :=
  (acc.1.get? name).bind fun peer =>
    if (peer.localRib.getAll pfx).isEmpty then some acc
    else
      let participants := deleteLocal acc.1 name pfx
      let routes := othersRoutes participants name pfx
      if routes.isEmpty then some (participants, acc.2)
      else (bestPathSelection routes).map fun best =>
        (addLocal participants name best, acc.2 ++ [.withdraw (some best)])

def decisionProcess (participants : Participants) : RouteItem →
    Option (Participants × List RouteItem)
  | .announce route => participants.keys.foldlM (announceTurn route.pfx) (participants, [])
  | .withdraw none => some (participants, [])
  | .withdraw (some route) => participants.keys.foldlM (withdrawTurn route.pfx) (participants, [])

def ipsOf (participants : Participants) (name : String) : List String :=
  (participants.get? name).elim [] Peer.ips

def inputOf (participants : Participants) (name : String) : Rib :=
  (participants.get? name).elim [] Peer.inputRib

def localOf (participants : Participants) (name : String) : Rib :=
  (participants.get? name).elim [] Peer.localRib

def view (p : String) (participants : Participants) : Offers.State String Row where
  offers name := (inputOf participants name).getAll p
  choice name := (localOf participants name).getAll p

@[simp] theorem view_offers (p n : String) (s : Participants) :
    (view p s).offers n = (inputOf s n).getAll p := rfl

@[simp] theorem view_choice (p n : String) (s : Participants) :
    (view p s).choice n = (localOf s n).getAll p := rfl

theorem othersRoutes_eq (participants : Participants) (name p : String) :
    othersRoutes participants name p =
      Offers.others participants.keys (view p participants).offers name := by
  rw [othersRoutes, Offers.others, Dict.keys, List.flatMap_map]
  apply List.flatMap_congr
  intro kv hkv
  have hget : participants.get? kv.1 = some kv.2 := Dict.get?_eq_some.mpr hkv
  simp only [view, inputOf, hget, Option.elim_some]

/-- Only the chosen routes of the listed participants for the prefix differ, and these
as told by the relation between what is offered, what was chosen and what is chosen now. -/
structure Chose (T : List Row → List Row → List Row → Prop) (l : List String) (p : String)
    (s s' : Participants) : Prop where
  keys : s'.keys = s.keys
  ips : ∀ n, ipsOf s' n = ipsOf s n
  input : ∀ n, inputOf s' n = inputOf s n
  same : ∀ n p', n ∉ l ∨ p' ≠ p → (view p' s').choice n = (view p' s).choice n
  chosen : ∀ n ∈ l, T (othersRoutes s n p) ((view p s).choice n) ((view p s').choice n)

section turns
variable {T : List Row → List Row → List Row → Prop} {l : List String} {p name : String}
  {s s' : Participants}

theorem othersRoutes_congr (hkeys : s'.keys = s.keys) (hinput : ∀ n, inputOf s' n = inputOf s n)
    (n : String) : othersRoutes s' n p = othersRoutes s n p := by
  rw [othersRoutes_eq, othersRoutes_eq, hkeys]
  exact Offers.others_congr fun j _ _ => by rw [view_offers, view_offers, hinput]

theorem modify_spec (hname : name ∈ s.keys) (g : Rib → Rib) : let s' := s.modify name fun peer =>
      { peer with localRib := g peer.localRib }
    s'.keys = s.keys ∧ (∀ n, ipsOf s' n = ipsOf s n) ∧ (∀ n, inputOf s' n = inputOf s n) ∧
      ∀ n, localOf s' n = if n = name then g (localOf s n) else localOf s n := by
  refine ⟨Dict.keys_modify _ _ _, fun n => ?_, fun n => ?_, fun n => ?_⟩
  · rw [ipsOf, ipsOf, Dict.get?_modify]
    split_ifs <;> cases s.get? n <;> rfl
  · rw [inputOf, inputOf, Dict.get?_modify]
    split_ifs <;> cases s.get? n <;> rfl
  · rw [localOf, localOf, Dict.get?_modify]
    split_ifs with hn
    · obtain ⟨peer, hpeer⟩ := Dict.mem_keys_iff.mp (hn ▸ hname)
      rw [hpeer]
      rfl
    · rfl

theorem deleteLocal_chose (hname : name ∈ s.keys) :
    Chose (fun _ _ new => new = []) [name] p s (deleteLocal s name p) := by
  obtain ⟨hkeys, hips, hinput, hlocal⟩ := modify_spec hname (·.delete p)
  refine ⟨hkeys, hips, hinput, fun n p' h => ?_, fun n hn => ?_⟩
  · rw [List.mem_singleton] at h
    rw [view_choice, view_choice, deleteLocal, hlocal]
    split_ifs with hn
    · rw [Rib.getAll_delete, if_neg (h.resolve_left (not_not_intro hn))]
    · rfl
  · rw [List.mem_singleton] at hn
    rw [view_choice, deleteLocal, hlocal, if_pos hn, Rib.getAll_delete, if_pos rfl]

theorem addLocal_chose {best : Row} (hname : name ∈ s.keys) (hp : best.pfx = p) :
    Chose (fun _ old new => new = old ++ [best]) [name] p s (addLocal s name best) := by
  obtain ⟨hkeys, hips, hinput, hlocal⟩ := modify_spec hname (·.add best.pfx best)
  refine ⟨hkeys, hips, hinput, fun n p' h => ?_, fun n hn => ?_⟩
  · rw [List.mem_singleton] at h
    rw [view_choice, view_choice, addLocal, hlocal]
    split_ifs with hn
    · have hne : best.pfx ≠ p' := fun e => h.resolve_left (not_not_intro hn) (e.symm.trans hp)
      rw [Rib.getAll_add, if_neg hne, List.append_nil]
    · rfl
  · rw [List.mem_singleton] at hn
    rw [view_choice, view_choice, addLocal, hlocal, if_pos hn, Rib.getAll_add, if_pos hp]

theorem Chose.refl (h : ∀ n ∈ l, T (othersRoutes s n p) ((view p s).choice n) ((view p s).choice n)) :
    Chose T l p s s :=
  ⟨rfl, fun _ => rfl, fun _ => rfl, fun _ _ _ => rfl, h⟩

theorem Chose.cons {s₁ : Participants} (h₁ : Chose T [name] p s s₁) (hname : name ∉ l)
    (h : Chose T l p s₁ s') : Chose T (name :: l) p s s' where
  keys := h.keys.trans h₁.keys
  ips n := (h.ips n).trans (h₁.ips n)
  input n := (h.input n).trans (h₁.input n)
  same n p' hn := by
    have hl : n ∉ l ∨ p' ≠ p := hn.imp_left fun hn hl => hn (List.mem_cons_of_mem name hl)
    have hname : n ∉ [name] ∨ p' ≠ p := hn.imp_left fun hn hl =>
      hn (List.mem_singleton.mp hl ▸ List.mem_cons_self)
    rw [h.same n p' hl, h₁.same n p' hname]
  chosen n hn := by
    rcases List.mem_cons.mp hn with rfl | hn
    · rw [h.same n p (Or.inl hname)]
      exact h₁.chosen n (List.mem_singleton_self n)
    · have hne : n ∉ [name] := fun e => hname (List.mem_singleton.mp e ▸ hn)
      have hturn := h.chosen n hn
      rwa [othersRoutes_congr h₁.keys h₁.input, h₁.same n p (Or.inl hne)] at hturn

theorem Chose.imp {T' : List Row → List Row → List Row → Prop} (h : Chose T l p s s')
    (himp : ∀ n ∈ l, ∀ new, T (othersRoutes s n p) ((view p s).choice n) new →
      T' (othersRoutes s n p) ((view p s).choice n) new) : Chose T' l p s s' :=
  ⟨h.keys, h.ips, h.input, h.same, fun n hn => himp n hn _ (h.chosen n hn)⟩

theorem replace_chose {best : Row} (hname : name ∈ s.keys) (hp : best.pfx = p) :
    Chose (fun _ _ new => new = [best]) [name] p s
      (addLocal (deleteLocal s name p) name best) := by
  have hdel := deleteLocal_chose (p := p) hname
  have hadd := addLocal_chose (hdel.keys ▸ hname) hp
  refine ⟨hadd.keys.trans hdel.keys, fun n => (hadd.ips n).trans (hdel.ips n),
    fun n => (hadd.input n).trans (hdel.input n), fun n p' h => ?_, fun n hn => ?_⟩
  · rw [hadd.same n p' h, hdel.same n p' h]
  · rw [hadd.chosen n hn, hdel.chosen n hn, List.nil_append]

theorem pfx_of_best {best : Row} (h : bestPathSelection (othersRoutes s name p) = some best) :
    best.pfx = p := by
  obtain ⟨kv, -, hbest⟩ := List.mem_flatMap.mp (mem_of_bestPathSelection h)
  split_ifs at hbest
  · exact (Rib.mem_getAll.mp hbest).2
  · exact absurd hbest List.not_mem_nil

theorem announceTurn_spec {acc acc' : Participants × List RouteItem} (hname : name ∈ acc.1.keys)
    (h : announceTurn p acc name = some acc') :
    Chose (Offers.Chosen bestPathSelection) [name] p acc.1 acc'.1 := by
  simp only [announceTurn] at h
  split_ifs at h with hroutes
  · obtain rfl := Option.some.inj h
    exact Chose.refl fun n hn =>
      Or.inl ⟨List.mem_singleton.mp hn ▸ List.isEmpty_iff.mp hroutes, rfl⟩
  · obtain ⟨best, hbest, rfl⟩ := Option.map_eq_some_iff.mp h
    refine (replace_chose hname (pfx_of_best hbest)).imp fun n hn new hnew => Or.inr ⟨best, ?_, hnew⟩
    rwa [List.mem_singleton.mp hn]

def Reconsidered (values old new : List Row) : Prop :=
  (old = [] → new = []) ∧ (old ≠ [] → Offers.Chosen bestPathSelection values [] new)

theorem withdrawTurn_spec {acc acc' : Participants × List RouteItem} (hname : name ∈ acc.1.keys)
    (h : withdrawTurn p acc name = some acc') : Chose Reconsidered [name] p acc.1 acc'.1 := by
  obtain ⟨peer, hpeer, h⟩ := Option.bind_eq_some_iff.mp h
  have hchoice : ∀ n ∈ [name], (view p acc.1).choice n = peer.localRib.getAll p := by
    intro n hn
    rw [List.mem_singleton.mp hn, view_choice, localOf, hpeer, Option.elim_some]
  split_ifs at h with hold
  · obtain rfl := Option.some.inj h
    rw [List.isEmpty_iff] at hold
    exact Chose.refl fun n hn => ⟨fun h => h, fun hne => absurd ((hchoice n hn).trans hold) hne⟩
  · have hsome : ∀ n ∈ [name], (view p acc.1).choice n ≠ [] := fun n hn e =>
      hold (List.isEmpty_iff.mpr ((hchoice n hn).symm.trans e))
    have hdel := deleteLocal_chose (p := p) hname
    simp only [othersRoutes_congr hdel.keys hdel.input] at h
    split_ifs at h with hroutes
    · obtain rfl := Option.some.inj h
      refine hdel.imp fun n hn new hnew => ⟨fun e => absurd e (hsome n hn), fun _ => Or.inl ⟨?_, hnew⟩⟩
      exact List.mem_singleton.mp hn ▸ List.isEmpty_iff.mp hroutes
    · obtain ⟨best, hbest, rfl⟩ := Option.map_eq_some_iff.mp h
      refine (replace_chose hname (pfx_of_best hbest)).imp fun n hn new hnew =>
        ⟨fun e => absurd e (hsome n hn), fun _ => Or.inr ⟨best, ?_, hnew⟩⟩
      rwa [List.mem_singleton.mp hn]

theorem turns_spec {turn : Participants × List RouteItem → String →
      Option (Participants × List RouteItem)}
    (hturn : ∀ acc acc' name, name ∈ acc.1.keys → turn acc name = some acc' →
      Chose T [name] p acc.1 acc'.1) (hl : l.Nodup) {acc acc' : Participants × List RouteItem}
    (hkeys : ∀ n ∈ l, n ∈ acc.1.keys) (h : l.foldlM turn acc = some acc') :
    Chose T l p acc.1 acc'.1 := by
  induction l generalizing acc with
  | nil =>
    obtain rfl := Option.some.inj h
    exact Chose.refl fun n hn => absurd hn List.not_mem_nil
  | cons name l ih =>
    obtain ⟨hname, hl⟩ := List.nodup_cons.mp hl
    rw [List.foldlM_cons] at h
    obtain ⟨acc₁, h₁, h⟩ := Option.bind_eq_some_iff.mp h
    have hone := hturn acc acc₁ name (hkeys name List.mem_cons_self) h₁
    have hrest := ih hl (fun n hn => hone.keys ▸ hkeys n (List.mem_cons_of_mem name hn)) h
    exact hone.cons hname hrest

theorem decisionProcess_announce {row : Row} {items : List RouteItem}
    (h : decisionProcess s (.announce row) = some (s', items)) :
    Chose (Offers.Chosen bestPathSelection) s.keys row.pfx s s' :=
  turns_spec (fun _ _ _ => announceTurn_spec) s.nodup_keys (fun _ h => h) h

theorem decisionProcess_withdraw {row : Row} {items : List RouteItem}
    (h : decisionProcess s (.withdraw (some row)) = some (s', items)) :
    Chose Reconsidered s.keys row.pfx s s' :=
  turns_spec (fun _ _ _ => withdrawTurn_spec) s.nodup_keys (fun _ h => h) h

def RouteItem.pfx : RouteItem → Option String
  | .announce route => some route.pfx
  | .withdraw route => route.map Row.pfx

def decideAll (participants : Participants) (routeList : List RouteItem) : Option Participants :=
  routeList.foldlM (fun participants item => (decisionProcess participants item).map Prod.fst)
    participants

structure Decided (T : List Row → List Row → List Row → Prop) (ps : List String)
    (s s' : Participants) : Prop where
  keys : s'.keys = s.keys
  ips : ∀ n, ipsOf s' n = ipsOf s n
  input : ∀ n, inputOf s' n = inputOf s n
  same : ∀ p ∉ ps, ∀ n, (view p s').choice n = (view p s).choice n
  absent : ∀ p, ∀ n ∉ s.keys, (view p s').choice n = (view p s).choice n
  chosen : ∀ p ∈ ps, ∀ n ∈ s.keys,
    T (othersRoutes s n p) ((view p s).choice n) ((view p s').choice n)

theorem Chose.decided {s₁ : Participants} {ps : List String} (h₁ : Chose T s.keys p s s₁)
    (hp : p ∉ ps) (h : Decided T ps s₁ s') : Decided T (p :: ps) s s' where
  keys := h.keys.trans h₁.keys
  ips n := (h.ips n).trans (h₁.ips n)
  input n := (h.input n).trans (h₁.input n)
  same p' hp' n := by
    rw [List.mem_cons, not_or] at hp'
    rw [h.same p' hp'.2 n, h₁.same n p' (Or.inr hp'.1)]
  absent p' n hn := by
    rw [h.absent p' n (h₁.keys ▸ hn), h₁.same n p' (Or.inl hn)]
  chosen p' hp' n hn := by
    rcases List.mem_cons.mp hp' with rfl | hp'
    · rw [h.same p' hp n]
      exact h₁.chosen n hn
    · have hne : p' ≠ p := fun e => hp (e ▸ hp')
      have hnew := h.chosen p' hp' n (h₁.keys ▸ hn)
      rwa [othersRoutes_congr h₁.keys h₁.input, h₁.same n p' (Or.inr hne)] at hnew

theorem decideAll_spec {items : List RouteItem} (hitems : (items.filterMap RouteItem.pfx).Nodup)
    (hitem : ∀ item ∈ items, ∀ p, item.pfx = some p → ∀ s s' best,
      decisionProcess s item = some (s', best) → Chose T s.keys p s s')
    (h : decideAll s items = some s') : Decided T (items.filterMap RouteItem.pfx) s s' := by
  induction items generalizing s with
  | nil =>
    obtain rfl := Option.some.inj h
    exact ⟨rfl, fun _ => rfl, fun _ => rfl, fun _ _ _ => rfl, fun _ _ _ => rfl, by simp⟩
  | cons item items ih =>
    rw [decideAll, List.foldlM_cons] at h
    obtain ⟨s₁, h₁, h⟩ := Option.bind_eq_some_iff.mp h
    obtain ⟨⟨_, best⟩, hdec, rfl⟩ := Option.map_eq_some_iff.mp h₁
    have hrest := fun item hmem => hitem item (List.mem_cons_of_mem _ hmem)
    cases hpfx : item.pfx with
    | none =>
      rw [List.filterMap_cons_none hpfx] at hitems ⊢
      -- an item without a route changes nothing
      have hnone : item = .withdraw none := by
        cases item with
        | announce route => cases hpfx
        | withdraw route => rw [Option.map_eq_none_iff.mp hpfx]
      rw [hnone] at hdec
      obtain ⟨rfl, -⟩ := Prod.mk.inj (Option.some.inj hdec)
      exact ih hitems hrest h
    | some p =>
      rw [List.filterMap_cons_some hpfx] at hitems ⊢
      obtain ⟨hp, hitems⟩ := List.nodup_cons.mp hitems
      exact (hitem item List.mem_cons_self p hpfx s _ best hdec).decided hp (ih hitems hrest h)

theorem mem_othersRoutes {n : String} {r : Row} (h : r ∈ othersRoutes s n p) :
    ∃ q ∈ s.keys, q ≠ n ∧ r ∈ inputOf s q ∧ r.pfx = p := by
  rw [othersRoutes_eq] at h
  obtain ⟨q, hq, hqn, hr⟩ := Offers.mem_others.mp h
  exact ⟨q, hq, hqn, Rib.mem_getAll.mp hr⟩

def AllComparable (s : Participants) : Prop := ∀ n, ∀ r ∈ inputOf s n, Comparable r

end turns
end Hispar.Bgp
