import Hispar.Bgp.Rib
import Hispar.Library.Runs

/-!
# The peer of a participant

A peer holds the addresses of its participant's routers and two tables: the
routes these routers announced, and the routes chosen for the participant.
-/
namespace Hispar.Bgp
open Library

inductive AsPathItem where
  | num (n : ℕ)
  | seq (l : List ℕ)

structure Attribute where
  origin : Option String
  asPath : Option (List AsPathItem)
  med : Option ℤ
  atomicAggregate : Option Bool

/-- The address families of an announcement or a withdrawal, of which one is read. -/
structure Families (β : Type) where
  ipv4Unicast : Option (Dict String β)

structure Update where
  attrs : Option Attribute
  announce : Option (Families String)
  withdraw : Option (Families Unit)

structure Neighbor where
  ip : Option String
  state : Option String
  update : Option Update

def Neighbor.isFrom (n : Neighbor) (ips : List String) : Bool := n.ip.any (· ∈ ips)

structure Message where
  neighbor : Option Neighbor
  notification : Option String

/-- `repr` of a number, which is a long one from `2 ^ 63` on. -/
def reprNum (n : ℕ) : String := if n < 2 ^ 63 then toString n else toString n ++ "L"

def AsPathItem.str : AsPathItem → String
  | .num n => toString n
  | .seq l => "[" ++ ", ".intercalate (l.map reprNum) ++ "]"

def asPathText (asPath : List AsPathItem) : String :=
  String.ofList ((" ".intercalate (asPath.map AsPathItem.str)).toList.filter
    fun c => c ∉ ['[', ']', ','])

structure Peer where
  ips : List String
  inputRib : Rib
  localRib : Rib

def Peer.init (ips : List String) : Peer := ⟨ips, [], []⟩

inductive RouteItem where
  | announce (route : Row)
  | withdraw (route : Option Row)

def announcedRow (attrs : Option Attribute) (pfx nextHop : String) : Option Row :=
  attrs.map fun a => {
    pfx := pfx
    nextHop := nextHop
    origin := a.origin.getD ""
    asPath := asPathText (a.asPath.getD [])
    med := a.med.elim .empty .int
    atomicAggregate := a.atomicAggregate }

def announceOne (attrs : Option Attribute) (acc : Rib × List RouteItem) (kv : String × String) :
    Option (Rib × List RouteItem) :=
  (announcedRow attrs kv.1 kv.2).bind fun row =>
    let rib := acc.1.add kv.1 row
    (rib.get kv.1).map fun announceRoute => (rib, acc.2 ++ [.announce announceRoute])

def withdrawOne (acc : Rib × List RouteItem) (pfx : String) : Rib × List RouteItem :=
  (acc.1.delete pfx, acc.2 ++ [.withdraw (acc.1.get pfx)])

namespace Peer

/-- A withdrawal is read only where the message announces nothing. -/
def applyUpdate (peer : Peer) (update : Update) : Option (Peer × List RouteItem) :=
  match update.announce, update.withdraw with
  | some ⟨some announce⟩, _ =>
    (announce.items.foldlM (announceOne update.attrs) (peer.inputRib, [])).map fun acc =>
      ({ peer with inputRib := acc.1 }, acc.2)
  | none, some ⟨some withdraw⟩ =>
    let acc := withdraw.keys.foldl withdrawOne (peer.inputRib, [])
    some ({ peer with inputRib := acc.1 }, acc.2)
  | _, _ => some (peer, [])

def sessionDown (peer : Peer) : Peer :=
  { peer with
    localRib := peer.inputRib.foldl (fun rib route => rib.delete route.pfx) peer.localRib
    inputRib := peer.inputRib.deleteAll }

def update (peer : Peer) (route : Message) : Option (Peer × List RouteItem) :=
  match route.neighbor with
  | some n =>
    if n.isFrom peer.ips then
      let peer := if n.state = some "down" then peer.sessionDown else peer
      match n.update with
      | some u => peer.applyUpdate u
      | none => some (peer, [])
    else some (peer, [])
  | none =>
    if route.notification = some "shutdown" then
      some ({ peer with inputRib := peer.inputRib.deleteAll, localRib := peer.localRib.deleteAll },
        [])
    else some (peer, [])

def getRoute (peer : Peer) (key : String) : Option Row := peer.localRib.get key

end Peer

def chosenNextHop (route : Row) (nextHop : Option String) : String :=
  match nextHop with
  | some ip => if ip = "" then route.nextHop else ip
  | none => route.nextHop

def announceRoute (route : Row) (nextHop : Option String) : String :=
  "announce route " ++ route.pfx ++ " next-hop " ++ chosenNextHop route nextHop ++
    " as-path [ " ++ route.asPath ++ " ]"

def withdrawRoute (route : Row) (nextHop : Option String) : String :=
  "withdraw route " ++ route.pfx ++ " next-hop " ++ chosenNextHop route nextHop ++
    " as-path [ " ++ route.asPath ++ " ]"

theorem announcedRow_pfx {attrs : Option Attribute} {pfx nextHop : String} {row : Row}
    (h : announcedRow attrs pfx nextHop = some row) : row.pfx = pfx ∧ row.nextHop = nextHop := by
  obtain ⟨a, -, rfl⟩ := Option.map_eq_some_iff.mp h
  exact ⟨rfl, rfl⟩

/-- What announcements do to a table: the announced prefixes have rows, the others the
rows they had, and every new row is an announced one. -/
structure AnnouncedTo (attrs : Option Attribute) (l : List (String × String))
    (rib rib' : Rib) : Prop where
  announced : ∀ p ∈ l.map Prod.fst, rib'.getAll p ≠ []
  same : ∀ p ∉ l.map Prod.fst, rib'.getAll p = rib.getAll p
  rows : ∀ r ∈ rib', r ∈ rib ∨ ∃ kv ∈ l, announcedRow attrs kv.1 kv.2 = some r

theorem announceOne_spec {attrs : Option Attribute} {acc acc' : Rib × List RouteItem}
    {kv : String × String} (h : announceOne attrs acc kv = some acc') :
    ∃ row item, announcedRow attrs kv.1 kv.2 = some row ∧ item.pfx = kv.1 ∧
      acc' = (acc.1 ++ [row], acc.2 ++ [.announce item]) := by
  obtain ⟨row, hrow, h⟩ := Option.bind_eq_some_iff.mp h
  obtain ⟨item, hitem, rfl⟩ := Option.map_eq_some_iff.mp h
  refine ⟨row, item, hrow, (Rib.mem_of_get hitem).2, ?_⟩
  have hkey : { row with pfx := kv.1 } = row := by rw [← (announcedRow_pfx hrow).1]
  rw [Rib.add, hkey]

theorem announceAll_spec {attrs : Option Attribute} {l : List (String × String)}
    {acc acc' : Rib × List RouteItem} (h : l.foldlM (announceOne attrs) acc = some acc') :
    AnnouncedTo attrs l acc.1 acc'.1 ∧ ∃ rows : List Row, rows.map Row.pfx = l.map Prod.fst ∧
      acc'.2 = acc.2 ++ rows.map RouteItem.announce := by
  induction l generalizing acc with
  | nil =>
    obtain rfl := Option.some.inj h
    exact ⟨⟨by simp, fun _ _ => rfl, fun r hr => Or.inl hr⟩, [], rfl, (List.append_nil _).symm⟩
  | cons kv l ih =>
    rw [List.foldlM_cons] at h
    obtain ⟨acc₁, h₁, h⟩ := Option.bind_eq_some_iff.mp h
    obtain ⟨row, item, hrow, hitem, rfl⟩ := announceOne_spec h₁
    obtain ⟨hto, rows, hrows, hacc⟩ := ih h
    have hpfx := (announcedRow_pfx hrow).1
    have hget : ∀ p, Rib.getAll (acc.1 ++ [row]) p =
        acc.1.getAll p ++ if kv.1 = p then [row] else [] := by
      intro p
      rw [Rib.getAll, List.filter_append, List.filter_singleton, hpfx]
      by_cases hp : kv.1 = p <;> simp [hp, Rib.getAll]
    refine ⟨⟨fun p hp => ?_, fun p hp => ?_, fun r hr => ?_⟩, item :: rows, ?_, ?_⟩
    · by_cases hl : p ∈ l.map Prod.fst
      · exact hto.announced p hl
      · have hp : kv.1 = p := ((List.mem_cons.mp hp).resolve_right hl).symm
        rw [hto.same p hl, hget, if_pos hp]
        exact List.append_ne_nil_of_right_ne_nil _ (List.cons_ne_nil _ _)
    · rw [List.map_cons, List.mem_cons, not_or] at hp
      rw [hto.same p hp.2, hget, if_neg (Ne.symm hp.1), List.append_nil]
    · rcases hto.rows r hr with hr | ⟨kv', hkv', hr⟩
      · rcases List.mem_append.mp hr with hr | hr
        · exact Or.inl hr
        · exact Or.inr ⟨kv, List.mem_cons_self, List.mem_singleton.mp hr ▸ hrow⟩
      · exact Or.inr ⟨kv', List.mem_cons_of_mem kv hkv', hr⟩
    · rw [List.map_cons, List.map_cons, hitem, hrows]
    · rw [hacc, List.map_cons, List.append_assoc, List.singleton_append]

theorem announceAll_total {attrs : Option Attribute} (hattrs : attrs ≠ none)
    (l : List (String × String)) (acc : Rib × List RouteItem) :
    ∃ acc', l.foldlM (announceOne attrs) acc = some acc' := by
  obtain ⟨a, rfl⟩ := Option.ne_none_iff_exists'.mp hattrs
  have hone : ∀ acc, ∀ kv ∈ l, True → ∃ acc', announceOne (some a) acc kv = some acc' ∧ True := by
    intro acc kv _ _
    have hrow : announcedRow (some a) kv.1 kv.2 ≠ none := by simp [announcedRow]
    obtain ⟨row, hrow⟩ := Option.ne_none_iff_exists'.mp hrow
    have hget : (acc.1.add kv.1 row).get kv.1 ≠ none := by
      rw [Ne, Rib.get_eq_none, Rib.getAll_add, if_pos rfl]
      exact List.append_ne_nil_of_right_ne_nil _ (List.cons_ne_nil _ _)
    obtain ⟨item, hitem⟩ := Option.ne_none_iff_exists'.mp hget
    exact ⟨(acc.1.add kv.1 row, acc.2 ++ [.announce item]), by
      simp only [announceOne, hrow, Option.bind_some, hitem, Option.map_some], trivial⟩
  obtain ⟨acc', h, -⟩ := Runs.foldlM_total hone trivial
  exact ⟨acc', h⟩

theorem withdrawAll_spec {ks : List String} (hks : ks.Nodup) (acc : Rib × List RouteItem) :
    (∀ p, (ks.foldl withdrawOne acc).1.getAll p = if p ∈ ks then [] else acc.1.getAll p) ∧
    (ks.foldl withdrawOne acc).1 ⊆ acc.1 ∧
    (ks.foldl withdrawOne acc).2 = acc.2 ++ ks.map fun k => .withdraw (acc.1.get k) := by
  induction ks generalizing acc with
  | nil => simp
  | cons k ks ih =>
    obtain ⟨hk, hks⟩ := List.nodup_cons.mp hks
    obtain ⟨hget, hsub, hitems⟩ := ih hks (withdrawOne acc k)
    rw [List.foldl_cons]
    refine ⟨fun p => ?_, fun r hr => (List.mem_filter.mp (hsub hr)).1, ?_⟩
    · rw [hget, withdrawOne, Rib.getAll_delete]
      by_cases hp : p = k <;> simp [hp]
    · have hsame : ∀ j ∈ ks, (acc.1.delete k).get j = acc.1.get j := by
        intro j hj
        rw [Rib.get_eq_head?, Rib.get_eq_head?, Rib.getAll_delete, if_neg (ne_of_mem_of_not_mem hj hk)]
      have hmap : ks.map (fun j => RouteItem.withdraw ((withdrawOne acc k).1.get j)) =
          ks.map fun j => .withdraw (acc.1.get j) :=
        List.map_congr_left fun j hj => congrArg RouteItem.withdraw (hsame j hj)
      rw [hitems, hmap, withdrawOne, List.map_cons, List.append_assoc, List.singleton_append]

theorem getAll_deletePrefixes (lost rib : Rib) (p : String) :
    (lost.foldl (fun rib route => rib.delete route.pfx) rib).getAll p =
      if lost.getAll p = [] then rib.getAll p else [] := by
  induction lost generalizing rib with
  | nil => simp
  | cons r lost ih =>
    rw [List.foldl_cons, ih, Rib.getAll_delete]
    by_cases hr : r.pfx = p
    · simp [Rib.getAll, hr]
    · simp [Rib.getAll, hr, Ne.symm hr]

theorem Peer.getAll_sessionDown (peer : Peer) (p : String) :
    peer.sessionDown.inputRib.getAll p = [] ∧ peer.sessionDown.localRib.getAll p =
      if peer.inputRib.getAll p = [] then peer.localRib.getAll p else [] :=
  ⟨rfl, getAll_deletePrefixes peer.inputRib peer.localRib p⟩

def Neighbor.Announces (n : Neighbor) (r : Row) : Prop :=
  ∃ u announce, n.update = some u ∧ u.announce = some ⟨some announce⟩ ∧
    ∃ kv ∈ announce.items, announcedRow u.attrs kv.1 kv.2 = some r

inductive TableChange (rib rib' : Rib) : List RouteItem → Prop
  | announced (rows : List Row) (hnodup : (rows.map Row.pfx).Nodup)
      (hin : ∀ p ∈ rows.map Row.pfx, rib'.getAll p ≠ [])
      (hout : ∀ p ∉ rows.map Row.pfx, rib'.getAll p = rib.getAll p) :
      TableChange rib rib' (rows.map .announce)
  | withdrawn (ks : List String) (hnodup : ks.Nodup)
      (hget : ∀ p, rib'.getAll p = if p ∈ ks then [] else rib.getAll p) :
      TableChange rib rib' (ks.map fun k => .withdraw (rib.get k))

structure Reported (n : Neighbor) (peer peer' : Peer) (items : List RouteItem) : Prop where
  nonempty : items ≠ []
  isFrom : n.isFrom peer.ips = true
  ips : peer'.ips = peer.ips
  localRib : peer'.localRib = peer.localRib
  rows : ∀ r ∈ peer'.inputRib, r ∈ peer.inputRib ∨ n.Announces r
  change : TableChange peer.inputRib peer'.inputRib items

theorem Peer.applyUpdate_cases {n : Neighbor} {u : Update} (hu : n.update = some u)
    {peer peer' : Peer} (hfrom : n.isFrom peer.ips = true) {items : List RouteItem}
    (h : peer.applyUpdate u = some (peer', items)) :
    (peer' = peer ∧ items = []) ∨ Reported n peer peer' items := by
  unfold applyUpdate at h
  split at h
  · rename_i announce hannounce
    obtain ⟨acc, hacc, he⟩ := Option.map_eq_some_iff.mp h
    obtain ⟨rfl, rfl⟩ := Prod.mk.inj he
    obtain ⟨hto, rows, hrows, hitems⟩ := announceAll_spec hacc
    rw [List.nil_append] at hitems
    by_cases hnil : announce.items = []
    · rw [hnil] at hacc
      obtain rfl := Option.some.inj hacc
      exact Or.inl ⟨rfl, rfl⟩
    · have hne : rows.map RouteItem.announce ≠ [] := by
        intro e
        rw [List.map_eq_nil_iff] at e
        exact hnil (List.map_eq_nil_iff.mp (hrows.symm.trans (e ▸ rfl)))
      rw [hitems]
      exact Or.inr ⟨hne, hfrom, rfl, rfl,
        fun r hr => (hto.rows r hr).imp_right fun hr => ⟨u, announce, hu, hannounce, hr⟩,
        .announced rows (hrows ▸ announce.nodup) (hrows ▸ hto.announced) (hrows ▸ hto.same)⟩
  · rename_i withdraw _ _
    obtain ⟨rfl, rfl⟩ := Prod.mk.inj (Option.some.inj h)
    obtain ⟨hget, hsub, hitems⟩ := withdrawAll_spec withdraw.nodup_keys (peer.inputRib, [])
    by_cases hnil : withdraw.keys = []
    · rw [hnil]
      exact Or.inl ⟨rfl, rfl⟩
    · rw [hitems, List.nil_append]
      exact Or.inr ⟨mt List.map_eq_nil_iff.mp hnil, hfrom, rfl, rfl, fun r hr => Or.inl (hsub hr),
        .withdrawn withdraw.keys withdraw.nodup_keys hget⟩
  · obtain ⟨rfl, rfl⟩ := Prod.mk.inj (Option.some.inj h)
    exact Or.inl ⟨rfl, rfl⟩

theorem Peer.update_cases {msg : Message} {n : Neighbor} (hn : msg.neighbor = some n)
    (hstate : n.state ≠ some "down") {peer peer' : Peer} {items : List RouteItem}
    (h : peer.update msg = some (peer', items)) :
    (peer' = peer ∧ items = []) ∨ Reported n peer peer' items := by
  simp only [update, hn, if_neg hstate] at h
  split_ifs at h with hfrom
  · split at h
    · rename_i u hu
      exact applyUpdate_cases hu hfrom h
    · obtain ⟨rfl, rfl⟩ := Prod.mk.inj (Option.some.inj h)
      exact Or.inl ⟨rfl, rfl⟩
  · obtain ⟨rfl, rfl⟩ := Prod.mk.inj (Option.some.inj h)
    exact Or.inl ⟨rfl, rfl⟩

theorem Peer.update_down {msg : Message} {n : Neighbor} (hn : msg.neighbor = some n)
    (hstate : n.state = some "down") (hu : n.update = none) (peer : Peer) :
    peer.update msg = some (if n.isFrom peer.ips then peer.sessionDown else peer, []) := by
  simp only [update, hn, hu, if_pos hstate]
  split_ifs <;> rfl

end Hispar.Bgp
