import Hispar.Bgp.Announcements

/-!
# Routers of one participant

The routers of a participant share the tables of its peer. A row does not say
which router announced it, except by its next hop where every router announces
itself. A withdrawal removes the rows of a prefix whoever announced them, and
the end of one session removes all rows, and the local ones of their prefixes.
-/
namespace Hispar.Bgp
open Library

def AnnouncesItself (msg : Message) : Prop :=
  ∀ n, msg.neighbor = some n → ∀ row, n.Announces row → n.ip = some row.nextHop

/-- The states of a peer after a history of messages. Between two messages the decision process
may rewrite the local table. -/
inductive Reached (ips : List String) : List Message → Peer → Prop
  | init : Reached ips [] (.init ips)
  | received {history peer msg peer' items} : Reached ips history peer → AnnouncesItself msg →
      peer.update msg = some (peer', items) → Reached ips (history ++ [msg]) peer'
  | decided {history peer} (localRib : Rib) : Reached ips history peer →
      Reached ips history { peer with localRib := localRib }

def AnnouncedBy (history : List Message) (r : String) (row : Row) : Prop :=
  ∃ msg ∈ history, ∃ n, msg.neighbor = some n ∧ n.ip = some r ∧ n.Announces row

theorem Peer.update_rows {peer peer' : Peer} {msg : Message} {items : List RouteItem}
    (h : peer.update msg = some (peer', items)) : peer'.ips = peer.ips ∧
      ∀ row ∈ peer'.inputRib, row ∈ peer.inputRib ∨
        ∃ n, msg.neighbor = some n ∧ n.Announces row := by
  rcases hn : msg.neighbor with _ | n
  · simp only [update, hn] at h
    split_ifs at h
    · obtain ⟨rfl, -⟩ := Prod.mk.inj (Option.some.inj h)
      exact ⟨rfl, fun row hrow => absurd hrow List.not_mem_nil⟩
    · obtain ⟨rfl, -⟩ := Prod.mk.inj (Option.some.inj h)
      exact ⟨rfl, fun row hrow => Or.inl hrow⟩
  · by_cases hfrom : n.isFrom peer.ips = true
    · -- what is left of the tables after a lost session
      obtain ⟨peer₀, hpeer₀, hips, hsub⟩ : ∃ peer₀,
          (if n.state = some "down" then peer.sessionDown else peer) = peer₀ ∧
          peer₀.ips = peer.ips ∧ peer₀.inputRib ⊆ peer.inputRib := by
        by_cases hdown : n.state = some "down"
        · exact ⟨_, if_pos hdown, rfl, List.nil_subset _⟩
        · exact ⟨_, if_neg hdown, rfl, List.Subset.refl _⟩
      simp only [update, hn, if_pos hfrom, hpeer₀] at h
      rcases hu : n.update with _ | u
      · rw [hu] at h
        obtain ⟨rfl, -⟩ := Prod.mk.inj (Option.some.inj h)
        exact ⟨hips, fun row hrow => Or.inl (hsub hrow)⟩
      · rw [hu] at h
        rcases peer₀.applyUpdate_cases hu (hips ▸ hfrom) h with ⟨rfl, -⟩ | hreported
        · exact ⟨hips, fun row hrow => Or.inl (hsub hrow)⟩
        · refine ⟨hreported.ips.trans hips, fun row hrow => ?_⟩
          exact (hreported.rows row hrow).imp (fun hrow => hsub hrow) fun hann => ⟨n, rfl, hann⟩
    · simp only [update, hn, if_neg hfrom] at h
      obtain ⟨rfl, -⟩ := Prod.mk.inj (Option.some.inj h)
      exact ⟨rfl, fun row hrow => Or.inl hrow⟩

namespace Reached
variable {ips : List String} {history : List Message} {peer : Peer}

theorem ips_eq (h : Reached ips history peer) : peer.ips = ips := by
  induction h with
  | init => rfl
  | received _ _ hupdate ih => exact (Peer.update_rows hupdate).1.trans ih
  | decided _ _ ih => exact ih

theorem nextHop_eq (h : Reached ips history peer) {r : String} {row : Row}
    (hrow : AnnouncedBy history r row) : row.nextHop = r := by
  induction h with
  | init =>
    obtain ⟨msg, hmsg, -⟩ := hrow
    exact absurd hmsg List.not_mem_nil
  | received _ hown _ ih =>
    obtain ⟨m, hm, n, hn, hip, hann⟩ := hrow
    rcases List.mem_append.mp hm with hm | hm
    · exact ih ⟨m, hm, n, hn, hip, hann⟩
    · rw [List.mem_singleton.mp hm] at hn
      exact (Option.some.inj (hip.symm.trans (hown n hn row hann))).symm
  | decided _ _ ih => exact ih hrow

theorem announcedBy (h : Reached ips history peer) :
    ∀ row ∈ peer.inputRib, AnnouncedBy history row.nextHop row := by
  induction h with
  | init => exact fun row hrow => absurd hrow List.not_mem_nil
  | @received history peer msg _ _ _ hown hupdate ih =>
    intro row hrow
    rcases (Peer.update_rows hupdate).2 row hrow with hrow | ⟨n, hn, hann⟩
    · obtain ⟨m, hm, hby⟩ := ih row hrow
      exact ⟨m, List.mem_append_left _ hm, hby⟩
    · exact ⟨msg, List.mem_append_right _ (List.mem_singleton_self _), n, hn, hown n hn row hann, hann⟩
  | decided _ _ ih => exact ih

end Reached

/-- What a router takes back: some prefixes, or all of its session. -/
inductive Loss where
  | withdrawal (attrs : Option Attribute) (prefixes : Dict String Unit)
  | sessionDown

namespace Loss

def message (r : String) : Loss → Message
  | .withdrawal attrs prefixes =>
    ⟨some ⟨some r, none, some ⟨attrs, none, some ⟨some prefixes⟩⟩⟩, none⟩
  | .sessionDown => ⟨some ⟨some r, some "down", none⟩, none⟩

/-- What the loss removes is the router's own, and for the end of a session no prefix of it has
a local route. -/
def Contained (r : String) (peer : Peer) : Loss → Prop
  | .withdrawal _ prefixes => ∀ row ∈ peer.inputRib, row.pfx ∈ prefixes.keys → row.nextHop = r
  | .sessionDown => ∀ row ∈ peer.inputRib, row.nextHop = r ∧ peer.localRib.getAll row.pfx = []

end Loss

/-- The loss of one router is no loss of another: only what it announced is removed, what the
others announced stays, and so do the local routes. -/
structure Framed (history : List Message) (r : String) (peer peer' : Peer) : Prop where
  removed : ∀ row ∈ peer.inputRib, row ∉ peer'.inputRib → AnnouncedBy history r row
  kept : ∀ r' ≠ r, ∀ row ∈ peer.inputRib, AnnouncedBy history r' row → row ∈ peer'.inputRib
  localRib : peer'.localRib = peer.localRib

theorem mem_withdrawAll {ks : List String} (hks : ks.Nodup) (acc : Rib × List RouteItem) (row : Row) :
    row ∈ (ks.foldl withdrawOne acc).1 ↔ row ∈ acc.1 ∧ row.pfx ∉ ks := by
  have hget := (withdrawAll_spec hks acc).1 row.pfx
  have hmem : ∀ rib : Rib, row ∈ rib ↔ row ∈ rib.getAll row.pfx := fun rib =>
    (Rib.mem_getAll.trans (and_iff_left rfl)).symm
  rw [hmem, hget, hmem acc.1]
  split_ifs with h
  · simp [h]
  · simp [h]

theorem deletePrefixes_eq_self {lost rib : Rib} (h : ∀ row ∈ lost, rib.getAll row.pfx = []) :
    lost.foldl (fun rib route => rib.delete route.pfx) rib = rib := by
  induction lost with
  | nil => rfl
  | cons row lost ih =>
    obtain ⟨hrow, hlost⟩ := List.forall_mem_cons.mp h
    have hdelete : rib.delete row.pfx = rib := by
      refine List.filter_eq_self.mpr fun r hr => decide_eq_true fun he => ?_
      exact List.filter_eq_nil_iff.mp hrow r hr (decide_eq_true he)
    rw [List.foldl_cons, hdelete]
    exact ih hlost

section loss
variable {ips : List String} {history : List Message} {peer : Peer} {r : String}

theorem framed_withdrawal_iff (h : Reached ips history peer) {prefixes : Dict String Unit} :
    Framed history r peer { peer with
      inputRib := (prefixes.keys.foldl withdrawOne (peer.inputRib, [])).1 } ↔
    ∀ row ∈ peer.inputRib, row.pfx ∈ prefixes.keys → row.nextHop = r := by
  have hmem := mem_withdrawAll prefixes.nodup_keys (peer.inputRib, [])
  constructor
  · intro hframed row hrow hpfx
    exact h.nextHop_eq (hframed.removed row hrow fun hleft => ((hmem row).mp hleft).2 hpfx)
  · intro hown
    refine ⟨fun row hrow hgone => ?_, fun r' hr' row hrow hby => ?_, rfl⟩
    · have hpfx : row.pfx ∈ prefixes.keys := by
        by_contra hnot
        exact hgone ((hmem row).mpr ⟨hrow, hnot⟩)
      exact hown row hrow hpfx ▸ h.announcedBy row hrow
    · exact (hmem row).mpr ⟨hrow, fun hpfx =>
        hr' ((h.nextHop_eq hby).symm.trans (hown row hrow hpfx))⟩

theorem framed_sessionDown_iff (h : Reached ips history peer) :
    Framed history r peer peer.sessionDown ↔
    ∀ row ∈ peer.inputRib, row.nextHop = r ∧ peer.localRib.getAll row.pfx = [] := by
  constructor
  · intro hframed row hrow
    refine ⟨h.nextHop_eq (hframed.removed row hrow List.not_mem_nil), ?_⟩
    have hget := (peer.getAll_sessionDown row.pfx).2
    rw [hframed.localRib, if_neg (List.ne_nil_of_mem (Rib.mem_getAll.mpr ⟨hrow, rfl⟩))] at hget
    exact hget
  · intro hown
    refine ⟨fun row hrow _ => (hown row hrow).1 ▸ h.announcedBy row hrow,
      fun r' hr' row hrow hby => ?_, deletePrefixes_eq_self fun row hrow => (hown row hrow).2⟩
    exact absurd ((h.nextHop_eq hby).symm.trans (hown row hrow).1) hr'

theorem update_withdrawal (hr : r ∈ peer.ips) (attrs : Option Attribute)
    (prefixes : Dict String Unit) :
    peer.update ((Loss.withdrawal attrs prefixes).message r) = some ({ peer with
      inputRib := (prefixes.keys.foldl withdrawOne (peer.inputRib, [])).1 },
      (prefixes.keys.foldl withdrawOne (peer.inputRib, [])).2) := by
  have hfrom : (Neighbor.mk (some r) none
      (some ⟨attrs, none, some ⟨some prefixes⟩⟩)).isFrom peer.ips = true := by
    simp [Neighbor.isFrom, hr]
  have hnot : ¬ (none : Option String) = some "down" := by simp
  simp only [Peer.update, Loss.message, hfrom, if_true, if_neg hnot, Peer.applyUpdate]

theorem update_sessionDown (hr : r ∈ peer.ips) :
    peer.update (Loss.sessionDown.message r) = some (peer.sessionDown, []) := by
  have hfrom : (Neighbor.mk (some r) (some "down") none).isFrom peer.ips = true := by
    simp [Neighbor.isFrom, hr]
  rw [Peer.update_down rfl rfl rfl, if_pos hfrom]

/-- After every history, the loss of a router concerns its own routes alone exactly if there are
no others of the prefixes, and for a session no local ones. -/
theorem framed_loss_iff (h : Reached ips history peer) (hr : r ∈ ips) (loss : Loss) :
    ∃ peer' items, peer.update (loss.message r) = some (peer', items) ∧
      (Framed history r peer peer' ↔ loss.Contained r peer) := by
  rw [← h.ips_eq] at hr
  cases loss with
  | withdrawal attrs prefixes =>
    exact ⟨_, _, update_withdrawal hr attrs prefixes, framed_withdrawal_iff h⟩
  | sessionDown => exact ⟨_, _, update_sessionDown hr, framed_sessionDown_iff h⟩

end loss

theorem Announcement.announcesItself {a : Announcement} {ip : String}
    (h : ∀ kv ∈ a.prefixes.items, kv.2 = ip) : AnnouncesItself (a.message ip) := by
  intro n hn row hann
  obtain rfl := Option.some.inj hn
  obtain ⟨u, announce, hu, hannounce, kv, hkv, hrow⟩ := hann
  obtain rfl := Option.some.inj hu
  obtain rfl := Option.some.inj (congrArg Families.ipv4Unicast (Option.some.inj hannounce))
  rw [(announcedRow_pfx hrow).2, h kv hkv]

def announceShared (ip : String) : Announcement :=
  ⟨⟨some "igp", some [.seq [100]], some 0, some false⟩, .single "10.0.0.0/8" ip⟩

def sharedHistory : List Message :=
  [(announceShared "172.0.0.1").message "172.0.0.1", (announceShared "172.0.0.2").message "172.0.0.2"]

def sharedPeer : Peer :=
  ⟨["172.0.0.1", "172.0.0.2"], writtenRows [announceShared "172.0.0.1", announceShared "172.0.0.2"],
    []⟩

theorem reached_sharedPeer : Reached ["172.0.0.1", "172.0.0.2"] sharedHistory sharedPeer := by
  have hown : ∀ ip, AnnouncesItself ((announceShared ip).message ip) := fun ip =>
    Announcement.announcesItself fun kv hkv => congrArg Prod.snd (List.mem_singleton.mp hkv)
  have hfirst : "172.0.0.1" ∈ (Peer.init ["172.0.0.1", "172.0.0.2"]).ips := by decide
  have hsecond : "172.0.0.2" ∈ (Peer.mk ["172.0.0.1", "172.0.0.2"]
      (announceShared "172.0.0.1").rows []).ips := by decide
  exact .received (.received .init (hown _) ((announceShared _).update_message hfirst))
    (hown _) ((announceShared _).update_message hsecond)

theorem framed_loss_iff_shared : ∃ peer' items,
    sharedPeer.update (Loss.sessionDown.message "172.0.0.1") = some (peer', items) ∧
    (Framed sharedHistory "172.0.0.1" sharedPeer peer' ↔
      Loss.sessionDown.Contained "172.0.0.1" sharedPeer) :=
  framed_loss_iff reached_sharedPeer (by decide) .sessionDown

theorem framed_loss_shared : Reached ["172.0.0.1", "172.0.0.2"] sharedHistory sharedPeer ∧
    ∀ loss ∈ [.withdrawal none (.single "10.0.0.0/8" ()), .sessionDown], ∃ peer' items,
      sharedPeer.update (Loss.message "172.0.0.1" loss) = some (peer', items) ∧
      ¬ Framed sharedHistory "172.0.0.1" sharedPeer peer' := by
  have hr : "172.0.0.1" ∈ sharedPeer.ips := by decide
  have hother : writtenRow (announceShared "172.0.0.2").attrs "10.0.0.0/8" "172.0.0.2" ∈
      sharedPeer.inputRib := by decide
  refine ⟨reached_sharedPeer,
    List.forall_mem_cons.mpr ⟨⟨_, _, update_withdrawal hr none _, fun h => ?_⟩,
    List.forall_mem_singleton.mpr ⟨_, _, update_sessionDown hr, fun h => ?_⟩⟩⟩
  · have hnextHop := (framed_withdrawal_iff reached_sharedPeer).mp h _ hother (by decide)
    revert hnextHop
    decide
  · have hnextHop := ((framed_sessionDown_iff reached_sharedPeer).mp h _ hother).1
    revert hnextHop
    decide

end Hispar.Bgp
