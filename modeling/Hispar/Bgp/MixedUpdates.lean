import Hispar.Bgp.Announcements

/-!
# Updates that announce and withdraw

The encoder writes what one BGP message announces and what it withdraws into
one update. The peer reads the withdrawn prefixes only where the update has no
announcements, of whatever address family.
-/
namespace Hispar.Bgp
open Library

structure MixedUpdate where
  attrs : Attribute
  announce : Families String
  withdraw : Families Unit

namespace MixedUpdate

def message (m : MixedUpdate) (ip : String) : Message :=
  ⟨some ⟨some ip, none, some ⟨some m.attrs, some m.announce, some m.withdraw⟩⟩, none⟩

def announcePart (m : MixedUpdate) (ip : String) : Message :=
  ⟨some ⟨some ip, none, some ⟨some m.attrs, some m.announce, none⟩⟩, none⟩

def withdrawPart (m : MixedUpdate) (ip : String) : Message :=
  ⟨some ⟨some ip, none, some ⟨some m.attrs, none, some m.withdraw⟩⟩, none⟩

def announcement (m : MixedUpdate) : Announcement := ⟨m.attrs, m.announce.ipv4Unicast.getD .empty⟩

def announced (m : MixedUpdate) : List String := m.announcement.prefixes.keys

def withdrawn (m : MixedUpdate) : List String := (m.withdraw.ipv4Unicast.getD .empty).keys

/-- What the update is to leave and to report: its two parts, as if they came one after the
other. -/
structure Handled (m : MixedUpdate) (ip : String) (peer peer' : Peer) (items : List RouteItem) :
    Prop where
  withdrawn : ∀ p ∈ m.withdrawn, peer'.inputRib.getAll p = []
  announced : ∀ p ∈ m.announced, ∃ row, m.announcement.row p = some row ∧
    peer'.inputRib.getAll p = [row]
  others : ∀ p ∉ m.withdrawn, p ∉ m.announced →
    peer'.inputRib.getAll p = peer.inputRib.getAll p
  reported : items.Perm (m.withdrawn.map (fun p => .withdraw (peer.inputRib.get p)) ++
    m.announcement.rows.map .announce)
  split : ∃ peer₁ items₁ items₂, peer.update (m.withdrawPart ip) = some (peer₁, items₁) ∧
    peer₁.update (m.announcePart ip) = some (peer', items₂) ∧ items.Perm (items₁ ++ items₂)

section update
variable {ip : String} {peer : Peer} (hip : ip ∈ peer.ips) (m : MixedUpdate)
include hip

theorem applyUpdate_announce (withdraw : Option (Families Unit)) :
    peer.update ⟨some ⟨some ip, none, some ⟨some m.attrs, some m.announce, withdraw⟩⟩, none⟩ =
      some ({ peer with inputRib := peer.inputRib ++ m.announcement.rows },
        m.announcement.rows.map fun row => .announce (reportedRow peer.inputRib row)) := by
  have hfrom : (Neighbor.mk (some ip) none (some ⟨some m.attrs, some m.announce, withdraw⟩)).isFrom
      peer.ips = true := by simp [Neighbor.isFrom, hip]
  rcases hannounce : m.announce with ⟨_ | announce⟩
  · have hrows : m.announcement.rows = [] := by
      rw [announcement, hannounce]
      rfl
    have hnot : ¬ (none : Option String) = some "down" := by simp
    rw [hannounce] at hfrom
    simp only [Peer.update, hfrom, if_true, if_neg hnot, Peer.applyUpdate, hrows, List.append_nil,
      List.map_nil]
  · have hsame : m.announcement = ⟨m.attrs, announce⟩ := by
      rw [announcement, hannounce]
      rfl
    rw [hsame, ← (Announcement.mk m.attrs announce).update_message hip, Peer.update, Peer.update]
    rfl

theorem update_message : peer.update (m.message ip) =
    some ({ peer with inputRib := peer.inputRib ++ m.announcement.rows },
      m.announcement.rows.map fun row => .announce (reportedRow peer.inputRib row)) :=
  m.applyUpdate_announce hip (some m.withdraw)

theorem update_announcePart : peer.update (m.announcePart ip) = peer.update (m.message ip) :=
  (m.applyUpdate_announce hip none).trans (m.update_message hip).symm

theorem update_withdrawPart (hnone : m.withdrawn = []) :
    peer.update (m.withdrawPart ip) = some (peer, []) := by
  have hfrom : (Neighbor.mk (some ip) none (some ⟨some m.attrs, none, some m.withdraw⟩)).isFrom
      peer.ips = true := by simp [Neighbor.isFrom, hip]
  have hnot : ¬ (none : Option String) = some "down" := by simp
  rcases hwithdraw : m.withdraw with ⟨_ | withdraw⟩
  · rw [hwithdraw] at hfrom
    simp only [Peer.update, withdrawPart, hwithdraw, hfrom, if_true, if_neg hnot, Peer.applyUpdate]
  · have hkeys : withdraw.keys = [] := by
      rw [withdrawn, hwithdraw] at hnone
      exact hnone
    rw [hwithdraw] at hfrom
    simp only [Peer.update, withdrawPart, hwithdraw, hfrom, if_true, if_neg hnot, Peer.applyUpdate,
      hkeys, List.foldl_nil]

omit hip in
theorem getAll_after (p : String) : Rib.getAll (peer.inputRib ++ m.announcement.rows) p =
    peer.inputRib.getAll p ++ (m.announcement.row p).toList := by
  rw [Rib.getAll, List.filter_append, ← Rib.getAll, ← Rib.getAll, m.announcement.getAll_rows]

omit hip in
theorem row_of_announced {m : MixedUpdate} {p : String} (hp : p ∈ m.announced) :
    ∃ row, m.announcement.row p = some row := by
  obtain ⟨nextHop, h⟩ := Dict.mem_keys_iff.mp hp
  exact ⟨_, by rw [Announcement.row, h, Option.map_some]⟩

variable {m}

theorem withdrawn_eq_nil {peer' : Peer} {items : List RouteItem}
    (hupdate : peer.update (m.message ip) = some (peer', items))
    (h : m.Handled ip peer peer' items) : m.withdrawn = [] := by
  obtain ⟨-, rfl⟩ := Prod.mk.inj (Option.some.inj ((m.update_message hip).symm.trans hupdate))
  have hlength := h.reported.length_eq
  rw [List.length_append, List.length_map, List.length_map, List.length_map] at hlength
  exact List.length_eq_zero_iff.mp (by omega)

theorem getAll_eq_nil {peer' : Peer} {items : List RouteItem}
    (hupdate : peer.update (m.message ip) = some (peer', items))
    (h : m.Handled ip peer peer' items) {p : String} (hp : p ∈ m.announced) :
    peer.inputRib.getAll p = [] := by
  obtain ⟨rfl, -⟩ := Prod.mk.inj (Option.some.inj ((m.update_message hip).symm.trans hupdate))
  obtain ⟨row, hrow, hget⟩ := h.announced p hp
  rw [m.getAll_after, hrow, Option.toList_some, List.append_eq_singleton_iff] at hget
  rcases hget with ⟨hnil, -⟩ | ⟨-, hrow⟩
  · exact hnil
  · cases hrow

theorem handled_of_noWithdrawn (hnone : m.withdrawn = [])
    (hnew : ∀ p ∈ m.announced, peer.inputRib.getAll p = []) :
    ∃ peer' items, peer.update (m.message ip) = some (peer', items) ∧
      m.Handled ip peer peer' items := by
  refine ⟨_, _, m.update_message hip, ?_, fun p hp => ?_, fun p _ hp => ?_, ?_,
    peer, [], _, m.update_withdrawPart hip hnone,
    (m.update_announcePart hip).trans (m.update_message hip), List.Perm.refl _⟩
  · rw [hnone]
    exact fun p hp => absurd hp List.not_mem_nil
  · obtain ⟨row, hrow⟩ := row_of_announced hp
    exact ⟨row, hrow, by rw [m.getAll_after, hnew p hp, hrow, List.nil_append, Option.toList_some]⟩
  · have hrow : m.announcement.row p = none := by
      rw [Announcement.row, Dict.get?_eq_none.mpr hp, Option.map_none]
    rw [m.getAll_after, hrow, Option.toList_none, List.append_nil]
  · -- every announced row is the only one of its prefix, and is read back
    have hreported : ∀ row ∈ m.announcement.rows, reportedRow peer.inputRib row = row := by
      intro row hrow
      have hpfx : row.pfx ∈ m.announced := by
        rw [announced, ← m.announcement.map_pfx_rows]
        exact List.mem_map_of_mem hrow
      rw [reportedRow, Rib.get_eq_none.mpr (hnew _ hpfx), Option.getD_none]
    rw [hnone, List.map_nil, List.nil_append]
    exact .of_eq (List.map_congr_left fun row hrow => congrArg _ (hreported row hrow))

variable (m)

/-- The two parts are handled exactly if nothing is withdrawn and what is announced is new. -/
theorem handled_iff : (∃ peer' items, peer.update (m.message ip) = some (peer', items) ∧
    m.Handled ip peer peer' items) ↔
    m.withdrawn = [] ∧ ∀ p ∈ m.announced, peer.inputRib.getAll p = [] := by
  constructor
  · rintro ⟨peer', items, hupdate, h⟩
    exact ⟨withdrawn_eq_nil hip hupdate h, fun p hp => getAll_eq_nil hip hupdate h hp⟩
  · rintro ⟨hnone, hnew⟩
    exact handled_of_noWithdrawn hip hnone hnew

end update
end MixedUpdate

def peerWithRoute : Peer :=
  ⟨["172.0.0.1"], [writtenRow ⟨some "igp", some [.seq [100]], some 0, some false⟩
    "20.0.0.0/8" "172.0.0.1"], []⟩

def moved : MixedUpdate :=
  ⟨⟨some "igp", some [.seq [100]], some 0, some false⟩,
    ⟨some (.single "10.0.0.0/8" "172.0.0.1")⟩, ⟨some (.single "20.0.0.0/8" ())⟩⟩

theorem handled_iff_moved : (∃ peer' items,
    peerWithRoute.update (moved.message "172.0.0.1") = some (peer', items) ∧
    moved.Handled "172.0.0.1" peerWithRoute peer' items) ↔
    moved.withdrawn = [] ∧ ∀ p ∈ moved.announced, peerWithRoute.inputRib.getAll p = [] :=
  MixedUpdate.handled_iff (List.mem_singleton_self _) moved

theorem handled_moved_kept : "172.0.0.1" ∈ peerWithRoute.ips ∧
    (∀ p, (peerWithRoute.inputRib.getAll p).length ≤ 1) ∧
    (∀ p ∈ moved.withdrawn, p ∉ moved.announced) ∧
    ¬ ∃ peer' items, peerWithRoute.update (moved.message "172.0.0.1") = some (peer', items) ∧
      moved.Handled "172.0.0.1" peerWithRoute peer' items := by
  have hip : "172.0.0.1" ∈ peerWithRoute.ips := List.mem_singleton_self _
  refine ⟨hip, fun p => List.length_filter_le _ _, by decide, ?_⟩
  rintro ⟨peer', items, hupdate, h⟩
  exact List.cons_ne_nil _ _ (MixedUpdate.withdrawn_eq_nil hip hupdate h)

end Hispar.Bgp
