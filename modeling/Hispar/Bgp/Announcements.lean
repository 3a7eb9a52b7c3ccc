import Hispar.Bgp.Peer

/-!
# Announcements of one router

An announcement inserts a row for each of its prefixes and reads the oldest row
of the prefix back. A prefix that is announced again keeps its first row, and
the new one stands behind it: the latest announcement replaces the earlier ones
only as long as there are none.
-/
namespace Hispar.Bgp
open Library

structure Announcement where
  attrs : Attribute
  prefixes : Dict String String

def writtenRow (a : Attribute) (pfx nextHop : String) : Row where
  pfx := pfx
  nextHop := nextHop
  origin := a.origin.getD ""
  asPath := asPathText (a.asPath.getD [])
  med := a.med.elim .empty .int
  atomicAggregate := a.atomicAggregate

theorem announcedRow_some (a : Attribute) (pfx nextHop : String) :
    announcedRow (some a) pfx nextHop = some (writtenRow a pfx nextHop) := rfl

/-- What the update of a table reports for a prefix: its oldest row. -/
def reportedRow (rib : Rib) (row : Row) : Row := (rib.get row.pfx).getD row

theorem announceOne_eq (a : Attribute) (acc : Rib × List RouteItem) (kv : String × String) :
    announceOne (some a) acc kv = some (acc.1 ++ [writtenRow a kv.1 kv.2],
      acc.2 ++ [.announce (reportedRow acc.1 (writtenRow a kv.1 kv.2))]) := by
  have hget : (acc.1 ++ [writtenRow a kv.1 kv.2]).get kv.1 =
      some (reportedRow acc.1 (writtenRow a kv.1 kv.2)) := by
    have hreported : reportedRow acc.1 (writtenRow a kv.1 kv.2) =
        (acc.1.find? fun r => r.pfx = kv.1).getD (writtenRow a kv.1 kv.2) := rfl
    rw [hreported, Rib.get, List.find?_append, List.find?_singleton]
    cases acc.1.find? fun r => r.pfx = kv.1 with
    | none => simp [writtenRow]
    | some r => rfl
  rw [announceOne, announcedRow_some, Option.bind_some]
  exact congrArg (Option.map _) hget

theorem announceAll_eq (a : Attribute) {l : List (String × String)} (hl : (l.map Prod.fst).Nodup)
    (acc : Rib × List RouteItem) : l.foldlM (announceOne (some a)) acc =
      some (acc.1 ++ l.map (fun kv => writtenRow a kv.1 kv.2),
        acc.2 ++ l.map fun kv => .announce (reportedRow acc.1 (writtenRow a kv.1 kv.2))) := by
  induction l generalizing acc with
  | nil => simp
  | cons kv l ih =>
    obtain ⟨hkv, hl⟩ := List.nodup_cons.mp hl
    have hsame : ∀ kv' ∈ l, reportedRow (acc.1 ++ [writtenRow a kv.1 kv.2]) (writtenRow a kv'.1 kv'.2) =
        reportedRow acc.1 (writtenRow a kv'.1 kv'.2) := by
      intro kv' hkv'
      have hne : kv.1 ≠ kv'.1 := fun he => hkv (he ▸ List.mem_map_of_mem hkv')
      rw [reportedRow, Rib.get, List.find?_append, List.find?_singleton]
      simp [reportedRow, Rib.get, writtenRow, hne]
    rw [List.foldlM_cons, announceOne_eq]
    refine (ih hl _).trans ?_
    have hmap : l.map (fun kv' => RouteItem.announce
        (reportedRow (acc.1 ++ [writtenRow a kv.1 kv.2]) (writtenRow a kv'.1 kv'.2))) =
        l.map fun kv' => .announce (reportedRow acc.1 (writtenRow a kv'.1 kv'.2)) :=
      List.map_congr_left fun kv' hkv' => congrArg RouteItem.announce (hsame kv' hkv')
    rw [hmap]
    simp only [List.map_cons, List.append_assoc, List.singleton_append]

theorem Peer.update_announces (peer : Peer) {ip : String} (hip : ip ∈ peer.ips)
    (state : Option String) (a : Attribute) (announce : Dict String String)
    (withdraw : Option (Families Unit)) (notification : Option String) :
    peer.update ⟨some ⟨some ip, state, some ⟨some a, some ⟨some announce⟩, withdraw⟩⟩,
        notification⟩ =
      let base := if state = some "down" then peer.sessionDown else peer
      some ({ base with
          inputRib := base.inputRib ++ announce.items.map fun kv => writtenRow a kv.1 kv.2 },
        announce.items.map fun kv =>
          .announce (reportedRow base.inputRib (writtenRow a kv.1 kv.2))) := by
  have hfrom : (Neighbor.mk (some ip) state (some ⟨some a, some ⟨some announce⟩, withdraw⟩)).isFrom
      peer.ips = true := by simp [Neighbor.isFrom, hip]
  simp only [Peer.update, hfrom, if_true, Peer.applyUpdate]
  rw [announceAll_eq a announce.nodup, Option.map_some, List.nil_append]

namespace Announcement

def message (a : Announcement) (ip : String) : Message :=
  ⟨some ⟨some ip, none, some ⟨some a.attrs, some ⟨some a.prefixes⟩, none⟩⟩, none⟩

def rows (a : Announcement) : List Row :=
  a.prefixes.items.map fun kv => writtenRow a.attrs kv.1 kv.2

def row (a : Announcement) (p : String) : Option Row :=
  (a.prefixes.get? p).map (writtenRow a.attrs p)

theorem getAll_rows (a : Announcement) (p : String) : Rib.getAll a.rows p = (a.row p).toList := by
  rw [Rib.getAll, rows, List.filter_map, row]
  have hfilter := a.prefixes.filter_items p
  rw [show ((fun r : Row => decide (r.pfx = p)) ∘ fun kv : String × String =>
    writtenRow a.attrs kv.1 kv.2) = fun kv => decide (kv.1 = p) from rfl, hfilter]
  cases a.prefixes.get? p <;> rfl

theorem map_pfx_rows (a : Announcement) : a.rows.map Row.pfx = a.prefixes.keys := by
  rw [rows, List.map_map]
  rfl

theorem update_message (a : Announcement) {ip : String} {peer : Peer} (hip : ip ∈ peer.ips) :
    peer.update (a.message ip) = some ({ peer with inputRib := peer.inputRib ++ a.rows },
      a.rows.map fun row => .announce (reportedRow peer.inputRib row)) := by
  have hnot : ¬ (none : Option String) = some "down" := by simp
  rw [message, peer.update_announces hip, if_neg hnot, rows, List.map_map]
  rfl

end Announcement

def Peer.updateAll (peer : Peer) (msgs : List Message) : Option Peer :=
  msgs.foldlM (fun peer msg => (peer.update msg).map Prod.fst) peer

def writtenRows (l : List Announcement) : Rib := l.flatMap Announcement.rows

def announcedPrefixes (l : List Announcement) : List String := l.flatMap fun a => a.prefixes.keys

def latest (l : List Announcement) (p : String) : Option Row :=
  (l.filterMap fun a => a.row p).getLast?

theorem updateAll_announcements {ip : String} {peer : Peer} (hip : ip ∈ peer.ips)
    (l : List Announcement) : peer.updateAll (l.map fun a => a.message ip) =
      some { peer with inputRib := peer.inputRib ++ writtenRows l } := by
  induction l generalizing peer with
  | nil => exact congrArg (fun rib => some { peer with inputRib := rib }) (List.append_nil _).symm
  | cons a l ih =>
    rw [List.map_cons, Peer.updateAll, List.foldlM_cons, a.update_message hip]
    have hrest : ip ∈ ({ peer with inputRib := peer.inputRib ++ a.rows } : Peer).ips := hip
    refine (ih hrest).trans ?_
    rw [List.append_assoc, writtenRows, writtenRows, List.flatMap_cons]

theorem map_pfx_writtenRows (l : List Announcement) :
    (writtenRows l).map Row.pfx = announcedPrefixes l := by
  rw [writtenRows, List.map_flatMap, announcedPrefixes]
  exact List.flatMap_congr fun a _ => a.map_pfx_rows

theorem getAll_writtenRows (l : List Announcement) (p : String) :
    (writtenRows l).getAll p = l.filterMap fun a => a.row p := by
  induction l with
  | nil => rfl
  | cons a l ih =>
    rw [writtenRows, List.flatMap_cons, Rib.getAll, List.filter_append, ← Rib.getAll, ← Rib.getAll,
      ← writtenRows, ih, a.getAll_rows, List.filterMap_cons]
    cases a.row p <;> rfl

theorem Rib.count_pfx (rib : Rib) (p : String) : (rib.map Row.pfx).count p = (rib.getAll p).length := by
  rw [List.count, List.countP_map, List.countP_eq_length_filter, getAll]
  rfl

/-- What the latest of the announcements is to leave: for every prefix announced so far the row
of its latest announcement and no other, and the rows just announced as items. -/
structure Replaced (l : List Announcement) (a : Announcement) (peer : Peer)
    (items : List RouteItem) : Prop where
  rows : ∀ p ∈ announcedPrefixes (l ++ [a]), ∃ row, latest (l ++ [a]) p = some row ∧
    peer.inputRib.getAll p = [row]
  items : items = a.rows.map .announce

def Replaces (ips : List String) (ip : String) (l : List Announcement) : Prop :=
  ∀ before a after, l = before ++ a :: after → ∃ peer peer' items,
    (Peer.init ips).updateAll (before.map fun a => a.message ip) = some peer ∧
    peer.update (a.message ip) = some (peer', items) ∧ Replaced before a peer' items

section runs
variable {ips : List String} {ip : String} (hip : ip ∈ ips) {l : List Announcement}
include hip

theorem update_after (before : List Announcement) (a : Announcement) : ∃ peer,
    (Peer.init ips).updateAll (before.map fun a => a.message ip) = some peer ∧
    peer.update (a.message ip) = some ({ peer with inputRib := writtenRows (before ++ [a]) },
      a.rows.map fun row => .announce (reportedRow (writtenRows before) row)) := by
  have hinit : ip ∈ (Peer.init ips).ips := hip
  refine ⟨_, updateAll_announcements hinit before, (a.update_message hip).trans ?_⟩
  have hrows : writtenRows before ++ a.rows = writtenRows (before ++ [a]) := by
    rw [writtenRows, writtenRows, List.flatMap_append, List.flatMap_singleton]
  simp only [Peer.init, List.nil_append, hrows]

theorem nodup_of_replaces (h : Replaces ips ip l) : (announcedPrefixes l).Nodup := by
  rw [List.nodup_iff_count_le_one]
  intro p
  rcases List.eq_nil_or_concat l with rfl | ⟨before, a, rfl⟩
  · exact Nat.zero_le 1
  · rw [List.concat_eq_append] at h ⊢
    by_cases hp : p ∈ announcedPrefixes (before ++ [a])
    · obtain ⟨peer, peer', items, hbefore, hupdate, hreplaced⟩ := h before a [] rfl
      obtain ⟨_, hbefore', hupdate'⟩ := update_after hip before a
      obtain rfl := Option.some.inj (hbefore.symm.trans hbefore')
      obtain ⟨rfl, -⟩ := Prod.mk.inj (Option.some.inj (hupdate.symm.trans hupdate'))
      obtain ⟨row, -, hget⟩ := hreplaced.rows p hp
      rw [← map_pfx_writtenRows, Rib.count_pfx, hget, List.length_singleton]
    · rw [List.count_eq_zero_of_not_mem hp]
      exact Nat.zero_le 1

theorem replaces_of_nodup (h : (announcedPrefixes l).Nodup) : Replaces ips ip l := by
  rintro before a after rfl
  obtain ⟨peer, hbefore, hupdate⟩ := update_after hip before a
  have hsplit : announcedPrefixes (before ++ a :: after) =
      announcedPrefixes (before ++ [a]) ++ announcedPrefixes after := by
    rw [announcedPrefixes, announcedPrefixes, announcedPrefixes, ← List.flatMap_append,
      List.append_assoc, List.singleton_append]
  have hnodup : (announcedPrefixes (before ++ [a])).Nodup :=
    (List.nodup_append.mp (hsplit ▸ h)).1
  refine ⟨peer, _, _, hbefore, hupdate, fun p hp => ?_, ?_⟩
  · -- a prefix that was announced once has one row
    have hone := List.count_eq_one_of_mem hnodup hp
    rw [← map_pfx_writtenRows, Rib.count_pfx, List.length_eq_one_iff] at hone
    obtain ⟨row, hrow⟩ := hone
    refine ⟨row, ?_, hrow⟩
    rw [latest, ← getAll_writtenRows, hrow, List.getLast?_singleton]
  · -- no row of these prefixes was there before
    refine List.map_congr_left fun row hrow => congrArg RouteItem.announce ?_
    have hkeys : announcedPrefixes (before ++ [a]) = announcedPrefixes before ++ a.prefixes.keys := by
      rw [announcedPrefixes, announcedPrefixes, List.flatMap_append, List.flatMap_singleton]
    have hnot : row.pfx ∉ announcedPrefixes before := fun hbefore =>
      (List.nodup_append.mp (hkeys ▸ hnodup)).2.2 _ hbefore _
        (a.map_pfx_rows ▸ List.mem_map_of_mem hrow) rfl
    have hnone : (writtenRows before).get row.pfx = none := by
      rw [Rib.get_eq_none, ← List.length_eq_zero_iff, ← Rib.count_pfx, map_pfx_writtenRows]
      exact List.count_eq_zero_of_not_mem hnot
    rw [reportedRow, hnone, Option.getD_none]

/-- The latest announcements replace the earlier ones exactly if no prefix is announced twice. -/
theorem replaces_iff (l : List Announcement) :
    Replaces ips ip l ↔ (announcedPrefixes l).Nodup :=
  ⟨nodup_of_replaces hip, replaces_of_nodup hip⟩

end runs

def announceMed (pfx : String) (med : ℤ) : Announcement :=
  ⟨⟨some "igp", some [.seq [100], .seq []], some med, some false⟩, .single pfx "172.0.0.1"⟩

theorem replaces_iff_announceMed :
    (Replaces ["172.0.0.1"] "172.0.0.1" [announceMed "10.0.0.0/8" 0, announceMed "20.0.0.0/8" 10] ↔
      (announcedPrefixes [announceMed "10.0.0.0/8" 0, announceMed "20.0.0.0/8" 10]).Nodup) ∧
    (announcedPrefixes [announceMed "10.0.0.0/8" 0, announceMed "20.0.0.0/8" 10]).Nodup ∧
    (Replaces ["172.0.0.1"] "172.0.0.1" [announceMed "10.0.0.0/8" 0, announceMed "10.0.0.0/8" 10] ↔
      (announcedPrefixes [announceMed "10.0.0.0/8" 0, announceMed "10.0.0.0/8" 10]).Nodup) :=
  ⟨replaces_iff (List.mem_singleton_self _) _, by decide,
    replaces_iff (List.mem_singleton_self _) _⟩

theorem replaces_announceMed_stale : "172.0.0.1" ∈ ["172.0.0.1"] ∧
    ¬ Replaces ["172.0.0.1"] "172.0.0.1" [announceMed "10.0.0.0/8" 0, announceMed "10.0.0.0/8" 10] := by
  refine ⟨List.mem_singleton_self _, fun h => ?_⟩
  have hnodup := nodup_of_replaces (List.mem_singleton_self _) h
  revert hnodup
  decide

end Hispar.Bgp
