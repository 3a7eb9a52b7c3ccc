import Hispar.Bgp.Announcements
import Hispar.Bgp.Commands
import Hispar.Bgp.Ties

/-!
# Iterations of the route server

An iteration takes a message, and lets the policies be updated before it queues
the announcements, so these are made with other tables than the withdrawals. It
raises where two routes with an empty AS path have to be compared, and where a
withdrawn route is looked up that the table did not have.
-/
namespace Hispar.Bgp
open Library SetOperations VnhAssignment

structure Server where
  participants : Participants
  queue : List Command

def Server.init (participantsPortsList : PortsList) : Server :=
  ⟨routeServer participantsPortsList, []⟩

/-- What an iteration is given: a message, the tables in which withdrawn prefixes are looked
up, and the tables that the triggered update leaves. -/
structure Turn where
  message : Message
  before : SDX String
  after : SDX String

def iterate (hα : Hashing String) (st : Server) (turn : Turn) : Option Server :=
  (processMessage st.participants turn.message).bind fun out =>
    (out.2.foldlM (withdrawCommand hα turn.before) st.queue).bind fun queue =>
      ((vnhPrefixes hα turn.after).foldlM (announceCommand turn.after out.1) queue).map fun queue =>
        ⟨out.1, queue⟩

theorem iterate_eq_serve (hα : Hashing String) (st : Server) (route : Message) (sdx : SDX String) :
    iterate hα st ⟨route, sdx, sdx⟩ = (serve hα sdx (st.participants, st.queue) route).map fun out =>
      ⟨out.1, out.2⟩ := by
  rw [iterate, serve, Option.map_bind]
  refine congrArg (Option.bind _) (funext fun out => ?_)
  rw [Function.comp_apply, Option.map_bind]
  refine congrArg (Option.bind _) (funext fun queue => ?_)
  rw [Function.comp_apply, Option.map_map]
  rfl

def receiver (s : Participants) (n : Neighbor) : Option String :=
  s.keys.find? fun name => n.isFrom (ipsOf s name)

/-- A route with an empty AS path is announced, and someone else has one from others already. -/
def Meets (s : Participants) (msg : Message) : Prop :=
  ∃ n u a announce q, msg.neighbor = some n ∧ n.update = some u ∧ u.attrs = some a ∧
    u.announce = some ⟨some announce⟩ ∧ receiver s n = some q ∧
    aspathLength (asPathText (a.asPath.getD [])) = 0 ∧
    ∃ p ∈ announce.keys, ∃ X ∈ s.keys, X ≠ q ∧ ∃ Y ∈ s.keys, Y ≠ X ∧
      ∃ r ∈ inputOf s Y, r.pfx = p ∧ aspathLength r.asPath = 0

def Lost (s : Participants) (msg : Message) : Prop :=
  ∃ n u withdraw q, msg.neighbor = some n ∧ n.update = some u ∧ u.announce = none ∧
    u.withdraw = some ⟨some withdraw⟩ ∧ receiver s n = some q ∧
    ∃ p ∈ withdraw.keys, ∀ r ∈ inputOf s q, r.pfx ≠ p

/-- Withdrawn prefixes are looked up only where there are virtual next hops. -/
structure Handled (st : Server) (turn : Turn) : Prop where
  apart : ¬ Meets st.participants turn.message
  known : Lost st.participants turn.message → turn.before.vnh2pfx.keys = []

def Addressed (sdx : SDX String) : Prop := ∀ v ∈ sdx.vnh2pfx.keys, v ∈ sdx.vnh2IP.keys

section tables
variable {hα : Hashing String} {sdx sdx' : SDX String}

end tables

section queue
variable {hα : Hashing String} {sdx : SDX String} {s : Participants}

end queue

section messages
variable {msg : Message} {n : Neighbor} {u : Update} {s : Participants}

structure Ends (s : Participants) (msg : Message) (completes lost : Prop) : Prop where
  completes : (∃ out, processMessage s msg = some out) ↔ completes
  untied : ∀ out, processMessage s msg = some out → Untied out.1
  lost : ∀ out, processMessage s msg = some out → (.withdraw none ∈ out.2 ↔ lost)

section taken
variable {q : String} {peer peer' : Peer} {items : List RouteItem}

structure StoredRows (a : Announcement) (q : String) (s s₁ : Participants) : Prop where
  keys : s₁.keys = s.keys
  receiver : q ∈ s.keys
  input : ∀ m, inputOf s₁ m = if m = q then inputOf s q ++ a.rows else inputOf s m

section storedRows
variable {a : Announcement} {s₁ : Participants}

theorem StoredRows.canonical (h : StoredRows a q s s₁) (hs : CanonicalRows s)
    (ha : ∀ kv ∈ a.prefixes.items, Canonical kv.2) : CanonicalRows s₁ := by
  intro m r hr
  rw [h.input] at hr
  split_ifs at hr
  · rcases List.mem_append.mp hr with hr | hr
    · exact hs q r hr
    · obtain ⟨kv, hkv, rfl⟩ := List.mem_map.mp hr
      exact ha kv hkv
  · exact hs m r hr

end storedRows

end taken

theorem Ends.congr {c c' l l' : Prop} (h : Ends s msg c l) (hc : c ↔ c') (hl : l ↔ l') :
    Ends s msg c' l' := by
  rwa [← propext hc, ← propext hl]

end messages

section runs
variable {hα : Hashing String} {st : Server} {turn : Turn} {ports : PortsList}

end runs

end Hispar.Bgp
