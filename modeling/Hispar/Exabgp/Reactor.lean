import Hispar.Exabgp.Convergence

/-!
# The loop over the commands

A line that was read becomes a generator, which changes the routes of one neighbor at a
time. Once the first of the generators has made a change, the others wait for the next
pass. When a generator has come to its end, the neighbors are told that there are routes
to be sent. Where nothing is left to do, each neighbor has the routes of the last commands.
-/
namespace Hispar.Exabgp
open Library

/-- What a generator does until it is suspended. -/
inductive Turn (E : Type*) where
  | insert (e : E)
  | idle
  | raise

/-- The turns that are left of a generator, and whether it asks for the routes to be sent. -/
structure Task (E : Type*) where
  turns : List (Turn E)
  wakes : Bool

/-- `run_pending`: what is left of the generators, what they inserted, and whether one asked for
the routes to be sent. -/
def runPending {E : Type*} : Bool → List (Task E) → Option (List (Task E) × List E × Bool)
  | _, [] => some ([], [], false)
  | false, gen :: pending => (runPending false pending).map fun r => (gen :: r.1, r.2)
  | true, gen :: pending =>
    match gen.turns with
    | [] => (runPending true pending).map fun r => (r.1, r.2.1, gen.wakes || r.2.2)
    | .raise :: _ => none
    | .idle :: turns => (runPending true pending).map fun r => ({ gen with turns } :: r.1, r.2)
    | .insert e :: turns => (runPending false pending).map fun r =>
        ({ gen with turns } :: r.1, e :: r.2.1, r.2.2)

structure Peer (κ φ ι A : Type*) where
  session : Session κ φ ι A
  haveRoutes : Bool

structure Reactor (κ φ ι A : Type*) where
  commands : List String
  pending : List (Task (String × Change κ A))
  routeUpdate : Bool
  peers : Dict String (Peer κ φ ι A)

def Reactor.init {κ φ ι A : Type*} (neighbors : Dict String Bool) : Reactor κ φ ι A :=
  ⟨[], [], false, neighbors.mapValues fun _ cache => ⟨.init cache, true⟩⟩

inductive Loop (κ ι A : Type*) where
  | schedule (received : List String)
  | runPending
  | routeUpdate
  | peer (name : String) (e : Event κ ι A)

variable {κ φ ι A : Type*} [DecidableEq κ] [DecidableEq φ] [DecidableEq ι]

section step
variable (family : κ → φ) (index : A → ι) (families : String → List φ) (grouped : String → Bool)
  (read : String → Option (Task (String × Change κ A)))

def Peer.step (families : List φ) (grouped : Bool) (p : Peer κ φ ι A) (e : Event κ ι A) :
    Option (Peer κ φ ι A) :=
  match e with
  | .command _ => (p.session.step family index families grouped e).map fun s => ⟨s, p.haveRoutes⟩
  | .resume _ _ =>
    -- a generator that has come to its end is made anew only where there are routes
    if p.session.updates.isSome ∨ p.haveRoutes = true then
      (p.session.step family index families grouped e).map fun s =>
        ⟨s, p.haveRoutes && p.session.updates.isSome⟩
    else none
  | .reset _ _ => (p.session.step family index families grouped e).map fun s => ⟨s, p.haveRoutes⟩
  | .establish _ => (p.session.step family index families grouped e).map fun s => ⟨s, true⟩

namespace Reactor

def peerStep (peers : Dict String (Peer κ φ ι A)) (e : String × Event κ ι A) :
    Option (Dict String (Peer κ φ ι A)) :=
  match peers.get? e.1 with
  | none => some peers
  | some p => (p.step family index (families e.1) (grouped e.1) e.2).map fun p => peers.set e.1 p

/-- One command is taken from the list at each call. -/
def schedule (r : Reactor κ φ ι A) (received : List String) : Reactor κ φ ι A :=
  match r.commands ++ received with
  | [] => r
  | command :: commands => { r with commands, pending := r.pending ++ (read command).toList }

def step (r : Reactor κ φ ι A) : Loop κ ι A → Option (Reactor κ φ ι A)
  | .schedule received => some (r.schedule read received)
  | .runPending => (Exabgp.runPending true r.pending).bind fun out =>
    (out.2.1.foldlM (fun peers e => peerStep family index families grouped peers (e.1, .command e.2))
      r.peers).map fun peers =>
        { r with pending := out.1, peers, routeUpdate := r.routeUpdate || out.2.2 }
  | .routeUpdate =>
    if r.routeUpdate then
      some { r with routeUpdate := false, peers := r.peers.mapValues fun _ p => ⟨p.session, true⟩ }
    else none
  | .peer _ (.command _) => none
  | .peer name e => (peerStep family index families grouped r.peers (name, e)).map fun peers =>
      { r with peers }

end Reactor
end step

section tasks
variable {E : Type*} {pending pending' : List (Task E)} {out : List E} {more woken : Bool}

def Turn.change : Turn E → Option E
  | .insert e => some e
  | _ => none

def Task.changes (t : Task E) : List E := t.turns.filterMap Turn.change

/-- A generator that changes something asks for the routes to be sent, and never lets another one
run before it has come to its end. -/
structure Task.Orderly (t : Task E) : Prop where
  wakes : t.changes ≠ [] → t.wakes = true
  idle : Turn.idle ∈ t.turns → t.changes = []

theorem runPending_false (pending : List (Task E)) : runPending false pending = some (pending, [], false) := by
  induction pending with
  | nil => rfl
  | cons gen pending ih => rw [runPending, ih, Option.map_some]

theorem runPending_spec (horderly : ∀ t ∈ pending, t.Orderly)
    (h : runPending true pending = some (pending', out, woken)) :
    out ++ pending'.flatMap Task.changes = pending.flatMap Task.changes ∧
    (∀ t ∈ pending', t.Orderly) ∧
    ((∃ t ∈ pending, t.wakes = true) → woken = true ∨ ∃ t ∈ pending', t.wakes = true) ∧
    (out ≠ [] → ∃ t ∈ pending', t.wakes = true) := by
  induction pending generalizing pending' out woken with
  | nil =>
    obtain ⟨rfl, rfl, rfl⟩ := by simpa [runPending] using h
    exact ⟨rfl, horderly, fun h => h.elim fun _ ht => absurd ht.1 List.not_mem_nil, fun h => absurd rfl h⟩
  | cons gen pending ih =>
    have hgen := horderly gen List.mem_cons_self
    have hrest : ∀ t ∈ pending, t.Orderly := fun t ht => horderly t (List.mem_cons_of_mem gen ht)
    obtain ⟨turns, wakes⟩ := gen
    cases turns with
    | nil =>
      simp only [runPending] at h
      obtain ⟨⟨pending₁, out₁, woken₁⟩, h₁, heq⟩ := Option.map_eq_some_iff.mp h
      obtain ⟨rfl, rfl, rfl⟩ : pending₁ = pending' ∧ out₁ = out ∧ (wakes || woken₁) = woken := by
        simpa using heq
      obtain ⟨hout, horderly', hwakes, hchanged⟩ := ih hrest h₁
      refine ⟨by rw [hout, List.flatMap_cons]; rfl, horderly', fun h => ?_, hchanged⟩
      obtain ⟨t, ht, hwake⟩ := h
      rcases List.mem_cons.mp ht with rfl | ht
      · exact Or.inl (Bool.or_eq_true_iff.mpr (Or.inl hwake))
      · exact (hwakes ⟨t, ht, hwake⟩).imp_left fun h => Bool.or_eq_true_iff.mpr (Or.inr h)
    | cons turn turns =>
      cases turn with
      | raise => cases h
      | idle =>
        simp only [runPending] at h
        obtain ⟨⟨pending₁, out₁, woken₁⟩, h₁, heq⟩ := Option.map_eq_some_iff.mp h
        obtain ⟨rfl, rfl, rfl⟩ : ⟨turns, wakes⟩ :: pending₁ = pending' ∧ out₁ = out ∧ woken₁ = woken := by
          simpa using heq
        obtain ⟨hout, horderly', hwakes, hchanged⟩ := ih hrest h₁
        -- a generator that lets others run has nothing to change
        have hnone : (Task.mk turns wakes).changes = [] := hgen.idle List.mem_cons_self
        refine ⟨?_, List.forall_mem_cons.mpr ⟨⟨fun h => absurd hnone h, fun _ => hnone⟩, horderly'⟩,
          fun h => ?_, fun h => ?_⟩
        · rw [List.flatMap_cons, List.flatMap_cons, hnone, List.nil_append, hout]
          exact (congrArg (· ++ _) (hgen.idle List.mem_cons_self)).symm
        · obtain ⟨t, ht, hwake⟩ := h
          rcases List.mem_cons.mp ht with rfl | ht
          · exact Or.inr ⟨_, List.mem_cons_self, hwake⟩
          · refine (hwakes ⟨t, ht, hwake⟩).imp_right fun h => ?_
            obtain ⟨t', ht', hwake'⟩ := h
            exact ⟨t', List.mem_cons_of_mem _ ht', hwake'⟩
        · obtain ⟨t, ht, hwake⟩ := hchanged h
          exact ⟨t, List.mem_cons_of_mem _ ht, hwake⟩
      | insert e =>
        simp only [runPending, runPending_false, Option.map_some] at h
        obtain ⟨rfl, rfl, rfl⟩ : ⟨turns, wakes⟩ :: pending = pending' ∧ [e] = out ∧ false = woken := by
          simpa using h
        have hwake : wakes = true := hgen.wakes (List.cons_ne_nil e _)
        have hnot : Turn.idle ∉ turns := fun h =>
          List.cons_ne_nil e _ (hgen.idle (List.mem_cons_of_mem _ h))
        refine ⟨rfl, List.forall_mem_cons.mpr ⟨⟨fun _ => hwake, fun h => absurd h hnot⟩, hrest⟩,
          fun _ => Or.inr ⟨_, List.mem_cons_self, hwake⟩, fun _ => ⟨_, List.mem_cons_self, hwake⟩⟩

end tasks

namespace Reactor
variable (family : κ → φ) (index : A → ι) (families : String → List φ) (grouped : String → Bool)
  (read : String → Option (Task (String × Change κ A))) (name : String)

def changesFor {κ A : Type*} (name : String) (changes : List (String × Change κ A)) : List (Change κ A) :=
  changes.filterMap fun e => if e.1 = name then some e.2 else none

def commandChanges (line : String) : List (String × Change κ A) := (read line).toList.flatMap Task.changes

def received (events : List (Loop κ ι A)) : List String :=
  events.flatMap fun
    | .schedule received => received
    | _ => []

def sayChanges (families : List φ) (changes : List (Change κ A)) : κ → Option ι :=
  changes.foldl (fun told c => Session.say family index families told (.command c)) fun _ => none

def sessionEvents (r : Reactor κ φ ι A) : Loop κ ι A → List (Event κ ι A)
  | .runPending => ((Exabgp.runPending true r.pending).map fun out =>
      (changesFor name out.2.1).map Event.command).getD []
  | .peer n e => if n = name then [e] else []
  | _ => []

def Keeps : Reactor κ φ ι A → List (Loop κ ι A) → Prop
  | _, [] => True
  | r, e :: events =>
    (∀ p, r.peers.get? name = some p →
      p.session.Lossless family index (families name) (grouped name) (r.sessionEvents name e)) ∧
    ∀ r', r.step family index families grouped read e = some r' → Keeps r' events

/-- The changes of the lines were made in their order, or are going to be; and if not all of them are
before a pass, someone is going to ask for another. -/
structure Follows (lines : List String) (r : Reactor κ φ ι A) : Prop where
  orderly : ∀ t ∈ r.pending, t.Orderly
  told : ∃ inserted p, r.peers.get? name = some p ∧
    inserted ++ (changesFor name (r.pending.flatMap Task.changes) ++
        changesFor name (r.commands.flatMap (commandChanges read))) =
      changesFor name (lines.flatMap (commandChanges read)) ∧
    p.session.Tracks family index (families name) (sayChanges family index (families name) inserted) ∧
    (p.session.up = true → (∃ t ∈ r.pending, t.wakes = true) ∨ r.routeUpdate = true ∨
      p.haveRoutes = true ∨ p.session.Ready family index)

variable {family : κ → φ} {index : A → ι} {families : String → List φ} {grouped : String → Bool}
  {read : String → Option (Task (String × Change κ A))} {name : String} {lines : List String}
  {r r' : Reactor κ φ ι A} {peers peers' : Dict String (Peer κ φ ι A)} {p : Peer κ φ ι A}
  {out : List (String × Change κ A)}

theorem changesFor_append {κ A : Type*} {name : String} (l m : List (String × Change κ A)) :
    changesFor name (l ++ m) = changesFor name l ++ changesFor name m := List.filterMap_append

theorem peerStep_self {e : Event κ ι A} (hp : peers.get? name = some p)
    (h : peerStep family index families grouped peers (name, e) = some peers') :
    ∃ p', p.step family index (families name) (grouped name) e = some p' ∧
      peers'.get? name = some p' := by
  simp only [peerStep, hp] at h
  obtain ⟨p', hp', rfl⟩ := Option.map_eq_some_iff.mp h
  exact ⟨p', hp', Dict.get?_set_self _ _ _⟩

theorem peerStep_other {n : String} {e : Event κ ι A} (hn : n ≠ name)
    (h : peerStep family index families grouped peers (n, e) = some peers') :
    peers'.get? name = peers.get? name := by
  rw [peerStep] at h
  split at h
  · rw [Option.some.inj h]
  · obtain ⟨p', -, rfl⟩ := Option.map_eq_some_iff.mp h
    exact Dict.get?_set_of_ne _ _ hn.symm

theorem inserts_spec (hp : peers.get? name = some p)
    (h : out.foldlM (fun peers e => peerStep family index families grouped peers (e.1, .command e.2))
      peers = some peers') :
    ∃ s, ((changesFor name out).map Event.command).foldlM
        (Session.step family index (families name) (grouped name)) p.session = some s ∧
      peers'.get? name = some ⟨s, p.haveRoutes⟩ := by
  induction out generalizing peers p with
  | nil =>
    obtain rfl := Option.some.inj h
    exact ⟨p.session, rfl, hp⟩
  | cons e out ih =>
    rw [List.foldlM_cons] at h
    obtain ⟨peers₁, h₁, hrest⟩ := Option.bind_eq_some_iff.mp h
    obtain ⟨n, c⟩ := e
    by_cases hn : n = name
    · subst hn
      obtain ⟨p₁, hstep, hp₁⟩ := peerStep_self hp h₁
      obtain ⟨s₁, hs₁, rfl⟩ := Option.map_eq_some_iff.mp hstep
      obtain ⟨s, hs, hpeers⟩ := ih hp₁ hrest
      refine ⟨s, ?_, hpeers⟩
      simp only [changesFor, List.filterMap_cons, if_true, List.map_cons, List.foldlM_cons, hs₁]
      exact hs
    · obtain ⟨s, hs, hpeers⟩ := ih ((peerStep_other hn h₁).trans hp) hrest
      refine ⟨s, ?_, hpeers⟩
      simp only [changesFor, List.filterMap_cons, if_neg hn]
      exact hs

theorem Follows.schedule (hread : ∀ line task, read line = some task → task.Orderly)
    (hr : Follows family index families read name lines r) (ls : List String) :
    Follows family index families read name (lines ++ ls) (r.schedule read ls) := by
  obtain ⟨inserted, p, hp, htold, htracks, hawake⟩ := hr.told
  rw [Reactor.schedule]
  split
  · rename_i hnil
    obtain ⟨-, rfl⟩ := List.append_eq_nil_iff.mp hnil
    rw [List.append_nil]
    exact hr
  · rename_i command commands hcons
    refine ⟨fun t ht => ?_, inserted, p, hp, ?_, htracks, fun hup => ?_⟩
    · rcases List.mem_append.mp ht with ht | ht
      · exact hr.orderly t ht
      · exact hread command t (Option.mem_toList.mp ht)
    · have hchanges : r.commands.flatMap (commandChanges read) ++ ls.flatMap (commandChanges read) =
          (read command).toList.flatMap Task.changes ++ commands.flatMap (commandChanges read) := by
        rw [← List.flatMap_append, hcons, List.flatMap_cons, commandChanges]
      rw [List.flatMap_append, List.flatMap_append, changesFor_append, changesFor_append, ← htold,
        List.append_assoc, List.append_assoc, List.append_assoc, ← changesFor_append (r.commands.flatMap _),
        hchanges, changesFor_append]
    · refine (hawake hup).imp_left fun h => ?_
      obtain ⟨t, ht, hwake⟩ := h
      exact ⟨t, List.mem_append_left _ ht, hwake⟩

theorem sayChanges_append {κ φ ι A : Type*} [DecidableEq κ] [DecidableEq φ] {family : κ → φ}
    {index : A → ι} (families : List φ) (changes more : List (Change κ A)) :
    sayChanges family index families (changes ++ more) =
      (more.map Event.command).foldl (Session.say family index families)
        (sayChanges family index families changes) := by
  rw [sayChanges, List.foldl_append, List.foldl_map, sayChanges]

theorem Follows.runPending (hr : Follows family index families read name lines r)
    (hkeeps : ∀ p, r.peers.get? name = some p →
      p.session.Lossless family index (families name) (grouped name) (r.sessionEvents name .runPending))
    (h : r.step family index families grouped read .runPending = some r') :
    Follows family index families read name lines r' := by
  obtain ⟨inserted, p, hp, htold, htracks, hawake⟩ := hr.told
  obtain ⟨⟨pending, out, woken⟩, hpending, h⟩ := Option.bind_eq_some_iff.mp h
  obtain ⟨peers, hpeers, rfl⟩ := Option.map_eq_some_iff.mp h
  obtain ⟨hout, horderly, hwakes, hchanged⟩ := runPending_spec hr.orderly hpending
  obtain ⟨s, hs, hget⟩ := inserts_spec hp hpeers
  have hlossless := hkeeps p hp
  simp only [sessionEvents, hpending, Option.map_some, Option.getD_some] at hlossless
  refine ⟨horderly, inserted ++ changesFor name out, ⟨s, p.haveRoutes⟩, hget, ?_, ?_, fun hup => ?_⟩
  · rw [← htold, ← hout, changesFor_append, List.append_assoc, List.append_assoc]
  · rw [sayChanges_append]
    exact htracks.run hlossless hs
  · by_cases hnone : changesFor name out = []
    · rw [hnone] at hs
      obtain rfl := Option.some.inj hs
      rcases hawake hup with hawake | hawake | hawake
      · rcases hwakes hawake with hwoken | hwake
        · exact Or.inr (Or.inl (Bool.or_eq_true_iff.mpr (Or.inr hwoken)))
        · exact Or.inl hwake
      · exact Or.inr (Or.inl (Bool.or_eq_true_iff.mpr (Or.inl hawake)))
      · exact Or.inr (Or.inr hawake)
    · exact Or.inl (hchanged fun hnil => hnone (by rw [hnil]; rfl))

theorem Follows.routeUpdate (hr : Follows family index families read name lines r)
    (h : r.step family index families grouped read .routeUpdate = some r') :
    Follows family index families read name lines r' := by
  obtain ⟨inserted, p, hp, htold, htracks, -⟩ := hr.told
  rw [Reactor.step] at h
  split_ifs at h
  obtain rfl := Option.some.inj h
  refine ⟨hr.orderly, inserted, ⟨p.session, true⟩, ?_, htold, htracks, fun _ =>
    Or.inr (Or.inr (Or.inl rfl))⟩
  rw [Dict.get?_mapValues, hp, Option.map_some]

theorem Peer.step_tracks {families : List φ} {grouped : Bool} {W : Prop} {told : κ → Option ι} {e : Event κ ι A}
    {p' : Peer κ φ ι A} (hs : p.session.Tracks family index families told)
    (hcommand : ∀ c, e ≠ .command c) (hkeeps : ¬ p.session.Loses family index e)
    (hstep : p.step family index families grouped e = some p')
    (hawake : p.session.up = true → W ∨ p.haveRoutes = true ∨ p.session.Ready family index) :
    p'.session.Tracks family index families told ∧
      (p'.session.up = true → W ∨ p'.haveRoutes = true ∨ p'.session.Ready family index) := by
  cases e with
  | command c => exact absurd rfl (hcommand c)
  | resume hι hκ =>
    simp only [Peer.step] at hstep
    split_ifs at hstep
    obtain ⟨s, hs', rfl⟩ := Option.map_eq_some_iff.mp hstep
    refine ⟨hs.step hs' hkeeps, fun hup' => ?_⟩
    have hup : p.session.up = true := by
      cases hup : p.session.up with
      | true => rfl
      | false =>
        rw [Session.step, hup, if_neg Bool.false_ne_true] at hs'
        cases hs'
    obtain ⟨-, -, hready, -⟩ := hs.progress hup hs'
    cases hu : p.session.updates with
    | none => exact Or.inr (Or.inr (hready (Or.inl hu)))
    | some updates =>
      rw [Option.isSome_some, Bool.and_true]
      exact (hawake hup).imp_right fun h => h.imp_right fun h => hready (Or.inr h)
  | reset hι hκ =>
    obtain ⟨s, hs', rfl⟩ := Option.map_eq_some_iff.mp hstep
    refine ⟨hs.step hs' hkeeps, fun hup => ?_⟩
    obtain ⟨store, -, rfl⟩ := Option.map_eq_some_iff.mp hs'
    exact absurd hup Bool.false_ne_true
  | establish hκ =>
    obtain ⟨s, hs', rfl⟩ := Option.map_eq_some_iff.mp hstep
    exact ⟨hs.step hs' hkeeps, fun _ => Or.inr (Or.inl rfl)⟩

theorem Follows.peer {n : String} {e : Event κ ι A}
    (hr : Follows family index families read name lines r)
    (hkeeps : ∀ p, r.peers.get? name = some p →
      p.session.Lossless family index (families name) (grouped name) (r.sessionEvents name (.peer n e)))
    (h : r.step family index families grouped read (.peer n e) = some r') :
    Follows family index families read name lines r' := by
  obtain ⟨inserted, p, hp, htold, htracks, hawake⟩ := hr.told
  have hcommand : ∀ c, e ≠ .command c := by
    rintro c rfl
    cases h
  obtain ⟨peers, hpeers, rfl⟩ : ∃ peers, peerStep family index families grouped r.peers (n, e) = some peers ∧
      { r with peers } = r' := by
    cases e with
    | command c => exact absurd rfl (hcommand c)
    | resume hι hκ => exact Option.map_eq_some_iff.mp h
    | reset hι hκ => exact Option.map_eq_some_iff.mp h
    | establish hκ => exact Option.map_eq_some_iff.mp h
  by_cases hn : n = name
  · subst hn
    obtain ⟨p', hstep, hp'⟩ := peerStep_self hp hpeers
    have hlossless := hkeeps p hp
    simp only [sessionEvents, if_true] at hlossless
    obtain ⟨htracks', hawake'⟩ := Peer.step_tracks htracks hcommand hlossless.1 hstep
      fun hup => or_assoc.mpr (hawake hup)
    exact ⟨hr.orderly, inserted, p', hp', htold, htracks', fun hup => or_assoc.mp (hawake' hup)⟩
  · exact ⟨hr.orderly, inserted, p, (peerStep_other hn hpeers).trans hp, htold, htracks, hawake⟩

theorem Follows.run (hread : ∀ line task, read line = some task → task.Orderly) {events : List (Loop κ ι A)}
    (hr : Follows family index families read name lines r)
    (hkeeps : Keeps family index families grouped read name r events)
    (hrun : events.foldlM (step family index families grouped read) r = some r') :
    Follows family index families read name (lines ++ received events) r' := by
  induction events generalizing lines r with
  | nil =>
    obtain rfl := Option.some.inj hrun
    exact (List.append_nil lines).symm ▸ hr
  | cons e events ih =>
    rw [List.foldlM_cons] at hrun
    obtain ⟨r₁, h₁, hrest⟩ := Option.bind_eq_some_iff.mp hrun
    have hkeeps₁ := hkeeps.2 r₁ h₁
    cases e with
    | schedule ls =>
      obtain rfl := Option.some.inj h₁
      have h := ih (hr.schedule hread ls) hkeeps₁ hrest
      rwa [List.append_assoc] at h
    | runPending => exact ih (hr.runPending hkeeps.1 h₁) hkeeps₁ hrest
    | routeUpdate => exact ih (hr.routeUpdate h₁) hkeeps₁ hrest
    | peer n e => exact ih (hr.peer hkeeps.1 h₁) hkeeps₁ hrest

theorem Keeps.cons {e : Loop κ ι A} {events : List (Loop κ ι A)}
    (hkeeps : ∀ p, r.peers.get? name = some p →
      p.session.Lossless family index (families name) (grouped name) (r.sessionEvents name e))
    (hstep : r.step family index families grouped read e = some r')
    (h : Keeps family index families grouped read name r' events) :
    Keeps family index families grouped read name r (e :: events) :=
  ⟨hkeeps, fun t ht => by rwa [Option.some.inj (hstep.symm.trans ht)] at h⟩

end Reactor

end Hispar.Exabgp
