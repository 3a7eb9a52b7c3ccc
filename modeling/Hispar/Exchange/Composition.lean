import Hispar.Exchange.Config
import Hispar.Library.PacketPolicy

/-!
# Composition of the participants' policies

The state of a packet says where it is: at the entrance of a participant, or at
one of the exits. Two rounds run every packet through the policies of all
participants in parallel, of which each sees the packets at its own entrance.
-/
namespace Hispar.Exchange
open Library PacketPolicy

/-- A packet, by the fields that the composition reads and writes, and its header. -/
structure Packet (ρ : Type*) where
  inport : Option ℕ
  outport : Option ℕ
  state : Option String
  header : ρ
  deriving DecidableEq

section compose
variable {ρ : Type*} [DecidableEq ρ]

def matchState (v : String) : PacketPolicy (Packet ρ) := filter fun pkt => pkt.state = some v

def matchInport (id : ℕ) : PacketPolicy (Packet ρ) := filter fun pkt => pkt.inport = some id

def modifyState (v : Option String) : PacketPolicy (Packet ρ) :=
  modify fun pkt => { pkt with state := v }

def fwd (id : ℕ) : PacketPolicy (Packet ρ) := modify fun pkt => { pkt with outport := some id }

variable (sdx : SDX) (policies : SDXParticipant → PacketPolicy (Packet ρ))

def matchAllOutputVar : PacketPolicy (Packet ρ) :=
  sdx.outVarToPort.keys.foldl (fun all v => union all (matchState v)) drop

def sdxRestrictState (participant : SDXParticipant) : Option (PacketPolicy (Packet ρ)) :=
  (sdx.participantIdToInVar.get? participant.id).map fun v =>
    ifThenElse (matchAllOutputVar sdx) passthrough (andThen (matchState v) (policies participant))

def sdxPreprocessing : Option (PacketPolicy (Packet ρ)) :=
  ((sdx.participants.values.flatMap fun participant =>
    participant.physPorts.map fun port => (participant, port)).mapM fun pp =>
      (sdx.participantIdToInVar.get? pp.1.id).map fun v =>
        andThen (matchInport pp.2.id) (modifyState (some v))).map parallel

def sdxPostprocessing : PacketPolicy (Packet ρ) :=
  parallel (sdx.outVarToPort.items.map fun kv =>
    andThen (andThen (matchState kv.1) (modifyState none)) (fwd kv.2.id))

def sdxParticipantPolicies : Option (PacketPolicy (Packet ρ)) :=
  [0, 1].foldlM (fun sdxPolicy _ =>
    (sdx.participants.values.mapM (sdxRestrictState sdx policies)).map fun ps =>
      sequential [sdxPolicy, parallel ps]) passthrough

def simpleCompose : Option (PacketPolicy (Packet ρ)) :=
  sdxPreprocessing sdx |>.bind fun pre => (sdxParticipantPolicies sdx policies).map fun pol =>
    andThen (andThen pre pol) (sdxPostprocessing sdx)

end compose

def sdxOf (upper : String → String) (participants : List SDXParticipant) : SDX :=
  participants.foldl (fun sdx participant => addParticipant upper sdx participant participant.id)
    SDX.init

section twoHop
variable {ρ : Type*} [DecidableEq ρ] (upper : String → String) (participants : List SDXParticipant)
  (policies : SDXParticipant → PacketPolicy (Packet ρ))

def exits : List (String × PhysicalPort) := participants.flatMap fun participant =>
  participant.physPorts.zipIdx.map fun port => (outVar upper participant.id port.2, port.1)

def exitOf (state : Option String) : Option PhysicalPort :=
  ((exits upper participants).find? fun e => state = some e.1).map Prod.snd

def entered (pkt : Packet ρ) : Finset (Packet ρ) :=
  match participants.find? fun B => pkt.state = some (inVar upper B.id) with
  | some B => policies B pkt
  | none => ∅

def secondHop (pkt : Packet ρ) : Finset (Packet ρ) :=
  match exitOf upper participants pkt.state with
  | some _ => {pkt}
  | none => entered upper participants policies pkt

def leave (pkt : Packet ρ) : Finset (Packet ρ) :=
  match exitOf upper participants pkt.state with
  | some port => {{ pkt with state := none, outport := some port.id }}
  | none => ∅

def origin (inport : Option ℕ) : Option SDXParticipant :=
  participants.find? fun A => A.physPorts.any fun port => inport = some port.id

/-- What the exchange is for: the sender's policy, the receiver's policy, an exit. -/
def twoHop (pkt : Packet ρ) : Finset (Packet ρ) :=
  match origin participants pkt.inport with
  | some A => ((policies A { pkt with state := some (inVar upper A.id) }).biUnion
      (secondHop upper participants policies)).biUnion (leave upper participants)
  | none => ∅

end twoHop

section maps
variable {upper : String → String} {participants : List SDXParticipant}

theorem sdxOf_fold (upper : String → String) (participants : List SDXParticipant) (sdx : SDX) :
    let sdx' := participants.foldl
      (fun sdx participant => addParticipant upper sdx participant participant.id) sdx
    sdx'.participants = (participants.map fun P => (P.id, P)).foldl
        (fun d kv => d.set kv.1 kv.2) sdx.participants ∧
      sdx'.participantIdToInVar = (participants.map fun P => (P.id, inVar upper P.id)).foldl
        (fun d kv => d.set kv.1 kv.2) sdx.participantIdToInVar ∧
      sdx'.outVarToPort = (exits upper participants).foldl
        (fun d kv => d.set kv.1 kv.2) sdx.outVarToPort := by
  induction participants generalizing sdx with
  | nil => exact ⟨rfl, rfl, rfl⟩
  | cons P participants ih =>
    obtain ⟨hpart, hin, hout⟩ := ih (addParticipant upper sdx P P.id)
    obtain ⟨hpart', -, hin', hout'⟩ := addPorts_fold upper { sdx with
      participants := sdx.participants.set P.id P
      participantIdToInVar := sdx.participantIdToInVar.set P.id (inVar upper P.id) }
      P P.physPorts.zipIdx
    refine ⟨hpart.trans ?_, hin.trans ?_, hout.trans ?_⟩
    · rw [addParticipant, hpart']
      rfl
    · rw [addParticipant, hin']
      rfl
    · rw [addParticipant, hout', ← List.foldl_append]
      rfl

theorem append_cons_injective {α : Type*} {x : α} {l m a b : List α} (ha : x ∉ a) (hb : x ∉ b)
    (h : l ++ x :: a = m ++ x :: b) : l = m ∧ a = b := by
  rcases List.append_eq_append_iff.mp h with ⟨c, hm, hc⟩ | ⟨c, hl, hc⟩
  · cases c with
    | nil => exact ⟨by rw [hm, List.append_nil], (List.cons.inj hc).2⟩
    | cons y c =>
      have hx : x ∈ c ++ x :: b := List.mem_append_right c List.mem_cons_self
      exact absurd ((List.cons.inj hc).2 ▸ hx) ha
  · cases c with
    | nil => exact ⟨by rw [hl, List.append_nil], (List.cons.inj hc).2.symm⟩
    | cons y c =>
      have hx : x ∈ c ++ x :: a := List.mem_append_right c List.mem_cons_self
      exact absurd ((List.cons.inj hc).2 ▸ hx) hb

theorem outVar_injective {P Q : String} {i j : ℕ} (h : outVar upper P i = outVar upper Q j) :
    upper P = upper Q ∧ i = j := by
  have hdigit : ∀ n : ℕ, '_' ∉ (toString n).toList := by
    intro n hn
    rw [Nat.toString_eq_repr, Nat.toList_repr] at hn
    exact absurd (Nat.isDigit_of_mem_toDigits (by norm_num) (by norm_num) hn) (by decide)
  have h := congrArg String.toList h
  simp only [outVar, String.toList_append, List.append_assoc] at h
  have h := List.append_cancel_left h
  obtain ⟨hname, hnum⟩ := append_cons_injective (hdigit i) (hdigit j) h
  exact ⟨String.toList_injective hname, Nat.repr_inj.mp (String.toList_injective hnum)⟩

theorem inVar_injective {P Q : String} (h : inVar upper P = inVar upper Q) : upper P = upper Q := by
  have h := congrArg String.toList h
  simp only [inVar, String.toList_append] at h
  exact String.toList_injective (List.append_cancel_left h)

theorem inVar_ne_outVar (P Q : String) (i : ℕ) : inVar upper P ≠ outVar upper Q i := by
  intro h
  have h := congrArg (fun s => s.toList.head?) h
  simp [inVar, outVar] at h

theorem mem_exits {e : String × PhysicalPort} : e ∈ exits upper participants ↔
    ∃ P ∈ participants, ∃ i, (e.2, i) ∈ P.physPorts.zipIdx ∧ e.1 = outVar upper P.id i := by
  simp only [exits, List.mem_flatMap, List.mem_map]
  constructor
  · rintro ⟨P, hP, ⟨port, i⟩, hport, rfl⟩
    exact ⟨P, hP, i, hport, rfl⟩
  · rintro ⟨P, hP, i, hport, he⟩
    exact ⟨P, hP, (e.2, i), hport, Prod.ext he.symm rfl⟩

theorem exitVars_nodup (upper : String → String) (P : String) (ports : List PhysicalPort) :
    ((ports.zipIdx.map fun port => (outVar upper P port.2, port.1)).map Prod.fst).Nodup := by
  have hidx : (ports.zipIdx.map Prod.snd).Nodup := by
    rw [List.zipIdx_map_snd]
    exact List.nodup_range'
  have hmap := hidx.map (f := outVar upper P) fun i j h => (outVar_injective h).2
  rw [List.map_map] at hmap ⊢
  exact hmap

variable (hnames : (participants.map fun P => upper P.id).Nodup)
include hnames

theorem participant_unique {P Q : SDXParticipant} (hP : P ∈ participants) (hQ : Q ∈ participants)
    (h : upper P.id = upper Q.id) : P = Q :=
  List.inj_on_of_nodup_map hnames hP hQ h

theorem nodup_exits : ((exits upper participants).map Prod.fst).Nodup := by
  rw [exits, List.map_flatMap]
  refine List.nodup_flatMap.mpr ⟨fun P _ => ?_, ?_⟩
  · exact exitVars_nodup upper P.id P.physPorts
  · refine (List.pairwise_map.mp hnames).imp fun {P Q} hne => ?_
    intro v hv hv'
    simp only [List.map_map, List.mem_map] at hv hv'
    obtain ⟨⟨_, i⟩, -, rfl⟩ := hv
    obtain ⟨⟨_, j⟩, -, he⟩ := hv'
    exact hne (outVar_injective he).1.symm

structure Built (upper : String → String) (participants : List SDXParticipant) (sdx : SDX) : Prop where
  values : sdx.participants.values = participants
  inVars : ∀ P ∈ participants, sdx.participantIdToInVar.get? P.id = some (inVar upper P.id)
  exits : sdx.outVarToPort.items = exits upper participants

theorem built_sdxOf : Built upper participants (sdxOf upper participants) := by
  obtain ⟨hpart, hin, hout⟩ := sdxOf_fold upper participants SDX.init
  have hids : (participants.map SDXParticipant.id).Nodup := by
    refine List.Nodup.of_map upper ?_
    rwa [List.map_map]
  have hfresh : ∀ {β : Type} (l : List (String × β)), (l.map Prod.fst).Nodup →
      (l.foldl (fun d kv => d.set kv.1 kv.2) (.empty : Dict String β)).items = l := fun l hl =>
    Dict.items_foldl_set (d := .empty) (by simpa [Dict.keys, Dict.empty] using hl)
  have hpart := congrArg Dict.items hpart
  have hin := congrArg Dict.items hin
  have hout := congrArg Dict.items hout
  rw [SDX.init, hfresh] at hpart hin hout
  · refine ⟨?_, fun P hP => ?_, hout⟩
    · rw [Dict.values, sdxOf, SDX.init, hpart, List.map_map]
      exact List.map_id participants
    · rw [Dict.get?_eq_some, sdxOf, SDX.init, hin]
      exact List.mem_map_of_mem hP
  · exact nodup_exits hnames
  · rwa [List.map_map]
  · rwa [List.map_map]

omit hnames in
theorem exitOf_eq_none {state : Option String} :
    exitOf upper participants state = none ↔ ∀ e ∈ exits upper participants, state ≠ some e.1 := by
  rw [exitOf, Option.map_eq_none_iff, List.find?_eq_none]
  simp

end maps

section semantics
variable {ρ : Type*} [DecidableEq ρ] {upper : String → String} {participants : List SDXParticipant}
  {policies : SDXParticipant → PacketPolicy (Packet ρ)} {sdx : SDX} {pkt : Packet ρ}

theorem matchAllOutputVar_eq (hsdx : Built upper participants sdx) :
    matchAllOutputVar sdx pkt = ∅ ↔ exitOf upper participants pkt.state = none := by
  have hfold : ∀ (vs : List String) (all : PacketPolicy (Packet ρ)),
      vs.foldl (fun all v => union all (matchState v)) all pkt = ∅ ↔
        all pkt = ∅ ∧ ∀ v ∈ vs, pkt.state ≠ some v := by
    intro vs
    induction vs with
    | nil => simp
    | cons v vs ih =>
      intro all
      rw [List.foldl_cons, ih, union, Finset.union_eq_empty, List.forall_mem_cons, and_assoc]
      refine and_congr_right fun _ => and_congr_left fun _ => ?_
      simp [matchState, filter]
  rw [matchAllOutputVar, hfold, exitOf_eq_none, ← hsdx.exits]
  simp [drop, Dict.keys]

def branch (upper : String → String) (policies : SDXParticipant → PacketPolicy (Packet ρ))
    (sdx : SDX) (P : SDXParticipant) : PacketPolicy (Packet ρ) :=
  ifThenElse (matchAllOutputVar sdx) passthrough
    (andThen (matchState (inVar upper P.id)) (policies P))

theorem branch_exit (hsdx : Built upper participants sdx) (P : SDXParticipant)
    (h : exitOf upper participants pkt.state ≠ none) :
    branch upper policies sdx P pkt = {pkt} :=
  ifThenElse_of_passes (mt (matchAllOutputVar_eq hsdx).mp h)

theorem branch_inside (hsdx : Built upper participants sdx) (P : SDXParticipant)
    (h : exitOf upper participants pkt.state = none) :
    branch upper policies sdx P pkt =
      if pkt.state = some (inVar upper P.id) then policies P pkt else ∅ := by
  rw [branch, ifThenElse_of_stopped ((matchAllOutputVar_eq hsdx).mpr h), matchState, filter_andThen]
  simp only [decide_eq_true_eq]

theorem parallel_branch (hnames : (participants.map fun P => upper P.id).Nodup)
    (hsdx : Built upper participants sdx) :
    parallel (participants.map (branch upper policies sdx)) =
      secondHop upper participants policies := by
  funext pkt
  rw [secondHop]
  cases hexit : exitOf upper participants pkt.state with
  | some port =>
    have hne : exitOf upper participants pkt.state ≠ none := by rw [hexit]; exact nofun
    obtain ⟨e, he, -⟩ := Option.map_eq_some_iff.mp hexit
    obtain ⟨P, hP, -⟩ := mem_exits.mp (List.mem_of_find?_eq_some he)
    rw [parallel_of_unique (List.mem_map_of_mem hP), branch_exit hsdx P hne]
    intro q hq
    obtain ⟨Q, -, rfl⟩ := List.mem_map.mp hq
    rw [branch_exit hsdx P hne, branch_exit hsdx Q hne]
  | none =>
    rw [entered]
    cases hB : participants.find? fun B => pkt.state = some (inVar upper B.id) with
    | some B =>
      have hmem := List.mem_of_find?_eq_some hB
      have hstate : pkt.state = some (inVar upper B.id) := by simpa using List.find?_some hB
      have hact : branch upper policies sdx B pkt = policies B pkt := by
        rw [branch_inside hsdx B hexit, if_pos hstate]
      rw [parallel_of_unique (List.mem_map_of_mem hmem), hact]
      intro q hq
      obtain ⟨Q, hQ, rfl⟩ := List.mem_map.mp hq
      rw [hact, branch_inside hsdx Q hexit]
      split_ifs with hstate'
      · have hvar := Option.some.inj (hstate'.symm.trans hstate)
        rw [participant_unique hnames hQ hmem (inVar_injective hvar)]
      · exact Finset.empty_subset _
    | none =>
      refine parallel_of_stopped fun q hq => ?_
      obtain ⟨Q, hQ, rfl⟩ := List.mem_map.mp hq
      have hstate : pkt.state ≠ some (inVar upper Q.id) := by
        simpa using List.find?_eq_none.mp hB Q hQ
      rw [branch_inside hsdx Q hexit, if_neg hstate]

theorem sdxParticipantPolicies_eq (hnames : (participants.map fun P => upper P.id).Nodup)
    (hsdx : Built upper participants sdx) : sdxParticipantPolicies sdx policies =
      some (andThen (secondHop upper participants policies)
        (secondHop upper participants policies)) := by
  have hround : sdx.participants.values.mapM (sdxRestrictState sdx policies) =
      some (participants.map (branch upper policies sdx)) := by
    rw [hsdx.values]
    refine Runs.mapM_eq_map fun P hP => ?_
    rw [sdxRestrictState, hsdx.inVars P hP]
    rfl
  rw [sdxParticipantPolicies, hround]
  simp only [Option.map_some, List.foldlM_cons, List.foldlM_nil, Option.bind_eq_bind,
    Option.bind_some, sequential, List.foldl_cons, List.foldl_nil, passthrough_andThen,
    parallel_branch hnames hsdx]
  rfl

theorem sdxPreprocessing_eq (hports : (participants.flatMap fun P =>
      P.physPorts.map PhysicalPort.id).Nodup) (hsdx : Built upper participants sdx) :
    ∃ pre : PacketPolicy (Packet ρ), sdxPreprocessing sdx = some pre ∧ ∀ pkt, pre pkt =
      match origin participants pkt.inport with
      | some A => {{ pkt with state := some (inVar upper A.id) }}
      | none => ∅ := by
  let pairs := participants.flatMap fun P => P.physPorts.map fun port => (P, port)
  let step : SDXParticipant × PhysicalPort → PacketPolicy (Packet ρ) := fun pp =>
    andThen (matchInport pp.2.id) (modifyState (some (inVar upper pp.1.id)))
  have hpairs : ∀ P port, (P, port) ∈ pairs ↔ P ∈ participants ∧ port ∈ P.physPorts := by
    intro P port
    simp only [pairs, List.mem_flatMap, List.mem_map, Prod.mk.injEq]
    constructor
    · rintro ⟨P, hP, port, hport, rfl, rfl⟩
      exact ⟨hP, hport⟩
    · exact fun ⟨hP, hport⟩ => ⟨P, hP, port, hport, rfl, rfl⟩
  refine ⟨parallel (pairs.map step), ?_, fun pkt => ?_⟩
  · rw [sdxPreprocessing, hsdx.values]
    have hmap : pairs.mapM (fun pp => (sdx.participantIdToInVar.get? pp.1.id).map fun v =>
        andThen (matchInport pp.2.id) (modifyState (some v))) = some (pairs.map step) := by
      refine Runs.mapM_eq_map fun pp hpp => ?_
      rw [hsdx.inVars pp.1 ((hpairs pp.1 pp.2).mp hpp).1]
      rfl
    rw [hmap]
    rfl
  · have hstep : ∀ pp, step pp pkt = if pkt.inport = some pp.2.id then
        {{ pkt with state := some (inVar upper pp.1.id) }} else ∅ := by
      intro pp
      simp only [step, matchInport, filter_andThen, decide_eq_true_eq]
      rfl
    cases hA : origin participants pkt.inport with
    | some A =>
      have hmem := List.mem_of_find?_eq_some hA
      have hport := List.find?_some hA
      simp only [List.any_eq_true, decide_eq_true_eq] at hport
      obtain ⟨port, hport, hin⟩ := hport
      rw [parallel_of_unique (List.mem_map_of_mem ((hpairs A port).mpr ⟨hmem, hport⟩)), hstep,
        if_pos hin]
      intro q hq
      obtain ⟨⟨Q, port'⟩, hpp, rfl⟩ := List.mem_map.mp hq
      rw [hstep, hstep, if_pos hin]
      split_ifs with hin'
      · -- the port belongs to one participant
        obtain ⟨hQ, hport'⟩ := (hpairs Q port').mp hpp
        have hid : port.id = port'.id := Option.some.inj (hin.symm.trans hin')
        rw [Runs.eq_of_mem_of_nodup_flatMap hports hQ hmem (List.mem_map_of_mem hport')
          (hid ▸ List.mem_map_of_mem hport)]
      · exact Finset.empty_subset _
    | none =>
      refine parallel_of_stopped fun q hq => ?_
      obtain ⟨⟨P, port⟩, hpp, rfl⟩ := List.mem_map.mp hq
      obtain ⟨hP, hport⟩ := (hpairs P port).mp hpp
      have hno := List.find?_eq_none.mp hA P hP
      simp only [List.any_eq_true, decide_eq_true_eq, not_exists, not_and] at hno
      rw [hstep, if_neg (hno port hport)]

theorem sdxPostprocessing_eq (hnames : (participants.map fun P => upper P.id).Nodup)
    (hsdx : Built upper participants sdx) :
    (sdxPostprocessing sdx : PacketPolicy (Packet ρ)) = leave upper participants := by
  funext pkt
  have hstep : ∀ e : String × PhysicalPort,
      (andThen (andThen (matchState e.1) (modifyState none)) (fwd e.2.id) : PacketPolicy (Packet ρ))
        pkt = if pkt.state = some e.1 then
          {{ pkt with state := none, outport := some e.2.id }} else ∅ := by
    intro e
    rw [andThen, matchState, filter_andThen]
    by_cases h : pkt.state = some e.1
    · simp only [h, decide_true, if_true, modifyState, PacketPolicy.modify,
        Finset.singleton_biUnion, fwd]
    · simp only [h, decide_false, Bool.false_eq_true, if_false, Finset.biUnion_empty]
  rw [sdxPostprocessing, hsdx.exits, leave]
  cases hexit : exitOf upper participants pkt.state with
  | some port =>
    obtain ⟨e, he, rfl⟩ := Option.map_eq_some_iff.mp hexit
    have hmem := List.mem_of_find?_eq_some he
    have hstate : pkt.state = some e.1 := by simpa using List.find?_some he
    rw [parallel_of_unique (List.mem_map_of_mem hmem), hstep, if_pos hstate]
    intro q hq
    obtain ⟨e', he', rfl⟩ := List.mem_map.mp hq
    rw [hstep, hstep, if_pos hstate]
    split_ifs with hstate'
    · have hkey : e'.1 = e.1 := Option.some.inj (hstate'.symm.trans hstate)
      rw [List.inj_on_of_nodup_map (nodup_exits hnames) he' hmem hkey]
    · exact Finset.empty_subset _
  | none =>
    refine parallel_of_stopped fun q hq => ?_
    obtain ⟨e, he, rfl⟩ := List.mem_map.mp hq
    rw [hstep, if_neg (exitOf_eq_none.mp hexit e he)]

omit [DecidableEq ρ] in
theorem secondHop_entrance (hnames : (participants.map fun P => upper P.id).Nodup)
    {A : SDXParticipant} (hA : A ∈ participants) (hstate : pkt.state = some (inVar upper A.id)) :
    secondHop upper participants policies pkt = policies A pkt := by
  have hexit : exitOf upper participants pkt.state = none := by
    refine exitOf_eq_none.mpr fun e he h => ?_
    obtain ⟨P, -, i, -, hout⟩ := mem_exits.mp he
    exact inVar_ne_outVar _ _ _ ((Option.some.inj (hstate.symm.trans h)).trans hout)
  rw [secondHop, hexit, entered]
  cases hB : participants.find? fun B => pkt.state = some (inVar upper B.id) with
  | some B =>
    have hstate' : pkt.state = some (inVar upper B.id) := by simpa using List.find?_some hB
    have hvar := inVar_injective (Option.some.inj (hstate.symm.trans hstate'))
    rw [participant_unique hnames hA (List.mem_of_find?_eq_some hB) hvar]
  | none => exact absurd hstate (by simpa using List.find?_eq_none.mp hB A hA)

/-- The composed policy is the two-hop result. -/
theorem simpleCompose_eq_twoHop (hnames : (participants.map fun P => upper P.id).Nodup)
    (hports : (participants.flatMap fun P => P.physPorts.map PhysicalPort.id).Nodup) :
    ∃ policy, simpleCompose (sdxOf upper participants) policies = some policy ∧
      ∀ pkt : Packet ρ, policy pkt = twoHop upper participants policies pkt := by
  have hsdx := built_sdxOf hnames
  obtain ⟨pre, hpre, hpkt⟩ : ∃ pre : PacketPolicy (Packet ρ), _ ∧ _ :=
    sdxPreprocessing_eq hports hsdx
  refine ⟨_, by rw [simpleCompose, hpre, sdxParticipantPolicies_eq hnames hsdx]; rfl, fun pkt => ?_⟩
  rw [sdxPostprocessing_eq hnames hsdx, twoHop]
  simp only [andThen, hpkt]
  cases hA : origin participants pkt.inport with
  | some A =>
    have hmem := List.mem_of_find?_eq_some hA
    simp only [Finset.singleton_biUnion]
    rw [andThen, secondHop_entrance hnames hmem rfl]
  | none => simp only [Finset.biUnion_empty]

end semantics

def senderReceiver : List SDXParticipant :=
  [⟨"A", ⟨"A", 1⟩, [⟨1, "08:00:27:89:3b:9f", "172.0.0.1"⟩], .single "B" ⟨"B", 2⟩⟩,
    ⟨"B", ⟨"B", 2⟩, [⟨2, "08:00:27:92:18:1f", "172.0.0.2"⟩, ⟨3, "08:00:27:54:56:eb", "172.0.0.3"⟩],
      .empty⟩]

def forwards (P : SDXParticipant) : PacketPolicy (Packet Unit) :=
  if P.id = "A" then modifyState (some "inB") else modifyState (some "outB_1")

theorem simpleCompose_eq_twoHop_forwards :
    ∃ policy, simpleCompose (sdxOf id senderReceiver) forwards = some policy ∧
      policy ⟨some 1, none, none, ()⟩ = {⟨some 1, some 3, none, ()⟩} ∧
      policy ⟨some 7, none, none, ()⟩ = ∅ := by
  have h : ∃ policy, simpleCompose (sdxOf id senderReceiver) forwards = some policy ∧
      ∀ pkt, policy pkt = twoHop id senderReceiver forwards pkt :=
    simpleCompose_eq_twoHop (by decide) (by decide)
  obtain ⟨policy, hpolicy, hpkt⟩ := h
  exact ⟨policy, hpolicy, by rw [hpkt]; decide, by rw [hpkt]; decide⟩

end Hispar.Exchange
