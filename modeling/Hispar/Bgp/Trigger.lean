import Hispar.Library.Occurrences
import Hispar.Library.Runs

/-!
# The route server and the policies

The route server puts a token on the event queue and waits for it on the ready
queue. The thread behind the event queue updates the policies for every event,
and passes on the tokens of the route server only.
-/
namespace Hispar.Bgp
open Library

def fromBgp (eventSource : String) : Bool := decide ("bgp".toList <:+: eventSource.toList)

inductive ServerAt
  | between
  | waiting
  deriving DecidableEq

inductive HandlerAt
  | top
  | taken (eventSource : String)
  | running (eventSource : String)
  | updated (eventSource : String)
  deriving DecidableEq

structure Threads where
  eventQueue : List String
  readyQueue : List String
  initPut : Bool
  server : ServerAt
  handler : HandlerAt
  deriving DecidableEq

def Threads.init : Threads := ⟨[], [], false, .between, .top⟩

/-- What one thread does between two moments at which another can come in. -/
inductive Action
  | init
  | put
  | get (token : String)
  | take (eventSource : String)
  | start
  | finish
  | handled (eventSource : String)
  deriving DecidableEq

/-- The loop ends with the token of the route server. -/
def bgpTriggerUpdate (s : Threads) : Action → Option Threads
  | .put => if s.server = .between then
      some { s with eventQueue := s.eventQueue ++ ["bgp"], server := .waiting } else none
  | .get token => match s.readyQueue with
    | [] => none
    | t :: readyQueue => if s.server = .waiting ∧ t = token then
        some { s with readyQueue, server := if t = "bgp" then .between else .waiting } else none
  | _ => none

def dynamicUpdatePolicyEventHadler (s : Threads) : Action → Option Threads
  | .take eventSource => match s.handler, s.eventQueue with
    | .top, e :: eventQueue => if e = eventSource then
        some { s with eventQueue, handler := .taken eventSource } else none
    | _, _ => none
  | .start => match s.handler with
    | .taken eventSource => some { s with handler := .running eventSource }
    | _ => none
  | .finish => match s.handler with
    | .running eventSource => some { s with handler := .updated eventSource }
    | _ => none
  | .handled eventSource => if s.handler = .updated eventSource then
      some { s with
        handler := .top
        readyQueue := if fromBgp eventSource then s.readyQueue ++ [eventSource] else s.readyQueue }
      else none
  | _ => none

def Threads.step (s : Threads) : Action → Option Threads
  | .init => if s.initPut then none else
      some { s with eventQueue := s.eventQueue ++ ["init"], initPut := true }
  | .put => bgpTriggerUpdate s .put
  | .get token => bgpTriggerUpdate s (.get token)
  | action => dynamicUpdatePolicyEventHadler s action

def Action.isPut (a : Action) : Bool := a = .put

def Action.isReturn (a : Action) : Bool := a = .get "bgp"

def Action.isStart (a : Action) : Bool := a = .start

def Action.isFinish (a : Action) : Bool := a = .finish

def Action.isHandled : Action → Bool
  | .handled _ => true
  | _ => false

def Action.isReply : Action → Bool
  | .handled eventSource => fromBgp eventSource
  | _ => false

/-- The call numbered `n`, which returns at `t`, is released by the run numbered `m`: the
`n`-th reply is the one that follows this run, which lies between the call's put and it. -/
def Released (actions : List Action) (n t m : ℕ) : Prop :=
  ∃ p b e r, Nth Action.isPut actions n p ∧ Nth Action.isStart actions m b ∧
    Nth Action.isFinish actions m e ∧ Nth Action.isHandled actions m r ∧
    Nth Action.isReply actions n r ∧ p < b ∧ b < e ∧ e < r ∧ r < t

def HandlerAt.event : HandlerAt → Option String
  | .top => none
  | .taken eventSource | .running eventSource | .updated eventSource => some eventSource

section counts
variable (done : List Action) (s : Threads)

def ServerAt.calls : ServerAt → ℕ
  | .between => 0
  | .waiting => 1

def HandlerAt.started : HandlerAt → ℕ
  | .top | .taken _ => 0
  | .running _ | .updated _ => 1

def HandlerAt.finished : HandlerAt → ℕ
  | .updated _ => 1
  | _ => 0

def callsDone : ℕ := done.countP Action.isReturn

def runsDone : ℕ := done.countP Action.isHandled

/-- A call that waits has one token, and where the token is says how far its run has come. -/
structure Ordered : Prop where
  names : ∀ e ∈ s.eventQueue ++ s.handler.event.toList, e = "bgp" ∨ e = "init"
  ready : ∀ t ∈ s.readyQueue, t = "bgp"
  tokens : (s.eventQueue ++ s.handler.event.toList).count "bgp" + s.readyQueue.length = s.server.calls
  puts : done.countP Action.isPut = callsDone done + s.server.calls
  replies : done.countP Action.isReply = callsDone done + s.readyQueue.length
  starts : done.countP Action.isStart = runsDone done + s.handler.started
  finishes : done.countP Action.isFinish = runsDone done + s.handler.finished
  running : s.handler = .running "bgp" → ∃ p b, Nth Action.isPut done (callsDone done) p ∧
    Nth Action.isStart done (runsDone done) b ∧ p < b
  updated : s.handler = .updated "bgp" → ∃ p b e, Nth Action.isPut done (callsDone done) p ∧
    Nth Action.isStart done (runsDone done) b ∧ Nth Action.isFinish done (runsDone done) e ∧
    p < b ∧ b < e
  reply : s.readyQueue ≠ [] → ∃ m, Released done (callsDone done) done.length m
  returned : ∀ n t, Nth Action.isReturn done n t → ∃ m, Released done n t m

end counts

section steps
variable {done : List Action} {s s' : Threads}

theorem ordered_init : Ordered [] Threads.init where
  names := fun _ he => absurd he List.not_mem_nil
  ready := fun _ ht => absurd ht List.not_mem_nil
  tokens := rfl
  puts := rfl
  replies := rfl
  starts := rfl
  finishes := rfl
  running := fun h => nomatch h
  updated := fun h => nomatch h
  reply := fun h => absurd rfl h
  returned := fun _ t h => absurd h.lt (Nat.not_lt_zero t)

theorem Released.snoc {n t m : ℕ} (h : Released done n t m) (a : Action) :
    Released (done ++ [a]) n t m := by
  obtain ⟨p, b, e, r, hp, hb, he, hr, hr', hlt⟩ := h
  exact ⟨p, b, e, r, hp.snoc a, hb.snoc a, he.snoc a, hr.snoc a, hr'.snoc a, hlt⟩

theorem Released.later {n t t' m : ℕ} (h : Released done n t m) (ht : t ≤ t') :
    Released done n t' m := by
  obtain ⟨p, b, e, r, hp, hb, he, hr, hr', hpb, hbe, her, hrt⟩ := h
  exact ⟨p, b, e, r, hp, hb, he, hr, hr', hpb, hbe, her, hrt.trans_le ht⟩

theorem returned_snoc {a : Action} (ha : a.isReturn = false)
    (h : ∀ n t, Nth Action.isReturn done n t → ∃ m, Released done n t m) :
    ∀ n t, Nth Action.isReturn (done ++ [a]) n t → ∃ m, Released (done ++ [a]) n t m := by
  intro n t hn
  rcases nth_snoc hn with hn | ⟨htrue, -⟩
  · obtain ⟨m, hm⟩ := h n t hn
    exact ⟨m, hm.snoc a⟩
  · exact absurd (ha.symm.trans htrue) Bool.false_ne_true

theorem countP_snoc (q : Action → Bool) (a : Action) :
    (done ++ [a]).countP q = done.countP q + if q a = true then 1 else 0 := by
  rw [List.countP_append, List.countP_singleton]

theorem callsDone_snoc {a : Action} (ha : a.isReturn = false) :
    callsDone (done ++ [a]) = callsDone done := by
  rw [callsDone, countP_snoc, if_neg (by simp [ha])]
  rfl

theorem runsDone_snoc {a : Action} (ha : a.isHandled = false) :
    runsDone (done ++ [a]) = runsDone done := by
  rw [runsDone, countP_snoc, if_neg (by simp [ha])]
  rfl

theorem running_snoc {a : Action} (hret : a.isReturn = false) (hrun : a.isHandled = false)
    (h : ∃ p b, Nth Action.isPut done (callsDone done) p ∧
      Nth Action.isStart done (runsDone done) b ∧ p < b) :
    ∃ p b, Nth Action.isPut (done ++ [a]) (callsDone (done ++ [a])) p ∧
      Nth Action.isStart (done ++ [a]) (runsDone (done ++ [a])) b ∧ p < b := by
  obtain ⟨p, b, hp, hb, hpb⟩ := h
  rw [callsDone_snoc hret, runsDone_snoc hrun]
  exact ⟨p, b, hp.snoc a, hb.snoc a, hpb⟩

theorem updated_snoc {a : Action} (hret : a.isReturn = false) (hrun : a.isHandled = false)
    (h : ∃ p b e, Nth Action.isPut done (callsDone done) p ∧ Nth Action.isStart done (runsDone done) b ∧
      Nth Action.isFinish done (runsDone done) e ∧ p < b ∧ b < e) :
    ∃ p b e, Nth Action.isPut (done ++ [a]) (callsDone (done ++ [a])) p ∧
      Nth Action.isStart (done ++ [a]) (runsDone (done ++ [a])) b ∧
      Nth Action.isFinish (done ++ [a]) (runsDone (done ++ [a])) e ∧ p < b ∧ b < e := by
  obtain ⟨p, b, e, hp, hb, he, hlt⟩ := h
  rw [callsDone_snoc hret, runsDone_snoc hrun]
  exact ⟨p, b, e, hp.snoc a, hb.snoc a, he.snoc a, hlt⟩

theorem reply_snoc {a : Action} (hret : a.isReturn = false)
    (h : ∃ m, Released done (callsDone done) done.length m) :
    ∃ m, Released (done ++ [a]) (callsDone (done ++ [a])) (done ++ [a]).length m := by
  obtain ⟨m, hm⟩ := h
  rw [callsDone_snoc hret]
  exact ⟨m, (hm.snoc a).later (by simp)⟩

theorem ordered_enqueue {a : Action} {e : String} {initPut : Bool} {server : ServerAt}
    (h : Ordered done s) (ha : a = .init ∨ a = .put) (he : e = "bgp" ∨ e = "init")
    (htokens : (s.eventQueue ++ s.handler.event.toList).count "bgp" + [e].count "bgp" +
      s.readyQueue.length = server.calls)
    (hputs : (done ++ [a]).countP Action.isPut = callsDone (done ++ [a]) + server.calls) :
    Ordered (done ++ [a]) ⟨s.eventQueue ++ [e], s.readyQueue, initPut, server, s.handler⟩ := by
  have hret : a.isReturn = false := by rcases ha with rfl | rfl <;> rfl
  have hrun : a.isHandled = false := by rcases ha with rfl | rfl <;> rfl
  have hreply : a.isReply = false := by rcases ha with rfl | rfl <;> rfl
  have hstart : a.isStart = false := by rcases ha with rfl | rfl <;> rfl
  have hfinish : a.isFinish = false := by rcases ha with rfl | rfl <;> rfl
  refine ⟨fun x hx => ?_, h.ready, ?_, hputs, ?_, ?_, ?_, fun hh => running_snoc hret hrun (h.running hh),
    fun hh => updated_snoc hret hrun (h.updated hh), fun hh => reply_snoc hret (h.reply hh),
    returned_snoc hret h.returned⟩
  · simp only [List.append_assoc, List.mem_append, List.mem_singleton] at hx
    rcases hx with hx | hx | hx
    · exact h.names x (List.mem_append_left _ hx)
    · exact hx ▸ he
    · exact h.names x (List.mem_append_right _ hx)
  · rw [← htokens]
    simp only [List.count_append]
    omega
  · rw [countP_snoc, callsDone_snoc hret, h.replies, hreply]
    rfl
  · rw [countP_snoc, runsDone_snoc hrun, h.starts, hstart]
    rfl
  · rw [countP_snoc, runsDone_snoc hrun, h.finishes, hfinish]
    rfl

theorem ordered_init_step (h : Ordered done s) (hstep : s.step .init = some s') :
    Ordered (done ++ [.init]) s' := by
  rw [Threads.step] at hstep
  split_ifs at hstep
  obtain rfl := Option.some.inj hstep
  have hcount : List.count "bgp" ["init"] = 0 := by decide
  apply ordered_enqueue h (Or.inl rfl) (Or.inr rfl)
  · rw [hcount]
    exact h.tokens
  · rw [countP_snoc, callsDone_snoc rfl, h.puts]
    rfl

theorem ordered_put (h : Ordered done s) (hstep : s.step .put = some s') :
    Ordered (done ++ [.put]) s' := by
  rw [Threads.step, bgpTriggerUpdate] at hstep
  split_ifs at hstep with hserver
  obtain rfl := Option.some.inj hstep
  have htokens := h.tokens
  have hputs := h.puts
  rw [hserver] at htokens hputs
  apply ordered_enqueue h (Or.inr rfl) (Or.inl rfl)
  · rw [List.count_singleton_self]
    change _ = 1
    change _ = 0 at htokens
    omega
  · rw [countP_snoc, callsDone_snoc rfl, hputs]
    rfl

theorem get_cases {token : String} (hstep : s.step (.get token) = some s') : s.server = .waiting ∧
    ∃ rest, s.readyQueue = token :: rest ∧ s' = { s with
      readyQueue := rest, server := if token = "bgp" then .between else .waiting } := by
  rw [Threads.step, bgpTriggerUpdate] at hstep
  cases hready : s.readyQueue with
  | nil =>
    rw [hready] at hstep
    cases hstep
  | cons t rest =>
    rw [hready] at hstep
    dsimp only at hstep
    by_cases hcond : s.server = .waiting ∧ t = token
    · rw [if_pos hcond] at hstep
      obtain ⟨hserver, rfl⟩ := hcond
      exact ⟨hserver, rest, rfl, (Option.some.inj hstep).symm⟩
    · rw [if_neg hcond] at hstep
      cases hstep

theorem take_cases {e : String} (hstep : s.step (.take e) = some s') : s.handler = .top ∧
    ∃ rest, s.eventQueue = e :: rest ∧ s' = { s with eventQueue := rest, handler := .taken e } := by
  change dynamicUpdatePolicyEventHadler s (.take e) = some s' at hstep
  rw [dynamicUpdatePolicyEventHadler] at hstep
  split at hstep
  · rename_i e' rest hhandler hevents
    split_ifs at hstep with he
    subst he
    exact ⟨hhandler, rest, hevents, (Option.some.inj hstep).symm⟩
  · cases hstep

theorem start_cases (hstep : s.step .start = some s') :
    ∃ e, s.handler = .taken e ∧ s' = { s with handler := .running e } := by
  change dynamicUpdatePolicyEventHadler s .start = some s' at hstep
  rw [dynamicUpdatePolicyEventHadler] at hstep
  split at hstep
  · rename_i e hhandler
    exact ⟨e, hhandler, (Option.some.inj hstep).symm⟩
  · cases hstep

theorem finish_cases (hstep : s.step .finish = some s') :
    ∃ e, s.handler = .running e ∧ s' = { s with handler := .updated e } := by
  change dynamicUpdatePolicyEventHadler s .finish = some s' at hstep
  rw [dynamicUpdatePolicyEventHadler] at hstep
  split at hstep
  · rename_i e hhandler
    exact ⟨e, hhandler, (Option.some.inj hstep).symm⟩
  · cases hstep

theorem handled_cases {e : String} (hstep : s.step (.handled e) = some s') : s.handler = .updated e ∧
    s' = { s with
      handler := .top, readyQueue := if fromBgp e then s.readyQueue ++ [e] else s.readyQueue } := by
  change dynamicUpdatePolicyEventHadler s (.handled e) = some s' at hstep
  rw [dynamicUpdatePolicyEventHadler] at hstep
  split_ifs at hstep with hhandler
  · exact ⟨hhandler, by simp_all⟩
  · exact ⟨hhandler, by simp_all⟩

theorem ordered_get {token : String} (h : Ordered done s) (hstep : s.step (.get token) = some s') :
    s'.eventQueue.count "bgp" = 0 ∧ s'.readyQueue = [] ∧ Ordered (done ++ [.get token]) s' := by
  obtain ⟨hserver, rest, hready, rfl⟩ := get_cases hstep
  obtain rfl : token = "bgp" := h.ready token (hready ▸ List.mem_cons_self)
  have htokens := h.tokens
  have hputs := h.puts
  have hreplies := h.replies
  rw [hserver] at htokens hputs
  rw [hready, List.length_cons] at htokens hreplies
  simp only [List.count_append, ServerAt.calls] at htokens hputs
  obtain rfl : rest = [] := List.eq_nil_of_length_eq_zero (by omega)
  have hcall : callsDone (done ++ [.get "bgp"]) = callsDone done + 1 := by
    rw [callsDone, countP_snoc]
    rfl
  have hevents : s.eventQueue.count "bgp" = 0 := by omega
  have hhandler : s.handler.event.toList.count "bgp" = 0 := by omega
  refine ⟨hevents, rfl, h.names, fun _ ht => absurd ht List.not_mem_nil, ?_, ?_, ?_, ?_, ?_,
    fun hh => ?_, fun hh => ?_, fun hh => absurd rfl hh, fun n i hn => ?_⟩
  · simp only [List.count_append, hevents, hhandler]
    rfl
  · rw [countP_snoc, hcall, hputs]
    rfl
  · rw [countP_snoc, hcall, hreplies]
    rfl
  · rw [countP_snoc, runsDone_snoc rfl, h.starts]
    rfl
  · rw [countP_snoc, runsDone_snoc rfl, h.finishes]
    rfl
  · rw [hh] at hhandler
    exact absurd hhandler (by decide)
  · rw [hh] at hhandler
    exact absurd hhandler (by decide)
  · rcases nth_snoc hn with hn | ⟨-, rfl, rfl⟩
    · obtain ⟨m, hm⟩ := h.returned n i hn
      exact ⟨m, hm.snoc _⟩
    · obtain ⟨m, hm⟩ := h.reply (hready ▸ List.cons_ne_nil _ _)
      exact ⟨m, hm.snoc _⟩

theorem ordered_take {e : String} (h : Ordered done s) (hstep : s.step (.take e) = some s') :
    Ordered (done ++ [.take e]) s' := by
  obtain ⟨hhandler, rest, hevents, rfl⟩ := take_cases hstep
  have htokens := h.tokens
  have hnames := h.names
  rw [hhandler, hevents] at htokens hnames
  refine ⟨fun x hx => hnames x ?_, h.ready, ?_, ?_, ?_, ?_, ?_, fun hh => HandlerAt.noConfusion hh,
    fun hh => HandlerAt.noConfusion hh, fun hh => reply_snoc rfl (h.reply hh),
    returned_snoc rfl h.returned⟩
  · rcases List.mem_append.mp hx with hx | hx
    · exact List.mem_append_left _ (List.mem_cons_of_mem _ hx)
    · obtain rfl := List.mem_singleton.mp hx
      exact List.mem_append_left _ List.mem_cons_self
  · rw [← htokens]
    simp [HandlerAt.event, List.count_append, List.count_cons]
  · rw [countP_snoc, callsDone_snoc rfl, h.puts]
    rfl
  · rw [countP_snoc, callsDone_snoc rfl, h.replies]
    rfl
  · rw [countP_snoc, runsDone_snoc rfl, h.starts, hhandler]
    rfl
  · rw [countP_snoc, runsDone_snoc rfl, h.finishes, hhandler]
    rfl

theorem ordered_start (h : Ordered done s) (hstep : s.step .start = some s') :
    Ordered (done ++ [.start]) s' := by
  obtain ⟨e, hhandler, rfl⟩ := start_cases hstep
  have htokens := h.tokens
  have hputs := h.puts
  have hstarts := h.starts
  have hnames := h.names
  rw [hhandler] at htokens hstarts hnames
  refine ⟨hnames, h.ready, htokens, ?_, ?_, ?_, ?_, fun hh => ?_, fun hh => HandlerAt.noConfusion hh,
    fun hh => reply_snoc rfl (h.reply hh), returned_snoc rfl h.returned⟩
  · rw [countP_snoc, callsDone_snoc rfl, h.puts]
    rfl
  · rw [countP_snoc, callsDone_snoc rfl, h.replies]
    rfl
  · rw [countP_snoc, runsDone_snoc rfl, hstarts]
    rfl
  · rw [countP_snoc, runsDone_snoc rfl, h.finishes, hhandler]
    rfl
  · -- the call that waits has put its token before
    obtain rfl : e = "bgp" := HandlerAt.running.inj hh
    have hone : List.count "bgp" (HandlerAt.taken "bgp").event.toList = 1 := by decide
    rw [List.count_append, hone] at htokens
    obtain ⟨p, hp⟩ : ∃ p, Nth Action.isPut done (callsDone done) p := exists_nth (by omega)
    refine ⟨p, done.length, ?_, ?_, hp.lt⟩
    · rw [callsDone_snoc rfl]
      exact hp.snoc _
    · rw [runsDone_snoc rfl]
      have hlast := nth_last (q := Action.isStart) (l := done) (a := .start) rfl
      rwa [hstarts] at hlast

theorem ordered_finish (h : Ordered done s) (hstep : s.step .finish = some s') :
    Ordered (done ++ [.finish]) s' := by
  obtain ⟨e, hhandler, rfl⟩ := finish_cases hstep
  have htokens := h.tokens
  have hstarts := h.starts
  have hfinishes := h.finishes
  have hnames := h.names
  rw [hhandler] at htokens hstarts hfinishes hnames
  refine ⟨hnames, h.ready, htokens, ?_, ?_, ?_, ?_, fun hh => HandlerAt.noConfusion hh, fun hh => ?_,
    fun hh => reply_snoc rfl (h.reply hh), returned_snoc rfl h.returned⟩
  · rw [countP_snoc, callsDone_snoc rfl, h.puts]
    rfl
  · rw [countP_snoc, callsDone_snoc rfl, h.replies]
    rfl
  · rw [countP_snoc, runsDone_snoc rfl, hstarts]
    rfl
  · rw [countP_snoc, runsDone_snoc rfl, hfinishes]
    rfl
  · obtain rfl : e = "bgp" := HandlerAt.updated.inj hh
    obtain ⟨p, b, hp, hb, hpb⟩ := h.running hhandler
    refine ⟨p, b, done.length, ?_, ?_, ?_, hpb, hb.lt⟩
    · rw [callsDone_snoc rfl]
      exact hp.snoc _
    · rw [runsDone_snoc rfl]
      exact hb.snoc _
    · rw [runsDone_snoc rfl]
      have hlast := nth_last (q := Action.isFinish) (l := done) (a := .finish) rfl
      rwa [hfinishes] at hlast

theorem ordered_handled {e : String} (h : Ordered done s) (hstep : s.step (.handled e) = some s') :
    Ordered (done ++ [.handled e]) s' := by
  obtain ⟨hhandler, rfl⟩ := handled_cases hstep
  have htokens := h.tokens
  have hnames := h.names
  rw [hhandler] at htokens hnames
  have hrun : runsDone (done ++ [.handled e]) = runsDone done + 1 := by rw [runsDone, countP_snoc]; rfl
  have hevent : e = "bgp" ∨ e = "init" := hnames e (List.mem_append_right _ List.mem_cons_self)
  have hqueue : ∀ x ∈ s.eventQueue ++ HandlerAt.top.event.toList, x = "bgp" ∨ x = "init" :=
    fun x hx => hnames x (List.mem_append_left _ (by simpa [HandlerAt.event] using hx))
  have hstarts : (done ++ [Action.handled e]).countP Action.isStart =
      runsDone (done ++ [.handled e]) + 0 := by
    rw [countP_snoc, hrun, h.starts, hhandler]
    rfl
  have hfinishes : (done ++ [Action.handled e]).countP Action.isFinish =
      runsDone (done ++ [.handled e]) + 0 := by
    rw [countP_snoc, hrun, h.finishes, hhandler]
    rfl
  have hputs : (done ++ [Action.handled e]).countP Action.isPut =
      callsDone (done ++ [.handled e]) + s.server.calls := by
    rw [countP_snoc, callsDone_snoc rfl, h.puts]
    rfl
  rcases hevent with rfl | rfl
  · -- the token goes on the ready queue, which was empty
    have hone : List.count "bgp" (HandlerAt.updated "bgp").event.toList = 1 := by decide
    have hcalls : s.server.calls ≤ 1 := by cases s.server <;> decide
    rw [List.count_append, hone] at htokens
    have hready : s.readyQueue = [] := List.eq_nil_of_length_eq_zero (by omega)
    have hbgp : fromBgp "bgp" = true := by decide
    simp only [hbgp, if_true, hready, List.nil_append]
    refine ⟨hqueue, fun t ht => List.mem_singleton.mp ht, ?_, hputs, ?_, hstarts, hfinishes,
      fun hh => HandlerAt.noConfusion hh, fun hh => HandlerAt.noConfusion hh, fun _ => ?_,
      returned_snoc rfl h.returned⟩
    · rw [← htokens, hready, List.count_append]
      simp [HandlerAt.event]
    · rw [countP_snoc, callsDone_snoc rfl, h.replies, hready]
      rfl
    · obtain ⟨p, b, e, hp, hb, he, hpb, hbe⟩ := h.updated hhandler
      have hreply := nth_last (q := Action.isReply) (l := done) (a := .handled "bgp") hbgp
      rw [h.replies, hready] at hreply
      rw [callsDone_snoc rfl]
      exact ⟨runsDone done, p, b, e, done.length, hp.snoc _, hb.snoc _, he.snoc _,
        nth_last (q := Action.isHandled) rfl, hreply, hpb, hbe, he.lt, by simp⟩
  · have hinit : fromBgp "init" = false := by decide
    have hzero : List.count "bgp" (HandlerAt.updated "init").event.toList = 0 := by decide
    rw [List.count_append, hzero] at htokens
    simp only [hinit, Bool.false_eq_true, if_false]
    refine ⟨hqueue, h.ready, ?_, hputs, ?_, hstarts, hfinishes, fun hh => HandlerAt.noConfusion hh,
      fun hh => HandlerAt.noConfusion hh, fun hh => reply_snoc rfl (h.reply hh),
      returned_snoc rfl h.returned⟩
    · rw [← htokens, List.count_append]
      simp [HandlerAt.event]
    · rw [countP_snoc, callsDone_snoc rfl, h.replies, Action.isReply, hinit]
      rfl

theorem ordered_step {a : Action} (h : Ordered done s) (hstep : s.step a = some s') :
    Ordered (done ++ [a]) s' := by
  cases a with
  | init => exact ordered_init_step h hstep
  | put => exact ordered_put h hstep
  | get token => exact (ordered_get h hstep).2.2
  | take e => exact ordered_take h hstep
  | start => exact ordered_start h hstep
  | finish => exact ordered_finish h hstep
  | handled e => exact ordered_handled h hstep

end steps

section runs
variable {actions : List Action} {s : Threads}

theorem ordered_run (hrun : actions.foldlM Threads.step Threads.init = some s) : Ordered actions s :=
  Runs.foldlM_visited_invariant (Q := Ordered) (fun _ _ _ _ _ _ h hstep => ordered_step h hstep)
    ordered_init hrun

/-- Under every interleaving a call returns after a run of its own that started after its
put and finished before its return, and then no token is left. -/
theorem bgpTriggerUpdate_released (hrun : actions.foldlM Threads.step Threads.init = some s) :
    (∀ n t, Nth Action.isReturn actions n t → ∃ m, Released actions n t m) ∧
    (∀ n t n' t' m, Released actions n t m → Released actions n' t' m → n = n') ∧
    ∀ n t, Nth Action.isReturn actions n t →
      ∃ s', (actions.take (t + 1)).foldlM Threads.step Threads.init = some s' ∧
      "bgp" ∉ s'.eventQueue ∧ "bgp" ∉ s'.readyQueue := by
  refine ⟨(ordered_run hrun).returned, ?_, fun n t hn => ?_⟩
  · rintro n t n' t' m ⟨p, b, e, r, -, -, -, hm, hr, -⟩ ⟨p', b', e', r', -, -, -, hm', hr', -⟩
    obtain rfl := hm.unique hm'
    exact hr.before.symm.trans hr'.before
  · obtain ⟨a, ha, hret⟩ := hn.has
    obtain rfl : a = .get "bgp" := by simpa [Action.isReturn] using hret
    have htake : actions.take (t + 1) = actions.take t ++ [.get "bgp"] := by
      rw [List.take_add_one, ha, Option.toList_some]
    rw [← List.take_append_drop (t + 1) actions, htake, List.foldlM_append, List.foldlM_append] at hrun
    obtain ⟨s', hs', -⟩ := Option.bind_eq_some_iff.mp hrun
    obtain ⟨s₁, hs₁, hstep⟩ := Option.bind_eq_some_iff.mp hs'
    have hstep : (s₁.step (.get "bgp")).bind some = some s' := hstep
    rw [Option.bind_fun_some] at hstep
    obtain ⟨hevents, hready, -⟩ := ordered_get (ordered_run hs₁) hstep
    refine ⟨s', by rw [htake, List.foldlM_append]; exact hs', List.count_eq_zero.mp hevents, ?_⟩
    rw [hready]
    exact List.not_mem_nil

end runs

def callBeforeInit : List Action :=
  [.put, .init, .take "bgp", .start, .finish, .handled "bgp", .take "init", .get "bgp", .put, .start,
    .finish, .handled "init", .take "bgp", .start, .finish, .handled "bgp", .get "bgp"]

theorem bgpTriggerUpdate_released_callBeforeInit :
    callBeforeInit.foldlM Threads.step Threads.init = some ⟨[], [], true, .between, .top⟩ ∧
    ∃ m, Released callBeforeInit 1 16 m := by
  have hrun : callBeforeInit.foldlM Threads.step Threads.init =
      some ⟨[], [], true, .between, .top⟩ := by
    decide
  exact ⟨hrun, (bgpTriggerUpdate_released hrun).1 1 16
    ⟨⟨.get "bgp", by decide, by decide⟩, by decide⟩⟩

end Hispar.Bgp
