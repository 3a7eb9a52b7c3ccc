import Hispar.Bgp.Trigger

/-!
# No call waits forever

Once the route server has put its token, the threads alone bring it back: however
they are scheduled they come to rest, and then the server is in its loop again.
-/
namespace Hispar.Bgp
open Library

def Action.isThread : Action → Bool
  | .init | .put => false
  | _ => true

def HandlerAt.work : HandlerAt → ℕ
  | .top => 0
  | .taken _ => 4
  | .running _ => 3
  | .updated _ => 2

def Threads.work (s : Threads) : ℕ := 5 * s.eventQueue.length + s.handler.work + s.readyQueue.length

def Threads.Idle (s : Threads) : Prop := ∀ a : Action, a.isThread = true → s.step a = none

section progress
variable {actions : List Action} {a : Action} {s s' : Threads}

theorem Threads.work_lt (ha : a.isThread = true) (hstep : s.step a = some s') : s'.work < s.work := by
  cases a with
  | init => cases ha
  | put => cases ha
  | get token =>
    obtain ⟨-, rest, hready, rfl⟩ := get_cases hstep
    simp [work, hready]
  | take e =>
    obtain ⟨hhandler, rest, hevents, rfl⟩ := take_cases hstep
    simp [work, hhandler, hevents, HandlerAt.work]
    omega
  | start =>
    obtain ⟨e, hhandler, rfl⟩ := start_cases hstep
    simp [work, hhandler, HandlerAt.work]
  | finish =>
    obtain ⟨e, hhandler, rfl⟩ := finish_cases hstep
    simp [work, hhandler, HandlerAt.work]
  | handled e =>
    obtain ⟨hhandler, rfl⟩ := handled_cases hstep
    simp only [work, hhandler, HandlerAt.work]
    split_ifs
    · rw [List.length_append, List.length_singleton]
      omega
    · omega

theorem Threads.Idle.handler (h : s.Idle) : s.handler = .top ∧ s.eventQueue = [] := by
  have hhandler : s.handler = .top := by
    cases hs : s.handler with
    | top => rfl
    | taken e =>
      have hnone := h .start rfl
      simp [Threads.step, dynamicUpdatePolicyEventHadler, hs] at hnone
    | running e =>
      have hnone := h .finish rfl
      simp [Threads.step, dynamicUpdatePolicyEventHadler, hs] at hnone
    | updated e =>
      have hnone := h (.handled e) rfl
      simp [Threads.step, dynamicUpdatePolicyEventHadler, hs] at hnone
  refine ⟨hhandler, ?_⟩
  cases hs : s.eventQueue with
  | nil => rfl
  | cons e rest =>
    have hnone := h (.take e) rfl
    simp [Threads.step, dynamicUpdatePolicyEventHadler, hhandler, hs] at hnone

theorem Threads.Idle.returned (h : s.Idle) (hs : Ordered actions s) :
    s.readyQueue = [] ∧ s.server = .between := by
  obtain ⟨hhandler, hevents⟩ := h.handler
  have htokens := hs.tokens
  rw [hhandler, hevents] at htokens
  have hlength : s.readyQueue.length = s.server.calls := by simpa [HandlerAt.event] using htokens
  cases hserver : s.server with
  | between =>
    rw [hserver] at hlength
    exact ⟨List.length_eq_zero_iff.mp hlength, rfl⟩
  | waiting =>
    rw [hserver] at hlength
    obtain ⟨t, ht⟩ := List.length_eq_one_iff.mp hlength
    have hnone := h (.get t) rfl
    simp [Threads.step, bgpTriggerUpdate, hserver, ht] at hnone

theorem initPut_thread (ha : a.isThread = true) (hstep : s.step a = some s') :
    s'.initPut = s.initPut := by
  cases a with
  | init => cases ha
  | put => cases ha
  | get token =>
    obtain ⟨-, rest, -, rfl⟩ := get_cases hstep
    rfl
  | take e =>
    obtain ⟨-, rest, -, rfl⟩ := take_cases hstep
    rfl
  | start =>
    obtain ⟨e, -, rfl⟩ := start_cases hstep
    rfl
  | finish =>
    obtain ⟨e, -, rfl⟩ := finish_cases hstep
    rfl
  | handled e =>
    obtain ⟨-, rfl⟩ := handled_cases hstep
    rfl

/-- From every state that any interleaving leads to, the threads come to rest, after a number of
steps that the state bounds, and every way they do so ends a call that was waiting and leaves no
event and no token. -/
theorem bgpTriggerUpdate_returns (hrun : actions.foldlM Threads.step Threads.init = some s) :
    (∃ (more : List Action) (s' : Threads), (∀ a ∈ more, a.isThread = true) ∧
      more.foldlM Threads.step s = some s' ∧ s'.Idle) ∧
    ∀ (more : List Action) (s' : Threads), (∀ a ∈ more, a.isThread = true) →
      more.foldlM Threads.step s = some s' → more.length ≤ s.work ∧
      (s'.Idle → s' = ⟨[], [], s.initPut, .between, .top⟩) := by
  refine ⟨Runs.exists_foldlM_idle (T := fun a : Action => a.isThread = true) (w := Threads.work)
    (fun _ _ _ => Threads.work_lt) s, fun more s' hmore hrest => ?_⟩
  have hlength := Runs.foldlM_length_le (w := Threads.work) (fun _ _ (a : Action) ha =>
    Threads.work_lt (hmore a ha)) hrest
  refine ⟨by omega, fun hidle => ?_⟩
  have hall : (actions ++ more).foldlM Threads.step Threads.init = some s' := by
    rw [List.foldlM_append, hrun]
    exact hrest
  have hinit : s'.initPut = s.initPut := by
    refine Runs.foldlM_invariant (P := fun t : Threads => t.initPut = s.initPut)
      (fun t t' a ha ht hstep => ?_) rfl hrest
    rw [initPut_thread (hmore a ha) hstep, ht]
  obtain ⟨hhandler, hevents⟩ := hidle.handler
  obtain ⟨hready, hserver⟩ := hidle.returned (ordered_run hall)
  calc s' = ⟨s'.eventQueue, s'.readyQueue, s'.initPut, s'.server, s'.handler⟩ := rfl
    _ = ⟨[], [], s.initPut, .between, .top⟩ := by rw [hevents, hready, hinit, hserver, hhandler]

end progress

theorem bgpTriggerUpdate_returns_callBeforeInit : ∃ s,
    (callBeforeInit.take 9).foldlM Threads.step Threads.init = some s ∧ s.server = .waiting ∧
    ∃ (more : List Action) (s' : Threads), (∀ a ∈ more, a.isThread = true) ∧
      more.foldlM Threads.step s = some s' ∧ s'.Idle := by
  have hrun : (callBeforeInit.take 9).foldlM Threads.step Threads.init =
      some ⟨["bgp"], [], true, .waiting, .taken "init"⟩ := by
    decide
  exact ⟨_, hrun, rfl, (bgpTriggerUpdate_returns hrun).1⟩

end Hispar.Bgp
