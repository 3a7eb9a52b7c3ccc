import Hispar.Library.Channels
import Hispar.Library.Runs
import Hispar.Library.Texts

/-!
# The lines between the routers and the route server

The client reads lines from its input and sends them over the connection, and the
server queues what it receives; the other way, the server sends what is queued and
the client writes it to its output. Each of the four threads holds one line at a
time. When the connection is lost, what was not received is lost with it, and so
is each line that is sent from then on.
-/
namespace Hispar.Bgp
open Library Channels

inductive ClientSender where
  | reading (counter : ℕ)
  | sending (line : String)
  | stopped
  deriving DecidableEq

def ClientSender.blanks : ClientSender → ℕ
  | .reading counter => counter
  | .sending _ => 0
  | .stopped => 101

def ClientSender.held : ClientSender → List String
  | .sending line => [line]
  | _ => []

structure Relay where
  connected : Bool
  clientSender : ClientSender
  toServer : List String
  serverReceiver : Option String
  receiverQueue : List String
  senderQueue : List String
  serverSender : Option String
  toClient : List String
  clientReceiver : Option String
  stdout : String
  deriving DecidableEq

def Relay.init : Relay := ⟨true, .reading 0, [], none, [], [], none, [], none, ""⟩

/-- A step of a thread, or of those at its ends. What arrives on the input, what is put on the
queue and when the connection is lost is up to them. -/
inductive Relay.Action where
  | readline (raw : String)
  | clientSend
  | serverRecv
  | serverPut
  | take (line : String)
  | put (line : String)
  | serverGet
  | serverSend
  | clientRecv
  | clientWrite (line : String)
  | lose (up down : ℕ)
  deriving DecidableEq

namespace Relay

/-- The client's `_sender`. At the end of the input `readline` returns empty lines. -/
def clientSenderStep (s : Relay) : Action → Option Relay
  | .readline raw => match s.clientSender with
    | .reading counter =>
      if strip raw = "" then
        some { s with clientSender := if counter + 1 > 100 then .stopped else .reading (counter + 1) }
      else some { s with clientSender := .sending (strip raw) }
    | _ => none
  | .clientSend => match s.clientSender with
    | .sending line => some { s with
        clientSender := .reading 0
        toServer := if s.connected then s.toServer ++ [line] else s.toServer }
    | _ => none
  | _ => none

def serverReceiverStep (s : Relay) : Action → Option Relay
  | .serverRecv => match s.serverReceiver, s.toServer with
    | none, line :: toServer => some { s with serverReceiver := some line, toServer }
    | _, _ => none
  | .serverPut => s.serverReceiver.map fun line =>
      { s with serverReceiver := none, receiverQueue := s.receiverQueue ++ [line] }
  | _ => none

def serverSenderStep (s : Relay) : Action → Option Relay
  | .serverGet => match s.serverSender, s.senderQueue with
    | none, line :: senderQueue => some { s with serverSender := some line, senderQueue }
    | _, _ => none
  | .serverSend => s.serverSender.map fun line =>
      { s with
        serverSender := none
        toClient := if s.connected then s.toClient ++ [line] else s.toClient }
  | _ => none

def clientReceiverStep (s : Relay) : Action → Option Relay
  | .clientRecv => match s.clientReceiver, s.toClient with
    | none, line :: toClient =>
      some { s with clientReceiver := if line = "" then none else some line, toClient }
    | _, _ => none
  | .clientWrite line => if s.clientReceiver = some line then
      some { s with clientReceiver := none, stdout := s.stdout ++ (line ++ "\n") } else none
  | _ => none

def step (s : Relay) : Action → Option Relay
  | .readline raw => s.clientSenderStep (.readline raw)
  | .clientSend => s.clientSenderStep .clientSend
  | .serverRecv => s.serverReceiverStep .serverRecv
  | .serverPut => s.serverReceiverStep .serverPut
  | .take line => match s.receiverQueue with
    | [] => none
    | l :: receiverQueue => if l = line then some { s with receiverQueue } else none
  | .put line => some { s with senderQueue := s.senderQueue ++ [line] }
  | .serverGet => s.serverSenderStep .serverGet
  | .serverSend => s.serverSenderStep .serverSend
  | .clientRecv => s.clientReceiverStep .clientRecv
  | .clientWrite line => s.clientReceiverStep (.clientWrite line)
  | .lose up down => if s.connected then
      some { s with
        connected := false, toServer := s.toServer.take up, toClient := s.toClient.take down }
      else none

def Action.reads : Action → Option String
  | .readline raw => some (strip raw)
  | _ => none

def Action.takes : Action → Option String
  | .take line => some line
  | _ => none

def Action.puts : Action → Option String
  | .put line => some line
  | _ => none

def Action.writes : Action → Option String
  | .clientWrite line => some line
  | _ => none

section logs
variable (actions : List Action)

def linesRead : List String := actions.filterMap Action.reads

def taken : List String := actions.filterMap Action.takes

def queued : List String := actions.filterMap Action.puts

def written : List String := actions.filterMap Action.writes

end logs

def nonblank (lines : List String) : List String := lines.filter (· ≠ "")

def trailingBlanks (lines : List String) : ℕ := (lines.reverse.takeWhile (· = "")).length

def stdoutText (lines : List String) : String := lines.foldl (fun t line => t ++ (line ++ "\n")) ""

theorem nonblank_append (l l' : List String) : nonblank (l ++ l') = nonblank l ++ nonblank l' :=
  List.filter_append l l'

theorem nonblank_singleton {line : String} (h : line ≠ "") : nonblank [line] = [line] := by
  simp [nonblank, h]

theorem nonblank_blank : nonblank [""] = [] := rfl

theorem trailingBlanks_blank (lines : List String) :
    trailingBlanks (lines ++ [""]) = trailingBlanks lines + 1 := by
  simp [trailingBlanks]

theorem trailingBlanks_line {line : String} (h : line ≠ "") (lines : List String) :
    trailingBlanks (lines ++ [line]) = 0 := by
  simp [trailingBlanks, h]

theorem stdoutText_snoc (lines : List String) (line : String) :
    stdoutText (lines ++ [line]) = stdoutText lines ++ (line ++ "\n") := by
  rw [stdoutText, List.foldl_append]
  rfl

theorem toList_stdoutText (lines : List String) :
    (stdoutText lines).toList = lines.flatMap fun line => line.toList ++ ['\n'] := by
  induction lines using List.reverseRecOn with
  | nil => rfl
  | append_singleton lines line ih =>
    rw [stdoutText_snoc, String.toList_append, String.toList_append, ih, List.flatMap_append,
      List.flatMap_singleton]
    rfl

theorem splitOn_stdoutText {lines : List String} (h : ∀ line ∈ lines, '\n' ∉ line.toList) :
    (stdoutText lines).toList.splitOn '\n' = lines.map String.toList ++ [[]] := by
  rw [toList_stdoutText]
  induction lines with
  | nil => rfl
  | cons line lines ih =>
    obtain ⟨hline, hlines⟩ := List.forall_mem_cons.mp h
    rw [List.flatMap_cons, List.append_assoc, List.singleton_append, List.splitOn_append_cons_self,
      List.splitOn_eq_singleton hline, ih hlines]
    rfl

section places
variable (s : Relay)

def arrived : List String := s.receiverQueue ++ s.serverReceiver.toList ++ s.toServer

def leaving : List String := s.serverSender.toList ++ s.senderQueue

def returned : List String := s.clientReceiver.toList ++ s.toClient

end places

section directions
variable (done : List Action) (s : Relay) (lost : List String)

/-- Every line read is in one place, in the order of the lines: those that got lost were on the
connection when it was, or were sent after that. -/
structure Up : Prop where
  carried : taken done ++ s.arrived ++ lost ++ s.clientSender.held = nonblank (linesRead done)
  connected : s.connected = true → lost = []
  line : ∀ line ∈ s.clientSender.held, line ≠ ""
  blanks : trailingBlanks (linesRead done) = s.clientSender.blanks
  counter : ∀ c, s.clientSender = .reading c → c ≤ 100

structure Down : Prop where
  carried : written done ++ nonblank s.returned ++ lost ++ nonblank s.leaving = nonblank (queued done)
  connected : s.connected = true → lost = []
  line : s.clientReceiver ≠ some ""
  output : s.stdout = stdoutText (written done)

end directions

section steps
variable {done : List Action} {s s' : Relay} {lost : List String} {a : Action}

theorem up_init : Up [] init [] where
  carried := rfl
  connected _ := rfl
  line _ h := absurd h List.not_mem_nil
  blanks := rfl
  counter c h := by
    obtain rfl := ClientSender.reading.inj h
    exact Nat.zero_le 100

theorem down_init : Down [] init [] where
  carried := rfl
  connected _ := rfl
  line := nofun
  output := rfl

theorem taken_snoc (ha : a.takes = none) : taken (done ++ [a]) = taken done := by
  simp [taken, ha]

theorem linesRead_snoc (ha : a.reads = none) : linesRead (done ++ [a]) = linesRead done := by
  simp [linesRead, ha]

theorem written_snoc (ha : a.writes = none) : written (done ++ [a]) = written done := by
  simp [written, ha]

theorem queued_snoc (ha : a.puts = none) : queued (done ++ [a]) = queued done := by
  simp [queued, ha]

theorem Up.frame (h : Up done s lost) (hreads : a.reads = none) (htakes : a.takes = none)
    (hs : (s'.connected, s'.clientSender, s'.arrived) = (s.connected, s.clientSender, s.arrived)) :
    Up (done ++ [a]) s' lost := by
  obtain ⟨hconnected, hsender, harrived⟩ : s'.connected = s.connected ∧
    s'.clientSender = s.clientSender ∧ s'.arrived = s.arrived := by simpa using hs
  refine ⟨?_, hconnected ▸ h.connected, hsender ▸ h.line, ?_, hsender ▸ h.counter⟩
  · rw [taken_snoc htakes, linesRead_snoc hreads, harrived, hsender, h.carried]
  · rw [linesRead_snoc hreads, hsender, h.blanks]

theorem Down.frame (h : Down done s lost) (hputs : a.puts = none) (hwrites : a.writes = none)
    (hs : (s'.connected, s'.clientReceiver, s'.returned, s'.leaving, s'.stdout) =
      (s.connected, s.clientReceiver, s.returned, s.leaving, s.stdout)) :
    Down (done ++ [a]) s' lost := by
  obtain ⟨hconnected, hreceiver, hreturned, hleaving, hstdout⟩ : s'.connected = s.connected ∧
    s'.clientReceiver = s.clientReceiver ∧ s'.returned = s.returned ∧ s'.leaving = s.leaving ∧
    s'.stdout = s.stdout := by simpa using hs
  refine ⟨?_, hconnected ▸ h.connected, hreceiver ▸ h.line, ?_⟩
  · rw [written_snoc hwrites, queued_snoc hputs, hreturned, hleaving, h.carried]
  · rw [written_snoc hwrites, hstdout, h.output]

theorem readline_cases {raw : String} (hstep : s.step (.readline raw) = some s') :
    ∃ c, s.clientSender = .reading c ∧
      ((strip raw = "" ∧ s' = { s with
        clientSender := if c + 1 > 100 then .stopped else .reading (c + 1) }) ∨
      (strip raw ≠ "" ∧ s' = { s with clientSender := .sending (strip raw) })) := by
  rw [step, clientSenderStep] at hstep
  cases hs : s.clientSender with
  | reading c =>
    simp only [hs] at hstep
    refine ⟨c, rfl, ?_⟩
    by_cases hblank : strip raw = ""
    · rw [if_pos hblank] at hstep
      exact Or.inl ⟨hblank, (Option.some.inj hstep).symm⟩
    · rw [if_neg hblank] at hstep
      exact Or.inr ⟨hblank, (Option.some.inj hstep).symm⟩
  | sending line => simp [hs] at hstep
  | stopped => simp [hs] at hstep

theorem clientSend_cases (hstep : s.step .clientSend = some s') :
    ∃ line, s.clientSender = .sending line ∧ s' = { s with
      clientSender := .reading 0
      toServer := if s.connected then s.toServer ++ [line] else s.toServer } := by
  rw [step, clientSenderStep] at hstep
  cases hs : s.clientSender with
  | sending line =>
    simp only [hs] at hstep
    exact ⟨line, rfl, (Option.some.inj hstep).symm⟩
  | reading c => simp [hs] at hstep
  | stopped => simp [hs] at hstep

theorem serverRecv_cases (hstep : s.step .serverRecv = some s') :
    s.serverReceiver = none ∧ ∃ line rest, s.toServer = line :: rest ∧
      s' = { s with serverReceiver := some line, toServer := rest } := by
  rw [step, serverReceiverStep] at hstep
  split at hstep
  · rename_i line rest hheld hwire
    exact ⟨hheld, line, rest, hwire, (Option.some.inj hstep).symm⟩
  · cases hstep

theorem serverPut_cases (hstep : s.step .serverPut = some s') :
    ∃ line, s.serverReceiver = some line ∧
      s' = { s with serverReceiver := none, receiverQueue := s.receiverQueue ++ [line] } := by
  rw [step, serverReceiverStep] at hstep
  obtain ⟨line, hline, rfl⟩ := Option.map_eq_some_iff.mp hstep
  exact ⟨line, hline, rfl⟩

theorem take_cases {line : String} (hstep : s.step (.take line) = some s') :
    ∃ rest, s.receiverQueue = line :: rest ∧ s' = { s with receiverQueue := rest } := by
  rw [step] at hstep
  split at hstep
  · cases hstep
  · rename_i l rest hqueue
    split_ifs at hstep with hl
    exact ⟨rest, hl ▸ hqueue, (Option.some.inj hstep).symm⟩

theorem serverGet_cases (hstep : s.step .serverGet = some s') :
    s.serverSender = none ∧ ∃ line rest, s.senderQueue = line :: rest ∧
      s' = { s with serverSender := some line, senderQueue := rest } := by
  rw [step, serverSenderStep] at hstep
  split at hstep
  · rename_i line rest hheld hqueue
    exact ⟨hheld, line, rest, hqueue, (Option.some.inj hstep).symm⟩
  · cases hstep

theorem serverSend_cases (hstep : s.step .serverSend = some s') :
    ∃ line, s.serverSender = some line ∧ s' = { s with
      serverSender := none
      toClient := if s.connected then s.toClient ++ [line] else s.toClient } := by
  rw [step, serverSenderStep] at hstep
  obtain ⟨line, hline, rfl⟩ := Option.map_eq_some_iff.mp hstep
  exact ⟨line, hline, rfl⟩

theorem clientRecv_cases (hstep : s.step .clientRecv = some s') :
    s.clientReceiver = none ∧ ∃ line rest, s.toClient = line :: rest ∧ s' = { s with
      clientReceiver := if line = "" then none else some line, toClient := rest } := by
  rw [step, clientReceiverStep] at hstep
  split at hstep
  · rename_i line rest hheld hwire
    exact ⟨hheld, line, rest, hwire, (Option.some.inj hstep).symm⟩
  · cases hstep

theorem clientWrite_cases {line : String} (hstep : s.step (.clientWrite line) = some s') :
    s.clientReceiver = some line ∧
      s' = { s with clientReceiver := none, stdout := s.stdout ++ (line ++ "\n") } := by
  rw [step, clientReceiverStep] at hstep
  split_ifs at hstep with hheld
  exact ⟨hheld, (Option.some.inj hstep).symm⟩

theorem lose_cases {up down : ℕ} (hstep : s.step (.lose up down) = some s') :
    s.connected = true ∧ s' = { s with
      connected := false, toServer := s.toServer.take up, toClient := s.toClient.take down } := by
  rw [step] at hstep
  split_ifs at hstep with hconnected
  exact ⟨hconnected, (Option.some.inj hstep).symm⟩

theorem Up.readline {raw : String} (h : Up done s lost) (hstep : s.step (.readline raw) = some s') :
    Up (done ++ [.readline raw]) s' lost := by
  have hread : linesRead (done ++ [.readline raw]) = linesRead done ++ [strip raw] := by simp [linesRead, Action.reads]
  have htaken : taken (done ++ [.readline raw]) = taken done := taken_snoc rfl
  obtain ⟨c, hc, ⟨hblank, rfl⟩ | ⟨hline, rfl⟩⟩ := readline_cases hstep
  · have hcarried := h.carried
    have hblanks := h.blanks
    have hle := h.counter c hc
    rw [hc] at hcarried hblanks
    have hheld : (if c + 1 > 100 then ClientSender.stopped else .reading (c + 1)).held = [] := by
      split_ifs <;> rfl
    refine ⟨?_, h.connected, ?_, ?_, fun k hk => ?_⟩
    · rw [hread, htaken, hblank, nonblank_append, nonblank_blank, List.append_nil, ← hcarried, hheld]
      rfl
    · rw [hheld]
      exact fun _ hl => absurd hl List.not_mem_nil
    · rw [hread, hblank, trailingBlanks_blank, hblanks]
      dsimp only
      split_ifs with hmany
      · change c + 1 = 101
        omega
      · rfl
    · dsimp only at hk
      split_ifs at hk with hmany
      obtain rfl := ClientSender.reading.inj hk
      omega
  · have hcarried := h.carried
    rw [hc] at hcarried
    refine ⟨?_, h.connected, fun line hl => ?_, ?_, nofun⟩
    · rw [hread, htaken, nonblank_append, nonblank_singleton hline, ← hcarried]
      simp [arrived, ClientSender.held]
    · exact List.mem_singleton.mp hl ▸ hline
    · rw [hread, trailingBlanks_line hline]
      rfl

theorem Up.clientSend (h : Up done s lost) (hstep : s.step .clientSend = some s') :
    ∃ lost', Up (done ++ [.clientSend]) s' lost' := by
  obtain ⟨line, hline, rfl⟩ := clientSend_cases hstep
  have hcarried := h.carried
  have hblanks := h.blanks
  rw [hline] at hcarried hblanks
  refine ⟨if s.connected then [] else lost ++ [line], ?_, fun hconnected => if_pos hconnected,
    fun _ hl => absurd hl List.not_mem_nil, ?_, fun k hk => ?_⟩
  · rw [taken_snoc rfl, linesRead_snoc rfl, ← hcarried]
    cases hconnected : s.connected with
    | true => simp [arrived, ClientSender.held, h.connected hconnected]
    | false => simp [arrived, ClientSender.held]
  · rw [linesRead_snoc rfl]
    exact hblanks
  · obtain rfl := ClientSender.reading.inj hk
    exact Nat.zero_le 100

theorem Up.serverRecv (h : Up done s lost) (hstep : s.step .serverRecv = some s') :
    Up (done ++ [.serverRecv]) s' lost := by
  obtain ⟨hheld, line, rest, hwire, rfl⟩ := serverRecv_cases hstep
  refine ⟨?_, h.connected, h.line, ?_, h.counter⟩
  · rw [taken_snoc rfl, linesRead_snoc rfl, ← h.carried]
    simp [arrived, hheld, hwire]
  · rw [linesRead_snoc rfl, h.blanks]

theorem Up.serverPut (h : Up done s lost) (hstep : s.step .serverPut = some s') :
    Up (done ++ [.serverPut]) s' lost := by
  obtain ⟨line, hheld, rfl⟩ := serverPut_cases hstep
  refine ⟨?_, h.connected, h.line, ?_, h.counter⟩
  · rw [taken_snoc rfl, linesRead_snoc rfl, ← h.carried]
    simp [arrived, hheld]
  · rw [linesRead_snoc rfl, h.blanks]

theorem Up.take {line : String} (h : Up done s lost) (hstep : s.step (.take line) = some s') :
    Up (done ++ [.take line]) s' lost := by
  obtain ⟨rest, hqueue, rfl⟩ := take_cases hstep
  have htaken : taken (done ++ [.take line]) = taken done ++ [line] := by simp [taken, Action.takes]
  refine ⟨?_, h.connected, h.line, ?_, h.counter⟩
  · rw [htaken, linesRead_snoc rfl, ← h.carried]
    simp [arrived, hqueue]
  · rw [linesRead_snoc rfl, h.blanks]

theorem Down.put {line : String} (h : Down done s lost) (hstep : s.step (.put line) = some s') :
    Down (done ++ [.put line]) s' lost := by
  obtain rfl := Option.some.inj hstep
  have hqueued : queued (done ++ [.put line]) = queued done ++ [line] := by simp [queued, Action.puts]
  refine ⟨?_, h.connected, h.line, ?_⟩
  · rw [written_snoc rfl, hqueued, nonblank_append, ← h.carried]
    simp [returned, leaving, nonblank_append]
  · rw [written_snoc rfl, h.output]

theorem Down.serverGet (h : Down done s lost) (hstep : s.step .serverGet = some s') :
    Down (done ++ [.serverGet]) s' lost := by
  obtain ⟨hheld, line, rest, hqueue, rfl⟩ := serverGet_cases hstep
  refine ⟨?_, h.connected, h.line, ?_⟩
  · rw [written_snoc rfl, queued_snoc rfl, ← h.carried]
    simp [returned, leaving, hheld, hqueue]
  · rw [written_snoc rfl, h.output]

theorem Down.serverSend (h : Down done s lost) (hstep : s.step .serverSend = some s') :
    ∃ lost', Down (done ++ [.serverSend]) s' lost' := by
  obtain ⟨line, hheld, rfl⟩ := serverSend_cases hstep
  refine ⟨if s.connected then [] else lost ++ nonblank [line], ?_, fun hconnected => if_pos hconnected,
    h.line, ?_⟩
  · rw [written_snoc rfl, queued_snoc rfl, ← h.carried]
    have hsplit : nonblank (line :: s.senderQueue) = nonblank [line] ++ nonblank s.senderQueue :=
      nonblank_append [line] s.senderQueue
    cases hconnected : s.connected with
    | true => simp [returned, leaving, hheld, hsplit, nonblank_append, h.connected hconnected]
    | false => simp [returned, leaving, hheld, hsplit]
  · rw [written_snoc rfl, h.output]

theorem Down.clientRecv (h : Down done s lost) (hstep : s.step .clientRecv = some s') :
    Down (done ++ [.clientRecv]) s' lost := by
  obtain ⟨hheld, line, rest, hwire, rfl⟩ := clientRecv_cases hstep
  refine ⟨?_, h.connected, ?_, ?_⟩
  · rw [written_snoc rfl, queued_snoc rfl, ← h.carried]
    by_cases hblank : line = "" <;> simp [returned, leaving, hheld, hwire, hblank, nonblank]
  · by_cases hblank : line = "" <;> simp [hblank]
  · rw [written_snoc rfl, h.output]

theorem Down.clientWrite {line : String} (h : Down done s lost)
    (hstep : s.step (.clientWrite line) = some s') : Down (done ++ [.clientWrite line]) s' lost := by
  obtain ⟨hheld, rfl⟩ := clientWrite_cases hstep
  have hline : line ≠ "" := fun hblank => h.line (hblank ▸ hheld)
  have hwritten : written (done ++ [.clientWrite line]) = written done ++ [line] := by simp [written, Action.writes]
  refine ⟨?_, h.connected, nofun, ?_⟩
  · rw [hwritten, queued_snoc rfl, ← h.carried]
    simp [returned, leaving, hheld, hline, nonblank]
  · rw [hwritten, stdoutText_snoc, ← h.output]

theorem Up.lose {up down : ℕ} (h : Up done s lost) (hstep : s.step (.lose up down) = some s') :
    Up (done ++ [.lose up down]) s' (s.toServer.drop up) := by
  obtain ⟨hconnected, rfl⟩ := lose_cases hstep
  refine ⟨?_, nofun, h.line, ?_, h.counter⟩
  · rw [taken_snoc rfl, linesRead_snoc rfl, ← h.carried, h.connected hconnected]
    simp [arrived]
  · rw [linesRead_snoc rfl, h.blanks]

theorem Down.lose {up down : ℕ} (h : Down done s lost) (hstep : s.step (.lose up down) = some s') :
    Down (done ++ [.lose up down]) s' (nonblank (s.toClient.drop down)) := by
  obtain ⟨hconnected, rfl⟩ := lose_cases hstep
  refine ⟨?_, nofun, h.line, ?_⟩
  · rw [written_snoc rfl, queued_snoc rfl, ← h.carried, h.connected hconnected]
    simp only [returned, leaving, List.append_nil, List.append_assoc, ← nonblank_append,
      List.take_append_drop]
  · rw [written_snoc rfl, h.output]

theorem carried_step {lostUp lostDown : List String} (hup : Up done s lostUp)
    (hdown : Down done s lostDown) (hstep : s.step a = some s') :
    ∃ lostUp' lostDown', Up (done ++ [a]) s' lostUp' ∧ Down (done ++ [a]) s' lostDown' := by
  cases a with
  | readline raw =>
    obtain ⟨c, -, ⟨-, rfl⟩ | ⟨-, rfl⟩⟩ := readline_cases hstep
    · exact ⟨_, _, hup.readline hstep, hdown.frame rfl rfl rfl⟩
    · exact ⟨_, _, hup.readline hstep, hdown.frame rfl rfl rfl⟩
  | clientSend =>
    obtain ⟨lost', hup'⟩ := hup.clientSend hstep
    obtain ⟨line, -, rfl⟩ := clientSend_cases hstep
    exact ⟨_, _, hup', hdown.frame rfl rfl rfl⟩
  | serverRecv =>
    have hup' := hup.serverRecv hstep
    obtain ⟨-, line, rest, -, rfl⟩ := serverRecv_cases hstep
    exact ⟨_, _, hup', hdown.frame rfl rfl rfl⟩
  | serverPut =>
    have hup' := hup.serverPut hstep
    obtain ⟨line, -, rfl⟩ := serverPut_cases hstep
    exact ⟨_, _, hup', hdown.frame rfl rfl rfl⟩
  | take line =>
    have hup' := hup.take hstep
    obtain ⟨rest, -, rfl⟩ := take_cases hstep
    exact ⟨_, _, hup', hdown.frame rfl rfl rfl⟩
  | put line =>
    have hdown' := hdown.put hstep
    obtain rfl := Option.some.inj hstep
    exact ⟨_, _, hup.frame rfl rfl rfl, hdown'⟩
  | serverGet =>
    have hdown' := hdown.serverGet hstep
    obtain ⟨-, line, rest, -, rfl⟩ := serverGet_cases hstep
    exact ⟨_, _, hup.frame rfl rfl rfl, hdown'⟩
  | serverSend =>
    obtain ⟨lost', hdown'⟩ := hdown.serverSend hstep
    obtain ⟨line, -, rfl⟩ := serverSend_cases hstep
    exact ⟨_, _, hup.frame rfl rfl rfl, hdown'⟩
  | clientRecv =>
    have hdown' := hdown.clientRecv hstep
    obtain ⟨-, line, rest, -, rfl⟩ := clientRecv_cases hstep
    exact ⟨_, _, hup.frame rfl rfl rfl, hdown'⟩
  | clientWrite line =>
    have hdown' := hdown.clientWrite hstep
    obtain ⟨-, rfl⟩ := clientWrite_cases hstep
    exact ⟨_, _, hup.frame rfl rfl rfl, hdown'⟩
  | lose up down => exact ⟨_, _, hup.lose hstep, hdown.lose hstep⟩

end steps

section runs
variable {actions : List Action} {s : Relay}

theorem carried_run (hrun : actions.foldlM step init = some s) :
    ∃ lostUp lostDown, Up actions s lostUp ∧ Down actions s lostDown := by
  refine Runs.foldlM_visited_invariant (Q := fun done s => ∃ lostUp lostDown, Up done s lostUp ∧
    Down done s lostDown) (fun done a rest s s' _ h hstep => ?_) ⟨[], [], up_init, down_init⟩ hrun
  obtain ⟨lostUp, lostDown, hup, hdown⟩ := h
  exact carried_step hup hdown hstep

/-- Under every interleaving, and whenever the connection is lost, both ends get the lines that
were put in at the other, in their order and each once, up to some line; while the connection
lasts, the others are on their way. -/
theorem relay_inOrder (hrun : actions.foldlM step init = some s) :
    taken actions <+: nonblank (linesRead actions) ∧
    written actions <+: nonblank (queued actions) ∧
    (s.connected = true →
      taken actions ++ s.arrived ++ s.clientSender.held = nonblank (linesRead actions) ∧
      written actions ++ nonblank (s.returned ++ s.leaving) = nonblank (queued actions)) ∧
    ((∀ line ∈ queued actions, '\n' ∉ line.toList) →
      s.stdout.toList.splitOn '\n' = (written actions).map String.toList ++ [[]]) ∧
    (s.clientSender = .stopped ↔ 100 < trailingBlanks (linesRead actions)) := by
  obtain ⟨lostUp, lostDown, hup, hdown⟩ := carried_run hrun
  have hwritten : written actions <+: nonblank (queued actions) := by
    rw [← hdown.carried, List.append_assoc, List.append_assoc]
    exact List.prefix_append _ _
  refine ⟨?_, hwritten, fun hconnected => ⟨?_, ?_⟩, fun hlines => ?_, ?_⟩
  · rw [← hup.carried, List.append_assoc, List.append_assoc]
    exact List.prefix_append _ _
  · rw [← hup.carried, hup.connected hconnected, List.append_nil]
  · rw [← hdown.carried, hdown.connected hconnected, List.append_nil, nonblank_append, List.append_assoc]
  · rw [hdown.output]
    exact splitOn_stdoutText fun line hl => hlines line (List.mem_of_mem_filter (hwritten.subset hl))
  · rw [hup.blanks]
    cases hs : s.clientSender with
    | reading c => simp [ClientSender.blanks, hup.counter c hs]
    | sending line => simp [ClientSender.blanks]
    | stopped => simp [ClientSender.blanks]

end runs

def Action.isThread : Action → Bool
  | .readline _ | .put _ | .lose _ _ => false
  | _ => true

def upPlaces (s : Relay) : List (List String) :=
  [[], s.receiverQueue, s.serverReceiver.toList, s.toServer, s.clientSender.held]

def downPlaces (s : Relay) : List (List String) :=
  [[], s.clientReceiver.toList, s.toClient, s.serverSender.toList, s.senderQueue]

def work (s : Relay) : ℕ := Channels.work s.upPlaces + Channels.work s.downPlaces

def Idle (s : Relay) : Prop := ∀ a : Action, a.isThread = true → s.step a = none

section delivery
variable {actions : List Action} {a : Action} {s s' : Relay}

theorem work_lt (ha : a.isThread = true) (hstep : s.step a = some s') : s'.work < s.work := by
  cases a with
  | readline raw => cases ha
  | put line => cases ha
  | lose up down => cases ha
  | clientSend =>
    obtain ⟨line, hline, rfl⟩ := clientSend_cases hstep
    apply Nat.add_lt_add_right
    cases hconnected : s.connected with
    | true =>
      have h := (Pass.behind [] (.behind s.receiverQueue (.behind s.serverReceiver.toList
        (.here s.toServer [] line [])))).work
      simp only [upPlaces, hline, if_true, ClientSender.held]
      omega
    | false =>
      have h := (Drop.behind [] (.behind s.receiverQueue (.behind s.serverReceiver.toList
        (.here s.toServer [] line [])))).work.1
      simpa [upPlaces, hline, hconnected, ClientSender.held] using h
  | serverRecv =>
    obtain ⟨hheld, line, rest, hwire, rfl⟩ := serverRecv_cases hstep
    apply Nat.add_lt_add_right
    have h := (Pass.behind [] (.behind s.receiverQueue (.here [] rest line [s.clientSender.held]))).work
    rw [upPlaces, upPlaces, hheld, hwire]
    exact Nat.lt_of_succ_le h.le
  | serverPut =>
    obtain ⟨line, hheld, rfl⟩ := serverPut_cases hstep
    apply Nat.add_lt_add_right
    have h := (Pass.behind [] (.here s.receiverQueue [] line [s.toServer, s.clientSender.held])).work
    rw [upPlaces, upPlaces, hheld]
    exact Nat.lt_of_succ_le h.le
  | take line =>
    obtain ⟨rest, hqueue, rfl⟩ := take_cases hstep
    apply Nat.add_lt_add_right
    have h := (Pass.here [] rest line [s.serverReceiver.toList, s.toServer, s.clientSender.held]).work
    rw [upPlaces, upPlaces, hqueue]
    exact Nat.lt_of_succ_le h.le
  | serverGet =>
    obtain ⟨hheld, line, rest, hqueue, rfl⟩ := serverGet_cases hstep
    apply Nat.add_lt_add_left
    have h := (Pass.behind [] (.behind s.clientReceiver.toList (.behind s.toClient
      (.here [] rest line [])))).work
    rw [downPlaces, downPlaces, hheld, hqueue]
    exact Nat.lt_of_succ_le h.le
  | serverSend =>
    obtain ⟨line, hheld, rfl⟩ := serverSend_cases hstep
    apply Nat.add_lt_add_left
    cases hconnected : s.connected with
    | true =>
      have h := (Pass.behind [] (.behind s.clientReceiver.toList
        (.here s.toClient [] line [s.senderQueue]))).work
      simp only [downPlaces, hheld, if_true]
      exact Nat.lt_of_succ_le h.le
    | false =>
      have h := (Drop.behind [] (.behind s.clientReceiver.toList
        (.here s.toClient [] line [s.senderQueue]))).work.1
      simpa [downPlaces, hheld, hconnected] using h
  | clientRecv =>
    obtain ⟨hheld, line, rest, hwire, rfl⟩ := clientRecv_cases hstep
    apply Nat.add_lt_add_left
    rw [downPlaces, downPlaces, hheld, hwire]
    by_cases hblank : line = ""
    · have h := (Drop.behind [] (.here [] rest line [s.serverSender.toList, s.senderQueue])).work.1
      simpa [hblank] using h
    · have h := (Pass.behind [] (.here [] rest line [s.serverSender.toList, s.senderQueue])).work
      simp only [if_neg hblank]
      exact Nat.lt_of_succ_le h.le
  | clientWrite line =>
    obtain ⟨hheld, rfl⟩ := clientWrite_cases hstep
    apply Nat.add_lt_add_left
    have h := (Pass.here [] [] line [s.toClient, s.serverSender.toList, s.senderQueue]).work
    rw [downPlaces, downPlaces, hheld]
    exact Nat.lt_of_succ_le h.le

theorem Idle.empty (h : s.Idle) :
    s.arrived = [] ∧ s.clientSender.held = [] ∧ s.returned = [] ∧ s.leaving = [] := by
  have hsender : s.clientSender.held = [] := by
    have hnone := h .clientSend rfl
    cases hs : s.clientSender with
    | sending line => simp [step, clientSenderStep, hs] at hnone
    | reading c => rfl
    | stopped => rfl
  have hput : s.serverReceiver = none := Option.map_eq_none_iff.mp (h .serverPut rfl)
  have hsend : s.serverSender = none := Option.map_eq_none_iff.mp (h .serverSend rfl)
  have hwrite : s.clientReceiver = none := by
    cases hs : s.clientReceiver with
    | none => rfl
    | some line =>
      have hnone := h (.clientWrite line) rfl
      simp [step, clientReceiverStep, hs] at hnone
  have hrecv : s.toServer = [] := by
    have hnone := h .serverRecv rfl
    cases hs : s.toServer with
    | nil => rfl
    | cons line rest => simp [step, serverReceiverStep, hput, hs] at hnone
  have hqueue : s.receiverQueue = [] := by
    cases hs : s.receiverQueue with
    | nil => rfl
    | cons line rest =>
      have hnone := h (.take line) rfl
      simp [step, hs] at hnone
  have hget : s.senderQueue = [] := by
    have hnone := h .serverGet rfl
    cases hs : s.senderQueue with
    | nil => rfl
    | cons line rest => simp [step, serverSenderStep, hsend, hs] at hnone
  have haccept : s.toClient = [] := by
    have hnone := h .clientRecv rfl
    cases hs : s.toClient with
    | nil => rfl
    | cons line rest => simp [step, clientReceiverStep, hwrite, hs] at hnone
  exact ⟨by simp [arrived, hqueue, hput, hrecv], hsender, by simp [returned, hwrite, haccept],
    by simp [leaving, hsend, hget]⟩

theorem logs_threads (actions : List Action) {more : List Action} (hmore : ∀ a ∈ more, a.isThread = true) :
    linesRead (actions ++ more) = linesRead actions ∧ queued (actions ++ more) = queued actions := by
  have hnone : ∀ a : Action, a.isThread = true → a.reads = none ∧ a.puts = none := by
    intro a ha
    cases a with
    | readline raw => cases ha
    | put line => cases ha
    | _ => exact ⟨rfl, rfl⟩
  constructor
  · rw [linesRead, List.filterMap_append,
      List.filterMap_eq_nil_iff.mpr fun a ha => (hnone a (hmore a ha)).1, List.append_nil, linesRead]
  · rw [queued, List.filterMap_append,
      List.filterMap_eq_nil_iff.mpr fun a ha => (hnone a (hmore a ha)).2, List.append_nil, queued]

/-- From every state the threads come to rest, however they are scheduled, after a number of
steps that the state bounds; and if the connection lasted, each end has got every line. -/
theorem relay_delivers (hrun : actions.foldlM step init = some s) :
    (∃ (more : List Action) (s' : Relay), (∀ a ∈ more, a.isThread = true) ∧
      more.foldlM step s = some s' ∧ s'.Idle) ∧
    ∀ (more : List Action) (s' : Relay), (∀ a ∈ more, a.isThread = true) →
      more.foldlM step s = some s' → more.length ≤ s.work ∧ (s'.Idle → s'.connected = true →
        taken (actions ++ more) = nonblank (linesRead actions) ∧
        written (actions ++ more) = nonblank (queued actions)) := by
  refine ⟨Runs.exists_foldlM_idle (T := fun a : Action => a.isThread = true) (w := work)
    (fun _ _ _ => work_lt) s, fun more s' hmore hrest => ?_⟩
  have hlength := Runs.foldlM_length_le (w := work) (fun _ _ (a : Action) ha =>
    work_lt (hmore a ha)) hrest
  refine ⟨by omega, fun hidle hconnected => ?_⟩
  have hall : (actions ++ more).foldlM step init = some s' := by
    rw [List.foldlM_append, hrun]
    exact hrest
  obtain ⟨lostUp, lostDown, hup, hdown⟩ := carried_run hall
  obtain ⟨hread, hqueued⟩ := logs_threads actions hmore
  obtain ⟨harrived, hheld, hreturned, hleaving⟩ := hidle.empty
  have hcarriedUp := hup.carried
  have hcarriedDown := hdown.carried
  rw [harrived, hheld, hup.connected hconnected, hread] at hcarriedUp
  rw [hreturned, hleaving, hdown.connected hconnected, hqueued] at hcarriedDown
  simp only [List.append_nil] at hcarriedUp
  exact ⟨hcarriedUp, by simpa [nonblank] using hcarriedDown⟩

end delivery

def lostLine : List Action :=
  [.readline "\n", .readline " x\n", .clientSend, .put "b", .readline "y\n", .serverRecv, .clientSend,
    .serverGet, .serverSend, .lose 0 1, .serverPut, .clientRecv, .take "x", .clientWrite "b"]

theorem relay_inOrder_lostLine : ∃ s, lostLine.foldlM step init = some s ∧ s.connected = false ∧
    taken lostLine = ["x"] ∧ taken lostLine <+: nonblank (linesRead lostLine) := by
  obtain ⟨s, hs⟩ := Option.isSome_iff_exists.mp
    (by decide : (lostLine.foldlM step init).isSome = true)
  have hconnected : (lostLine.foldlM step init).map connected = some false := by decide
  rw [hs] at hconnected
  exact ⟨s, hs, Option.some.inj hconnected, by decide, (relay_inOrder hs).1⟩

theorem relay_delivers_lostLine : ∃ s, (lostLine.take 9).foldlM step init = some s ∧
    ∃ (more : List Action) (s' : Relay), (∀ a ∈ more, a.isThread = true) ∧
      more.foldlM step s = some s' ∧ s'.Idle := by
  obtain ⟨s, hs⟩ := Option.isSome_iff_exists.mp
    (by decide : ((lostLine.take 9).foldlM step init).isSome = true)
  exact ⟨s, hs, (relay_delivers hs).1⟩

end Relay
end Hispar.Bgp
