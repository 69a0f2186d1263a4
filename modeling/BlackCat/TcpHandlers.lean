import BlackCat.ByteMemory
import BlackCat.Runs

/-!
The handlers of `TcpConnection` as one machine. Reading and writing are two
chains of asynchronous operations: a completion handler runs when an operation
ends and may start the next one. An operation that is outstanding when the
socket is closed, or started on a closed socket, can only end with an error; a
client may connect again while such operations are still outstanding.
-/
namespace BlackCat.TcpHandlers

open ByteMemory Runs

/-- A buffer, with its number among the calls of `RealSend`, which tells it from
all others. -/
structure Buffer where
  serial : ℕ
  bytes : List Byte
  deriving DecidableEq, Repr

/-- The callbacks a connection invokes: those of `cb_`, and `disconnect_func_`. -/
inductive Callback
  | onRead
  | onWrite
  | onDisconnect
  | disconnectFunc
  deriving DecidableEq, Repr

/-- The members the handlers use, the operations outstanding on the connected
socket and on one that was closed since, and what has happened so far: the
buffers given to `RealSend`, those handed to `Socket::Send`, those whose write
has completed without an error, and the callbacks invoked. -/
structure State where
  socketOpen : Bool
  writtingMsg : Bool
  sendBuf : List Buffer
  reads : ℕ
  writes : List Buffer
  deadReads : ℕ
  deadWrites : List Buffer
  sent : List Buffer
  handed : List Buffer
  written : List Buffer
  calls : List Callback
  deriving DecidableEq, Repr

/-- A connection that was constructed and is not connected yet. -/
def fresh : State := ⟨false, false, [], 0, [], 0, [], [], [], [], []⟩

/-- A read is started, on the socket as it is now. -/
def recv (s : State) : State :=
  { s with
    reads := if s.socketOpen then s.reads + 1 else s.reads
    deadReads := if s.socketOpen then s.deadReads else s.deadReads + 1 }

/-- The write that `Socket::Send` starts for a buffer: none if it is empty. -/
def started (buffer : Buffer) : List Buffer := if buffer.bytes = [] then [] else [buffer]

def socketSend (s : State) (buffer : Buffer) : State :=
  { s with
    handed := s.handed ++ [buffer]
    writes := if s.socketOpen then s.writes ++ started buffer else s.writes
    deadWrites := if s.socketOpen then s.deadWrites else s.deadWrites ++ started buffer }

/-- `Socket::Shutdown`: nothing that is outstanding can succeed any more. -/
def shutdown (s : State) : State :=
  { s with
    socketOpen := false
    reads := 0
    writes := []
    deadReads := s.deadReads + s.reads
    deadWrites := s.deadWrites ++ s.writes }

def onDisconnect (s : State) : State :=
  { s with calls := s.calls ++ [.onDisconnect, .disconnectFunc] }

def checkError (s : State) : State := onDisconnect (shutdown s)

def realSend (s : State) (bytes : List Byte) : State :=
  let buffer : Buffer := ⟨s.sent.length, bytes⟩
  let queued := { s with sendBuf := s.sendBuf ++ [buffer], sent := s.sent ++ [buffer] }
  if s.writtingMsg then queued else socketSend { queued with writtingMsg := true } buffer

def onRead (s : State) : State := recv { s with calls := s.calls ++ [.onRead] }

def onWrite (s : State) : State :=
  let popped := { s with
    writtingMsg := false
    calls := s.calls ++ [.onWrite]
    sendBuf := s.sendBuf.tail }
  match s.sendBuf.tail with
  | [] => popped
  | buffer :: _ => socketSend { popped with writtingMsg := true } buffer

/-- What can happen to a connection: it is connected, by an accept or by
`TcpClient::Connect`; a posted `RealSend` runs; an outstanding operation ends,
well or with an error; somebody calls `Shutdown`. -/
inductive Event
  | connect
  | realSend (bytes : List Byte)
  | readDone
  | readFail
  | writeDone
  | writeFail
  | shutdown
  deriving DecidableEq, Repr

/-- The completion of a write with an error, after the operation was taken off. -/
def onWriteFail (s : State) : State := checkError { s with writtingMsg := false }

/-- An event in a state where it can happen. Which of several outstanding reads
fails first makes no difference, as the socket is closed in either case; of
writes there is never more than one. -/
def step (s : State) : Event → Option State
  | .connect => if s.socketOpen then none else some (recv { s with socketOpen := true })
  | .realSend bytes => some (realSend s bytes)
  | .readDone => if 0 < s.reads then some (onRead { s with reads := s.reads - 1 }) else none
  | .readFail =>
    if 0 < s.deadReads then some (checkError { s with deadReads := s.deadReads - 1 })
    else if 0 < s.reads then some (checkError { s with reads := s.reads - 1 })
    else none
  | .writeDone =>
    match s.writes with
    | [] => none
    | buffer :: rest =>
      some (onWrite { s with writes := rest, written := s.written ++ [buffer] })
  | .writeFail =>
    match s.deadWrites, s.writes with
    | _ :: rest, _ => some (onWriteFail { s with deadWrites := rest })
    | [], _ :: rest => some (onWriteFail { s with writes := rest })
    | [], [] => none
  | .shutdown => some (shutdown s)

variable {s t : State}

theorem step_connect (h : step s .connect = some t) :
    s.socketOpen = false ∧ t = recv { s with socketOpen := true } := by
  by_cases hopen : s.socketOpen = true
  · simp [step, hopen] at h
  · simp only [step, if_neg hopen, Option.some.injEq] at h
    exact ⟨Bool.of_not_eq_true hopen, h.symm⟩

theorem step_readDone (h : step s .readDone = some t) :
    0 < s.reads ∧ t = onRead { s with reads := s.reads - 1 } := by
  by_cases hreads : 0 < s.reads
  · simp only [step, if_pos hreads, Option.some.injEq] at h
    exact ⟨hreads, h.symm⟩
  · simp [step, hreads] at h

theorem step_readFail (h : step s .readFail = some t) :
    (0 < s.deadReads ∧ t = checkError { s with deadReads := s.deadReads - 1 }) ∨
      0 < s.reads ∧ t = checkError { s with reads := s.reads - 1 } := by
  by_cases hdead : 0 < s.deadReads
  · simp only [step, if_pos hdead, Option.some.injEq] at h
    exact Or.inl ⟨hdead, h.symm⟩
  · by_cases hreads : 0 < s.reads
    · simp only [step, if_neg hdead, if_pos hreads, Option.some.injEq] at h
      exact Or.inr ⟨hreads, h.symm⟩
    · simp [step, hdead, hreads] at h

theorem step_writeDone (h : step s .writeDone = some t) :
    ∃ buffer rest, s.writes = buffer :: rest ∧
      t = onWrite { s with writes := rest, written := s.written ++ [buffer] } := by
  cases hlive : s.writes with
  | nil => simp [step, hlive] at h
  | cons buffer rest =>
    simp only [step, hlive, Option.some.injEq] at h
    exact ⟨buffer, rest, rfl, h.symm⟩

theorem step_writeFail (h : step s .writeFail = some t) :
    (∃ buffer rest, s.deadWrites = buffer :: rest ∧
        t = onWriteFail { s with deadWrites := rest }) ∨
      ∃ buffer rest, s.writes = buffer :: rest ∧ t = onWriteFail { s with writes := rest } := by
  cases hdead : s.deadWrites with
  | cons buffer rest =>
    simp only [step, hdead, Option.some.injEq] at h
    exact Or.inl ⟨buffer, rest, rfl, h.symm⟩
  | nil =>
    cases hlive : s.writes with
    | nil => simp [step, hdead, hlive] at h
    | cons buffer rest =>
      simp only [step, hdead, hlive, Option.some.injEq] at h
      exact Or.inr ⟨buffer, rest, rfl, h.symm⟩

end BlackCat.TcpHandlers
