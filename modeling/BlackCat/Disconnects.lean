import BlackCat.TcpHandlers

/-!
How often a connection reports that it went down. Both chains of operations
run the same error path, and so does every write that is started on the closed
socket. Each of them reports once. What has been reported and what is still
outstanding together never get less once the socket is closed, so the
connection reports once exactly if they are one when it closes and stay one.
-/
namespace BlackCat.TcpHandlers

open ByteMemory Runs

/-- A connection that was accepted: its first read has been started. -/
def accepted : State := { fresh with socketOpen := true, reads := 1 }

/-- `cb_.OnDisconnect` and `disconnect_func_` have been invoked at most once, and
neither `cb_.OnRead` nor `cb_.OnWrite` after that. -/
structure Once (s : State) : Prop where
  callback_once : s.calls.count .onDisconnect ≤ 1
  func_once : s.calls.count .disconnectFunc ≤ 1
  silent : ∀ call ∈ s.calls.dropWhile (· ≠ .onDisconnect), call ≠ .onRead ∧ call ≠ .onWrite

/-- Nothing is outstanding on a socket that was closed. -/
def Drained (s : State) : Prop := s.deadReads = 0 ∧ s.deadWrites = []

/-- The socket goes down, by a failed read or a `Shutdown`, while no write is
outstanding; no write fails; and none is started on the closed socket. -/
def Graceful (s : State) : Event → Prop
  | .readFail => s.socketOpen = true → s.writes = []
  | .shutdown => s.socketOpen = true → s.writes = []
  | .writeFail => False
  | .realSend bytes => s.socketOpen = true ∨ s.writtingMsg = true ∨ bytes = []
  | _ => True

/-- The callbacks of so many reports. -/
def reports (k : ℕ) : List Callback := (List.replicate k [.onDisconnect, .disconnectFunc]).flatten

theorem reports_succ (k : ℕ) : reports (k + 1) = reports k ++ [.onDisconnect, .disconnectFunc] := by
  simp [reports, List.replicate_succ', List.flatten_append]

theorem count_reports (k : ℕ) : (reports k).count .onDisconnect = k ∧
    (reports k).count .disconnectFunc = k := by
  induction k with
  | zero => exact ⟨rfl, rfl⟩
  | succ k ih => simp [reports_succ, List.count_append, ih]

theorem mem_reports {k : ℕ} {call : Callback} (h : call ∈ reports k) :
    call ≠ .onRead ∧ call ≠ .onWrite := by
  obtain ⟨pair, hpair, hcall⟩ := List.mem_flatten.mp h
  rw [List.eq_of_mem_replicate hpair] at hcall
  simp only [List.mem_cons, List.not_mem_nil, or_false] at hcall
  rcases hcall with rfl | rfl
  · exact ⟨by decide, by decide⟩
  · exact ⟨by decide, by decide⟩

/-- Callbacks from before any report. -/
def Working (work : List Callback) : Prop := .onDisconnect ∉ work ∧ .disconnectFunc ∉ work

theorem Working.concat {work : List Callback} (h : Working work) (call : Callback)
    (hcall : call = .onRead ∨ call = .onWrite) : Working (work ++ [call]) := by
  rcases hcall with rfl | rfl
  · exact ⟨by simpa using h.1, by simpa using h.2⟩
  · exact ⟨by simpa using h.1, by simpa using h.2⟩

/-- The socket is connected, one read is outstanding and nothing was reported. -/
structure Up (s : State) : Prop where
  socket : s.socketOpen = true
  reading : s.reads = 1
  no_dead_reads : s.deadReads = 0
  no_dead_writes : s.deadWrites = []
  working : Working s.calls

/-- The socket is closed, and there have been k reports. -/
structure Down (s : State) (k : ℕ) : Prop where
  socket : s.socketOpen = false
  no_reads : s.reads = 0
  no_writes : s.writes = []
  reported : ∃ work, Working work ∧ s.calls = work ++ reports k

/-- The reports made and the operations that will each make one. -/
def due (s : State) (k : ℕ) : ℕ := k + s.deadReads + s.deadWrites.length

theorem up_accepted : Up accepted := ⟨rfl, rfl, rfl, rfl, by simp [Working, accepted, fresh]⟩

theorem down_shutdown (s : State) (k : ℕ) (work : List Callback) (hwork : Working work)
    (hcalls : s.calls = work ++ reports k) : Down (shutdown s) k :=
  ⟨rfl, rfl, rfl, work, hwork, hcalls⟩

theorem down_checkError (s : State) (k : ℕ) (work : List Callback) (hwork : Working work)
    (hcalls : s.calls = work ++ reports k) : Down (checkError s) (k + 1) := by
  refine ⟨rfl, rfl, rfl, work, hwork, ?_⟩
  simp only [checkError, onDisconnect, shutdown, hcalls, reports_succ, List.append_assoc]

theorem due_shutdown (s : State) (k : ℕ) :
    due (shutdown s) k = k + s.deadReads + s.reads + s.deadWrites.length + s.writes.length := by
  simp only [due, shutdown, List.length_append]
  omega

theorem due_checkError (s : State) (k : ℕ) :
    due (checkError s) (k + 1) =
      k + 1 + s.deadReads + s.reads + s.deadWrites.length + s.writes.length :=
  due_shutdown s (k + 1)

/-- The events that close the socket. -/
def Closing (e : Event) : Prop := e = .readFail ∨ e = .writeFail ∨ e = .shutdown

theorem Up.socketSend {s : State} (h : Up s) (buffer : Buffer) : Up (socketSend s buffer) where
  socket := h.socket
  reading := h.reading
  no_dead_reads := h.no_dead_reads
  no_dead_writes := by simp [TcpHandlers.socketSend, h.socket, h.no_dead_writes]
  working := h.working

theorem Up.realSend {s : State} (h : Up s) (bytes : List Byte) : Up (realSend s bytes) := by
  unfold TcpHandlers.realSend
  by_cases hflag : s.writtingMsg = true
  · rw [if_pos hflag]
    exact ⟨h.socket, h.reading, h.no_dead_reads, h.no_dead_writes, h.working⟩
  · rw [if_neg hflag]
    apply Up.socketSend
    exact ⟨h.socket, h.reading, h.no_dead_reads, h.no_dead_writes, h.working⟩

theorem Up.onWrite {s : State} (h : Up s) : Up (onWrite s) := by
  have hworking := h.working.concat .onWrite (Or.inr rfl)
  unfold TcpHandlers.onWrite
  cases s.sendBuf.tail with
  | nil => exact ⟨h.socket, h.reading, h.no_dead_reads, h.no_dead_writes, hworking⟩
  | cons buffer rest =>
    apply Up.socketSend
    exact ⟨h.socket, h.reading, h.no_dead_reads, h.no_dead_writes, hworking⟩

/-- What happens to a connected socket: it stays connected, or it closes with as
many reports due as operations were outstanding. -/
theorem Up.step {s t : State} (h : Up s) (e : Event) (hstep : step s e = some t) :
    (Up t ∧ ¬ Closing e) ∨ ∃ k, Down t k ∧ due t k = 1 + s.writes.length ∧
      t.deadWrites.length ≤ s.writes.length ∧ Closing e := by
  cases e with
  | connect =>
    obtain ⟨hclosed, _⟩ := step_connect hstep
    exact absurd (h.socket.symm.trans hclosed) (by decide)
  | realSend bytes =>
    cases hstep
    exact Or.inl ⟨h.realSend bytes, by simp [Closing]⟩
  | readDone =>
    obtain ⟨_, rfl⟩ := step_readDone hstep
    refine Or.inl ⟨⟨h.socket, ?_, ?_, h.no_dead_writes, ?_⟩, by simp [Closing]⟩
    · simp [onRead, recv, h.socket, h.reading]
    · simp [onRead, recv, h.socket, h.no_dead_reads]
    · exact h.working.concat .onRead (Or.inl rfl)
  | readFail =>
    rcases step_readFail hstep with ⟨hdead, _⟩ | ⟨_, rfl⟩
    · rw [h.no_dead_reads] at hdead
      exact absurd hdead (Nat.lt_irrefl 0)
    refine Or.inr ⟨1, down_checkError _ 0 s.calls h.working (List.append_nil _).symm, ?_, ?_,
      Or.inl rfl⟩
    · rw [due_checkError]
      simp [h.reading, h.no_dead_reads, h.no_dead_writes]
    · simp [checkError, onDisconnect, shutdown, h.no_dead_writes]
  | writeDone =>
    obtain ⟨buffer, rest, _, rfl⟩ := step_writeDone hstep
    refine Or.inl ⟨Up.onWrite ?_, by simp [Closing]⟩
    exact ⟨h.socket, h.reading, h.no_dead_reads, h.no_dead_writes, h.working⟩
  | writeFail =>
    rcases step_writeFail hstep with ⟨_, _, hdead, _⟩ | ⟨buffer, rest, hlive, rfl⟩
    · rw [h.no_dead_writes] at hdead
      cases hdead
    refine Or.inr ⟨1, down_checkError _ 0 s.calls h.working (List.append_nil _).symm, ?_, ?_,
      Or.inr (Or.inl rfl)⟩
    · rw [onWriteFail, due_checkError]
      simp only [h.reading, h.no_dead_reads, h.no_dead_writes, hlive, List.length_nil,
        List.length_cons]
      omega
    · simp [onWriteFail, checkError, onDisconnect, shutdown, h.no_dead_writes, hlive]
  | shutdown =>
    cases hstep
    refine Or.inr ⟨0, down_shutdown s 0 s.calls h.working (List.append_nil _).symm, ?_, ?_,
      Or.inr (Or.inr rfl)⟩
    · rw [due_shutdown]
      simp [h.reading, h.no_dead_reads, h.no_dead_writes]
    · simp [shutdown, h.no_dead_writes]

theorem Down.realSend {s : State} {k : ℕ} (h : Down s k) (bytes : List Byte) :
    Down (realSend s bytes) k := by
  unfold TcpHandlers.realSend
  by_cases hflag : s.writtingMsg = true
  · rw [if_pos hflag]
    exact ⟨h.socket, h.no_reads, h.no_writes, h.reported⟩
  · rw [if_neg hflag]
    refine ⟨h.socket, h.no_reads, ?_, h.reported⟩
    simp [socketSend, h.socket, h.no_writes]

theorem Down.due_realSend {s : State} {k : ℕ} (h : Down s k) (bytes : List Byte) :
    (Graceful s (.realSend bytes) → due (TcpHandlers.realSend s bytes) k = due s k ∧
        (TcpHandlers.realSend s bytes).deadWrites = s.deadWrites) ∧
      (¬ Graceful s (.realSend bytes) →
        due (TcpHandlers.realSend s bytes) k = due s k + 1) := by
  unfold TcpHandlers.realSend
  by_cases hflag : s.writtingMsg = true
  · simp [hflag, due, Graceful]
  · by_cases hempty : bytes = []
    · simp [hflag, hempty, due, Graceful, socketSend, started]
    · simp [hflag, hempty, due, Graceful, socketSend, started, h.socket]
      omega

/-- What happens to a closed socket: an outstanding operation turns into a report,
or a write is started that will make one more. -/
theorem Down.step {s t : State} {k : ℕ} (h : Down s k) (e : Event) (he : e ≠ .connect)
    (hstep : step s e = some t) :
    ∃ l, Down t l ∧ due s k ≤ due t l ∧
      (Graceful s e → due t l = due s k ∧ t.deadWrites = s.deadWrites) ∧
      (¬ Graceful s e → e ≠ .writeFail → due t l = due s k + 1) := by
  obtain ⟨work, hwork, hcalls⟩ := h.reported
  cases e with
  | connect => exact absurd rfl he
  | realSend bytes =>
    cases hstep
    obtain ⟨hsame, hmore⟩ := h.due_realSend bytes
    refine ⟨k, h.realSend bytes, ?_, hsame, fun hbad _ => hmore hbad⟩
    by_cases hok : Graceful s (.realSend bytes)
    · exact Nat.le_of_eq (hsame hok).1.symm
    · rw [hmore hok]
      exact Nat.le_succ _
  | readDone =>
    obtain ⟨hreads, _⟩ := step_readDone hstep
    rw [h.no_reads] at hreads
    exact absurd hreads (Nat.lt_irrefl 0)
  | readFail =>
    rcases step_readFail hstep with ⟨hdead, rfl⟩ | ⟨hreads, _⟩
    · have hdue : due (checkError { s with deadReads := s.deadReads - 1 }) (k + 1) = due s k := by
        rw [due_checkError]
        simp only [due, h.no_reads, h.no_writes, List.length_nil]
        omega
      refine ⟨k + 1, down_checkError _ k work hwork hcalls, Nat.le_of_eq hdue.symm, ?_, ?_⟩
      · intro _
        exact ⟨hdue, by simp [checkError, onDisconnect, shutdown, h.no_writes]⟩
      · intro hbad
        exact absurd (fun _ => h.no_writes) hbad
    · rw [h.no_reads] at hreads
      exact absurd hreads (Nat.lt_irrefl 0)
  | writeDone =>
    obtain ⟨buffer, rest, hlive, _⟩ := step_writeDone hstep
    rw [h.no_writes] at hlive
    cases hlive
  | writeFail =>
    rcases step_writeFail hstep with ⟨buffer, rest, hdead, rfl⟩ | ⟨buffer, rest, hlive, _⟩
    · refine ⟨k + 1, down_checkError _ k work hwork hcalls, ?_, False.elim,
        fun _ hne => absurd rfl hne⟩
      rw [onWriteFail, due_checkError]
      simp only [due, h.no_reads, hdead, List.length_cons]
      omega
    · rw [h.no_writes] at hlive
      cases hlive
  | shutdown =>
    cases hstep
    have hdue : due (shutdown s) k = due s k := by
      rw [due_shutdown]
      simp only [due, h.no_reads, h.no_writes, List.length_nil, Nat.add_zero]
    refine ⟨k, down_shutdown s k work hwork hcalls, Nat.le_of_eq hdue.symm, ?_, ?_⟩
    · intro _
      exact ⟨hdue, by simp [shutdown, h.no_writes]⟩
    · intro hbad
      exact absurd (fun _ => h.no_writes) hbad

/-- Nothing was reported yet, or one report is all there will be. -/
def Calm (s : State) : Prop := Up s ∨ ∃ k, Down s k ∧ due s k = 1 ∧ s.deadWrites = []

/-- More than one report was made or will be. -/
def Doomed (s : State) : Prop := ∃ k, Down s k ∧ 2 ≤ due s k

theorem Up.graceful_iff {s t : State} (h : Up s) {e : Event}
    (hstep : TcpHandlers.step s e = some t) :
    Graceful s e ↔ (Closing e → s.writes = []) := by
  cases e with
  | connect => simp [Graceful, Closing]
  | realSend bytes => simp [Graceful, Closing, h.socket]
  | readDone => simp [Graceful, Closing]
  | readFail => simp [Graceful, Closing, h.socket]
  | writeDone => simp [Graceful, Closing]
  | writeFail =>
    rcases step_writeFail hstep with ⟨_, _, hdead, _⟩ | ⟨_, _, hlive, _⟩
    · rw [h.no_dead_writes] at hdead
      cases hdead
    · simp [Graceful, Closing, hlive]
  | shutdown => simp [Graceful, Closing, h.socket]

theorem Calm.keep {s t : State} (h : Calm s) (e : Event) (he : e ≠ .connect)
    (hok : Graceful s e) (hstep : step s e = some t) : Calm t := by
  rcases h with hup | ⟨k, hdown, hdue, hdead⟩
  · rcases hup.step e hstep with ⟨hup', -⟩ | ⟨k, hdown, hdue, hdead, hclosing⟩
    · exact Or.inl hup'
    · rw [(hup.graceful_iff hstep).mp hok hclosing] at hdue hdead
      exact Or.inr ⟨k, hdown, hdue, List.length_eq_zero_iff.mp (Nat.le_zero.mp hdead)⟩
  · obtain ⟨l, hdown', -, hkeep, -⟩ := hdown.step e he hstep
    obtain ⟨hsame, hdead'⟩ := hkeep hok
    exact Or.inr ⟨l, hdown', hsame.trans hdue, hdead'.trans hdead⟩

theorem Calm.doomed {s t : State} (h : Calm s) (e : Event) (he : e ≠ .connect)
    (hbad : ¬ Graceful s e) (hstep : step s e = some t) : Doomed t := by
  rcases h with hup | ⟨k, hdown, hdue, hdead⟩
  · obtain ⟨hclosing, hbusy⟩ := Classical.not_imp.mp (mt (hup.graceful_iff hstep).mpr hbad)
    have hpos := List.length_pos_iff.mpr hbusy
    rcases hup.step e hstep with ⟨-, hopen⟩ | ⟨k, hdown, hdue, -⟩
    · exact absurd hclosing hopen
    · exact ⟨k, hdown, by omega⟩
  · have hfail : e ≠ .writeFail := by
      rintro rfl
      rcases step_writeFail hstep with ⟨_, _, hsome, _⟩ | ⟨_, _, hlive, _⟩
      · rw [hdead] at hsome
        cases hsome
      · rw [hdown.no_writes] at hlive
        cases hlive
    obtain ⟨l, hdown', -, -, hmore⟩ := hdown.step e he hstep
    have hone := hmore hbad hfail
    exact ⟨l, hdown', by omega⟩

theorem Doomed.keep {s t : State} (h : Doomed s) (e : Event) (he : e ≠ .connect)
    (hstep : step s e = some t) : Doomed t := by
  obtain ⟨k, hdown, hdue⟩ := h
  obtain ⟨l, hdown', hle, -⟩ := hdown.step e he hstep
  exact ⟨l, hdown', hdue.trans hle⟩

theorem count_of_reported {calls work : List Callback} {k : ℕ} (hwork : Working work)
    (hcalls : calls = work ++ reports k) :
    calls.count .onDisconnect = k ∧ calls.count .disconnectFunc = k := by
  obtain ⟨hcb, hfunc⟩ := count_reports k
  rw [hcalls, List.count_append, List.count_append, hcb, hfunc,
    List.count_eq_zero.mpr hwork.1, List.count_eq_zero.mpr hwork.2]
  exact ⟨Nat.zero_add k, Nat.zero_add k⟩

theorem once_of_reported {s : State} {work : List Callback} {k : ℕ} (hwork : Working work)
    (hcalls : s.calls = work ++ reports k) (hk : k ≤ 1) : Once s := by
  obtain ⟨hcb, hfunc⟩ := count_of_reported hwork hcalls
  refine ⟨hcb ▸ hk, hfunc ▸ hk, ?_⟩
  intro call hcall
  rw [hcalls, List.dropWhile_append_of_pos] at hcall
  · exact mem_reports ((List.dropWhile_sublist _).subset hcall)
  · intro earlier hearlier
    simp only [decide_eq_true_eq]
    rintro rfl
    exact hwork.1 hearlier

theorem Calm.once {s : State} (h : Calm s) : Once s := by
  rcases h with hup | ⟨k, hdown, hdue, -⟩
  · exact once_of_reported hup.working (List.append_nil _).symm (Nat.zero_le 1)
  · obtain ⟨work, hwork, hcalls⟩ := hdown.reported
    unfold due at hdue
    exact once_of_reported hwork hcalls (by omega)

theorem Doomed.not_once {s : State} (h : Doomed s) (hdrained : Drained s) : ¬ Once s := by
  intro honce
  obtain ⟨k, hdown, hdue⟩ := h
  obtain ⟨work, hwork, hcalls⟩ := hdown.reported
  have hcount := (count_of_reported hwork hcalls).1
  have hle := honce.callback_once
  rw [due, hdrained.1, hdrained.2, List.length_nil] at hdue
  omega

theorem always_of_not_connect {events : List Event} (h : .connect ∉ events) (s : State) :
    Always step (fun _ e => e ≠ .connect) s events := by
  apply always_of_forall
  rintro e he - rfl
  exact h he

theorem calm_of_run {events : List Event} {s : State} (hrun : run step accepted events = some s)
    (hone : .connect ∉ events) (hok : Always step Graceful accepted events) : Calm s := by
  have hboth := always_and (always_of_not_connect hone accepted) hok
  refine invariant ?_ (Or.inl up_accepted) hboth hrun
  intro u e v hu he hstep
  exact hu.keep e he.1 he.2 hstep

/-- In every graceful run a connection reports its end once and is silent after
that, and a run that ends with nothing outstanding on the closed socket and has
reported once was graceful. -/
theorem disconnects_once_iff (events : List Event) (s : State)
    (hrun : run step accepted events = some s) (hone : .connect ∉ events) :
    (Always step Graceful accepted events → Once s) ∧
      (Drained s → Once s → Always step Graceful accepted events) := by
  constructor
  · intro hok
    exact (calm_of_run hrun hone hok).once
  · intro hdrained honce
    by_contra hnot
    obtain ⟨before, e, after, u, v, rfl, hbefore, hok, hbad, hstep, hafter⟩ :=
      exists_first_break hrun hnot
    rw [List.mem_append, List.mem_cons, not_or, not_or] at hone
    obtain ⟨hone, he, hlater⟩ := hone
    have hcalm := calm_of_run hbefore hone hok
    have hdoomed : Doomed s :=
      invariant (fun u e v hu he hstep => hu.keep e he hstep)
        (hcalm.doomed e (Ne.symm he) hbad hstep) (always_of_not_connect hlater v) hafter
    exact hdoomed.not_once hdrained honce

/-- The peer closes the connection after a buffer was written. -/
theorem disconnects_once_after_write :
    Once ⟨false, false, [], 0, [], 0, [], [⟨0, [7]⟩], [⟨0, [7]⟩], [⟨0, [7]⟩],
      [.onWrite, .onDisconnect, .disconnectFunc]⟩ := by
  apply (disconnects_once_iff [.realSend [7], .writeDone, .readFail] _ rfl (by decide)).1
  refine Always.cons ?_ rfl (Or.inl rfl)
  refine Always.cons ?_ rfl trivial
  exact Always.cons trivial rfl (fun _ => rfl)

/-- The peer closes the connection while a buffer is being written. -/
theorem disconnects_twice_during_write :
    ∃ s, run step accepted [.realSend [7], .readFail, .writeFail] = some s ∧
      s.calls = [.onDisconnect, .disconnectFunc, .onDisconnect, .disconnectFunc] ∧ ¬ Once s := by
  refine ⟨_, rfl, rfl, ?_⟩
  intro h
  exact absurd h.callback_once (by decide)

end BlackCat.TcpHandlers
