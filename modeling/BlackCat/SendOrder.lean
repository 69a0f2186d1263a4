import BlackCat.TcpHandlers

/-!
The order in which buffers are written. A write is started by `RealSend`, for
the buffer it is given, and by `OnWrite`, for the front of `send_buf_`. As long
as no write has failed both are the same buffer: while `writting_msg_` is set
the front has been handed to the socket, and otherwise `send_buf_` is empty.
-/
namespace BlackCat.TcpHandlers

open ByteMemory Runs

/-- The writes that have been started and have not completed. -/
def outstanding (s : State) : List Buffer := s.deadWrites ++ s.writes

theorem outstanding_socketSend (s : State) (buffer : Buffer) (h : outstanding s = []) :
    outstanding (socketSend s buffer) = started buffer := by
  obtain ⟨hdead, hlive⟩ := List.append_eq_nil_iff.mp h
  by_cases hopen : s.socketOpen = true
  · simp [outstanding, socketSend, hopen, hdead, hlive]
  · simp [outstanding, socketSend, hopen, hdead, hlive]

theorem outstanding_shutdown (s : State) : outstanding (shutdown s) = outstanding s := by
  simp [outstanding, shutdown]

/-- `writting_msg_` and `send_buf_` agree: no buffer is left, or the front is the
one that has been handed to the socket and has not been written. -/
inductive Sync (s : State) : Prop
  | idle (hflag : s.writtingMsg = false) (hbuf : s.sendBuf = [])
      (hhanded : s.handed = s.written) (hout : outstanding s = [])
      (hsent : s.sent = s.written)
  | busy (buffer : Buffer) (rest : List Buffer) (hflag : s.writtingMsg = true)
      (hbuf : s.sendBuf = buffer :: rest) (hhanded : s.handed = s.written ++ [buffer])
      (hout : outstanding s = started buffer) (hsent : s.sent = s.written ++ buffer :: rest)

theorem Sync.congr {s t : State} (h : Sync s) (hflag : t.writtingMsg = s.writtingMsg)
    (hbuf : t.sendBuf = s.sendBuf) (hhanded : t.handed = s.handed)
    (hwritten : t.written = s.written) (hout : outstanding t = outstanding s)
    (hsent : t.sent = s.sent) : Sync t := by
  cases h with
  | idle h1 h2 h3 h4 h5 =>
    exact .idle (hflag.trans h1) (hbuf.trans h2) (by rw [hhanded, hwritten, h3])
      (hout.trans h4) (by rw [hsent, hwritten, h5])
  | busy buffer rest h1 h2 h3 h4 h5 =>
    exact .busy buffer rest (hflag.trans h1) (hbuf.trans h2) (by rw [hhanded, hwritten, h3])
      (hout.trans h4) (by rw [hsent, hwritten, h5])

theorem sync_fresh : Sync fresh := .idle rfl rfl rfl rfl rfl

theorem sync_socketSend (s : State) (buffer : Buffer) (rest : List Buffer)
    (hflag : s.writtingMsg = true) (hbuf : s.sendBuf = buffer :: rest)
    (hhanded : s.handed = s.written) (hout : outstanding s = [])
    (hsent : s.sent = s.written ++ buffer :: rest) : Sync (socketSend s buffer) := by
  refine .busy buffer rest hflag hbuf ?_ (outstanding_socketSend s buffer hout) hsent
  rw [socketSend, hhanded]

theorem Sync.realSend {s : State} (h : Sync s) (bytes : List Byte) : Sync (realSend s bytes) := by
  cases h with
  | idle hflag hbuf hhanded hout hsent =>
    rw [TcpHandlers.realSend, if_neg (by simp [hflag])]
    apply sync_socketSend _ _ []
    · rfl
    · simp [hbuf]
    · exact hhanded
    · exact hout
    · simp [hsent]
  | busy buffer rest hflag hbuf hhanded hout hsent =>
    rw [TcpHandlers.realSend, if_pos hflag]
    refine .busy buffer (rest ++ [⟨s.sent.length, bytes⟩]) hflag ?_ hhanded hout ?_
    · simp [hbuf]
    · simp [hsent]

theorem Sync.onWrite {s : State} (h : Sync s) (buffer : Buffer) (live : List Buffer)
    (hlive : s.writes = buffer :: live) :
    Sync (onWrite { s with writes := live, written := s.written ++ [buffer] }) := by
  cases h with
  | idle hflag hbuf hhanded hout hsent =>
    rw [outstanding, hlive] at hout
    simp at hout
  | busy front rest hflag hbuf hhanded hout hsent =>
    have hfront : s.deadWrites = [] ∧ live = [] ∧ front = buffer := by
      rw [outstanding, hlive, started] at hout
      by_cases hempty : front.bytes = []
      · simp [hempty] at hout
      · rw [if_neg hempty] at hout
        obtain ⟨hdead, hrest⟩ := List.append_eq_singleton_iff.mp hout |>.resolve_right (by simp)
        obtain ⟨hsame, hnil⟩ := List.cons.inj hrest
        exact ⟨hdead, hnil, hsame.symm⟩
    obtain ⟨hdead, rfl, rfl⟩ := hfront
    unfold TcpHandlers.onWrite
    simp only [hbuf, List.tail_cons]
    cases rest with
    | nil =>
      refine .idle rfl rfl hhanded ?_ hsent
      simp [outstanding, hdead]
    | cons next rest =>
      apply sync_socketSend _ next rest
      · rfl
      · rfl
      · exact hhanded
      · simp [outstanding, hdead]
      · simp [hsent]

/-- As long as no write fails, every event keeps the two in agreement. -/
theorem Sync.step {s t : State} (h : Sync s) (e : Event) (he : e ≠ .writeFail)
    (hstep : step s e = some t) : Sync t := by
  cases e with
  | connect =>
    obtain ⟨_, rfl⟩ := step_connect hstep
    exact h.congr rfl rfl rfl rfl rfl rfl
  | realSend bytes =>
    cases hstep
    exact h.realSend bytes
  | readDone =>
    obtain ⟨_, rfl⟩ := step_readDone hstep
    exact h.congr rfl rfl rfl rfl rfl rfl
  | readFail =>
    rcases step_readFail hstep with ⟨_, rfl⟩ | ⟨_, rfl⟩
    · exact h.congr rfl rfl rfl rfl (outstanding_shutdown _) rfl
    · exact h.congr rfl rfl rfl rfl (outstanding_shutdown _) rfl
  | writeDone =>
    obtain ⟨buffer, rest, hlive, rfl⟩ := step_writeDone hstep
    exact h.onWrite buffer rest hlive
  | writeFail => exact absurd rfl he
  | shutdown =>
    cases hstep
    exact h.congr rfl rfl rfl rfl (outstanding_shutdown s) rfl

/-- The buffers given to `RealSend` in a run, numbered from the given number on. -/
def sends (first : ℕ) : List Event → List Buffer
  | [] => []
  | .realSend bytes :: events => ⟨first, bytes⟩ :: sends (first + 1) events
  | _ :: events => sends first events

theorem sent_realSend (s : State) (bytes : List Byte) :
    (realSend s bytes).sent = s.sent ++ [⟨s.sent.length, bytes⟩] := by
  unfold realSend
  split <;> rfl

theorem sent_onWrite (s : State) : (onWrite s).sent = s.sent := by
  unfold onWrite
  dsimp only
  split <;> rfl

theorem sent_step {s t : State} (e : Event) (hstep : step s e = some t) :
    t.sent = s.sent ++ sends s.sent.length [e] := by
  cases e with
  | realSend bytes =>
    cases hstep
    exact sent_realSend s bytes
  | connect =>
    obtain ⟨_, rfl⟩ := step_connect hstep
    exact (List.append_nil _).symm
  | readDone =>
    obtain ⟨_, rfl⟩ := step_readDone hstep
    exact (List.append_nil _).symm
  | readFail =>
    rcases step_readFail hstep with ⟨_, rfl⟩ | ⟨_, rfl⟩
    · exact (List.append_nil _).symm
    · exact (List.append_nil _).symm
  | writeDone =>
    obtain ⟨buffer, rest, _, rfl⟩ := step_writeDone hstep
    rw [sent_onWrite]
    exact (List.append_nil _).symm
  | writeFail =>
    rcases step_writeFail hstep with ⟨_, _, _, rfl⟩ | ⟨_, _, _, rfl⟩
    · exact (List.append_nil _).symm
    · exact (List.append_nil _).symm
  | shutdown =>
    cases hstep
    exact (List.append_nil _).symm

theorem sends_cons (first : ℕ) (e : Event) (events : List Event) :
    sends first (e :: events) =
      sends first [e] ++ sends (first + (sends first [e]).length) events := by
  cases e <;> rfl

/-- The buffers sent are those of the run's calls of `RealSend`, in order. -/
theorem sent_of_run {s t : State} {events : List Event} (hrun : run step s events = some t) :
    t.sent = s.sent ++ sends s.sent.length events := by
  induction events generalizing s with
  | nil =>
    cases hrun
    exact (List.append_nil _).symm
  | cons e events ih =>
    obtain ⟨u, hstep, hrest⟩ := exists_of_run_cons hrun
    have hfirst := sent_step e hstep
    rw [ih hrest, hfirst, List.append_assoc, sends_cons s.sent.length e events, List.length_append]

/-- Outgoing buffers are written one at a time, in order and once each. -/
structure WrittenInOrder (s : State) : Prop where
  one_uncompleted : s.handed = s.written ∨
    ∃ front rest, s.sendBuf = front :: rest ∧ s.handed = s.written ++ [front]
  one_outstanding : outstanding s = [] ∨
    ∃ front rest, s.sendBuf = front :: rest ∧ outstanding s = [front]
  handed_prefix : s.handed <+: s.sent
  accounted : s.written ++ s.sendBuf = s.sent

theorem Sync.writtenInOrder {s : State} (h : Sync s) : WrittenInOrder s := by
  cases h with
  | idle hflag hbuf hhanded hout hsent =>
    refine ⟨Or.inl hhanded, Or.inl hout, ?_, ?_⟩
    · rw [hhanded, hsent]
    · rw [hbuf, List.append_nil, hsent]
  | busy front rest hflag hbuf hhanded hout hsent =>
    refine ⟨Or.inr ⟨front, rest, hbuf, hhanded⟩, ?_, ?_, ?_⟩
    · rw [started] at hout
      by_cases hempty : front.bytes = []
      · exact Or.inl (by rw [hout, if_pos hempty])
      · exact Or.inr ⟨front, rest, hbuf, by rw [hout, if_neg hempty]⟩
    · rw [hhanded, hsent]
      exact ⟨rest, by simp⟩
    · rw [hbuf, hsent]

/-- From construction up to the first write error, whatever else happens to the
connection, at most one buffer is with the socket and it is the front of
`send_buf_`, the buffers handed to the socket begin the sequence of all
buffers that `RealSend` was given, and those written followed by `send_buf_` are
that sequence. -/
theorem buffers_written_in_order (events : List Event) (s : State)
    (hrun : run step fresh events = some s) (hfail : .writeFail ∉ events) :
    WrittenInOrder s ∧ s.sent = sends 0 events := by
  have hok : Always step (fun _ e => e ≠ .writeFail) fresh events := by
    apply always_of_forall
    rintro e he - rfl
    exact hfail he
  have hsync : Sync s :=
    invariant (fun u e v hu he hstep => hu.step e he hstep) sync_fresh hok hrun
  exact ⟨hsync.writtenInOrder, sent_of_run hrun⟩

/-- Two buffers are sent, the second while the first is being written. -/
theorem buffers_written_in_order_two_sends :
    WrittenInOrder
        ⟨true, true, [⟨1, [8]⟩], 1, [⟨1, [8]⟩], 0, [], [⟨0, [7]⟩, ⟨1, [8]⟩],
          [⟨0, [7]⟩, ⟨1, [8]⟩], [⟨0, [7]⟩], [.onWrite]⟩ ∧
      [⟨0, [7]⟩, ⟨1, [8]⟩] = sends 0 [.connect, .realSend [7], .realSend [8], .writeDone] :=
  buffers_written_in_order [.connect, .realSend [7], .realSend [8], .writeDone] _ rfl (by decide)

end BlackCat.TcpHandlers
