import BlackCat.Disconnects
import BlackCat.SendOrder

/-!
When the writer of a connection gets stuck. `RealSend` and `OnWrite` set
`writting_msg_` before they call `Socket::Send`, which starts no write for an
empty buffer. No completion will then clear the flag, and whatever is queued
stays where it is. An empty buffer does this when its turn comes, and nothing
else does.
-/
namespace BlackCat.TcpHandlers

open ByteMemory Runs

/-- The events of a connection on which nothing fails: buffers are sent, and reads
and writes complete. -/
inductive Plain : Event → Prop
  | realSend (bytes : List Byte) : Plain (.realSend bytes)
  | readDone : Plain .readDone
  | writeDone : Plain .writeDone

/-- The bytes of some buffers, one after the other. -/
def contents (buffers : List Buffer) : List Byte := buffers.flatMap Buffer.bytes

/-- `writting_msg_` tells whether a write is outstanding, one is outstanding where
buffers are queued, and where none is every byte has been written. -/
structure Unstuck (s : State) : Prop where
  flag : s.writtingMsg = true ↔ outstanding s ≠ []
  queued : s.sendBuf ≠ [] → outstanding s ≠ []
  flushed : outstanding s = [] → contents s.written = contents s.sent

theorem started_eq_nil_iff (buffer : Buffer) : started buffer = [] ↔ buffer.bytes = [] := by
  unfold started
  by_cases hempty : buffer.bytes = []
  · simp [hempty]
  · simp [hempty]

/-- The writer is stuck exactly at an empty front. -/
theorem Sync.unstuck_iff {s : State} (h : Sync s) :
    Unstuck s ↔ ∀ front rest, s.sendBuf = front :: rest → front.bytes ≠ [] := by
  cases h with
  | idle hflag hbuf hhanded hout hsent =>
    constructor
    · intro _ front rest hfront
      rw [hbuf] at hfront
      cases hfront
    · intro _
      refine ⟨?_, fun hne => absurd hbuf hne, fun _ => by rw [hsent]⟩
      simp [hflag, hout]
  | busy buffer rest hflag hbuf hhanded hout hsent =>
    have hempty := started_eq_nil_iff buffer
    constructor
    · intro hunstuck front tail hfront
      rw [hbuf] at hfront
      cases hfront
      have hne := hunstuck.queued (by simp [hbuf])
      rw [hout] at hne
      exact fun hbytes => hne (hempty.mpr hbytes)
    · intro hfront
      have hne : outstanding s ≠ [] := by
        rw [hout]
        exact fun hnil => hfront buffer rest hbuf (hempty.mp hnil)
      exact ⟨⟨fun _ => hne, fun _ => hflag⟩, fun _ => hne, fun hnil => absurd hnil hne⟩

/-- What holds of a connection on which nothing has failed. -/
structure Flowing (s : State) : Prop where
  up : Up s
  sync : Sync s

theorem flowing_accepted : Flowing accepted :=
  ⟨up_accepted, .idle rfl rfl rfl rfl rfl⟩

theorem Flowing.keep {s t : State} (h : Flowing s) {e : Event} (he : Plain e)
    (hstep : step s e = some t) : Flowing t := by
  have hfail : e ≠ .writeFail := by
    rintro rfl
    cases he
  refine ⟨?_, h.sync.step e hfail hstep⟩
  rcases h.up.step e hstep with ⟨hup, _⟩ | ⟨_, _, _, _, hclosing⟩
  · exact hup
  · rcases hclosing with rfl | rfl | rfl
    all_goals cases he

theorem flowing_of_run {events : List Event} {s t : State} (hs : Flowing s)
    (hplain : ∀ e ∈ events, Plain e) (hrun : run step s events = some t) : Flowing t := by
  have hok : Always step (fun _ e => Plain e) s events :=
    always_of_forall fun e he _ => hplain e he
  exact invariant (fun _ _ _ hu he hstep => hu.keep he hstep) hs hok hrun

theorem sendBuf_socketSend (s : State) (buffer : Buffer) :
    (socketSend s buffer).sendBuf = s.sendBuf := rfl

theorem sendBuf_realSend (s : State) (bytes : List Byte) :
    (realSend s bytes).sendBuf = s.sendBuf ++ [⟨s.sent.length, bytes⟩] := by
  unfold realSend
  by_cases hflag : s.writtingMsg = true
  · rw [if_pos hflag]
  · rw [if_neg hflag, sendBuf_socketSend]

theorem sendBuf_onWrite (s : State) : (onWrite s).sendBuf = s.sendBuf.tail := by
  unfold onWrite
  cases htail : s.sendBuf.tail with
  | nil => rfl
  | cons buffer rest => rfl

theorem Flowing.exists_writeDone {s : State} (h : Flowing s) {front : Buffer}
    {rest : List Buffer} (hbuf : s.sendBuf = front :: rest) (hfront : front.bytes ≠ []) :
    ∃ t, step s .writeDone = some t ∧ t.sendBuf = rest := by
  have hlive : s.writes = [front] := by
    cases h.sync with
    | idle _ hnil _ _ _ =>
      rw [hbuf] at hnil
      cases hnil
    | busy buffer tail _ hbusy _ hout _ =>
      rw [hbuf] at hbusy
      cases hbusy
      rw [outstanding, h.up.no_dead_writes, List.nil_append, started, if_neg hfront] at hout
      exact hout
  refine ⟨onWrite { s with writes := [], written := s.written ++ [front] }, ?_, ?_⟩
  · simp only [step, hlive]
  · rw [sendBuf_onWrite]
    simp only [hbuf, List.tail_cons]

/-- Once an empty buffer is queued the completions of the writes before it lead to a
state in which the writer is stuck. -/
theorem Flowing.exists_stuck {s : State} (h : Flowing s) (hempty : ∃ b ∈ s.sendBuf, b.bytes = []) :
    ∃ k t, run step s (List.replicate k .writeDone) = some t ∧ ¬ Unstuck t := by
  generalize hbuf : s.sendBuf = buffers at hempty
  induction buffers generalizing s with
  | nil =>
    obtain ⟨b, hb, _⟩ := hempty
    exact absurd hb List.not_mem_nil
  | cons front rest ih =>
    by_cases hfront : front.bytes = []
    · refine ⟨0, s, rfl, ?_⟩
      intro hunstuck
      exact h.sync.unstuck_iff.mp hunstuck front rest hbuf hfront
    · obtain ⟨t, hstep, hrest⟩ := h.exists_writeDone hbuf hfront
      have hlater : ∃ b ∈ rest, b.bytes = [] := by
        obtain ⟨b, hb, hbytes⟩ := hempty
        rcases List.mem_cons.mp hb with rfl | hb
        · exact absurd hbytes hfront
        · exact ⟨b, hb, hbytes⟩
      obtain ⟨k, u, hrun, hstuck⟩ := ih (h.keep .writeDone hstep) hrest hlater
      refine ⟨k + 1, u, ?_, hstuck⟩
      rw [List.replicate_succ]
      exact run_cons hstep hrun

/-- No empty buffer has been given to `RealSend`. -/
def NoneEmpty (s : State) : Prop := ∀ b ∈ s.sent, b.bytes ≠ []

theorem NoneEmpty.keep {s t : State} (h : NoneEmpty s) {e : Event} (he : Plain e)
    (hbytes : e ≠ .realSend []) (hstep : step s e = some t) : NoneEmpty t := by
  cases he with
  | realSend bytes =>
    cases hstep
    intro b hb
    rw [sent_realSend] at hb
    rcases List.mem_append.mp hb with hold | hnew
    · exact h b hold
    · rw [List.mem_singleton.mp hnew]
      exact fun hnil => hbytes (congrArg Event.realSend hnil)
  | readDone =>
    obtain ⟨_, rfl⟩ := step_readDone hstep
    exact h
  | writeDone =>
    obtain ⟨buffer, rest, _, rfl⟩ := step_writeDone hstep
    unfold NoneEmpty
    rw [sent_onWrite]
    exact h

theorem Flowing.unstuck {s : State} (h : Flowing s) (hnone : NoneEmpty s) : Unstuck s := by
  apply h.sync.unstuck_iff.mpr
  intro front rest hbuf
  apply hnone
  rw [← h.sync.writtenInOrder.accounted, hbuf]
  exact List.mem_append_right _ (List.mem_cons_self ..)

theorem unstuck_of_run {events : List Event} {s : State} (hplain : ∀ e ∈ events, Plain e)
    (hsends : .realSend [] ∉ events) (hrun : run step accepted events = some s) : Unstuck s := by
  have hok : Always step (fun _ e => Plain e ∧ e ≠ .realSend []) accepted events := by
    apply always_of_forall
    intro e he _
    refine ⟨hplain e he, ?_⟩
    rintro rfl
    exact hsends he
  have hstart : NoneEmpty accepted := by simp [NoneEmpty, accepted, fresh]
  have hnone : NoneEmpty s :=
    invariant (fun _ _ _ hu he hstep => hu.keep he.1 he.2 hstep) hstart hok hrun
  exact (flowing_of_run flowing_accepted hplain hrun).unstuck hnone

/-- Whatever part of a run is followed by the completions of the writes that are still
to come, the writer does not get stuck, exactly if no empty buffer is sent. The
buffers sent are those that `RealSend` was given. -/
theorem writer_unstuck_iff (events : List Event) (s : State)
    (hrun : run step accepted events = some s) (hplain : ∀ e ∈ events, Plain e) :
    (∀ before, before <+: events → ∀ k t,
        run step accepted (before ++ List.replicate k .writeDone) = some t →
          Unstuck t ∧ t.sent = sends 0 (before ++ List.replicate k .writeDone)) ↔
      .realSend [] ∉ events := by
  constructor
  · intro hunstuck hmem
    obtain ⟨before, after, rfl⟩ := List.append_of_mem hmem
    rw [List.append_cons] at hrun hplain
    rw [run_append] at hrun
    obtain ⟨u, hu, _⟩ := Option.bind_eq_some_iff.mp hrun
    have hflowing := flowing_of_run flowing_accepted
      (fun e he => hplain e (List.mem_append_left _ he)) hu
    have hqueued : ∃ b ∈ u.sendBuf, b.bytes = [] := by
      rw [run_append] at hu
      obtain ⟨v, _, hlast⟩ := Option.bind_eq_some_iff.mp hu
      cases hlast
      refine ⟨⟨v.sent.length, []⟩, ?_, rfl⟩
      rw [sendBuf_realSend]
      exact List.mem_append_right _ (List.mem_singleton_self _)
    obtain ⟨k, t, ht, hstuck⟩ := hflowing.exists_stuck hqueued
    apply hstuck
    refine (hunstuck (before ++ [.realSend []]) ⟨after, by simp⟩ k t ?_).1
    rw [run_append_of_run hu]
    exact ht
  · rintro hsends before ⟨after, rfl⟩ k t ht
    refine ⟨unstuck_of_run ?_ ?_ ht, sent_of_run ht⟩
    · intro e he
      rcases List.mem_append.mp he with hbefore | hdone
      · exact hplain e (List.mem_append_left _ hbefore)
      · rw [List.eq_of_mem_replicate hdone]
        exact .writeDone
    · intro hmem
      rcases List.mem_append.mp hmem with hbefore | hdone
      · exact hsends (List.mem_append_left _ hbefore)
      · cases List.eq_of_mem_replicate hdone

/-- Two buffers are sent and both are written. -/
theorem writer_unstuck_two_sends :
    Unstuck ⟨true, false, [], 1, [], 0, [], [⟨0, [7]⟩, ⟨1, [8]⟩], [⟨0, [7]⟩, ⟨1, [8]⟩],
      [⟨0, [7]⟩, ⟨1, [8]⟩], [.onWrite, .onWrite]⟩ := by
  have hplain : ∀ e ∈ [Event.realSend [7], .realSend [8], .writeDone, .writeDone], Plain e := by
    simp only [List.forall_mem_cons]
    exact ⟨.realSend _, .realSend _, .writeDone, .writeDone, by simp⟩
  have hiff :=
    writer_unstuck_iff [.realSend [7], .realSend [8], .writeDone, .writeDone] _ rfl hplain
  exact (hiff.mpr (by decide) _ (List.prefix_refl _) 0 _ rfl).1

/-- An empty buffer sets the flag and starts no write. The buffer sent after it is
never handed to the socket. -/
theorem writer_stuck_after_empty_send :
    ∃ s, run step accepted [.realSend [], .realSend [7]] = some s ∧ s.writtingMsg = true ∧
      outstanding s = [] ∧ contents s.written ≠ contents s.sent ∧ ¬ Unstuck s := by
  refine ⟨_, rfl, rfl, rfl, by decide, ?_⟩
  intro h
  exact h.flag.mp rfl rfl

end BlackCat.TcpHandlers
