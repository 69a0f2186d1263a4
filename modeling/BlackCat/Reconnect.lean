import BlackCat.TcpHandlers

/-!
What a client writes over several connections. A write that fails leaves its
buffer at the front of `send_buf_` while `writting_msg_` is clear. The next
`RealSend` then hands over the buffer it is given, and when that one has been
written `OnWrite` takes off the front, which is another buffer. The buffer just
written is still queued and will be written again.
-/
namespace BlackCat.TcpHandlers

open ByteMemory Runs

/-- The buffers were written in the order of `RealSend`, none of them twice. -/
def Ascending (buffers : List Buffer) : Prop :=
  buffers.Pairwise fun a b => a.serial < b.serial

/-- A buffer that `RealSend` hands to a connected socket is the only one queued, or
the one that would be sent after it is empty, so that no write is started. -/
def OnEmptyQueue (s : State) : Event → Prop
  | .realSend bytes => s.socketOpen = true → s.writtingMsg = false → bytes ≠ [] →
      s.sendBuf = [] ∨ ∃ front next rest, s.sendBuf = front :: next :: rest ∧ next.bytes = []
  | _ => True

/-- What will be written if all goes well and nothing more is sent: the buffer
being written and those that `OnWrite` hands over after it. -/
def upcoming (s : State) : List Buffer :=
  match s.writes with
  | [] => []
  | buffer :: _ => buffer :: s.sendBuf.tail.takeWhile (fun b => b.bytes ≠ [])

/-- What has been written and what will be is in order. -/
structure Lined (s : State) : Prop where
  one_live : s.writes.length ≤ 1
  idle : s.writtingMsg = false → s.writes = []
  queued : ∀ b ∈ s.sendBuf, b.serial < s.sent.length
  live : ∀ b ∈ s.writes, b.serial < s.sent.length
  done : ∀ b ∈ s.written, b.serial < s.sent.length
  ascending : Ascending (s.written ++ upcoming s)

theorem lined_fresh : Lined fresh := by
  constructor <;> simp [fresh, upcoming, Ascending]

theorem upcoming_of_no_writes {s : State} (h : s.writes = []) : upcoming s = [] := by
  rw [upcoming, h]

theorem Lined.stop {s t : State} (h : Lined s) (hwrites : t.writes = [])
    (hbuf : t.sendBuf = s.sendBuf) (hsent : t.sent = s.sent) (hwritten : t.written = s.written) :
    Lined t where
  one_live := by simp [hwrites]
  idle := fun _ => hwrites
  queued := by rw [hbuf, hsent]; exact h.queued
  live := by simp [hwrites]
  done := by rw [hwritten, hsent]; exact h.done
  ascending := by
    rw [upcoming_of_no_writes hwrites, List.append_nil, hwritten]
    exact (List.pairwise_append.mp h.ascending).1

theorem Lined.congr {s t : State} (h : Lined s) (hflag : t.writtingMsg = s.writtingMsg)
    (hwrites : t.writes = s.writes) (hbuf : t.sendBuf = s.sendBuf) (hsent : t.sent = s.sent)
    (hwritten : t.written = s.written) : Lined t where
  one_live := by rw [hwrites]; exact h.one_live
  idle := by rw [hflag, hwrites]; exact h.idle
  queued := by rw [hbuf, hsent]; exact h.queued
  live := by rw [hwrites, hsent]; exact h.live
  done := by rw [hwritten, hsent]; exact h.done
  ascending := by
    rw [upcoming, hwrites, hbuf, hwritten]
    exact h.ascending

theorem Ascending.concat {buffers : List Buffer} (h : Ascending buffers) (b : Buffer)
    (hb : ∀ a ∈ buffers, a.serial < b.serial) : Ascending (buffers ++ [b]) := by
  apply List.pairwise_append.mpr
  refine ⟨h, List.pairwise_singleton _ b, ?_⟩
  intro a ha c hc
  rw [List.mem_singleton] at hc
  subst hc
  exact hb a ha

theorem Lined.upcoming_lt {s : State} (h : Lined s) {b : Buffer} (hb : b ∈ upcoming s) :
    b.serial < s.sent.length := by
  unfold upcoming at hb
  cases hlive : s.writes with
  | nil => simp [hlive] at hb
  | cons first rest =>
    simp only [hlive, List.mem_cons] at hb
    rcases hb with rfl | hb
    · exact h.live b (by simp [hlive])
    · exact h.queued b (List.mem_of_mem_tail ((List.takeWhile_sublist _).subset hb))

theorem upcoming_queue {s t : State} {b : Buffer} (hwrites : t.writes = s.writes)
    (hbuf : t.sendBuf = s.sendBuf ++ [b]) :
    upcoming t = upcoming s ∨ upcoming t = upcoming s ++ [b] := by
  unfold upcoming
  rw [hwrites, hbuf]
  cases s.writes with
  | nil => exact Or.inl rfl
  | cons first rest =>
    cases s.sendBuf with
    | nil => exact Or.inl rfl
    | cons front queued =>
      simp only [List.cons_append, List.tail_cons]
      rw [List.takeWhile_append]
      split
      · rename_i hall
        rw [(List.takeWhile_prefix _).eq_of_length hall]
        by_cases hempty : b.bytes = []
        · exact Or.inl (by simp [hempty])
        · exact Or.inr (by simp [hempty])
      · exact Or.inl rfl

theorem Lined.queue {s : State} (h : Lined s) (b : Buffer) (hb : b.serial = s.sent.length) :
    Lined { s with sendBuf := s.sendBuf ++ [b], sent := s.sent ++ [b] } := by
  have hlt : ∀ {n}, n < s.sent.length → n < (s.sent ++ [b]).length := by
    intro n hn
    rw [List.length_append]
    omega
  refine ⟨h.one_live, h.idle, ?_, fun a ha => hlt (h.live a ha), fun a ha => hlt (h.done a ha), ?_⟩
  · intro a ha
    rcases List.mem_append.mp ha with hold | hnew
    · exact hlt (h.queued a hold)
    · rw [List.mem_singleton.mp hnew, hb]
      simp
  · rcases upcoming_queue (s := s)
      (t := { s with sendBuf := s.sendBuf ++ [b], sent := s.sent ++ [b] }) rfl rfl with
      hsame | hmore
    · rw [hsame]
      exact h.ascending
    · rw [hmore, ← List.append_assoc]
      apply h.ascending.concat
      intro a ha
      rw [hb]
      rcases List.mem_append.mp ha with hdone | hnext
      · exact h.done a hdone
      · exact h.upcoming_lt hnext

theorem Lined.socketSend {s : State} (h : Lined s) (b : Buffer) (hflag : s.writtingMsg = true)
    (hidle : s.writes = []) (hb : b.serial < s.sent.length)
    (hasc : s.socketOpen = true → b.bytes ≠ [] →
      Ascending (s.written ++ b :: s.sendBuf.tail.takeWhile (fun b => b.bytes ≠ []))) :
    Lined (socketSend s b) := by
  by_cases hstart : s.socketOpen = true ∧ b.bytes ≠ []
  · have hwrites : (TcpHandlers.socketSend s b).writes = [b] := by
      simp [TcpHandlers.socketSend, hstart.1, hidle, started, hstart.2]
    refine ⟨by simp [hwrites], ?_, h.queued, ?_, h.done, ?_⟩
    · intro hclear
      exact absurd (hflag.symm.trans hclear) (by decide)
    · intro a ha
      rw [hwrites, List.mem_singleton] at ha
      rw [ha]
      exact hb
    · rw [upcoming, hwrites]
      exact hasc hstart.1 hstart.2
  · refine h.stop ?_ rfl rfl rfl
    by_cases hopen : s.socketOpen = true
    · have hempty : b.bytes = [] := by
        by_contra hne
        exact hstart ⟨hopen, hne⟩
      simp [TcpHandlers.socketSend, hopen, hidle, started, hempty]
    · simp [TcpHandlers.socketSend, hopen, hidle]

theorem Lined.realSend {s : State} (h : Lined s) (bytes : List Byte)
    (hok : OnEmptyQueue s (.realSend bytes)) : Lined (realSend s bytes) := by
  have hqueued := h.queue ⟨s.sent.length, bytes⟩ rfl
  unfold TcpHandlers.realSend
  by_cases hflag : s.writtingMsg = true
  · rw [if_pos hflag]
    exact hqueued
  · rw [if_neg hflag]
    have hidle := h.idle (by simpa using hflag)
    refine Lined.socketSend ?_ _ rfl hidle (by simp) ?_
    · exact hqueued.stop hidle rfl rfl rfl
    intro hopen hbytes
    have hnone : (s.sendBuf ++ [(⟨s.sent.length, bytes⟩ : Buffer)]).tail.takeWhile
        (fun b => b.bytes ≠ []) = [] := by
      rcases hok hopen (by simpa using hflag) hbytes with hnil | ⟨front, next, rest, heq, hempty⟩
      · simp [hnil]
      · simp [heq, hempty]
    rw [hnone]
    apply Ascending.concat (List.pairwise_append.mp h.ascending).1
    exact h.done

theorem Lined.onWrite {s : State} (h : Lined s) (b : Buffer) (rest : List Buffer)
    (hlive : s.writes = b :: rest) :
    Lined (onWrite { s with writes := rest, written := s.written ++ [b] }) := by
  have hrest : rest = [] := by
    have hone := h.one_live
    rw [hlive, List.length_cons] at hone
    exact List.eq_nil_of_length_eq_zero (by omega)
  subst hrest
  have hasc := h.ascending
  rw [upcoming, hlive] at hasc
  have hpopped : Lined { s with
      writtingMsg := false
      calls := s.calls ++ [.onWrite]
      sendBuf := s.sendBuf.tail
      writes := []
      written := s.written ++ [b] } := by
    refine ⟨Nat.zero_le 1, fun _ => rfl, ?_, by simp, ?_, ?_⟩
    · intro a ha
      exact h.queued a (List.mem_of_mem_tail ha)
    · intro a ha
      rcases List.mem_append.mp ha with hold | hnew
      · exact h.done a hold
      · exact h.live a (by rw [hlive]; exact hnew)
    · rw [upcoming_of_no_writes rfl, List.append_nil]
      exact List.Pairwise.sublist (List.Sublist.append_left (by simp) _) hasc
  unfold TcpHandlers.onWrite
  simp only
  cases htail : s.sendBuf.tail with
  | nil =>
    rw [htail] at hpopped
    exact hpopped
  | cons next queued =>
    rw [htail] at hpopped hasc
    refine Lined.socketSend ?_ next rfl rfl ?_ ?_
    · exact hpopped.stop rfl rfl rfl rfl
    · exact h.queued next (List.mem_of_mem_tail (by simp [htail]))
    · intro _ hbytes
      simpa [hbytes] using hasc

theorem Lined.keep {s t : State} (h : Lined s) (e : Event) (hok : OnEmptyQueue s e)
    (hstep : step s e = some t) : Lined t := by
  cases e with
  | connect =>
    obtain ⟨_, rfl⟩ := step_connect hstep
    exact h.congr rfl rfl rfl rfl rfl
  | realSend bytes =>
    cases hstep
    exact h.realSend bytes hok
  | readDone =>
    obtain ⟨_, rfl⟩ := step_readDone hstep
    exact h.congr rfl rfl rfl rfl rfl
  | readFail =>
    rcases step_readFail hstep with ⟨_, rfl⟩ | ⟨_, rfl⟩
    · exact h.stop rfl rfl rfl rfl
    · exact h.stop rfl rfl rfl rfl
  | writeDone =>
    obtain ⟨b, rest, hlive, rfl⟩ := step_writeDone hstep
    exact h.onWrite b rest hlive
  | writeFail =>
    rcases step_writeFail hstep with ⟨_, _, _, rfl⟩ | ⟨_, _, _, rfl⟩
    · exact h.stop rfl rfl rfl rfl
    · exact h.stop rfl rfl rfl rfl
  | shutdown =>
    cases hstep
    exact h.stop rfl rfl rfl rfl

theorem run_two_writes {s : State} (b next : Buffer) (rest : List Buffer)
    (hopen : s.socketOpen = true) (hlive : s.writes = [b]) (htail : s.sendBuf.tail = next :: rest)
    (hbytes : next.bytes ≠ []) :
    ∃ t, run step s (List.replicate 2 .writeDone) = some t ∧
      t.written = s.written ++ [b, next] := by
  have hfirst : step s .writeDone = some (onWrite { s with
      writes := []
      written := s.written ++ [b] }) := by
    simp only [step, hlive]
  generalize hu : onWrite { s with writes := [], written := s.written ++ [b] } = u at hfirst
  have hwrites : u.writes = [next] ∧ u.written = s.written ++ [b] := by
    rw [← hu]
    simp [onWrite, htail, socketSend, hopen, started, hbytes]
  have hsecond : ∃ t, step u .writeDone = some t ∧ t.written = s.written ++ [b, next] := by
    simp only [step, hwrites.1]
    refine ⟨_, rfl, ?_⟩
    unfold onWrite
    simp only
    split
    · simp [hwrites.2]
    · simp [socketSend, hwrites.2]
  obtain ⟨t, ht, hwritten⟩ := hsecond
  exact ⟨t, run_cons hfirst (run_cons ht rfl), hwritten⟩

/-- A buffer that is handed over while others are queued, the next of them not
empty, is written ahead of its turn. -/
theorem not_ascending_after {s t : State} (h : Lined s) (e : Event) (hbad : ¬ OnEmptyQueue s e)
    (hstep : step s e = some t) :
    ∃ u, run step t (List.replicate 2 .writeDone) = some u ∧ ¬ Ascending u.written := by
  cases e with
  | realSend bytes =>
    simp only [OnEmptyQueue, not_forall, not_or, not_exists, not_and] at hbad
    obtain ⟨hopen, hflag, hbytes, hqueue, hnext⟩ := hbad
    have hidle := h.idle hflag
    cases hstep
    obtain ⟨front, queued, hbuf⟩ := List.exists_cons_of_ne_nil hqueue
    obtain ⟨next, rest, htail⟩ : ∃ next rest,
        queued ++ [(⟨s.sent.length, bytes⟩ : Buffer)] = next :: rest :=
      List.exists_cons_of_ne_nil (by simp)
    have hmem : next ∈ queued ++ [(⟨s.sent.length, bytes⟩ : Buffer)] := by simp [htail]
    have hle : next.serial ≤ s.sent.length := by
      rcases List.mem_append.mp hmem with hold | hnew
      · exact Nat.le_of_lt (h.queued next (by rw [hbuf]; exact List.mem_cons_of_mem _ hold))
      · rw [List.mem_singleton.mp hnew]
    have hfull : next.bytes ≠ [] := by
      cases queued with
      | nil =>
        cases htail
        exact hbytes
      | cons second others =>
        cases htail
        exact hnext front _ _ hbuf
    obtain ⟨u, hu, hwritten⟩ := run_two_writes (s := realSend s bytes) ⟨s.sent.length, bytes⟩ next
      rest (by simp [realSend, hflag, socketSend, hopen])
      (by simp [realSend, hflag, socketSend, hopen, hidle, started, hbytes])
      (by simp [realSend, hflag, socketSend, hbuf, htail]) hfull
    refine ⟨u, hu, ?_⟩
    intro hasc
    rw [hwritten] at hasc
    have hlast := (List.pairwise_append.mp hasc).2.1
    rw [List.pairwise_pair] at hlast
    simp only at hlast
    omega
  | _ => exact absurd trivial hbad

/-- Over every run of a client with its failures and reconnects, buffers are
written in the order of `RealSend` and none twice, whichever of the writes
under way still succeed, exactly if `RealSend` never hands a buffer to the
connected socket while others are queued. -/
theorem written_in_order_iff (events : List Event) (s : State)
    (hrun : run step fresh events = some s) :
    (∀ before, before <+: events → ∀ k t,
        run step fresh (before ++ List.replicate k .writeDone) = some t → Ascending t.written) ↔
      Always step OnEmptyQueue fresh events := by
  constructor
  · intro hasc
    by_contra hnot
    obtain ⟨before, e, after, u, v, rfl, hbefore, hok, hbad, hstep, -⟩ :=
      exists_first_break hrun hnot
    have hlined : Lined u :=
      invariant (fun u e v hu he hstep => hu.keep e he hstep) lined_fresh hok hbefore
    obtain ⟨t, ht, hdesc⟩ := not_ascending_after hlined e hbad hstep
    apply hdesc
    apply hasc (before ++ [e]) ⟨after, by simp⟩ 2 t
    rw [run_append_of_run (run_concat hbefore hstep)]
    exact ht
  · rintro hok before ⟨after, rfl⟩ k t ht
    obtain ⟨u, hu, hrest⟩ := Option.bind_eq_some_iff.mp ((run_append fresh before after) ▸ hrun)
    have hfair : Always step OnEmptyQueue fresh (before ++ List.replicate k .writeDone) := by
      apply (always_append hu).mpr
      refine ⟨((always_append hu).mp hok).1, ?_⟩
      apply always_of_forall
      intro e he v
      rw [List.eq_of_mem_replicate he]
      trivial
    have hlined : Lined t :=
      invariant (fun u e v hu he hstep => hu.keep e he hstep) lined_fresh hfair ht
    exact (List.pairwise_append.mp hlined.ascending).1

/-- Three buffers are sent one after the other, over two connections. -/
theorem written_in_order_two_connections :
    Ascending [⟨0, [7]⟩, ⟨1, [8]⟩, ⟨2, [9]⟩] := by
  have hiff := written_in_order_iff [.connect, .realSend [7], .realSend [8], .writeDone, .writeDone,
    .readFail, .connect, .realSend [9]] _ rfl
  refine hiff.mpr ?_ _ (List.prefix_refl _) 1 _ rfl
  refine Always.cons ?_ rfl trivial
  refine Always.cons ?_ rfl (fun _ _ _ => Or.inl rfl)
  refine Always.cons ?_ rfl (fun _ hflag => by cases hflag)
  refine Always.cons ?_ rfl trivial
  refine Always.cons ?_ rfl trivial
  refine Always.cons ?_ rfl trivial
  refine Always.cons ?_ rfl trivial
  exact Always.cons trivial rfl (fun _ _ _ => Or.inl rfl)

/-- A login that is sent again after its first write has failed is written twice. -/
theorem written_twice_after_reconnect :
    ∃ s, run step fresh [.connect, .realSend [7], .writeFail, .readFail, .connect, .realSend [7],
        .writeDone, .writeDone] = some s ∧
      s.written = [⟨1, [7]⟩, ⟨1, [7]⟩] ∧ ¬ Ascending s.written := by
  refine ⟨_, rfl, rfl, ?_⟩
  intro h
  exact absurd (List.pairwise_pair.mp h) (by decide)

end BlackCat.TcpHandlers
