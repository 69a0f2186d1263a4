import BlackCat.GenericServer

/-!
Which bytes let the scan of `GenericServer::OnRead` end. A round moves by the
length field plus four, so a field of -4 stands still and a smaller one goes
back. A frame missing at most four of its last bytes leaves the bytes left
negative, and the memory after the buffer then decides whether the loop ends.
-/
namespace BlackCat.ScanTermination

open ByteMemory Loops ServerCommon GenericServer

/-- The loop leaves, and every round it makes moves forward. -/
structure Forward (mem : Memory) (s : Scan) : Prop where
  leaves : ∃ n t, run (scanRound mem) n s = some t
  moves : ∀ u v, Visits (scanRound mem) s u → scanRound mem u = .again v → u.buf < v.buf

/-- The callback returns on the buffer, whatever memory lies around it, and every
round of its loop moves forward. -/
def Terminates (buffer : List Byte) : Prop :=
  ∀ around,
    (∃ n result, onRead n (blockMemory around buffer) 0 buffer.length = some result) ∧
    ∀ s t, Visits (scanRound (blockMemory around buffer)) (scanStart 0 buffer.length) s →
      scanRound (blockMemory around buffer) s = .again t → s.buf < t.buf

/-- Every header that the scan meets with bytes after it either exceeds the bytes
left or moves the scan forward inside them. -/
inductive Advances : List Byte → Prop
  | short {bytes : List Byte} : bytes.length ≤ 4 → Advances bytes
  | cut {bytes : List Byte} : (bytes.length : ℤ) < word bytes → Advances bytes
  | step {bytes : List Byte} : -4 < word bytes → word bytes + 4 ≤ bytes.length →
      Advances (bytes.drop (word bytes + 4).toNat) → Advances bytes

theorem forward_of_leave (mem : Memory) (s t : Scan) (h : scanRound mem s = .leave t) :
    Forward mem s where
  leaves := ⟨1, t, run_leave _ h 0⟩
  moves := by
    intro u v hvisit hround
    rcases hvisit.cases_head with rfl | ⟨w, hagain, _⟩
    · rw [h] at hround
      cases hround
    · rw [h] at hagain
      cases hagain

theorem Forward.of_again {mem : Memory} {s t : Scan} (ht : Forward mem t)
    (h : scanRound mem s = .again t) (hlt : s.buf < t.buf) : Forward mem s where
  leaves := by
    obtain ⟨n, r, hrun⟩ := ht.leaves
    exact ⟨n + 1, r, by rw [run_again _ h, hrun]⟩
  moves := by
    intro u v hvisit hround
    rcases hvisit.cases_head with rfl | ⟨w, hagain, hrest⟩
    · rw [h] at hround
      cases hround
      exact hlt
    · rw [h] at hagain
      cases hagain
      exact ht.moves u v hrest hround

theorem holds_drop_step (mem : Memory) (a : ℤ) (bytes : List Byte) (hmem : Holds mem a bytes)
    (hlow : -4 < word bytes) (hhigh : word bytes + 4 ≤ bytes.length) :
    Holds mem (a + (word bytes + 4)) (bytes.drop (word bytes + 4).toNat) := by
  rw [← List.take_append_drop (word bytes + 4).toNat bytes] at hmem
  have hdrop := ((holds_append mem _ _ _).mp hmem).2
  have htake : (bytes.take (word bytes + 4).toNat).length = (word bytes + 4).toNat := by
    rw [List.length_take]
    omega
  rw [htake, Int.toNat_of_nonneg (by omega)] at hdrop
  exact hdrop

theorem Advances.forward {bytes : List Byte} (h : Advances bytes) (mem : Memory) (s : Scan)
    (hmem : Holds mem s.buf bytes) (hlen : s.len = bytes.length) (htotal : 0 ≤ s.totalLen)
    (hbound : s.totalLen + s.len < 32768) : Forward mem s := by
  induction h generalizing s with
  | short hshort =>
    exact forward_of_leave mem s s (scanRound_quiet mem s _ hmem hlen (Or.inl hshort))
  | cut hcut =>
    exact forward_of_leave mem s s (scanRound_quiet mem s _ hmem hlen (Or.inr hcut))
  | @step bytes hlow hhigh _ ih =>
    by_cases hshort : bytes.length ≤ 4
    · exact forward_of_leave mem s s (scanRound_quiet mem s _ hmem hlen (Or.inl hshort))
    · have hword := loadWord_of_holds mem s.buf bytes hmem (by omega)
      have hround := scanRound_step mem s (by omega) (Or.inr (by omega)) htotal hbound
        (by omega) (by omega)
      rw [hword] at hround
      apply Forward.of_again _ hround
      · simp only [Scan.step]
        omega
      · apply ih
        · exact holds_drop_step mem s.buf bytes hmem hlow hhigh
        · simp only [Scan.step, List.length_drop]
          omega
        · simp only [Scan.step]
          omega
        · simp only [Scan.step]
          omega

/-- A memory in which the word at one address reads as -4. -/
def minusFour (a : ℤ) : Memory := fun b => if b = a then 252 else 255

theorem loadWord_minusFour (buffer : List Byte) (a : ℤ) (h : (buffer.length : ℤ) ≤ a) :
    loadWord (blockMemory (minusFour a) buffer) a = -4 := by
  have hbytes : load (minusFour a) a 4 = [252, 255, 255, 255] := by
    simp [load, minusFour, Int.add_assoc]
  rw [loadWord, load_blockMemory_behind _ buffer a 4 h, hbytes]
  decide

theorem stands_still (mem : Memory) (s : Scan) (hlow : -4 ≤ s.len) (hhigh : s.len < 32768)
    (hlen : s.len < 0 ∨ 4 < s.len) (hword : loadWord mem s.buf ≤ -4) :
    ∃ t, scanRound mem s = .again t ∧ t.buf ≤ s.buf := by
  refine ⟨_, scanRound_again mem s hlow hhigh hlen (by omega), ?_⟩
  simp only
  omega

/-- Whatever lies around the buffer, its scan comes to `s`, with `bytes` left of it. -/
structure Reaches (buffer bytes : List Byte) (s : Scan) : Prop where
  split : ∃ done, buffer = done ++ bytes ∧ s.buf = done.length ∧ s.totalLen = done.length
  len : s.len = bytes.length
  visit : ∀ around, Visits (scanRound (blockMemory around buffer)) (scanStart 0 buffer.length) s

theorem Reaches.size {buffer bytes : List Byte} {s : Scan} (h : Reaches buffer bytes s) :
    0 ≤ s.totalLen ∧ s.buf = s.totalLen ∧ s.totalLen + bytes.length = buffer.length := by
  obtain ⟨done, hsplit, hbuf, htotal⟩ := h.split
  rw [hsplit, List.length_append]
  omega

theorem Reaches.loadWord {buffer bytes : List Byte} {s : Scan} (h : Reaches buffer bytes s)
    (hmore : 4 ≤ bytes.length) (around : Memory) :
    loadWord (blockMemory around buffer) s.buf = word bytes := by
  obtain ⟨done, hsplit, hbuf, -⟩ := h.split
  have hwhole := holds_blockMemory around buffer
  rw [hsplit, holds_append, ← hsplit, Int.zero_add, ← hbuf] at hwhole
  exact loadWord_of_holds _ s.buf bytes hwhole.2 hmore

/-- A length field of -4 or less takes the scan no further. -/
theorem Reaches.above {buffer bytes : List Byte} {s : Scan} (h : Reaches buffer bytes s)
    (hsize : (buffer.length : ℤ) < maxRecvBuf) (hend : Terminates buffer)
    (hmore : 4 < bytes.length) : -4 < word bytes := by
  unfold maxRecvBuf at hsize
  have hplace := h.size
  have hlen := h.len
  have hword := h.loadWord (by omega) (fun _ => 0)
  by_contra hlow
  obtain ⟨t, hround, hback⟩ := stands_still (blockMemory (fun _ => 0) buffer) s (by omega)
    (by omega) (Or.inr (by omega)) (by omega)
  have hmove := (hend _).2 s t (h.visit _) hround
  omega

theorem Reaches.round {buffer bytes : List Byte} {s : Scan} (h : Reaches buffer bytes s)
    (hsize : (buffer.length : ℤ) < maxRecvBuf) (hmore : 4 < bytes.length)
    (hlow : -4 < word bytes) (hhigh : word bytes ≤ bytes.length) (around : Memory) :
    scanRound (blockMemory around buffer) s = .again (s.step (word bytes)) := by
  unfold maxRecvBuf at hsize
  have hplace := h.size
  have hlen := h.len
  have hword := h.loadWord (by omega) around
  have hstep := scanRound_step (blockMemory around buffer) s (by omega) (Or.inr (by omega))
    (by omega) (by omega) (by omega) (by omega)
  rwa [hword] at hstep

/-- A step behind the buffer leaves a negative length, and -4 may stand there. -/
theorem Reaches.within {buffer bytes : List Byte} {s : Scan} (h : Reaches buffer bytes s)
    (hsize : (buffer.length : ℤ) < maxRecvBuf) (hend : Terminates buffer)
    (hmore : 4 < bytes.length) (hlow : -4 < word bytes) (hhigh : word bytes ≤ bytes.length) :
    word bytes + 4 ≤ bytes.length := by
  have hround := h.round hsize hmore hlow hhigh
  unfold maxRecvBuf at hsize
  have hplace := h.size
  have hlen := h.len
  by_contra hbehind
  have hbuf : (s.step (word bytes)).buf = s.buf + (word bytes + 4) := rfl
  have hleft : (s.step (word bytes)).len = s.len - (word bytes + 4) := rfl
  have hnext := loadWord_minusFour buffer (s.step (word bytes)).buf (by omega)
  obtain ⟨t, hstill, hback⟩ := stands_still _ (s.step (word bytes)) (by omega) (by omega)
    (Or.inl (by omega)) (Int.le_of_eq hnext)
  have hmove := (hend _).2 _ t ((h.visit _).next (hround _)) hstill
  omega

theorem Reaches.next {buffer bytes : List Byte} {s : Scan} (h : Reaches buffer bytes s)
    (hsize : (buffer.length : ℤ) < maxRecvBuf) (hmore : 4 < bytes.length)
    (hlow : -4 < word bytes) (hfit : word bytes + 4 ≤ bytes.length) :
    Reaches buffer (bytes.drop (word bytes + 4).toNat) (s.step (word bytes)) := by
  have hround := h.round hsize hmore hlow (by omega)
  have hlen := h.len
  obtain ⟨done, hsplit, hbuf, htotal⟩ := h.split
  have htake : (bytes.take (word bytes + 4).toNat).length = (word bytes + 4).toNat := by
    rw [List.length_take]
    omega
  refine ⟨⟨done ++ bytes.take (word bytes + 4).toNat, ?_, ?_, ?_⟩, ?_, ?_⟩
  · rw [List.append_assoc, List.take_append_drop, hsplit]
  · rw [List.length_append, htake]
    simp only [Scan.step]
    omega
  · rw [List.length_append, htake]
    simp only [Scan.step]
    omega
  · rw [List.length_drop]
    simp only [Scan.step]
    omega
  · intro around
    exact (h.visit around).next (hround around)

theorem Reaches.advances {buffer bytes : List Byte} {s : Scan} (h : Reaches buffer bytes s)
    (hsize : (buffer.length : ℤ) < maxRecvBuf) (hend : Terminates buffer) : Advances bytes := by
  generalize hn : bytes.length = n
  induction n using Nat.strong_induction_on generalizing bytes s with
  | h n ih =>
    by_cases hshort : bytes.length ≤ 4
    · exact .short hshort
    by_cases hcut : (bytes.length : ℤ) < word bytes
    · exact .cut hcut
    have hlow := h.above hsize hend (by omega)
    have hfit := h.within hsize hend (by omega) hlow (by omega)
    apply Advances.step hlow hfit
    have hdrop : (bytes.drop (word bytes + 4).toNat).length < n := by
      rw [List.length_drop]
      omega
    exact ih _ hdrop (h.next hsize (by omega) hlow hfit) rfl

/-- The scan ends with progress in every round exactly on the buffers that advance. -/
theorem terminates_iff_advances (buffer : List Byte)
    (hsize : (buffer.length : ℤ) < maxRecvBuf) : Terminates buffer ↔ Advances buffer := by
  constructor
  · intro h
    have hstart : Reaches buffer buffer (scanStart 0 buffer.length) :=
      ⟨⟨[], rfl, rfl, rfl⟩, rfl, fun _ => .start⟩
    exact hstart.advances hsize h
  · intro h around
    have hforward := h.forward (blockMemory around buffer) (scanStart 0 buffer.length)
      (holds_blockMemory around buffer) rfl (Int.le_refl 0) (by
        unfold maxRecvBuf at hsize
        simp only [scanStart]
        omega)
    obtain ⟨n, t, hrun⟩ := hforward.leaves
    exact ⟨⟨n, _, onRead_of_run hsize hrun⟩, hforward.moves⟩

/-- A frame, a length field of -3 that moves by one byte, and a cut frame. -/
theorem terminates_negative_step :
    (([0, 0, 0, 0, 253, 255, 255, 255, 127, 9] : List Byte).length : ℤ) < maxRecvBuf ∧
      Terminates [0, 0, 0, 0, 253, 255, 255, 255, 127, 9] := by
  refine ⟨by decide, ?_⟩
  apply (terminates_iff_advances _ (by decide)).mpr
  apply Advances.step (by decide) (by decide)
  apply Advances.step (by decide) (by decide)
  exact Advances.cut (by decide)

theorem onRead_minusFour (buffer : List Byte) (hmore : 4 < buffer.length)
    (hsize : (buffer.length : ℤ) < maxRecvBuf) (h : word buffer = -4) (around : Memory) (n : ℕ) :
    onRead n (blockMemory around buffer) 0 buffer.length = none := by
  have hsmall : (buffer.length : ℤ) < 32768 := hsize
  have hloop : ∀ s : Scan, s.buf = 0 ∧ s.len = buffer.length ∧ s.totalLen = 0 →
      ∃ t, scanRound (blockMemory around buffer) s = .again t ∧
        t.buf = 0 ∧ t.len = buffer.length ∧ t.totalLen = 0 := by
    rintro s ⟨hbuf, hlen, htotal⟩
    have hword : loadWord (blockMemory around buffer) s.buf = -4 := by
      rw [hbuf, loadWord_of_holds _ 0 buffer (holds_blockMemory around buffer) (by omega), h]
    have hround := scanRound_step _ s (by omega) (Or.inr (by omega)) (by omega) (by omega)
      (Int.le_of_eq hword.symm) (by omega)
    refine ⟨_, hround, ?_⟩
    simp only [Scan.step, hword]
    omega
  have hnone := run_eq_none_of_invariant _ _ hloop
    (s := scanStart 0 buffer.length) ⟨rfl, rfl, rfl⟩ n
  rw [onRead, if_neg (by omega), hnone]
  rfl

theorem minus_four_never_returns :
    (([252, 255, 255, 255, 0] : List Byte).length : ℤ) < maxRecvBuf ∧
      (∀ around n, onRead n (blockMemory around [252, 255, 255, 255, 0]) 0 5 = none) ∧
      ¬ Terminates [252, 255, 255, 255, 0] := by
  have hloop := onRead_minusFour [252, 255, 255, 255, 0] (by decide) (by decide) (by decide)
  refine ⟨by decide, hloop, ?_⟩
  intro h
  obtain ⟨n, result, hreturn⟩ := (h (fun _ => 0)).1
  rw [hloop] at hreturn
  cases hreturn

end BlackCat.ScanTermination
