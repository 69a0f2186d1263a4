import BlackCat.ByteMemory

/-!
Streams of length-prefixed frames: a signed 32-bit payload length, then the
payload. A byte string splits into complete frames and an incomplete rest in
one way only, and that split is inherited by every prefix of a stream. Reading
the stream in pieces therefore leaves, after each piece, the incomplete rest
of the bytes received so far.
-/
namespace BlackCat.LengthFrames

open ByteMemory

/-- A payload whose length is a positive 32-bit word or zero. -/
def Fits (payload : List Byte) : Prop := payload.length < 2147483648

instance (payload : List Byte) : Decidable (Fits payload) := by
  unfold Fits
  infer_instance

def frame (payload : List Byte) : List Byte := wordBytes payload.length ++ payload

def frames (payloads : List (List Byte)) : List Byte := payloads.flatMap frame

/-- The bytes end before the frame they begin does. -/
def Incomplete (bytes : List Byte) : Prop :=
  bytes.length < 4 ∨ (bytes.length : ℤ) < word bytes + 4

instance (bytes : List Byte) : Decidable (Incomplete bytes) := by
  unfold Incomplete
  infer_instance

theorem frame_length (payload : List Byte) : (frame payload).length = payload.length + 4 := by
  simp only [frame, List.length_append, wordBytes_length]
  omega

theorem frames_nil : frames [] = [] := rfl

theorem frames_cons (payload : List Byte) (payloads : List (List Byte)) :
    frames (payload :: payloads) = frame payload ++ frames payloads := rfl

theorem frames_append (left right : List (List Byte)) :
    frames (left ++ right) = frames left ++ frames right := by
  simp only [frames, List.flatMap_append]

theorem word_frame_append (payload rest : List Byte) (h : Fits payload) :
    word (frame payload ++ rest) = payload.length := by
  unfold Fits at h
  rw [frame, List.append_assoc, word_wordBytes_append, int32_eq_self _ (by omega) (by omega)]

theorem payload_length_le (payload : List Byte) (payloads : List (List Byte))
    (h : payload ∈ payloads) : payload.length + 4 ≤ (frames payloads).length := by
  induction payloads with
  | nil => simp at h
  | cons first rest ih =>
    rw [frames_cons, List.length_append, frame_length]
    rcases List.mem_cons.mp h with rfl | hrest
    · omega
    · have hle := ih hrest
      omega

theorem not_incomplete_frame_append (payload rest : List Byte) (h : Fits payload) :
    ¬ Incomplete (frame payload ++ rest) := by
  unfold Incomplete
  rw [word_frame_append payload rest h, List.length_append, frame_length]
  omega

theorem exists_frame (bytes : List Byte) (hword : 0 ≤ word bytes)
    (h : ¬ Incomplete bytes) :
    ∃ payload rest, bytes = frame payload ++ rest ∧ Fits payload ∧
      (payload.length : ℤ) = word bytes := by
  unfold Incomplete at h
  have hrange := word_range bytes
  have hbytes := wordBytes_word bytes (by omega)
  have htake : ((bytes.drop 4).take (word bytes).toNat).length = (word bytes).toNat := by
    simp only [List.length_take, List.length_drop]
    omega
  refine ⟨(bytes.drop 4).take (word bytes).toNat,
    (bytes.drop 4).drop (word bytes).toNat, ?_, ?_, ?_⟩
  · rw [frame, htake, List.append_assoc, List.take_append_drop, Int.toNat_of_nonneg hword,
      hbytes]
  · unfold Fits
    omega
  · omega

theorem Incomplete.of_prefix {bytes more : List Byte} (h : Incomplete (bytes ++ more)) :
    Incomplete bytes := by
  unfold Incomplete at h ⊢
  by_cases hlen : 4 ≤ bytes.length
  · rw [word_append bytes more hlen, List.length_append] at h
    omega
  · omega

theorem incomplete_of_strict_prefix (payload bytes more : List Byte) (hfits : Fits payload)
    (h : frame payload = bytes ++ more) (hmore : more ≠ []) : Incomplete bytes := by
  have hlen := congrArg List.length h
  have hpos := List.length_pos_iff.mpr hmore
  rw [frame_length, List.length_append] at hlen
  by_cases hfour : 4 ≤ bytes.length
  · have hword := word_frame_append payload [] hfits
    rw [List.append_nil, h, word_append bytes more hfour] at hword
    unfold Incomplete
    omega
  · exact Or.inl (by omega)

theorem eq_rest_of_incomplete (payloads : List (List Byte)) (rest : List Byte)
    (hfits : ∀ payload ∈ payloads, Fits payload)
    (h : Incomplete (frames payloads ++ rest)) : payloads = [] := by
  cases payloads with
  | nil => rfl
  | cons payload payloads =>
    rw [frames_cons, List.append_assoc] at h
    exact absurd h (not_incomplete_frame_append _ _ (hfits _ (List.mem_cons_self ..)))

/-- Any prefix of a stream consists of the first frames and an incomplete
rest; the bytes still to come continue that rest. -/
theorem exists_split_prefix (payloads : List (List Byte)) (rest front back : List Byte)
    (hfits : ∀ payload ∈ payloads, Fits payload) (hrest : Incomplete rest)
    (h : front ++ back = frames payloads ++ rest) :
    ∃ before after tail, payloads = before ++ after ∧ front = frames before ++ tail ∧
      tail ++ back = frames after ++ rest ∧ Incomplete tail := by
  induction payloads generalizing front with
  | nil =>
    rw [frames_nil, List.nil_append] at h
    exact ⟨[], [], front, rfl, rfl, by rw [h]; rfl, Incomplete.of_prefix (h ▸ hrest)⟩
  | cons payload payloads ih =>
    have hhead := hfits payload (List.mem_cons_self ..)
    rw [frames_cons, List.append_assoc] at h
    rcases List.append_eq_append_iff.mp h with ⟨cut, hframe, hback⟩ | ⟨cut, hfront, hcut⟩
    · by_cases hcut : cut = []
      · subst cut
        rw [List.append_nil] at hframe
        refine ⟨[payload], payloads, [], rfl, ?_, ?_, Or.inl (by simp)⟩
        · rw [frames_cons, frames_nil, List.append_nil, List.append_nil, hframe]
        · rw [List.nil_append, hback, List.nil_append]
      · refine ⟨[], payload :: payloads, front, rfl, rfl, ?_,
          incomplete_of_strict_prefix payload front cut hhead hframe hcut⟩
        rw [h, frames_cons, List.append_assoc]
    · obtain ⟨before, after, tail, hsplit, hbefore, hafter, htail⟩ :=
        ih cut (fun p hp => hfits p (List.mem_cons_of_mem _ hp)) hcut.symm
      refine ⟨payload :: before, after, tail, ?_, ?_, hafter, htail⟩
      · rw [hsplit, List.cons_append]
      · rw [hfront, hbefore, frames_cons, List.append_assoc]

/-- What remains of the bytes once every whole frame is taken off. -/
def leftover (bytes : List Byte) : List Byte :=
  if _h : 4 ≤ bytes.length ∧ 0 ≤ word bytes ∧ word bytes + 4 ≤ bytes.length then
    leftover (bytes.drop (word bytes + 4).toNat)
  else bytes
termination_by bytes.length
decreasing_by
  simp only [List.length_drop]
  omega

theorem leftover_of_incomplete (bytes : List Byte) (h : Incomplete bytes) :
    leftover bytes = bytes := by
  rw [leftover, dif_neg]
  unfold Incomplete at h
  omega

theorem leftover_frame_append (payload rest : List Byte) (h : Fits payload) :
    leftover (frame payload ++ rest) = leftover rest := by
  have hword := word_frame_append payload rest h
  have hlen : (frame payload ++ rest).length = payload.length + 4 + rest.length := by
    rw [List.length_append, frame_length]
  have hsize : (word (frame payload ++ rest) + 4).toNat = (frame payload).length := by
    rw [hword, frame_length]
    omega
  rw [leftover, dif_pos (by rw [hword, hlen]; omega), hsize, List.drop_left]

theorem leftover_frames_append (payloads : List (List Byte)) (rest : List Byte)
    (hfits : ∀ payload ∈ payloads, Fits payload) (h : Incomplete rest) :
    leftover (frames payloads ++ rest) = rest := by
  induction payloads with
  | nil => exact leftover_of_incomplete rest h
  | cons payload payloads ih =>
    rw [frames_cons, List.append_assoc,
      leftover_frame_append _ _ (hfits _ (List.mem_cons_self ..))]
    exact ih (fun p hp => hfits p (List.mem_cons_of_mem _ hp))

/-- The bytes held at each read of a stream cut into pieces: the unfinished
frame left by the reads before, then the new piece. -/
def buffers : List Byte → List (List Byte) → List (List Byte)
  | _, [] => []
  | held, piece :: pieces => (held ++ piece) :: buffers (leftover (held ++ piece)) pieces

end BlackCat.LengthFrames
