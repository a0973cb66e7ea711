import Aesd.Server.Grammar

/-!
# What the receive loop accumulates

The loop counts bytes and copies strings. The counts bound the string, so no
copy runs past the block (`receive_accumulates`); they agree with it, and a
packet of any bytes reaches the data file as it was sent, exactly if no byte
of it is zero (`transparent_iff`).
-/

namespace Aesd.Server

open Aesd.Lib Aesd.Driver

/-! ## The string and the counts -/

/-- After an iteration: `p_malloc_buf` is a block of `malloc_buf_size` bytes
that holds a string no longer than `byte_string_len`, and its terminator. As
long as no zero byte arrived it holds all that was received. -/
structure StringHeld (t : Thread) (chunks : List (List UInt8)) (buf s : List UInt8) :
    Prop where
  block : t.pMallocBuf = some buf
  size : buf.length = t.mallocBufSize
  terminated : HasString buf s
  counted : s.length ≤ t.byteStringLen
  room : s.length + 1 ≤ t.mallocBufSize
  exact : (∀ chunk ∈ chunks, 0 ∉ chunk) → s.length = t.byteStringLen ∧ s = chunks.flatten

/-- Neither the copy after `realloc` nor the counting before it is undefined. -/
structure CopiesFit (t : Thread) (chunks : List (List UInt8)) : Prop where
  received : t.pc = .recv → ∀ chunk : List UInt8, 0 < chunk.length →
    chunk.length ≤ recvBufLen - 1 → allocated (chunks ++ [chunk]) < 2 ^ 31 →
    ∃ call t', t.step (.bytes chunk) = some (call, t')
  copied : ∀ bContainsNewline bIsFirstMalloc, t.pc = .realloc bContainsNewline bIsFirstMalloc →
    ∀ fill, ∃ call t', t.step (.memory fill) = some (call, t')

section
variable {t : Thread} {chunks : List (List UInt8)} {resps : List Resp} {calls : List Call}

theorem chunkText_flatten_length_le (chunks : List (List UInt8)) :
    (chunks.map chunkText).flatten.length ≤ chunks.flatten.length := by
  induction chunks with
  | nil => exact Nat.le_refl 0
  | cons chunk chunks ih =>
      have hle := chunkText_length_le chunk
      rw [List.map_cons, List.flatten_cons, List.flatten_cons, List.length_append,
        List.length_append]
      omega

theorem session_text_of_nulFree (h : ∀ chunk ∈ chunks, 0 ∉ chunk) :
    (session chunks).text = chunks.flatten := by
  have hmap : chunks.map chunkText = chunks :=
    (List.map_congr_left fun chunk hc => chunkText_of_nulFree (h chunk hc)).trans
      (List.map_id chunks)
  rw [session_text, hmap]

/-- **The string of the session is in the block.** -/
theorem Accumulated.stringHeld (h : Accumulated t chunks) (hne : chunks ≠ []) :
    ∃ buf, StringHeld t chunks buf (session chunks).text := by
  rcases h.buf with ⟨hnil, -⟩ | ⟨buf, hbuf, hlen, hstring⟩
  · exact absurd hnil hne
  have hle := chunkText_flatten_length_le chunks
  rw [← session_text, ← h.len] at hle
  refine ⟨buf, hbuf, by rw [hlen, h.size], hstring, hle, ?_, ?_⟩
  · rw [h.size, ← hlen]
    exact hstring.length_lt
  · intro hnul
    have htext := session_text_of_nulFree hnul
    exact ⟨by rw [h.len, htext], htext⟩

theorem Follows.copiesFit (h : Follows t chunks) : CopiesFit t chunks := by
  constructor
  · intro hpc chunk hpos hmax hlt
    unfold Follows at h
    rw [hpc] at h
    obtain ⟨t', hr⟩ := h.received_defined hmax hlt
    exact ⟨_, t', (ThreadStep.received hpc ⟨hpos, hmax⟩ hr).step⟩
  · intro bContainsNewline bIsFirstMalloc hpc fill
    unfold Follows at h
    rw [hpc] at h
    obtain ⟨pre, chunk, -, hrec, rfl, rfl⟩ := h
    obtain ⟨t', hr, -, -⟩ := hrec.reallocated (decide (newline ∈ chunkText chunk)) fill
    exact ⟨_, t', (ThreadStep.reallocated hpc hr).step⟩

/-- **The accumulation invariant**: after every iteration of every run the
block holds a string that its counts bound, and on the way there no count
overflows and no copy runs past the block. -/
theorem receive_accumulates (h : run Thread.step .init resps = some (calls, t)) :
    CopiesFit t (chunksOf (calls.zip resps)) ∧
    (t.pc = .recv → chunksOf (calls.zip resps) ≠ [] →
      ∃ buf s, StringHeld t (chunksOf (calls.zip resps)) buf s) := by
  obtain ⟨hf, -⟩ := run_session h
  refine ⟨hf.copiesFit, fun hpc hne => ?_⟩
  unfold Follows at hf
  rw [hpc] at hf
  obtain ⟨buf, hbuf⟩ := hf.stringHeld hne
  exact ⟨buf, _, hbuf⟩

end

/-- A chunk with a zero byte and one with a newline, the commit included. -/
def twoChunks : List Resp :=
  [.nonNull, .bytes [97, 0, 98], .memory fun _ => 1, .bytes [99, newline],
    .memory fun _ => 1, .int 0, .stream 0, .int 3, .int (-1), .int 0, .int 0]

theorem receive_accumulates_two_chunks : ∃ calls t,
    run Thread.step .init twoChunks = some (calls, t) ∧ t.pc = .recv ∧
    ∃ buf s, StringHeld t (chunksOf (calls.zip twoChunks)) buf s :=
  ⟨_, _, rfl, rfl, (receive_accumulates
    (show run Thread.step .init twoChunks = some (_, _) from rfl)).2 rfl (by decide)⟩

/-! ## A packet of any bytes -/

/-- A packet of any bytes, as the chunks it is received in: its only newline is
its last byte. -/
structure RawPacket where
  chunks : List (List UInt8)
  sizes : ∀ c ∈ chunks, 0 < c.length ∧ c.length ≤ recvBufLen - 1
  closes : Closes isNewline chunks.flatten

/-- The bytes of a packet. -/
def RawPacket.bytes (p : RawPacket) : List UInt8 := p.chunks.flatten

/-- Without a zero byte it is a packet like the others. -/
def RawPacket.toPacket (p : RawPacket) (hnul : 0 ∉ p.bytes) : Packet :=
  ⟨p.chunks, p.sizes, hnul, p.closes⟩

/-- The run of `resps` in which every call succeeds, the thread receives
`chunks` and is back at `recv`. -/
structure Receives (chunks : List (List UInt8)) (resps : List Resp) (calls : List Call)
    (t : Thread) : Prop where
  run : run Thread.step .init resps = some (calls, t)
  succeeds : ∀ e ∈ calls.zip resps, Succeeds e.1 e.2
  received : chunksOf (calls.zip resps) = chunks
  waiting : t.pc = .recv

/-- The packet can be received, and whenever it is, its bytes are written once,
after the last chunk and not before. -/
structure Transparent (p : RawPacket) : Prop where
  receives : ∃ resps calls t, Receives p.chunks resps calls t
  commit : ∀ resps calls t, Receives p.chunks resps calls t →
    handledOf (calls.zip resps)
      = List.replicate (p.chunks.length - 1) [] ++ [[.write p.bytes]]

section
variable {t : Thread} {chunks : List (List UInt8)} {resps : List Resp} {calls : List Call}

/-- What was received was handled as the session says, and counted. -/
theorem Receives.handled (h : Receives chunks resps calls t) :
    handledOf (calls.zip resps) = (session chunks).handled ∧ allocated chunks < 2 ^ 31 := by
  obtain ⟨hf, hh⟩ := run_session h.run
  unfold Follows at hf
  rw [h.waiting, h.received] at hf
  rw [h.waiting, h.received] at hh
  exact ⟨hh (by simp), hf.size_lt⟩

theorem exists_receives (hsizes : ∀ c ∈ chunks, 0 < c.length ∧ c.length ≤ recvBufLen - 1)
    (hlt : allocated chunks < 2 ^ 31) : ∃ resps calls t, Receives chunks resps calls t := by
  obtain ⟨t, ⟨resps, calls, hrun, hok, hchunks⟩, hpc⟩ := gets_chunks hsizes hlt
  exact ⟨resps, calls, t, hrun, hok, hchunks, hpc⟩

/-- A string has no zero byte, so neither has what is written. -/
theorem zero_notMem_session_text (chunks : List (List UInt8)) :
    0 ∉ (session chunks).text := by
  rw [session_text]
  intro h0
  obtain ⟨text, htext, h0⟩ := List.mem_flatten.mp h0
  obtain ⟨chunk, -, rfl⟩ := List.mem_map.mp htext
  simpa using List.mem_takeWhile_imp h0

theorem text_of_commitAction {text bytes : List UInt8}
    (h : commitAction text = .write bytes) : text = bytes := by
  unfold commitAction at h
  split at h
  · cases h
  · exact Action.write.inj h

/-- A last chunk that is followed by a write was followed by that of the text. -/
theorem session_text_of_write {pre : List (List Action)} {bytes : List UInt8}
    (h : (session chunks).handled = pre ++ [[.write bytes]]) :
    (session chunks).text = bytes := by
  rcases List.eq_nil_or_concat' chunks with rfl | ⟨chunks, chunk, rfl⟩
  · simp at h
  rw [session_concat] at h ⊢
  simp only [Session.receive] at h ⊢
  have hlast := (List.append_inj' h rfl).2
  split at hlast
  · exact text_of_commitAction (by simpa using hlast)
  · simp at hlast

/-- A zero byte hides what follows it in its chunk. -/
theorem Transparent.nulFree {p : RawPacket} (h : Transparent p) :
    0 ∉ p.bytes ∧ allocated p.chunks < 2 ^ 31 := by
  obtain ⟨resps, calls, t, hreceives⟩ := h.receives
  obtain ⟨hhandled, hlt⟩ := hreceives.handled
  refine ⟨?_, hlt⟩
  rw [h.commit resps calls t hreceives] at hhandled
  rw [← session_text_of_write hhandled.symm]
  exact zero_notMem_session_text p.chunks

/-- **A data packet passes through exactly if** no byte of it is zero and the
two counters can count it. -/
theorem transparent_iff (p : RawPacket) (hdata : ¬ aesdcharIocseektoCmdStr <:+: p.bytes) :
    Transparent p ↔ 0 ∉ p.bytes ∧ allocated p.chunks < 2 ^ 31 := by
  constructor
  · exact Transparent.nulFree
  · rintro ⟨hnul, hlt⟩
    refine ⟨exists_receives p.sizes hlt, fun resps calls t hreceives => ?_⟩
    have hsession : session p.chunks = ⟨p.bytes, List.replicate (p.chunks.length - 1) [] ++
        [[commitAction p.bytes]]⟩ := (p.toPacket hnul).session
    have hact : commitAction p.bytes = .write p.bytes := if_neg hdata
    rw [hreceives.handled.1, hsession, hact]

end

/-- `a`, a zero byte and the newline, in one chunk. -/
def zeroByte : RawPacket where
  chunks := [[97, 0, newline]]
  sizes := by decide
  closes := closes_isNewline_iff.mpr ⟨[97, 0], by decide, by decide⟩

/-- The newline after the zero byte is not seen. -/
theorem zeroByte_not_transparent :
    ¬ ∀ p : RawPacket, ¬ aesdcharIocseektoCmdStr <:+: p.bytes → Transparent p := by
  intro hall
  have hdata : ¬ aesdcharIocseektoCmdStr <:+: zeroByte.bytes := by decide
  exact (hall zeroByte hdata).nulFree.1 (by decide)

/-- One line. -/
def oneLine : RawPacket where
  chunks := [[97, newline]]
  sizes := by decide
  closes := closes_isNewline_iff.mpr ⟨[97], by decide, by decide⟩

theorem transparent_iff_one_line :
    Transparent oneLine ↔ 0 ∉ oneLine.bytes ∧ allocated oneLine.chunks < 2 ^ 31 :=
  transparent_iff oneLine (by decide)

end Aesd.Server
