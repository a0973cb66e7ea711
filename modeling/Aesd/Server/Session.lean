import Aesd.Server.Thread
import Aesd.Driver.CommandLog
import Aesd.Lib.Machine

/-!
# A connection as a session

What a service thread does with the chunks it receives, with no buffers: the
text it has accumulated, and for each chunk the commits it was followed by.
The text is never reset, so what a commit writes or scans is everything the
connection has sent so far. `run_session` is the refinement: every run of the
thread does what the session says, whatever its calls return.
-/

namespace Aesd.Server

open Aesd.Lib Aesd.Driver

/-! ## The session -/

/-- What a commit does to the data file. -/
inductive Action where
  | write (text : List UInt8)
  | ioctl (seekto : Seekto)
  deriving DecidableEq, Repr

/-- The part of a chunk that `strcpy` and `strcat` see. -/
def chunkText (chunk : List UInt8) : List UInt8 :=
  chunk.takeWhile (· ≠ 0)

/-- The commit of a text. -/
def commitAction (text : List UInt8) : Action :=
  if aesdcharIocseektoCmdStr <:+: text then .ioctl (scanSeekto text) else .write text

/-- The first call of a commit, once the stream is open. -/
def Action.pc : Action → Pc
  | .write text => .fprintf text
  | .ioctl seekto => .fileno seekto

/-- The text so far, and for each chunk what was done after it. -/
structure Session where
  text : List UInt8
  handled : List (List Action)
  deriving DecidableEq, Repr

/-- A chunk arrives; one with a newline is followed by a commit. -/
def Session.receive (s : Session) (chunk : List UInt8) : Session where
  text := s.text ++ chunkText chunk
  handled := s.handled ++
    [if newline ∈ chunkText chunk then [commitAction (s.text ++ chunkText chunk)] else []]

/-- The session of a sequence of chunks. -/
def session (chunks : List (List UInt8)) : Session :=
  chunks.foldl Session.receive ⟨[], []⟩

@[simp] theorem session_nil : session [] = ⟨[], []⟩ := rfl

theorem session_concat (chunks : List (List UInt8)) (chunk : List UInt8) :
    session (chunks ++ [chunk]) = (session chunks).receive chunk := by
  simp [session]

theorem session_text (chunks : List (List UInt8)) :
    (session chunks).text = (chunks.map chunkText).flatten := by
  induction chunks using List.reverseRecOn with
  | nil => rfl
  | append_singleton chunks chunk ih =>
      rw [session_concat, Session.receive, ih]
      simp

/-- The bytes counted for some chunks: each with room for a terminator. -/
def allocated (chunks : List (List UInt8)) : Nat :=
  (chunks.map fun c => c.length + 1).sum

theorem allocated_concat (chunks : List (List UInt8)) (chunk : List UInt8) :
    allocated (chunks ++ [chunk]) = allocated chunks + (chunk.length + 1) := by
  simp [allocated]

theorem chunkText_length_le (chunk : List UInt8) :
    (chunkText chunk).length ≤ chunk.length :=
  (List.takeWhile_prefix _).length_le

theorem session_text_length (chunks : List (List UInt8)) :
    (session chunks).text.length + chunks.length ≤ allocated chunks := by
  induction chunks using List.reverseRecOn with
  | nil => rfl
  | append_singleton chunks chunk ih =>
      have := chunkText_length_le chunk
      rw [session_concat, Session.receive, allocated_concat]
      simp only [List.length_append, List.length_singleton]
      omega

theorem chunkText_of_nulFree {chunk : List UInt8} (h : 0 ∉ chunk) :
    chunkText chunk = chunk := by
  rw [chunkText, List.takeWhile_eq_self_iff]
  intro c hc
  simp only [ne_eq, decide_eq_true_eq]
  rintro rfl
  exact h hc

/-! ## The thread's buffers -/

/-- Between two `recv`s: `p_malloc_buf` holds the session's text. -/
structure Accumulated (t : Thread) (chunks : List (List UInt8)) : Prop where
  pBuffer : t.pBuffer.length = recvBufLen
  size : t.mallocBufSize = allocated chunks
  size_lt : allocated chunks < 2 ^ 31
  len : t.byteStringLen = chunks.flatten.length
  buf : (chunks = [] ∧ t.pMallocBuf = none) ∨
    ∃ b, t.pMallocBuf = some b ∧ b.length = allocated chunks ∧
      HasString b (session chunks).text

/-- Between `recv` and `realloc`: `p_buffer` holds the new chunk, the sizes
already count it. -/
structure Receiving (t : Thread) (chunks : List (List UInt8)) (chunk : List UInt8) :
    Prop where
  pBuffer : t.pBuffer.length = recvBufLen
  string : HasString t.pBuffer (chunkText chunk)
  size : t.mallocBufSize = allocated (chunks ++ [chunk])
  size_lt : allocated (chunks ++ [chunk]) < 2 ^ 31
  len : t.byteStringLen = (chunks ++ [chunk]).flatten.length
  buf : (chunks = [] ∧ t.pMallocBuf = none) ∨
    ∃ b, t.pMallocBuf = some b ∧ b.length = allocated chunks ∧
      HasString b (session chunks).text

section
variable {t t' : Thread} {chunks : List (List UInt8)} {chunk : List UInt8}

theorem accumulated_init : Accumulated Thread.init [] :=
  ⟨by simp [Thread.init], rfl, by decide, rfl, .inl ⟨rfl, rfl⟩⟩

theorem Accumulated.of_eq (h : Accumulated t chunks) (hb : t'.pBuffer = t.pBuffer)
    (hm : t'.mallocBufSize = t.mallocBufSize) (hl : t'.byteStringLen = t.byteStringLen)
    (hp : t'.pMallocBuf = t.pMallocBuf) : Accumulated t' chunks :=
  ⟨by rw [hb, h.pBuffer], by rw [hm, h.size], h.size_lt, by rw [hl, h.len],
    by rw [hp]; exact h.buf⟩

theorem hasString_received {pBuffer : List UInt8} (hlen : pBuffer.length = recvBufLen)
    (hc : chunk.length ≤ recvBufLen - 1) :
    HasString (overwrite pBuffer 0 (chunk ++ [0])) (chunkText chunk) ∧
      (overwrite pBuffer 0 (chunk ++ [0])).length = recvBufLen := by
  have hroom : 0 + (chunk ++ [0]).length ≤ pBuffer.length := by
    simp only [List.length_append, List.length_singleton]
    show 0 + (chunk.length + 1) ≤ pBuffer.length
    have : recvBufLen - 1 + 1 = recvBufLen := rfl
    omega
  refine ⟨?_, by rw [overwrite_length hroom, hlen]⟩
  rw [overwrite, List.take_zero, List.nil_append, List.append_assoc]
  exact hasString_terminated chunk _

theorem addInt_eq_some {x y z : Nat} : addInt x y = some z ↔ z = x + y ∧ z < 2 ^ 31 := by
  unfold addInt
  split
  · rename_i hlt
    rw [Option.some.injEq]
    constructor
    · rintro rfl
      exact ⟨rfl, hlt⟩
    · rintro ⟨rfl, -⟩
      rfl
  · rename_i hge
    constructor
    · intro h
      cases h
    · rintro ⟨rfl, hlt⟩
      exact absurd hlt hge

theorem Accumulated.received (h : Accumulated t chunks)
    (hc : chunk.length ≤ recvBufLen - 1) (hr : t.received chunk = some t') :
    Receiving t' chunks chunk ∧
      t'.pc = .realloc (decide (newline ∈ chunkText chunk)) (t.mallocBufSize == 0) := by
  obtain ⟨hstring, hlen⟩ := hasString_received h.pBuffer hc
  simp only [Thread.received, hstring.strchr, Option.bind_eq_bind, Option.bind_some,
    Option.bind_eq_some_iff] at hr
  obtain ⟨len, hlen', size, hsize, hr⟩ := hr
  cases hr
  obtain ⟨hsize, hlt⟩ := addInt_eq_some.mp hsize
  rw [h.size, ← allocated_concat] at hsize
  refine ⟨⟨hlen, hstring, hsize, hsize ▸ hlt, ?_, h.buf⟩, rfl⟩
  show len = (chunks ++ [chunk]).flatten.length
  rw [(addInt_eq_some.mp hlen').1, h.len]
  simp

theorem allocated_eq_zero_iff : (allocated chunks == 0) = true ↔ chunks = [] := by
  cases chunks <;> simp [allocated]

/-- **The block grows and the chunk is appended.** Neither copy runs past the
block. -/
theorem Receiving.reallocated (h : Receiving t chunks chunk) (bContainsNewline : Bool)
    (fill : Nat → UInt8) :
    ∃ t', t.reallocated bContainsNewline (allocated chunks == 0) fill = some t' ∧
      Accumulated t' (chunks ++ [chunk]) ∧
      t'.pc = (if bContainsNewline then .mutexLock else .recv) := by
  have htext : (session (chunks ++ [chunk])).text
      = (session chunks).text ++ chunkText chunk := by
    rw [session_concat]
    rfl
  have hle := session_text_length (chunks ++ [chunk])
  rw [htext] at hle
  simp only [List.length_append, List.length_singleton] at hle
  have hsize := h.size
  rcases h.buf with ⟨rfl, hnone⟩ | ⟨b, hb, hblen, hstring⟩
  · -- first chunk: `strcpy` into the new block
    have hroom : (chunkText chunk).length + 1
        ≤ (resize [] t.mallocBufSize fill).length := by
      rw [resize_length, hsize]
      omega
    obtain ⟨dst, hcpy, hdst, hdlen⟩ := strcpy_spec h.string hroom
    refine ⟨_, by simp [Thread.reallocated, hnone, allocated, hcpy]; rfl, ?_, rfl⟩
    refine ⟨h.pBuffer, hsize, h.size_lt, h.len, .inr ⟨dst, rfl, ?_, ?_⟩⟩
    · rw [hdlen, resize_length, hsize]
    · rw [htext]
      simpa using hdst
  · have hne : (allocated chunks == 0) = false := by
      rw [← Bool.not_eq_true, allocated_eq_zero_iff]
      rintro rfl
      have := hstring.length_lt
      rw [hblen] at this
      cases this
    have hroom : (session chunks).text.length + 1 ≤ t.mallocBufSize := by
      rw [hsize]
      omega
    have hstring' := hstring.resize (n := t.mallocBufSize) fill hroom
    have hroom' : (session chunks).text.length + (chunkText chunk).length + 1
        ≤ (resize b t.mallocBufSize fill).length := by
      rw [resize_length, hsize]
      omega
    obtain ⟨dst, hcat, hdst, hdlen⟩ := strcat_spec hstring' h.string hroom'
    refine ⟨_, by simp [Thread.reallocated, hb, hne, hcat]; rfl, ?_, rfl⟩
    refine ⟨h.pBuffer, hsize, h.size_lt, h.len, .inr ⟨dst, rfl, ?_, ?_⟩⟩
    · rw [hdlen, resize_length, hsize]
    · rw [htext]
      exact hdst

/-- **The stream is open**: the text decides between a write and an `ioctl`. -/
theorem Accumulated.opened (h : Accumulated t chunks) (hne : chunks ≠ [])
    (file : Option Nat) :
    ∃ t', t.opened file = some t' ∧ Accumulated t' chunks ∧
      t'.phSocketDataFile = file ∧ t'.pc = (commitAction (session chunks).text).pc := by
  rcases h.buf with ⟨hnil, -⟩ | ⟨b, hb, -, hstring⟩
  · exact absurd hnil hne
  · refine ⟨{ t with
        pc := if aesdcharIocseektoCmdStr <:+: (session chunks).text
          then .fileno (scanSeekto (session chunks).text)
          else .fprintf (session chunks).text
        phSocketDataFile := file }, ?_, h.of_eq rfl rfl rfl rfl, rfl, ?_⟩
    · simp [Thread.opened, hb, hstring.strstr, hstring.cstr]
    · unfold commitAction
      by_cases hcmd : aesdcharIocseektoCmdStr <:+: (session chunks).text
      · rw [if_pos hcmd]
        simp [hcmd, Action.pc]
      · rw [if_neg hcmd]
        simp [hcmd, Action.pc]

end

/-! ## The thread follows the session -/

/-- The chunk an event received; an event is a call with its result. -/
def chunkOf : Call × Resp → Option (List UInt8)
  | (.recv _, .bytes chunk) => some chunk
  | _ => none

/-- What a call does to the data file. -/
def Call.action : Call → Option Action
  | .fprintf _ text => some (.write text)
  | .ioctl _ _ seekto => some (.ioctl seekto)
  | _ => none

/-- One more event in the record of what was done after each chunk. -/
def noteEvent (handled : List (List Action)) (e : Call × Resp) : List (List Action) :=
  match chunkOf e, e.1.action with
  | some _, _ => handled ++ [[]]
  | none, some a => handled.dropLast ++ [handled.getLastD [] ++ [a]]
  | none, none => handled

/-- The chunks received in a sequence of events. -/
def chunksOf (trace : List (Call × Resp)) : List (List UInt8) :=
  trace.filterMap chunkOf

/-- What was done after each of them. -/
def handledOf (trace : List (Call × Resp)) : List (List Action) :=
  trace.foldl noteEvent []

/-- The last of some chunks has a newline. -/
def Commits (chunks : List (List UInt8)) : Prop :=
  ∃ pre chunk, chunks = pre ++ [chunk] ∧ newline ∈ chunkText chunk

/-- The thread has received `chunks` and is where the session says. -/
def Follows (t : Thread) (chunks : List (List UInt8)) : Prop :=
  match t.pc with
  | .inetNtop => chunks = [] ∧ Accumulated t chunks
  | .realloc bContainsNewline bIsFirstMalloc => ∃ pre chunk, chunks = pre ++ [chunk] ∧
      Receiving t pre chunk ∧ bContainsNewline = decide (newline ∈ chunkText chunk) ∧
      bIsFirstMalloc = (allocated pre == 0)
  | .mutexLock | .fopen => Accumulated t chunks ∧ Commits chunks
  | .fprintf text => Accumulated t chunks ∧ Commits chunks ∧
      commitAction (session chunks).text = .write text
  | .fileno seekto | .ioctl _ seekto => Accumulated t chunks ∧ Commits chunks ∧
      commitAction (session chunks).text = .ioctl seekto
  | .recv | .getline | .send _ _ | .fclose | .mutexUnlock => Accumulated t chunks
  | .done => True

/-- Whether the last chunk has yet to be handled. -/
def Pc.due : Pc → Bool
  | .realloc _ _ | .mutexLock | .fopen | .fprintf _ | .fileno _ | .ioctl _ _ => true
  | _ => false

/-- What was done after each chunk, at a `Pc`. -/
def handledAt (pc : Pc) (chunks : List (List UInt8)) : List (List Action) :=
  if pc.due then (session chunks.dropLast).handled ++ [[]] else (session chunks).handled

/-- The results a thread ends with: `inet_ntop` or `realloc` failed, `recv`
failed or the peer closed. -/
def Pc.exits : Pc → Resp → Bool
  | .inetNtop, .null | .recv, .int _ | .realloc _ _, .null => true
  | _, _ => false

/-- After an event the thread follows one chunk more, if it was received, and
the record of what was done is the one of the new `Pc`. -/
structure FollowsOn (pc : Pc) (chunks : List (List UInt8)) (e : Call × Resp)
    (t' : Thread) : Prop where
  follows : Follows t' (chunks ++ (chunkOf e).toList)
  handled : t'.pc ≠ .done → noteEvent (handledAt pc chunks) e
    = handledAt t'.pc (chunks ++ (chunkOf e).toList)

section
variable {t t' : Thread} {chunks : List (List UInt8)} {call : Call} {r : Resp}

theorem Commits.handled (h : Commits chunks) :
    (session chunks).handled
      = (session chunks.dropLast).handled ++ [[commitAction (session chunks).text]] := by
  obtain ⟨pre, chunk, rfl, hn⟩ := h
  rw [session_concat, List.dropLast_concat]
  simp [Session.receive, hn]

theorem Commits.ne_nil (h : Commits chunks) : chunks ≠ [] := by
  obtain ⟨pre, chunk, rfl, -⟩ := h
  simp

theorem follows_init : Follows Thread.init [] := ⟨rfl, accumulated_init⟩

/-- A chunk received, and one with no newline handled: nothing is due. -/
theorem session_handled_quiet {pre : List (List UInt8)} {chunk : List UInt8}
    (h : newline ∉ chunkText chunk) :
    (session (pre ++ [chunk])).handled = (session pre).handled ++ [[]] := by
  rw [session_concat]
  simp [Session.receive, h]

/-- A thread that is done makes no further call. -/
theorem Thread.step_ne_done (hs : t.step r = some (call, t')) : t.pc ≠ .done := by
  cases Thread.step_cases hs <;> simp [*]

theorem followsOn_finish {pc : Pc} {e : Call × Resp} : FollowsOn pc chunks e t.finish :=
  ⟨trivial, fun h => absurd rfl h⟩

/-- An event that neither receives nor does anything to the data file. -/
theorem followsOn_quiet {pc : Pc} {e : Call × Resp} (hc : chunkOf e = none)
    (ha : e.1.action = none) (hf : Follows t' chunks)
    (hdue : pc.due = t'.pc.due) : FollowsOn pc chunks e t' := by
  have hchunks : chunks ++ (chunkOf e).toList = chunks := by simp [hc]
  constructor
  · rwa [hchunks]
  · intro _
    unfold noteEvent handledAt
    rw [hc, ha, hdue, show chunks ++ (none : Option (List UInt8)).toList = chunks by simp]

theorem followsOn_action {pc : Pc} {e : Call × Resp} (hc : chunkOf e = none)
    (hn : Commits chunks) (ha : e.1.action = some (commitAction (session chunks).text))
    (hf : Follows t' chunks) (hdue : pc.due = true) (hdue' : t'.pc.due = false) :
    FollowsOn pc chunks e t' := by
  have hchunks : chunks ++ (chunkOf e).toList = chunks := by simp [hc]
  constructor
  · rwa [hchunks]
  · intro _
    rw [hchunks]
    unfold noteEvent handledAt
    rw [hc, ha, hdue, hdue', if_pos rfl, if_neg (by simp), hn.handled]
    simp

theorem Accumulated.followsOn_received {chunk : List UInt8} (h : Accumulated t chunks)
    (hlen : chunk.length ≤ recvBufLen - 1) (hr : t.received chunk = some t') :
    FollowsOn .recv chunks (.recv (recvBufLen - 1), .bytes chunk) t' := by
  obtain ⟨hrec, hpc⟩ := h.received hlen hr
  constructor
  · unfold Follows
    rw [hpc]
    exact ⟨chunks, chunk, rfl, hrec, rfl, by rw [h.size]⟩
  · intro _
    unfold handledAt
    rw [hpc]
    simp [noteEvent, chunkOf, Pc.due]

theorem Receiving.followsOn_reallocated {pre : List (List UInt8)} {chunk : List UInt8}
    {size : Nat} {fill : Nat → UInt8} (h : Receiving t pre chunk)
    (hr : t.reallocated (decide (newline ∈ chunkText chunk)) (allocated pre == 0) fill
      = some t') :
    FollowsOn (.realloc (decide (newline ∈ chunkText chunk)) (allocated pre == 0))
      (pre ++ [chunk]) (.realloc size, .memory fill) t' := by
  obtain ⟨u, hu, hacc, hupc⟩ := h.reallocated (decide (newline ∈ chunkText chunk)) fill
  rw [hr] at hu
  cases hu
  by_cases hn : newline ∈ chunkText chunk
  · simp only [hn, decide_true, if_true] at hupc
    refine followsOn_quiet rfl rfl ?_ (by rw [hupc]; rfl)
    unfold Follows
    rw [hupc]
    exact ⟨hacc, pre, chunk, rfl, hn⟩
  · -- no newline: nothing is due for this chunk
    simp only [hn, decide_false, Bool.false_eq_true, if_false] at hupc
    constructor
    · unfold Follows
      rw [hupc]
      simpa [chunkOf] using hacc
    · intro _
      unfold noteEvent handledAt
      rw [hupc]
      simp [chunkOf, Call.action, Pc.due, session_handled_quiet hn]

theorem Accumulated.followsOn_opened {file : Option Nat} (h : Accumulated t chunks)
    (hc : Commits chunks) (hr : t.opened file = some t') :
    FollowsOn .fopen chunks (.fopen, r) t' := by
  obtain ⟨u, hu, hacc, -, hupc⟩ := h.opened hc.ne_nil file
  rw [hr] at hu
  cases hu
  have hf : Follows t' chunks ∧ t'.pc.due = true := by
    unfold Follows
    rw [hupc]
    cases commitAction (session chunks).text with
    | write text => exact ⟨⟨hacc, hc, rfl⟩, rfl⟩
    | ioctl seekto => exact ⟨⟨hacc, hc, rfl⟩, rfl⟩
  exact followsOn_quiet rfl rfl hf.1 hf.2.symm

theorem Accumulated.followsOn_sendLoop {e : Call × Resp} {pc : Pc} {line : List UInt8}
    {total : Nat} (h : Accumulated t chunks) (hc : chunkOf e = none)
    (ha : e.1.action = none) (hdue : pc.due = false) :
    FollowsOn pc chunks e (t.sendLoop line total) := by
  have h' : Accumulated (t.sendLoop line total) chunks := h.of_eq rfl rfl rfl rfl
  have hpc : (t.sendLoop line total).pc = .send line total ∨
      (t.sendLoop line total).pc = .getline := by
    unfold Thread.sendLoop
    dsimp only
    split
    · exact .inl rfl
    · exact .inr rfl
  generalize t.sendLoop line total = u at h' hpc ⊢
  refine followsOn_quiet hc ha ?_ ?_
  · unfold Follows
    rcases hpc with hpc | hpc <;> rw [hpc] <;> exact h'
  · rcases hpc with hpc | hpc <;> rw [hpc, hdue] <;> rfl

/-- **One call**: the thread follows the session. -/
theorem Follows.step (h : Follows t chunks) (hs : t.step r = some (call, t')) :
    FollowsOn t.pc chunks (call, r) t' := by
  unfold Follows at h
  cases Thread.step_cases hs with
  | noAddress hpc | ended hpc | noMemory hpc => exact followsOn_finish
  | address hpc =>
      rw [hpc] at h ⊢
      exact followsOn_quiet rfl rfl (h.2.of_eq rfl rfl rfl rfl) rfl
  | received hpc hlen hr =>
      rw [hpc] at h ⊢
      exact h.followsOn_received hlen.2 hr
  | reallocated hpc hr =>
      rw [hpc] at h ⊢
      obtain ⟨pre, chunk, rfl, hrec, rfl, rfl⟩ := h
      exact hrec.followsOn_reallocated hr
  | locked hpc =>
      rw [hpc] at h ⊢
      exact followsOn_quiet rfl rfl ⟨h.1.of_eq rfl rfl rfl rfl, h.2⟩ rfl
  | notOpened hpc hr | opened hpc hr =>
      rw [hpc] at h ⊢
      exact h.1.followsOn_opened h.2 hr
  | printed hpc =>
      rw [hpc] at h ⊢
      exact followsOn_action rfl h.2.1 (by rw [h.2.2]; rfl)
        (h.1.of_eq rfl rfl rfl rfl) rfl rfl
  | number hpc =>
      rw [hpc] at h ⊢
      exact followsOn_quiet rfl rfl ⟨h.1.of_eq rfl rfl rfl rfl, h.2⟩ rfl
  | sought hpc =>
      rw [hpc] at h ⊢
      exact followsOn_action rfl h.2.1 (by rw [h.2.2]; rfl)
        (h.1.of_eq rfl rfl rfl rfl) rfl rfl
  | endOfFile hpc | notSent hpc | fileClosed hpc | unlocked hpc =>
      rw [hpc] at h ⊢
      exact followsOn_quiet rfl rfl (h.of_eq rfl rfl rfl rfl) rfl
  | line hpc | sent hpc hn =>
      rw [hpc] at h ⊢
      exact h.followsOn_sendLoop rfl rfl rfl

theorem chunksOf_concat (trace : List (Call × Resp)) (e : Call × Resp) :
    chunksOf (trace ++ [e]) = chunksOf trace ++ (chunkOf e).toList := by
  rw [chunksOf, List.filterMap_append]
  cases he : chunkOf e <;> simp [chunksOf, he]

theorem handledOf_concat (trace : List (Call × Resp)) (e : Call × Resp) :
    handledOf (trace ++ [e]) = noteEvent (handledOf trace) e := by
  simp [handledOf]

/-- **A run follows the session**: whatever the calls return, the thread has
done what the session of the chunks it received says. -/
theorem run_session {resps : List Resp} {calls : List Call}
    (h : run Thread.step .init resps = some (calls, t)) :
    Follows t (chunksOf (calls.zip resps)) ∧ (t.pc ≠ .done →
      handledOf (calls.zip resps) = handledAt t.pc (chunksOf (calls.zip resps))) := by
  refine run_history (P := fun resps calls t => Follows t (chunksOf (calls.zip resps)) ∧
    (t.pc ≠ .done →
      handledOf (calls.zip resps) = handledAt t.pc (chunksOf (calls.zip resps))))
    ⟨follows_init, fun _ => rfl⟩ ?_ h
  intro resps calls t r call t' hrun ih hs
  have hf := ih.1.step hs
  rw [List.zip_append (run_length hrun), List.zip_cons_cons, List.zip_nil_right,
    chunksOf_concat, handledOf_concat, ih.2 (Thread.step_ne_done hs)]
  exact ⟨hf.follows, hf.handled⟩

/-! ### Where the thread goes on -/

theorem Thread.received_pc {chunk : List UInt8} (h : t.received chunk = some t') :
    ∃ bContainsNewline bIsFirstMalloc, t'.pc = .realloc bContainsNewline bIsFirstMalloc := by
  simp only [Thread.received, Option.bind_eq_bind, Option.bind_eq_some_iff] at h
  obtain ⟨_, -, _, -, _, -, h⟩ := h
  cases h
  exact ⟨_, _, rfl⟩

theorem Thread.reallocated_pc {bContainsNewline bIsFirstMalloc : Bool}
    {fill : Nat → UInt8}
    (h : t.reallocated bContainsNewline bIsFirstMalloc fill = some t') :
    t'.phSocketDataFile = t.phSocketDataFile ∧ (t'.pc = .mutexLock ∨ t'.pc = .recv) := by
  unfold Thread.reallocated at h
  cases bIsFirstMalloc <;> simp only [Bool.false_eq_true, if_true, if_false,
    Option.bind_eq_bind, Option.bind_eq_some_iff] at h <;> obtain ⟨_, -, h⟩ := h <;>
    cases h <;> cases bContainsNewline <;> simp

theorem Thread.opened_pc {file : Option Nat} (h : t.opened file = some t') :
    t'.phSocketDataFile = file ∧
      ((∃ seekto, t'.pc = .fileno seekto) ∨ ∃ text, t'.pc = .fprintf text) := by
  simp only [Thread.opened, Option.bind_eq_bind, Option.bind_eq_some_iff] at h
  obtain ⟨_, -, found, -, _, -, h⟩ := h
  cases h
  cases found <;> simp

theorem Thread.sendLoop_pc (t : Thread) (line : List UInt8) (total : Nat) :
    (t.sendLoop line total).pc = .send line total ∨
      (t.sendLoop line total).pc = .getline := by
  unfold Thread.sendLoop
  dsimp only
  split <;> simp

/-- **A thread ends by one of its exits**, and only so. -/
theorem Thread.step_done_iff (hs : t.step r = some (call, t')) :
    t'.pc = .done ↔ t.pc.exits r = true := by
  have hgoes : t'.pc ≠ .done → t.pc.exits r = false →
      (t'.pc = .done ↔ t.pc.exits r = true) := by
    intro hne hexits
    rw [hexits]
    simp [hne]
  cases Thread.step_cases hs with
  | noAddress hpc | ended hpc | noMemory hpc => simp [hpc, Thread.finish, Pc.exits]
  | received hpc hlen hr =>
      obtain ⟨_, _, hpc'⟩ := Thread.received_pc hr
      exact hgoes (by simp [hpc']) (by rw [hpc]; rfl)
  | reallocated hpc hr =>
      obtain ⟨-, hpc' | hpc'⟩ := Thread.reallocated_pc hr <;>
        exact hgoes (by simp [hpc']) (by rw [hpc]; rfl)
  | notOpened hpc hr | opened hpc hr =>
      obtain ⟨-, ⟨_, hpc'⟩ | ⟨_, hpc'⟩⟩ := Thread.opened_pc hr <;>
        exact hgoes (by simp [hpc']) (by rw [hpc]; rfl)
  | @line line hpc =>
      obtain hpc' | hpc' := t.sendLoop_pc line 0 <;>
        exact hgoes (by simp [hpc']) (by rw [hpc]; rfl)
  | @sent line total n hpc hn =>
      obtain hpc' | hpc' := t.sendLoop_pc line (total + n.toNat) <;>
        exact hgoes (by simp [hpc']) (by rw [hpc]; rfl)
  | address hpc | locked hpc | printed hpc | number hpc | sought hpc | endOfFile hpc
  | notSent hpc | fileClosed hpc | unlocked hpc =>
      exact hgoes (by simp) (by rw [hpc]; rfl)

/-- The event a thread ends with neither receives nor does anything to the
data file. -/
theorem Thread.step_exit (hs : t.step r = some (call, t')) (he : t.pc.exits r = true) :
    chunkOf (call, r) = none ∧ call.action = none := by
  cases Thread.step_cases hs with
  | noAddress hpc | ended hpc | noMemory hpc => exact ⟨rfl, rfl⟩
  | printed hpc | sought hpc | received hpc =>
      rw [hpc] at he
      cases he
  | _ => exact ⟨rfl, rfl⟩

/-- What any run has done, a thread that ended included: what is due for the
last chunk may be left undone. -/
theorem run_handled {resps : List Resp} {calls : List Call}
    (h : run Thread.step .init resps = some (calls, t)) :
    ∃ pc : Pc, handledOf (calls.zip resps) = handledAt pc (chunksOf (calls.zip resps)) ∧
      (t.pc ≠ .done → pc = t.pc) := by
  by_cases hd : t.pc = .done
  case neg => exact ⟨t.pc, (run_session h).2 hd, fun _ => rfl⟩
  rcases List.eq_nil_or_concat' resps with rfl | ⟨resps, r, rfl⟩
  · cases h
    cases hd
  · -- the last event is the one it ended with
    obtain ⟨calls, u, call, hrun, hs, rfl⟩ := run_snoc.mp h
    have hu := Thread.step_ne_done hs
    obtain ⟨hc, ha⟩ := Thread.step_exit hs ((Thread.step_done_iff hs).mp hd)
    refine ⟨u.pc, ?_, fun hne => absurd hd hne⟩
    rw [List.zip_append (run_length hrun), List.zip_cons_cons, List.zip_nil_right,
      chunksOf_concat, handledOf_concat, hc, (run_session hrun).2 hu]
    unfold noteEvent
    rw [hc, ha]
    simp

end

end Aesd.Server
