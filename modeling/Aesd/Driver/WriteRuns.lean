import Aesd.Driver.LogDevice

/-!
# Runs of writes

From the initialised device, every run of calls in which no allocation
fails keeps the device in step with the log of the chunks whose write
succeeded (`run_intact`). For runs of `aesd_write` that is the whole
behaviour (`writes_refine_log`), and with chunks that hold a newline only as
their last byte the log is the lines of the byte stream, however it is cut
(`aligned_writes_store_lines`).
-/

namespace Aesd.Driver

open Aesd.Lib

/-- The bytes of the stored entries, oldest first. -/
def DriverState.entries (s : DriverState) : List (List UInt8) :=
  s.aesdDevice.circularBuffer.stored.map fun e => s.heap.bytes e.buffptr

/-- The first `write_buffer_size` bytes of `p_write_buffer`. -/
def DriverState.pendingBytes (s : DriverState) : List UInt8 :=
  (s.heap.bytes s.aesdDevice.pWriteBuffer).take s.aesdDevice.writeBufferSize

/-- The chunk a call adds to the log: that of a write that succeeded. -/
def acceptedChunk : Op × Reply → Option (List UInt8)
  | (.write c, r) => if 0 ≤ r.ret then some c.buf.bytes else none
  | _ => none

/-- The chunks of the writes that succeeded, in order. -/
def accepted (ops : List Op) (rs : List Reply) : List (List UInt8) :=
  (ops.zip rs).filterMap acceptedChunk

theorem accepted_concat {ops : List Op} {rs : List Reply} (op : Op) (r : Reply)
    (h : rs.length = ops.length) :
    accepted (ops ++ [op]) (rs ++ [r])
      = accepted ops rs ++ (acceptedChunk (op, r)).toList := by
  rw [accepted, List.zip_append h.symm, List.filterMap_append]
  cases hc : acceptedChunk (op, r) <;> simp [accepted, hc]

/-- A log with the chunk of one more call. -/
def CommandLog.after (log : CommandLog) (op : Op) (r : Reply) : CommandLog :=
  (acceptedChunk (op, r)).toList.foldl CommandLog.write log

theorem commandLog_accepted_concat {ops : List Op} {rs : List Reply} (op : Op)
    (r : Reply) (h : rs.length = ops.length) :
    commandLog (accepted (ops ++ [op]) (rs ++ [r]))
      = (commandLog (accepted ops rs)).after op r := by
  rw [accepted_concat op r h, commandLog_append]
  rfl

section
variable {s : DriverState} {log : CommandLog}

theorem Intact.entries (h : Intact s log) : s.entries = log.stored := by
  obtain ⟨es, hr⟩ := h.ring
  exact hr.bytes

theorem Intact.sizes (h : Intact s log) :
    s.aesdDevice.circularBuffer.sizes = log.stored.map List.length := by
  obtain ⟨es, hr⟩ := h.ring
  exact hr.sizes

theorem Intact.pendingBytes (h : Intact s log) : s.pendingBytes = log.pending := by
  rw [DriverState.pendingBytes, h.size, h.pending]

end

theorem Tracks.entries {s : DriverState} {a : LogState} (h : Tracks s a) :
    s.entries = a.log.stored := by
  obtain ⟨_, es, hr⟩ := h.ring
  exact hr.bytes

/-! ## One call -/

section
variable {a a' : LogDevice} {r : Reply}

theorem WriteOutcome.ret_nonneg_iff {buf : UserBuf} {o : WriteOutcome} :
    0 ≤ o.ret buf ↔ o = .stored := by
  cases o <;> simp [WriteOutcome.ret, eRestartSys, eNoMem, eFault]

/-- What a write does to the log: nothing unless its chunk was stored. -/
theorem LogState.write_cases {a a' : LogState} {buf : UserBuf} {env : WriteEnv}
    {ret : Int} (h : a.write buf env = some (ret, a')) :
    let o := writeOutcome a.limit a.log.pending.length buf env
    ret = o.ret buf ∧ a'.limit = a.limit ∧
    ((o = .interrupted ∧ a' = a) ∨
      (o = .noMemory ∧ a.buffer = .nothing ∧ a' = a) ∨
      (o = .noMemory ∧ a.buffer = .held ∧ a' = { a with buffer := .freed }) ∨
      (o = .faulted ∧ a.buffer ≠ .freed ∧ a' = { a with buffer := .held }) ∨
      (o = .stored ∧ a.buffer ≠ .freed ∧ a'.log = a.log.write buf.bytes ∧
        a'.buffer = if newline ∉ buf.bytes ∧ buf.bytes.length + a.log.pending.length ≠ 0
          then .held else .nothing)) := by
  simp only [LogState.write] at h
  cases ho : writeOutcome a.limit a.log.pending.length buf env <;>
    cases hb : a.buffer <;> rw [ho, hb] at h <;> cases h <;>
    simp [WriteOutcome.ret]

theorem LogDevice.step_state {op : Op} (hop : ∀ c, op ≠ .write c)
    (h : a.step op = some (r, a')) : a'.state = a.state := by
  cases op with
  | write c => exact absurd rfl (hop c)
  | «open» file =>
      cases h
      rfl
  | read c =>
      simp only [LogDevice.step, Option.bind_eq_bind, Option.bind_eq_some_iff] at h
      obtain ⟨_, _, h⟩ := h
      cases h
      rfl
  | llseek file off whence interrupted =>
      cases h
      rfl
  | ioctl file cmd seekto env =>
      cases h
      rfl

theorem LogDevice.step_write {c : WriteCall} (h : a.step (.write c) = some (r, a')) :
    a.state.write c.buf c.env = some (r.ret, a'.state) ∧ r.data = [] ∧
      a'.fPos = a.fPos := by
  simp only [LogDevice.step, Option.bind_eq_bind, Option.bind_eq_some_iff] at h
  obtain ⟨⟨ret, state⟩, hw, h⟩ := h
  cases h
  exact ⟨hw, rfl, rfl⟩

/-- **One call adds its chunk to the log**, if it is a write that succeeded. -/
theorem LogDevice.step_log {op : Op} (h : a.step op = some (r, a')) :
    a'.state.log = a.state.log.after op r := by
  by_cases hop : ∃ c, op = .write c
  · obtain ⟨c, rfl⟩ := hop
    obtain ⟨hret, -, hcases⟩ := LogState.write_cases (LogDevice.step_write h).1
    simp only [CommandLog.after, acceptedChunk, hret, WriteOutcome.ret_nonneg_iff]
    rcases hcases with ⟨ho, ha⟩ | ⟨ho, -, ha⟩ | ⟨ho, -, ha⟩ | ⟨ho, -, ha⟩ | ⟨ho, -, ha, -⟩
    all_goals
      rw [ho, ha]
      rfl
  · have hop' : ∀ c, op ≠ .write c := fun c hc => hop ⟨c, hc⟩
    have hchunk : acceptedChunk (op, r) = none := by
      cases op <;> simp_all [acceptedChunk]
    rw [LogDevice.step_state hop' h, CommandLog.after, hchunk]
    rfl

/-- Only a failed allocation frees the write buffer. -/
theorem LogDevice.step_buffer {op : Op} (h : a.step op = some (r, a'))
    (hr : r.ret ≠ -eNoMem) (hb : a.state.buffer ≠ .freed) :
    a'.state.buffer ≠ .freed := by
  by_cases hop : ∃ c, op = .write c
  · obtain ⟨c, rfl⟩ := hop
    obtain ⟨hret, -, hcases⟩ := LogState.write_cases (LogDevice.step_write h).1
    rcases hcases with ⟨-, ha⟩ | ⟨-, -, ha⟩ | ⟨ho, -, -⟩ | ⟨-, -, ha⟩ | ⟨-, -, -, ha⟩
    · rwa [ha]
    · rwa [ha]
    · rw [hret, ho] at hr
      exact absurd rfl hr
    · rw [ha]
      simp
    · rw [ha]
      split <;> simp
  · rwa [LogDevice.step_state (fun c hc => hop ⟨c, hc⟩) h]

theorem LogDevice.step_write_defined (hb : a.state.buffer ≠ .freed) (c : WriteCall) :
    ∃ r a', a.step (.write c) = some (r, a') := by
  simp only [LogDevice.step, LogState.write]
  cases writeOutcome a.state.limit a.state.log.pending.length c.buf c.env <;>
    cases hbuf : a.state.buffer <;> first | exact absurd hbuf hb | exact ⟨_, _, rfl⟩

end

/-! ## Runs -/

section
variable {limit : Nat} {hl : limit ≤ 2 ^ 56} {fPos : Nat → Int} {ops : List Op}
  {rs : List Reply}

/-- **The log of a run** is the log of the chunks it accepted. -/
theorem run_log {a : LogDevice}
    (h : run LogDevice.step (.init limit fPos) ops = some (rs, a)) :
    a.state.log = commandLog (accepted ops rs) := by
  refine run_history (P := fun ops rs a => a.state.log = commandLog (accepted ops rs))
    rfl ?_ h
  intro ops rs a op r a' hrun ih hs
  rw [commandLog_accepted_concat op r (run_length hrun), ← ih]
  exact LogDevice.step_log hs

theorem run_limit {a : LogDevice}
    (h : run LogDevice.step (.init limit fPos) ops = some (rs, a)) :
    a.state.limit = limit := by
  refine run_invariant (I := fun a => a.state.limit = limit) ?_ rfl h
  intro a op r a' ih hs
  by_cases hop : ∃ c, op = .write c
  · obtain ⟨c, rfl⟩ := hop
    rw [(LogState.write_cases (LogDevice.step_write hs).1).2.1, ih]
  · rw [LogDevice.step_state (fun c hc => hop ⟨c, hc⟩) hs, ih]

/-- Without a failed allocation the write buffer is never freed. -/
theorem run_buffer {a : LogDevice}
    (h : run LogDevice.step (.init limit fPos) ops = some (rs, a))
    (hr : ∀ r ∈ rs, r.ret ≠ -eNoMem) : a.state.buffer ≠ .freed := by
  revert hr
  refine run_history (P := fun _ rs a => (∀ r ∈ rs, r.ret ≠ -eNoMem) →
    a.state.buffer ≠ .freed) ?_ ?_ h
  · intro _
    simp [LogDevice.init]
  · intro ops rs a op r a' _ ih hs hr
    exact LogDevice.step_buffer hs (hr r (by simp)) (ih fun q hq => hr q (by simp [hq]))

/-- The log device a run of the driver ends in. -/
theorem run_tracks {d : Device}
    (h : run Device.step (.init limit hl fPos) ops = some (rs, d)) :
    ∃ a, run LogDevice.step (.init limit fPos) ops = some (rs, a) ∧
      DeviceTracks d a ∧ a.state.log = commandLog (accepted ops rs) := by
  obtain ⟨a, ha, ht⟩ := run_of_lockstep (fun _ _ op h => h.step op)
    (deviceTracks_init limit hl fPos) h
  exact ⟨a, ha, ht, run_log ha⟩

/-- **Every run without a failed allocation** leaves the device intact for
the log of the accepted chunks. -/
theorem run_intact {d : Device}
    (h : run Device.step (.init limit hl fPos) ops = some (rs, d))
    (hr : ∀ r ∈ rs, r.ret ≠ -eNoMem) :
    Intact d.driver (commandLog (accepted ops rs)) := by
  obtain ⟨a, ha, ht, hlog⟩ := run_tracks h
  rw [← hlog]
  exact ht.state.intact (run_buffer ha hr)

/-- Without a failed allocation a run of writes is defined to its end. -/
theorem run_writes_defined {calls : List WriteCall}
    (h : ∀ r ∈ outputs Device.step (.init limit hl fPos) (calls.map .write),
      r.ret ≠ -eNoMem) :
    ∃ rs d, run Device.step (.init limit hl fPos) (calls.map .write)
      = some (rs, d) := by
  refine run_progress (I := fun d => ∃ a, DeviceTracks d a ∧ a.state.buffer ≠ .freed)
    (G := fun r => r.ret ≠ -eNoMem) ?_
    ⟨_, deviceTracks_init limit hl fPos, by simp [LogDevice.init]⟩ h
  rintro d ⟨a, hd, hb⟩ op hop
  obtain ⟨c, _, rfl⟩ := List.mem_map.mp hop
  obtain ⟨r, a', ha⟩ := LogDevice.step_write_defined hb c
  have hstep := hd.step (.write c)
  rw [ha] at hstep
  obtain ⟨d', hd', ht⟩ := hstep.of_some_right
  exact ⟨r, d', hd', fun hr => ⟨a', ht, LogDevice.step_buffer ha hr hb⟩⟩

/-- What a write returns if there is memory for it. -/
def WriteCall.ret (c : WriteCall) : Int :=
  if c.env.interrupted then -eRestartSys
  else if c.env.fault.isSome && decide (c.buf.bytes ≠ []) then -eFault
  else c.buf.bytes.length

theorem WriteOutcome.ret_eq {pending : Nat} {c : WriteCall} {o : WriteOutcome}
    (ho : writeOutcome limit pending c.buf c.env = o) (hmem : o ≠ .noMemory) :
    o.ret c.buf = c.ret := by
  have hwhen := writeOutcome_when ho
  cases o with
  | noMemory => exact absurd rfl hmem
  | interrupted => exact (if_pos hwhen).symm
  | faulted =>
      obtain ⟨hint, -, hfault⟩ := hwhen
      rw [WriteCall.ret, if_neg (by simp [hint]), if_pos hfault]
      rfl
  | stored =>
      obtain ⟨hint, -, hfault⟩ := hwhen
      rw [WriteCall.ret, if_neg (by simp [hint]), if_neg (Bool.eq_false_iff.mp hfault)]
      rfl

/-- **The replies of a run of writes**: each is decided by what the kernel did during
its own call. -/
theorem write_replies {calls : List WriteCall} {a : LogDevice}
    (h : run LogDevice.step (.init limit fPos) (calls.map .write) = some (rs, a))
    (hr : ∀ r ∈ rs, r.ret ≠ -eNoMem) : rs = calls.map fun c => ⟨c.ret, []⟩ := by
  induction calls using List.reverseRecOn generalizing rs a with
  | nil =>
      cases h
      rfl
  | append_singleton calls c ih =>
      rw [List.map_append] at h
      obtain ⟨rs, b, r, hrun, hs, rfl⟩ := run_snoc.mp h
      obtain ⟨hw, hdata, -⟩ := LogDevice.step_write hs
      obtain ⟨hret, -, -⟩ := LogState.write_cases hw
      have hmem := hr r (by simp)
      rw [hret] at hmem
      rw [WriteOutcome.ret_eq rfl fun ho => hmem (by rw [ho]; rfl)] at hret
      rw [ih hrun fun q hq => hr q (by simp [hq]), List.map_append, List.map_singleton, ← hret,
        ← hdata]

/-- **The device refines the log of its chunks.** Write calls by any files,
with any chunks, in any order, none of which runs out of memory: the run is
defined, and a call returns -ERESTARTSYS if a signal came at its lock, else -EFAULT
if the copy of its chunk faulted, else its count. The ring holds the last ten
closed groups of the chunks that were accepted, oldest first, and the write buffer
the chunks after them. -/
theorem writes_refine_log (limit : Nat) (hl : limit ≤ 2 ^ 56) (fPos : Nat → Int)
    (calls : List WriteCall)
    (hmem : ∀ r ∈ outputs Device.step (.init limit hl fPos) (calls.map .write),
      r.ret ≠ -eNoMem) :
    ∃ rs d, run Device.step (.init limit hl fPos) (calls.map .write) = some (rs, d) ∧
      rs = calls.map (fun c => ⟨c.ret, []⟩) ∧
      let groups := frames containsNewline (accepted (calls.map .write) rs)
      let commands := (groups.closed.map List.flatten).rtake 10
      d.driver.entries = commands ∧
      d.driver.aesdDevice.circularBuffer.sizes = commands.map List.length ∧
      d.driver.pendingBytes = groups.rest.flatten ∧
      d.driver.aesdDevice.writeBufferSize = groups.rest.flatten.length ∧
      newline ∉ groups.rest.flatten := by
  obtain ⟨rs, d, h⟩ := run_writes_defined hmem
  rw [outputs_of_run h] at hmem
  have hi := run_intact h hmem
  obtain ⟨a, ha, -, -⟩ := run_tracks h
  obtain ⟨hc, hp⟩ := commandLog_frames (accepted (calls.map .write) rs)
  refine ⟨rs, d, h, write_replies ha hmem, ?_, ?_, ?_, ?_, ?_⟩
  · rw [hi.entries, CommandLog.stored, hc]
  · rw [hi.sizes, CommandLog.stored, hc]
  · rw [hi.pendingBytes, hp]
  · rw [hi.size, hp]
  · rw [← hp]
    exact (commandLog _).newline_notMem

/-- The kernel with enough memory, no signal and no fault. -/
def WriteEnv.quiet : WriteEnv := ⟨false, ⟨false, true, fun _ => 0⟩, none⟩

/-- `write(file, bytes)` with nothing in its way. -/
def WriteCall.quiet (file : Nat) (bytes : List UInt8) (h : bytes.length < 2 ^ 31) :
    WriteCall :=
  ⟨file, ⟨bytes, h⟩, .quiet⟩

/-- Two files write a command and the start of another, with a signal and a fault in
between. -/
theorem writes_refine_log_two_files :
    let signal : WriteEnv := ⟨true, ⟨false, true, fun _ => 0⟩, none⟩
    let fault : WriteEnv := ⟨false, ⟨false, true, fun _ => 0⟩, some fun _ => 0⟩
    let calls := [WriteCall.quiet 0 [97] (by decide),
      ⟨1, ⟨[120, newline], by decide⟩, signal⟩, ⟨0, ⟨[121, newline], by decide⟩, fault⟩,
      WriteCall.quiet 1 [98, newline, 99] (by decide), WriteCall.quiet 0 [100] (by decide)]
    ∃ d, run Device.step (.init 4096 (by decide) fun _ => 0) (calls.map .write)
        = some ([⟨1, []⟩, ⟨-512, []⟩, ⟨-14, []⟩, ⟨3, []⟩, ⟨1, []⟩], d) ∧
      d.driver.entries = [[97, 98, newline, 99]] ∧
      d.driver.aesdDevice.circularBuffer.sizes = [4] ∧
      d.driver.pendingBytes = [100] ∧ d.driver.aesdDevice.writeBufferSize = 1 := by
  intro signal fault calls
  obtain ⟨rs, d, h, hrs, hentries, hsizes, hpending, hsize, -⟩ :=
    writes_refine_log 4096 (by decide) (fun _ => 0) calls (by decide)
  subst hrs
  exact ⟨d, h, hentries, hsizes, hpending, hsize⟩

end

/-! ## How the stream is cut -/

/-- All calls succeeded. -/
def AllOk (rs : List Reply) : Prop := ∀ r ∈ rs, 0 ≤ r.ret

instance (rs : List Reply) : Decidable (AllOk rs) :=
  inferInstanceAs (Decidable (∀ r ∈ rs, _))

/-- The bytes of a sequence of write calls. -/
def stream (calls : List WriteCall) : List UInt8 :=
  (calls.map fun c => c.buf.bytes).flatten

section
variable {limit : Nat} {hl : limit ≤ 2 ^ 56} {fPos : Nat → Int}

theorem accepted_writes {calls : List WriteCall} {rs : List Reply}
    (hlen : rs.length = calls.length) (hok : AllOk rs) :
    accepted (calls.map .write) rs = calls.map fun c => c.buf.bytes := by
  induction calls generalizing rs with
  | nil => rfl
  | cons c calls ih =>
      obtain ⟨r, rs, rfl⟩ := List.exists_cons_of_length_eq_add_one hlen
      have hr : 0 ≤ r.ret := hok r (by simp)
      have hrest := ih (by simpa using hlen) fun q hq => hok q (by simp [hq])
      simpa [accepted, acceptedChunk, hr] using hrest

/-- A run of successful writes leaves the device intact for the log of its
chunks. -/
theorem writes_intact {calls : List WriteCall} {rs : List Reply} {d : Device}
    (h : run Device.step (.init limit hl fPos) (calls.map .write) = some (rs, d))
    (hok : AllOk rs) :
    Intact d.driver (commandLog (calls.map fun c => c.buf.bytes)) := by
  have hi := run_intact h fun r hr => by
    have := hok r hr
    intro heq
    rw [heq] at this
    revert this
    decide
  rwa [accepted_writes (by simpa using run_length h) hok] at hi

/-- **What the device stores does not depend on the cut**, as long as a chunk
holds a newline only as its last byte: the ring has the last ten lines of the
stream, the write buffer what follows the last line. -/
theorem aligned_writes_store_lines {calls calls' : List WriteCall}
    {rs rs' : List Reply} {d d' : Device}
    (h : run Device.step (.init limit hl fPos) (calls.map .write) = some (rs, d))
    (h' : run Device.step (.init limit hl fPos) (calls'.map .write) = some (rs', d'))
    (hok : AllOk rs) (hok' : AllOk rs')
    (ha : ∀ c ∈ calls, Aligned c.buf.bytes) (ha' : ∀ c ∈ calls', Aligned c.buf.bytes)
    (hsame : stream calls = stream calls') :
    d.driver.pendingBytes = d'.driver.pendingBytes ∧
    d.driver.entries = d'.driver.entries ∧
    d.driver.aesdDevice.circularBuffer.sizes
      = d'.driver.aesdDevice.circularBuffer.sizes ∧
    d.driver.aesdDevice.circularBuffer.sizes = d.driver.entries.map List.length ∧
    d.driver.entries = (frames isNewline (stream calls)).closed.rtake 10 ∧
    d.driver.pendingBytes = (frames isNewline (stream calls)).rest ∧
    ∀ e ∈ d.driver.entries, ∃ ys, e = ys ++ [newline] ∧ newline ∉ ys := by
  have hi := writes_intact h hok
  have hi' := writes_intact h' hok'
  obtain ⟨hc, hp⟩ := (commandLog_lines_iff (calls.map fun c => c.buf.bytes)).mpr
    (by simpa using ha)
  obtain ⟨hc', hp'⟩ := (commandLog_lines_iff (calls'.map fun c => c.buf.bytes)).mpr
    (by simpa using ha')
  have he : d.driver.entries = (frames isNewline (stream calls)).closed.rtake 10 := by
    rw [hi.entries, CommandLog.stored, hc, stream]
  have he' : d'.driver.entries = (frames isNewline (stream calls')).closed.rtake 10 := by
    rw [hi'.entries, CommandLog.stored, hc', stream]
  have hq : d.driver.pendingBytes = (frames isNewline (stream calls)).rest := by
    rw [hi.pendingBytes, hp, stream]
  have hq' : d'.driver.pendingBytes = (frames isNewline (stream calls')).rest := by
    rw [hi'.pendingBytes, hp', stream]
  refine ⟨by rw [hq, hq', hsame], by rw [he, he', hsame], ?_, ?_, he, hq, ?_⟩
  · rw [hi.sizes, hi'.sizes, ← hi.entries, ← hi'.entries, he, he', hsame]
  · rw [hi.sizes, hi.entries]
  · intro e hmem
    rw [he] at hmem
    exact closes_isNewline_iff.mp
      (frames_closed (stream calls) e (List.mem_of_mem_drop hmem))

theorem aligned_writes_store_lines_recut :
    let calls := [WriteCall.quiet 0 [97, 10] (by decide),
      WriteCall.quiet 0 [98] (by decide)]
    let calls' := [WriteCall.quiet 0 [97] (by decide),
      WriteCall.quiet 1 [10] (by decide), WriteCall.quiet 1 [98] (by decide)]
    ∃ rs d rs' d',
      run Device.step (.init 4096 (by decide) fun _ => 0) (calls.map .write)
        = some (rs, d) ∧
      run Device.step (.init 4096 (by decide) fun _ => 0) (calls'.map .write)
        = some (rs', d') ∧
      d.driver.pendingBytes = d'.driver.pendingBytes ∧
      d.driver.entries = d'.driver.entries := by
  intro calls calls'
  have h : (run Device.step (.init 4096 (by decide) fun _ => 0)
      (calls.map .write)).map Prod.fst = some [⟨2, []⟩, ⟨1, []⟩] := by decide
  have h' : (run Device.step (.init 4096 (by decide) fun _ => 0)
      (calls'.map .write)).map Prod.fst
      = some [⟨1, []⟩, ⟨1, []⟩, ⟨1, []⟩] := by decide
  obtain ⟨⟨rs, d⟩, hr, rfl⟩ := Option.map_eq_some_iff.mp h
  obtain ⟨⟨rs', d'⟩, hr', rfl⟩ := Option.map_eq_some_iff.mp h'
  obtain ⟨h1, h2, -⟩ := aligned_writes_store_lines hr hr' (by decide) (by decide)
    (by decide) (by decide) rfl
  exact ⟨_, d, _, d', hr, hr', h1, h2⟩

/-- The same stream in one chunk and cut after its newline: in the one chunk
the byte after the newline is committed with it. -/
theorem cut_after_newline_differs :
    ¬ ∀ (calls calls' : List WriteCall) (rs rs' : List Reply) (d d' : Device),
      run Device.step (.init 4096 (by decide) fun _ => 0) (calls.map .write)
        = some (rs, d) →
      run Device.step (.init 4096 (by decide) fun _ => 0) (calls'.map .write)
        = some (rs', d') →
      AllOk rs → AllOk rs' → stream calls = stream calls' →
      d.driver.pendingBytes = d'.driver.pendingBytes ∧
        d.driver.entries = d'.driver.entries := by
  intro hall
  have h : (run Device.step (.init 4096 (by decide) fun _ => 0)
      ([WriteCall.quiet 0 [97, 10, 98] (by decide)].map .write)).map
        (fun p => (p.1, p.2.driver.pendingBytes)) = some ([⟨3, []⟩], []) := by decide
  have h' : (run Device.step (.init 4096 (by decide) fun _ => 0)
      ([WriteCall.quiet 0 [97, 10] (by decide),
        WriteCall.quiet 0 [98] (by decide)].map .write)).map
        (fun p => (p.1, p.2.driver.pendingBytes))
      = some ([⟨2, []⟩, ⟨1, []⟩], [98]) := by decide
  obtain ⟨⟨rs, d⟩, hr, hp⟩ := Option.map_eq_some_iff.mp h
  obtain ⟨⟨rs', d'⟩, hr', hp'⟩ := Option.map_eq_some_iff.mp h'
  simp only [Prod.mk.injEq] at hp hp'
  have := (hall _ _ _ _ _ _ hr hr' (by rw [hp.1]; decide) (by rw [hp'.1]; decide) rfl).1
  rw [hp.2, hp'.2] at this
  cases this

end

end Aesd.Driver
