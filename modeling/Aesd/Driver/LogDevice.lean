import Aesd.Driver.Positions

/-!
# The device as a log

`LogDevice` is the driver with no ring, heap or offsets: the command log, one
of three states of the write buffer, and the files' positions. The driver
runs in lockstep with it (`device_lockstep`), whatever the calls are and
whatever the kernel decides, so what a caller sees of the driver is what it
sees of the log.
-/

namespace Aesd.Driver

open Aesd.Lib

/-- `p_write_buffer`: no block, a live block, or a block that was freed. -/
inductive BufferState where
  | nothing
  | held
  | freed
  deriving DecidableEq, Repr

/-- The driver's state as far as a caller can tell. -/
structure LogState where
  log : CommandLog
  buffer : BufferState
  limit : Nat

/-- `aesd_write` on the log. -/
def LogState.write (a : LogState) (buf : UserBuf) (env : WriteEnv) :
    Option (Int × LogState) :=
  match writeOutcome a.limit a.log.pending.length buf env, a.buffer with
  | .interrupted, _ => some (-eRestartSys, a)
  | _, .freed => none
  | .noMemory, .nothing => some (-eNoMem, a)
  -- the block is freed and the pointer to it kept
  | .noMemory, .held => some (-eNoMem, { a with buffer := .freed })
  | .faulted, _ => some (-eFault, { a with buffer := .held })
  | .stored, _ =>
      some (buf.bytes.length, { a with
        log := a.log.write buf.bytes
        buffer :=
          if newline ∉ buf.bytes ∧ buf.bytes.length + a.log.pending.length ≠ 0
          then .held else .nothing })

/-- The log and the `f_pos` of every open file. -/
structure LogDevice where
  state : LogState
  fPos : Nat → Int

/-- The log of a device just initialised. -/
def LogDevice.init (limit : Nat) (fPos : Nat → Int) : LogDevice :=
  ⟨⟨.empty, .nothing, limit⟩, fPos⟩

/-- One call on the log. -/
def LogDevice.step (d : LogDevice) : Op → Option (Reply × LogDevice)
  | .open file => some (⟨0, []⟩, { d with fPos := Function.update d.fPos file 0 })
  | .write c => do
      let (ret, state) ← d.state.write c.buf c.env
      return (⟨ret, []⟩, { d with state })
  | .read c => do
      let (ret, data, pos) ← readResult d.state.log.stored (d.fPos c.file) c.count c.env
      return (⟨ret, data⟩, { d with fPos := Function.update d.fPos c.file pos })
  | .llseek file off whence interrupted =>
      let (ret, pos) :=
        llseekResult d.state.log.stored (d.fPos file) off whence interrupted
      some (⟨ret, []⟩, { d with fPos := Function.update d.fPos file pos })
  | .ioctl file cmd seekto env =>
      let (ret, pos) := ioctlResult d.state.log.stored (d.fPos file) cmd seekto env
      some (⟨ret, []⟩, { d with fPos := Function.update d.fPos file pos })

/-! ## The driver follows the log -/

/-- What `p_write_buffer` is in each of its states. -/
def BufferTracks (s : DriverState) (log : CommandLog) : BufferState → Prop
  | .nothing => Intact s log ∧ isBlock s.aesdDevice.pWriteBuffer = false
  | .held => Intact s log ∧ isBlock s.aesdDevice.pWriteBuffer = true
  | .freed => Dangling s log

/-- The driver state `s` is the log state `a`. -/
structure Tracks (s : DriverState) (a : LogState) : Prop where
  buffer : BufferTracks s a.log a.buffer
  limit : s.heap.limit = a.limit

section
variable {s : DriverState} {a : LogState}

theorem Tracks.intact (h : Tracks s a) (hb : a.buffer ≠ .freed) : Intact s a.log := by
  have := h.buffer
  cases hbuf : a.buffer <;> simp_all [BufferTracks]

theorem Tracks.dangling (h : Tracks s a) (hb : a.buffer = .freed) :
    Dangling s a.log := by
  have := h.buffer
  rwa [hb] at this

theorem Tracks.of_intact (h : Intact s a.log) (hl : s.heap.limit = a.limit)
    (hb : a.buffer ≠ .freed)
    (hblock : isBlock s.aesdDevice.pWriteBuffer = true ↔ a.buffer = .held) :
    Tracks s a := by
  refine ⟨?_, hl⟩
  cases hbuf : a.buffer with
  | nothing => exact ⟨h, by simpa [hbuf] using hblock⟩
  | held => exact ⟨h, hblock.mpr hbuf⟩
  | freed => exact absurd hbuf hb

theorem Tracks.held_iff (h : Tracks s a) (hb : a.buffer ≠ .freed) :
    isBlock s.aesdDevice.pWriteBuffer = true ↔ a.buffer = .held := by
  have := h.buffer
  cases hbuf : a.buffer <;> simp_all [BufferTracks]

theorem Tracks.ring (h : Tracks s a) : ∃ held es,
    RingHolds s.heap s.aesdDevice.circularBuffer held es a.log.commands := by
  by_cases hb : a.buffer = .freed
  · obtain ⟨es, hr⟩ := (h.dangling hb).ring
    exact ⟨.null, es, hr⟩
  · obtain ⟨es, hr⟩ := (h.intact hb).ring
    exact ⟨_, es, hr⟩

/-- In every state `write_buffer_size` counts the pending bytes. -/
theorem Tracks.size (h : Tracks s a) :
    s.aesdDevice.writeBufferSize = a.log.pending.length := by
  by_cases hb : a.buffer = .freed
  · exact (h.dangling hb).size
  · exact (h.intact hb).size

theorem tracks_init (limit : Nat) (h : limit ≤ 2 ^ 56) :
    Tracks (aesdInitModule limit h) ⟨.empty, .nothing, limit⟩ :=
  ⟨⟨intact_init limit h, rfl⟩, rfl⟩

/-- Once the buffer was freed, only a call interrupted at the lock is defined. -/
theorem LogState.write_freed {buf : UserBuf} {env : WriteEnv}
    (ho : writeOutcome a.limit a.log.pending.length buf env ≠ .interrupted)
    (hb : a.buffer = .freed) : a.write buf env = none := by
  unfold LogState.write
  rw [hb]
  cases ho' : writeOutcome a.limit a.log.pending.length buf env with
  | interrupted => exact absurd ho' ho
  | _ => rfl

theorem LogState.write_faulted {buf : UserBuf} {env : WriteEnv}
    (ho : writeOutcome a.limit a.log.pending.length buf env = .faulted)
    (hb : a.buffer ≠ .freed) :
    a.write buf env = some (-eFault, { a with buffer := .held }) := by
  unfold LogState.write
  rw [ho]
  cases hbuf : a.buffer with
  | freed => exact absurd hbuf hb
  | _ => rfl

theorem LogState.write_stored {buf : UserBuf} {env : WriteEnv}
    (ho : writeOutcome a.limit a.log.pending.length buf env = .stored)
    (hb : a.buffer ≠ .freed) :
    a.write buf env = some ((buf.bytes.length : Int), { a with
      log := a.log.write buf.bytes
      buffer :=
        if newline ∉ buf.bytes ∧ buf.bytes.length + a.log.pending.length ≠ 0
        then .held else .nothing }) := by
  unfold LogState.write
  rw [ho]
  cases hbuf : a.buffer with
  | freed => exact absurd hbuf hb
  | _ => rfl

theorem Tracks.write (h : Tracks s a) (buf : UserBuf) (env : WriteEnv) :
    Lockstep Tracks (aesdWrite s buf env) (a.write buf env) := by
  by_cases hint : writeOutcome a.limit a.log.pending.length buf env = .interrupted
  · rw [aesdWrite_interrupted (writeOutcome_when hint), LogState.write, hint]
    exact .some ⟨rfl, h⟩
  by_cases hb : a.buffer = .freed
  · have hlock : env.interrupted = false := by
      unfold writeOutcome at hint
      by_contra hi
      exact hint (if_pos (by simpa using hi))
    rw [(h.dangling hb).aesdWrite, hlock, LogState.write_freed hint hb]
    exact .none
  have hi := h.intact hb
  have hblock := h.held_iff hb
  cases ho : writeOutcome a.limit a.log.pending.length buf env with
  | interrupted => exact absurd ho hint
  | noMemory =>
      have ho' := ho
      rw [← h.limit] at ho'
      rw [LogState.write, ho]
      cases hbuf : a.buffer with
      | nothing =>
          rw [hi.aesdWrite_noMemory ho' (by simpa [hbuf] using hblock)]
          exact .some ⟨rfl, h⟩
      | held =>
          obtain ⟨s', hw, hd, hl⟩ := hi.aesdWrite_noMemory_block ho' (hblock.mpr hbuf)
          rw [hw]
          exact .some ⟨rfl, hd, hl.trans h.limit⟩
      | freed => exact absurd hbuf hb
  | faulted =>
      rw [LogState.write_faulted ho hb]
      rw [← h.limit] at ho
      obtain ⟨s', hw, hi', hl, hblock', -⟩ := hi.aesdWrite_faulted ho
      rw [hw]
      exact .some ⟨rfl, ⟨hi', hblock'⟩, hl.trans h.limit⟩
  | stored =>
      rw [LogState.write_stored ho hb]
      rw [← h.limit] at ho
      obtain ⟨s', hw, hi', hl, hblock'⟩ := hi.aesdWrite_stored ho
      rw [hw]
      refine .some ⟨rfl, .of_intact hi' (hl.trans h.limit) ?_ ?_⟩
      · dsimp only
        split <;> simp
      · rw [hblock']
        dsimp only
        split <;> simp_all

end

/-- The device is the log device `a`. -/
structure DeviceTracks (d : Device) (a : LogDevice) : Prop where
  state : Tracks d.driver a.state
  fPos : d.fPos = a.fPos

theorem deviceTracks_init (limit : Nat) (h : limit ≤ 2 ^ 56) (fPos : Nat → Int) :
    DeviceTracks (.init limit h fPos) (.init limit fPos) :=
  ⟨tracks_init limit h, rfl⟩

/-- **The driver follows the log**: every call has the same reply on both, or
is undefined on both. -/
theorem DeviceTracks.step {d : Device} {a : LogDevice} (h : DeviceTracks d a)
    (op : Op) : Lockstep DeviceTracks (d.step op) (a.step op) := by
  obtain ⟨hs, hf⟩ := h
  obtain ⟨held, es, hr⟩ := hs.ring
  cases op with
  | «open» file => exact .some ⟨rfl, hs, by rw [hf]⟩
  | write c =>
      have hw := hs.write c.buf c.env
      simp only [Device.step, LogDevice.step, Option.bind_eq_bind, Option.pure_def]
      generalize aesdWrite d.driver c.buf c.env = x at hw ⊢
      generalize a.state.write c.buf c.env = y at hw ⊢
      cases hw with
      | none => exact .none
      | some hpq => exact .some ⟨by simp [hpq.1], hpq.2, hf⟩
  | read c =>
      simp only [Device.step, LogDevice.step, hr.aesdRead, hf]
      cases readResult a.state.log.stored (a.fPos c.file) c.count c.env with
      | none => exact .none
      | some p => exact .some ⟨rfl, hs, rfl⟩
  | llseek file off whence interrupted =>
      simp only [Device.step, LogDevice.step, hr.aesdLlseek, hf]
      exact .some ⟨rfl, hs, rfl⟩
  | ioctl file cmd seekto env =>
      simp only [Device.step, LogDevice.step, hr.aesdIoctl, hf]
      exact .some ⟨rfl, hs, rfl⟩

/-- **Runs of the driver are runs of the log**: from the initialised device,
every sequence of calls gets the same replies from both. -/
theorem device_lockstep (limit : Nat) (h : limit ≤ 2 ^ 56) (fPos : Nat → Int)
    (ops : List Op) :
    Lockstep DeviceTracks (run Device.step (.init limit h fPos) ops)
      (run LogDevice.step (.init limit fPos) ops) :=
  run_lockstep (fun _ _ op h => h.step op) (deviceTracks_init limit h fPos) ops

/-- A reachable device is some log device. -/
theorem reachable_tracks {limit : Nat} {h : limit ≤ 2 ^ 56} {fPos : Nat → Int}
    {d : Device} (hd : Reachable Device.step (.init limit h fPos) d) :
    ∃ a, DeviceTracks d a := by
  obtain ⟨ops, rs, hrun⟩ := hd
  obtain ⟨a, -, ha⟩ := run_of_lockstep (fun _ _ op h => h.step op)
    (deviceTracks_init limit h fPos) hrun
  exact ⟨a, ha⟩

end Aesd.Driver
