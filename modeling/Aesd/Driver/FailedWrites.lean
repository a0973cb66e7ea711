import Aesd.Driver.WriteRuns

/-!
# Failed writes

What an `aesd_write` that returns an error leaves behind. A failed `krealloc`
frees the pending block and keeps the pointer to it, so the next write works
on freed memory; a fault in the copy keeps the pending bytes, but may leave a
block behind where there was none, which a later failed `krealloc` then frees.
`failed_write_unchanged_iff` says exactly when a failed write changes nothing.
-/

namespace Aesd.Driver

open Aesd.Lib

/-- `p_write_buffer` is `NULL`, `ZERO_SIZE_PTR` or a live block. -/
def BufferLive (s : DriverState) : Prop :=
  ∀ id, s.aesdDevice.pWriteBuffer = .block id → (s.heap.live id).isSome

/-- `d'` is `d` as far as any caller can ever tell: the write buffer is null
or live and holds the same pending bytes, the ring the same commands, and
every later sequence of calls gets the same replies. -/
structure Unchanged (d d' : Device) : Prop where
  live : BufferLive d'.driver
  size : d'.driver.aesdDevice.writeBufferSize = d.driver.aesdDevice.writeBufferSize
  pending : d'.driver.pendingBytes = d.driver.pendingBytes
  pending_length : d'.driver.pendingBytes.length = d.driver.aesdDevice.writeBufferSize
  entries : d'.driver.entries = d.driver.entries
  sizes : d'.driver.aesdDevice.circularBuffer.sizes
    = d.driver.aesdDevice.circularBuffer.sizes
  later : ∀ ops, (run Device.step d' ops).map Prod.fst
    = (run Device.step d ops).map Prod.fst

section
variable {s : DriverState} {a : LogState}

theorem Tracks.bufferLive_iff (h : Tracks s a) : BufferLive s ↔ a.buffer ≠ .freed := by
  constructor
  · intro hlive hb
    obtain ⟨id, hid, hdead⟩ := (h.dangling hb).dead
    have := hlive id hid
    rw [hdead] at this
    cases this
  · intro hb id hid
    obtain ⟨es, hr⟩ := (h.intact hb).ring
    rw [hid] at hr
    simp [hr.owned.live List.mem_cons_self]

end

theorem DeviceTracks.replies {d : Device} {a : LogDevice} (h : DeviceTracks d a)
    (ops : List Op) :
    (run Device.step d ops).map Prod.fst = (run LogDevice.step a ops).map Prod.fst :=
  run_outputs_eq (fun _ _ op h => h.step op) h ops

theorem unchanged_of_tracks {d d' : Device} {a : LogDevice} (h : DeviceTracks d a)
    (h' : DeviceTracks d' a) (hb : a.state.buffer ≠ .freed) : Unchanged d d' := by
  have hi := h.state.intact hb
  have hi' := h'.state.intact hb
  refine ⟨h'.state.bufferLive_iff.mpr hb, by rw [hi'.size, hi.size],
    by rw [hi'.pendingBytes, hi.pendingBytes], by rw [hi'.pendingBytes, hi.size],
    by rw [hi'.entries, hi.entries], by rw [hi'.sizes, hi.sizes], fun ops => ?_⟩
  rw [h'.replies, h.replies]

/-- A one-byte write without memory. -/
def WriteCall.noMemory : WriteCall :=
  ⟨0, ⟨[97], by decide⟩, ⟨false, ⟨true, false, fun _ => 0⟩, none⟩⟩

theorem writeOutcome_noMemory (limit pending : Nat) :
    writeOutcome limit pending WriteCall.noMemory.buf WriteCall.noMemory.env
      = .noMemory := by
  have : ¬ WriteCall.noMemory.env.kalloc.Grants limit
      (WriteCall.noMemory.buf.bytes.length + pending) := by
    simp [Kalloc.Grants, WriteCall.noMemory]
  simp only [writeOutcome, if_neg this]
  rfl

/-- **A block nobody asked for is seen.** Without a block two failed
allocations are two errors; with one, the second is a use after free. -/
theorem two_failures_differ (log : CommandLog) (limit : Nat) (fPos : Nat → Int) :
    (run LogDevice.step ⟨⟨log, .nothing, limit⟩, fPos⟩
        [.write .noMemory, .write .noMemory]).map Prod.fst
        = some [⟨-eNoMem, []⟩, ⟨-eNoMem, []⟩] ∧
      (run LogDevice.step ⟨⟨log, .held, limit⟩, fPos⟩
        [.write .noMemory, .write .noMemory]).map Prod.fst = none := by
  constructor
  · simp [run, LogDevice.step, LogState.write, writeOutcome_noMemory]
  · simp [run, LogDevice.step, LogState.write, writeOutcome_noMemory]

/-! ## Which failures leave no trace -/

/-- The calls whose failure leaves no trace: nothing was freed before, and the
lock was interrupted, or `krealloc` failed with no block to lose, or it
succeeded (so the copy faulted) on a block that was there already. -/
def FailsClean (s : DriverState) (c : WriteCall) : Prop :=
  BufferLive s ∧
  (c.env.interrupted = true ∨
    (¬ c.env.kalloc.Grants s.heap.limit
        (c.buf.bytes.length + s.aesdDevice.writeBufferSize) ∧
      isBlock s.aesdDevice.pWriteBuffer = false) ∨
    (c.env.kalloc.Grants s.heap.limit
        (c.buf.bytes.length + s.aesdDevice.writeBufferSize) ∧
      isBlock s.aesdDevice.pWriteBuffer = true))

/-- The same on the log. -/
def LogState.FailsClean (a : LogState) (c : WriteCall) : Prop :=
  a.buffer ≠ .freed ∧
  (c.env.interrupted = true ∨
    (¬ c.env.kalloc.Grants a.limit (c.buf.bytes.length + a.log.pending.length) ∧
      a.buffer = .nothing) ∨
    (c.env.kalloc.Grants a.limit (c.buf.bytes.length + a.log.pending.length) ∧
      a.buffer = .held))

theorem Tracks.failsClean_iff {s : DriverState} {a : LogState} (h : Tracks s a)
    (c : WriteCall) : Driver.FailsClean s c ↔ a.FailsClean c := by
  rw [Driver.FailsClean, LogState.FailsClean, h.bufferLive_iff]
  refine and_congr_right fun hb => ?_
  have hheld := h.held_iff hb
  have hnothing : isBlock s.aesdDevice.pWriteBuffer = false ↔ a.buffer = .nothing := by
    rw [← Bool.not_eq_true, hheld]
    cases hbuf : a.buffer <;> simp_all
  rw [(h.intact hb).size, h.limit, hheld, hnothing]

/-- A failed write keeps the log's state exactly when it fails clean. -/
theorem LogState.write_same_iff {a a' : LogState} {c : WriteCall} {ret : Int}
    (hw : a.write c.buf c.env = some (ret, a')) (hneg : ret < 0) :
    a' = a ∧ a.buffer ≠ .freed ↔ a.FailsClean c := by
  obtain ⟨hret, -, hcases⟩ := LogState.write_cases hw
  rw [LogState.FailsClean]
  rcases hcases with ⟨ho, ha⟩ | ⟨ho, hb, ha⟩ | ⟨ho, hb, ha⟩ | ⟨ho, hb, ha⟩ | ⟨ho, -⟩
  · have hint : c.env.interrupted = true := writeOutcome_when ho
    simp [hint, ha]
  · obtain ⟨hint, hg⟩ := writeOutcome_when ho
    simp [hint, hg, hb, ha]
  · obtain ⟨hint, hg⟩ := writeOutcome_when ho
    have hne : a' ≠ a := by
      intro heq
      rw [← heq, ha] at hb
      cases hb
    simp [hint, hg, hb, hne]
  · obtain ⟨hint, hg, -⟩ := writeOutcome_when ho
    have hsame : a' = a ↔ a.buffer = .held := by
      rw [ha]
      constructor
      · intro heq
        rw [← heq]
      · intro heq
        rw [← heq]
    simp [hint, hg, hb, hsame]
  · rw [hret, ho] at hneg
    simp only [WriteOutcome.ret] at hneg
    omega

/-- Devices that follow the log before and after a failed write are the same
to a caller exactly when the log is. -/
theorem unchanged_iff_same {d d' : Device} {a a' : LogDevice} {c : WriteCall} {ret : Int}
    (h : DeviceTracks d a) (h' : DeviceTracks d' a')
    (hw : a.state.write c.buf c.env = some (ret, a'.state)) (hfPos : a'.fPos = a.fPos)
    (hneg : ret < 0) :
    Unchanged d d' ↔ a'.state = a.state ∧ a.state.buffer ≠ .freed := by
  constructor
  · intro hu
    have hb' := h'.state.bufferLive_iff.mp hu.live
    obtain ⟨hret, -, hcases⟩ := LogState.write_cases hw
    rcases hcases with ⟨-, ha⟩ | ⟨-, hb, ha⟩ | ⟨-, -, ha⟩ | ⟨-, hb, ha⟩ | ⟨ho, -⟩
    · exact ⟨ha, by rwa [← ha]⟩
    · exact ⟨ha, by simp [hb]⟩
    · rw [ha] at hb'
      exact absurd rfl hb'
    · refine ⟨?_, hb⟩
      cases hbuf : a.state.buffer with
      | freed => exact absurd hbuf hb
      | held => rw [ha, ← hbuf]
      | nothing =>
          -- the block `krealloc` made for the copy that faulted
          have hlater := hu.later [.write .noMemory, .write .noMemory]
          obtain ⟨h1, h2⟩ := two_failures_differ a.state.log a.state.limit a.fPos
          have heq : a = ⟨⟨a.state.log, .nothing, a.state.limit⟩, a.fPos⟩ := by
            rw [← hbuf]
          have heq' : a' = ⟨⟨a.state.log, .held, a.state.limit⟩, a.fPos⟩ := by
            rw [← hfPos, ← ha]
          rw [h'.replies, h.replies, heq', h2, heq, h1] at hlater
          cases hlater
    · rw [hret, ho] at hneg
      simp only [WriteOutcome.ret] at hneg
      omega
  · rintro ⟨hs, hb⟩
    have heq : a' = a := by
      cases a
      cases a'
      simp_all
    rw [heq] at h'
    exact unchanged_of_tracks h h' hb

/-- **Exactly when a failed write leaves the device as it was.** -/
theorem failed_write_unchanged_iff {limit : Nat} {hl : limit ≤ 2 ^ 56}
    {fPos : Nat → Int} {d d' : Device} {c : WriteCall} {r : Reply}
    (hd : Reachable Device.step (.init limit hl fPos) d)
    (hs : d.step (.write c) = some (r, d')) (hneg : r.ret < 0) :
    Unchanged d d' ↔ FailsClean d.driver c := by
  obtain ⟨a, ha⟩ := reachable_tracks hd
  have hstep := ha.step (.write c)
  rw [hs] at hstep
  obtain ⟨a', hs', ha'⟩ := hstep.of_some_left
  obtain ⟨hw, -, hfPos⟩ := LogDevice.step_write hs'
  rw [unchanged_iff_same ha ha' hw hfPos hneg, LogState.write_same_iff hw hneg,
    ha.state.failsClean_iff]

/-- A one-byte write whose copy faults. -/
def WriteCall.faulting : WriteCall :=
  ⟨1, ⟨[98], by decide⟩, ⟨false, ⟨false, true, fun _ => 0⟩, some fun _ => 0⟩⟩

/-- Over a pending byte a copy that faults leaves no trace, and a failed `krealloc`
does. -/
theorem failed_write_unchanged_iff_pending : ∃ rs d d₁ d₂,
    run Device.step (.init 4096 (by decide) fun _ => 0) [.write (.quiet 0 [97] (by decide))]
      = some (rs, d) ∧ d.driver.pendingBytes = [97] ∧
    d.step (.write .faulting) = some (⟨-14, []⟩, d₁) ∧ Unchanged d d₁ ∧
    d.step (.write .noMemory) = some (⟨-12, []⟩, d₂) ∧ ¬ Unchanged d d₂ := by
  have h : (run Device.step (.init 4096 (by decide) fun _ => 0)
      [.write (.quiet 0 [97] (by decide))]).any (fun p =>
        p.2.driver.pendingBytes = [97] ∧ p.2.driver.aesdDevice.pWriteBuffer = .block 0 ∧
        (p.2.driver.heap.live 0).isSome ∧ p.2.driver.heap.limit = 4096 ∧
        p.2.driver.aesdDevice.writeBufferSize = 1 ∧
        (p.2.step (.write .faulting)).map Prod.fst = some ⟨-14, []⟩ ∧
        (p.2.step (.write .noMemory)).map Prod.fst = some ⟨-12, []⟩) = true := by decide
  obtain ⟨⟨rs, d⟩, hr, hp⟩ := (Option.any_eq_true _ _).mp h
  obtain ⟨hpending, hptr, hlive, hlimit, hsize, hfault, hmem⟩ := of_decide_eq_true hp
  dsimp only at hpending hptr hlive hlimit hsize hfault hmem
  obtain ⟨⟨_, d₁⟩, h₁, rfl⟩ := Option.map_eq_some_iff.mp hfault
  obtain ⟨⟨_, d₂⟩, h₂, rfl⟩ := Option.map_eq_some_iff.mp hmem
  have hd : Reachable Device.step (.init 4096 (by decide) fun _ => 0) d := ⟨_, _, hr⟩
  refine ⟨rs, d, d₁, d₂, hr, hpending, h₁, ?_, h₂, ?_⟩
  · refine (failed_write_unchanged_iff hd h₁ (by decide)).mpr ⟨?_, .inr (.inr ⟨?_, ?_⟩)⟩
    · intro id hid
      rw [hptr] at hid
      cases hid
      exact hlive
    · rw [hlimit, hsize]
      decide
    · rw [hptr]
      rfl
  · intro hsame
    have hclean := (failed_write_unchanged_iff hd h₂ (by decide)).mp hsame
    rcases hclean.2 with hint | ⟨-, hblock⟩ | ⟨hgrants, -⟩
    · cases hint
    · rw [hptr] at hblock
      cases hblock
    · rw [hlimit, hsize] at hgrants
      revert hgrants
      decide

/-- A write that runs out of memory over a pending byte. -/
theorem failed_krealloc_frees_pending :
    ¬ ∀ (d d' : Device) (c : WriteCall) (r : Reply),
      Reachable Device.step (.init 4096 (by decide) fun _ => 0) d →
      d.step (.write c) = some (r, d') → r.ret < 0 → Unchanged d d' := by
  intro hall
  have h : (run Device.step (.init 4096 (by decide) fun _ => 0)
      [.write (.quiet 0 [97] (by decide)), .write .noMemory]).map
        (fun p => (p.1, p.2.driver.aesdDevice.pWriteBuffer, p.2.driver.heap.live 0))
      = some ([⟨1, []⟩, ⟨-12, []⟩], .block 0, none) := by decide
  obtain ⟨⟨rs, d'⟩, hr, heq⟩ := Option.map_eq_some_iff.mp h
  simp only [Prod.mk.injEq] at heq
  obtain ⟨rfl, hptr, hdead⟩ := heq
  obtain ⟨r, d, rs', h1, h2, hrs⟩ := run_cons.mp hr
  obtain ⟨r', d'', _, h3, hnil, rfl⟩ := run_cons.mp h2
  cases hnil
  cases hrs
  have hlive := (hall d d' .noMemory _ ⟨_, _, run_cons.mpr ⟨_, d, [], h1, run_nil d, rfl⟩⟩ h3
    (by decide)).live 0 hptr
  rw [hdead] at hlive
  cases hlive

end Aesd.Driver
