import Aesd.Driver.FailedWrites
import Aesd.Driver.Cleanup

/-!
# What the driver does with memory

Over all runs, with every outcome of the locks, the allocator and the copies.
A caller cannot tell the driver from its log (`device_is_log`); a run stops
being defined at one of two calls only (`run_undefined_iff`); and up to there
the live blocks are those of the ring and of the write buffer, each once, so
that the module can be unloaded at any time (`run_memory`).
-/

namespace Aesd.Driver

open Aesd.Lib

/-- Calls that touch memory the driver does not have: a write that gets the
lock while `p_write_buffer` points to a freed block, and a read that gets it
while nothing is stored, of one byte or more, off position 0. -/
def Crashes (d : Device) : Op → Prop
  | .write c => c.env.interrupted = false ∧ ¬ BufferLive d.driver
  | .read c => c.env.interrupted = false ∧ d.driver.entries = [] ∧
      toU64 (d.fPos c.file) ≠ 0 ∧ c.count ≠ 0
  | .open _ | .llseek _ _ _ _ | .ioctl _ _ _ _ => False

/-! ## Where a run stops -/

section
variable {d : Device} {a : LogDevice}

/-- A write is undefined once the write buffer was freed, if it gets the
lock. -/
theorem LogState.write_eq_none_iff {a : LogState} {buf : UserBuf} {env : WriteEnv} :
    a.write buf env = none ↔ env.interrupted = false ∧ a.buffer = .freed := by
  have hint : writeOutcome a.limit a.log.pending.length buf env = .interrupted ↔
      env.interrupted = true := by
    constructor
    · intro ho
      exact writeOutcome_when ho
    · intro h
      exact if_pos h
  constructor
  · intro h
    by_cases ho : writeOutcome a.limit a.log.pending.length buf env = .interrupted
    · rw [LogState.write, ho] at h
      cases h
    · refine ⟨by simpa [hint] using ho, ?_⟩
      by_contra hb
      obtain ⟨r, a', hs⟩ := LogDevice.step_write_defined (a := ⟨a, fun _ => 0⟩) hb
        ⟨0, buf, env⟩
      have hw := (LogDevice.step_write hs).1
      rw [h] at hw
      cases hw
  · rintro ⟨hi, hb⟩
    refine LogState.write_freed ?_ hb
    rw [Ne, hint, hi]
    exact Bool.false_ne_true

/-- A read is undefined on an empty ring off position 0. -/
theorem readResult_eq_none_iff {stored : List (List UInt8)} {fPos : Int} {count : Nat}
    {env : CallEnv} :
    readResult stored fPos count env = none ↔
      env.interrupted = false ∧ stored = [] ∧ toU64 fPos ≠ 0 ∧ count ≠ 0 := by
  unfold readResult
  cases hint : env.interrupted with
  | true => simp
  | false =>
      by_cases hnil : stored = []
      · by_cases h : toU64 fPos = 0 ∨ count = 0
        · simp [hnil, h]
          tauto
        · simp [hnil, h]
          tauto
      · simp only [Bool.false_eq_true, if_false, if_neg hnil]
        constructor
        · intro h
          split at h
          · cases h
          · split at h <;> cases h
        · rintro ⟨-, h, -⟩
          exact absurd h hnil

/-- **The calls with no defined effect** are those that crash. -/
theorem DeviceTracks.step_eq_none_iff (h : DeviceTracks d a) (op : Op) :
    d.step op = none ↔ Crashes d op := by
  have hlog : d.step op = none ↔ a.step op = none := by
    have hstep := h.step op
    generalize d.step op = x at hstep ⊢
    generalize a.step op = y at hstep ⊢
    cases hstep <;> simp
  rw [hlog]
  cases op with
  | write c =>
      have : a.step (.write c) = none ↔ a.state.write c.buf c.env = none := by
        cases hw : a.state.write c.buf c.env <;> simp [LogDevice.step, hw]
      rw [this, LogState.write_eq_none_iff, Crashes, h.state.bufferLive_iff, not_not]
  | read c =>
      have : a.step (.read c) = none ↔
          readResult a.state.log.stored (a.fPos c.file) c.count c.env = none := by
        cases hr : readResult a.state.log.stored (a.fPos c.file) c.count c.env <;>
          simp [LogDevice.step, hr]
      rw [this, readResult_eq_none_iff, Crashes, h.state.entries, h.fPos]
  | «open» _ => simp [LogDevice.step, Crashes]
  | llseek _ _ _ _ => simp [LogDevice.step, Crashes]
  | ioctl _ _ _ _ => simp [LogDevice.step, Crashes]

end

/-- **Exactly which runs are defined.** Any sequence of calls of any files, with
any outcome of the locks, the allocator and the copies: it has no defined
effect if and only if, after some calls that do, there comes a write that gets
the lock while `p_write_buffer` points to a block a failed `krealloc` freed, or
a read of one byte or more that gets it on an empty ring off position 0. -/
theorem run_undefined_iff (limit : Nat) (hl : limit ≤ 2 ^ 56) (fPos : Nat → Int)
    (ops : List Op) :
    run Device.step (.init limit hl fPos) ops = none ↔
      ∃ before op after rs d, ops = before ++ op :: after ∧
        run Device.step (.init limit hl fPos) before = some (rs, d) ∧ Crashes d op := by
  rw [run_eq_none_iff]
  constructor
  · rintro ⟨before, op, after, rs, d, heq, h, hnone⟩
    obtain ⟨a, -, ht, -⟩ := run_tracks h
    exact ⟨before, op, after, rs, d, heq, h, (ht.step_eq_none_iff op).mp hnone⟩
  · rintro ⟨before, op, after, rs, d, heq, h, hcrash⟩
    obtain ⟨a, -, ht, -⟩ := run_tracks h
    exact ⟨before, op, after, rs, d, heq, h, (ht.step_eq_none_iff op).mpr hcrash⟩

/-- A write that fails, and the one after it. -/
theorem run_undefined_iff_after_failure :
    let ops := [.write (.quiet 0 [97] (by decide)), .write .noMemory,
      .write (.quiet 0 [98] (by decide))]
    ∃ before op after rs d, ops = before ++ op :: after ∧
      run Device.step (.init 4096 (by decide) fun _ => 0) before = some (rs, d) ∧
      Crashes d op := by
  intro ops
  apply (run_undefined_iff 4096 (by decide) (fun _ => 0) ops).mp
  exact Option.isNone_iff_eq_none.mp (by decide)

/-! ## What a caller sees -/

/-- **The driver is its log.** For every sequence of calls of any files, with any
outcome of the locks, the allocator and the copies, the driver and the log get
the same replies, or both have no defined effect; and where they do, the ring
holds the log's last ten commands, `write_buffer_size` counts its pending bytes,
and the files are at the same positions. -/
theorem device_is_log (limit : Nat) (hl : limit ≤ 2 ^ 56) (fPos : Nat → Int)
    (ops : List Op) :
    (run Device.step (.init limit hl fPos) ops).map Prod.fst
        = (run LogDevice.step (.init limit fPos) ops).map Prod.fst ∧
      ∀ rs d, run Device.step (.init limit hl fPos) ops = some (rs, d) →
        ∃ a, run LogDevice.step (.init limit fPos) ops = some (rs, a) ∧
          d.driver.entries = a.state.log.stored ∧
          d.driver.aesdDevice.writeBufferSize = a.state.log.pending.length ∧
          d.fPos = a.fPos := by
  constructor
  · exact run_outputs_eq (fun _ _ op h => h.step op) (deviceTracks_init limit hl fPos) ops
  · intro rs d h
    obtain ⟨a, ha, ht⟩ := run_of_lockstep (fun _ _ op h => h.step op)
      (deviceTracks_init limit hl fPos) h
    exact ⟨a, ha, ht.state.entries, ht.state.size, ht.fPos⟩

/-- One command and a byte of the next. -/
theorem device_is_log_pending :
    let ops := [.write (.quiet 0 [97, newline] (by decide)), .write (.quiet 1 [98] (by decide))]
    ∃ d a, run Device.step (.init 4096 (by decide) fun _ => 0) ops
        = some ([⟨2, []⟩, ⟨1, []⟩], d) ∧
      run LogDevice.step (.init 4096 fun _ => 0) ops = some ([⟨2, []⟩, ⟨1, []⟩], a) ∧
      d.driver.entries = a.state.log.stored := by
  intro ops
  have h : (run Device.step (.init 4096 (by decide) fun _ => 0) ops).map Prod.fst
      = some [⟨2, []⟩, ⟨1, []⟩] := by decide
  obtain ⟨⟨rs, d⟩, hr, rfl⟩ := Option.map_eq_some_iff.mp h
  obtain ⟨a, ha, hentries, -⟩ :=
    (device_is_log 4096 (by decide) (fun _ => 0) ops).2 _ d hr
  exact ⟨d, a, hr, ha, hentries⟩

/-! ## Blocks -/

section
variable {s : DriverState} {a : LogState}

/-- The write buffer, unless it was freed. -/
def heldPtr (s : DriverState) (a : LogState) : Ptr :=
  if a.buffer = .freed then .null else s.aesdDevice.pWriteBuffer

theorem Tracks.owned (h : Tracks s a) :
    s.heap.OwnedBy (slotPtrs s.aesdDevice.circularBuffer ++ [heldPtr s a]) := by
  by_cases hb : a.buffer = .freed
  · obtain ⟨es, hr⟩ := (h.dangling hb).ring
    rw [heldPtr, if_pos hb]
    exact hr.owned.perm (List.perm_append_singleton _ _).symm
  · obtain ⟨es, hr⟩ := (h.intact hb).ring
    rw [heldPtr, if_neg hb]
    exact hr.owned.perm (List.perm_append_singleton _ _).symm

theorem Tracks.heldPtr_iff (h : Tracks s a) {id : Nat} :
    heldPtr s a = .block id ↔ s.aesdDevice.pWriteBuffer = .block id ∧ BufferLive s := by
  rw [h.bufferLive_iff, heldPtr]
  by_cases hb : a.buffer = .freed <;> simp [hb]

/-- **The cleanup**, also when the write buffer was freed, leaves the block of
the write buffer. -/
theorem Tracks.cleanup (h : Tracks s a) :
    ∃ heap, aesdCleanupModule s = some heap ∧
      ∀ id, (heap.live id).isSome ↔ heldPtr s a = .block id := by
  obtain ⟨heap, hfree, ho⟩ := kfree_all h.owned
  refine ⟨heap, by rw [aesdCleanupModule_eq, hfree], fun id => ?_⟩
  rw [ho.live_iff, mem_blocks, List.mem_singleton, eq_comm]

end

/-- **The driver's memory**, after any run with a defined effect (the others are
those of `run_undefined_iff`), with any outcome of the locks, the allocator and the
copies: the live blocks are those of the ring's slots and that of the write buffer,
unless a failed `krealloc` freed it, each belongs to one of them, and there are
never more than eleven. The module can be unloaded: no block is freed twice, and
the one that may be left is the write buffer's. -/
theorem run_memory (limit : Nat) (hl : limit ≤ 2 ^ 56) (fPos : Nat → Int)
    {ops : List Op} {rs : List Reply} {d : Device}
    (h : run Device.step (.init limit hl fPos) ops = some (rs, d)) :
    let ring := slotPtrs d.driver.aesdDevice.circularBuffer
    let holds := fun id => d.driver.aesdDevice.pWriteBuffer = .block id ∧ BufferLive d.driver
    (∀ id, (d.driver.heap.live id).isSome ↔ Ptr.block id ∈ ring ∨ holds id) ∧
      (blocks ring).Nodup ∧
      (∀ id, holds id → Ptr.block id ∉ ring) ∧
      (∃ ids : List Nat, ids.length ≤ 11 ∧
        ∀ id, (d.driver.heap.live id).isSome ↔ id ∈ ids) ∧
      ∃ heap, aesdCleanupModule d.driver = some heap ∧
        ∀ id, (heap.live id).isSome ↔ holds id := by
  intro ring holds
  obtain ⟨a, -, ht, -⟩ := run_tracks h
  have hholds : ∀ id, heldPtr d.driver a.state = .block id ↔ holds id :=
    fun id => ht.state.heldPtr_iff
  have ho := ht.state.owned
  refine ⟨?_, ?_, ?_, ?_, ?_⟩
  · intro id
    rw [ho.live_iff, mem_blocks, List.mem_append, List.mem_singleton, ← hholds, eq_comm]
  · have hnodup := ho.nodup
    rw [blocks, List.filterMap_append] at hnodup
    exact (List.nodup_append.mp hnodup).1
  · intro id hid
    have hswap := ho.perm (List.perm_append_singleton _ _)
    rw [(hholds id).mpr hid] at hswap
    intro hmem
    exact hswap.head_ne hmem rfl
  · refine ⟨blocks (ring ++ [heldPtr d.driver a.state]), ?_, ho.live_iff⟩
    have hlen : (ring ++ [heldPtr d.driver a.state]).length = 11 := by simp [ring]
    rw [← hlen]
    exact List.length_filterMap_le _ _
  · obtain ⟨heap, hclean, hlive⟩ := ht.state.cleanup
    exact ⟨heap, hclean, fun id => (hlive id).trans (hholds id)⟩

/-- A write that fails with a byte pending: the module can still be unloaded,
and nothing is left. -/
theorem run_memory_after_failure :
    ∃ rs d heap, run Device.step (.init 4096 (by decide) fun _ => 0)
        [.write (.quiet 0 [97] (by decide)), .write .noMemory] = some (rs, d) ∧
      aesdCleanupModule d.driver = some heap ∧
      ∀ id, (heap.live id).isSome ↔
        d.driver.aesdDevice.pWriteBuffer = .block id ∧ BufferLive d.driver := by
  have h : (run Device.step (.init 4096 (by decide) fun _ => 0)
      [.write (.quiet 0 [97] (by decide)), .write .noMemory]).map Prod.fst
        = some [⟨1, []⟩, ⟨-12, []⟩] := by decide
  obtain ⟨⟨rs, d⟩, hr, -⟩ := Option.map_eq_some_iff.mp h
  obtain ⟨-, -, -, -, heap, hclean, hlive⟩ := run_memory 4096 (by decide) (fun _ => 0) hr
  exact ⟨rs, d, heap, hr, hclean, hlive⟩

end Aesd.Driver
