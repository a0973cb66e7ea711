import Aesd.Driver.WriteRuns

/-!
# Unloading the module

Who owns the blocks: the ten slots and the write buffer, each block once
(`Intact`), so no block is freed twice and none that was freed is still
pointed to. `aesd_cleanup_module` frees the blocks of the slots only, so all
blocks are freed exactly when the write buffer has none
(`cleanup_frees_all_iff`).
-/

namespace Aesd.Driver

open Aesd.Lib

/-- The blocks of a run of writes and of the cleanup after it are all freed,
once each, and no freed block is pointed to before the cleanup. A second
`kfree` of a block would be undefined. -/
def FreesAll (limit : Nat) (hl : limit ≤ 2 ^ 56) (fPos : Nat → Int)
    (calls : List WriteCall) : Prop :=
  ∃ rs d heap, run Device.step (.init limit hl fPos) (calls.map .write) = some (rs, d) ∧
    (∀ pre, pre <+: calls → ∀ rs' d',
      run Device.step (.init limit hl fPos) (pre.map .write) = some (rs', d') →
      ∀ id ∈ d'.driver.heap.freed,
        Ptr.block id ≠ d'.driver.aesdDevice.pWriteBuffer ∧
        Ptr.block id ∉ slotPtrs d'.driver.aesdDevice.circularBuffer) ∧
    aesdCleanupModule d.driver = some heap ∧
    heap.freed.Nodup ∧
    ∀ id, heap.live id = none

/-- Whether the chunk of a call is stored, when there is memory. -/
def stores (c : WriteCall) : Bool :=
  !c.env.interrupted && (c.env.fault.isNone || c.buf.bytes.isEmpty)

/-- The log of the chunks that are stored. -/
def storedLog (calls : List WriteCall) : CommandLog :=
  commandLog ((calls.filter stores).map fun c => c.buf.bytes)

/-- The last call that got the lock, if any, committed a command, or was an
empty chunk with nothing pending. -/
def LeavesNothing (calls : List WriteCall) : Prop :=
  ∀ c, (calls.filter fun c => !c.env.interrupted).getLast? = some c →
    (newline ∈ c.buf.bytes ∧ c.env.fault.isNone = true) ∨
    (c.buf.bytes = [] ∧ (storedLog calls).pending = [])

/-! ## The write buffer after a run -/

section
variable {calls : List WriteCall} {c : WriteCall}

theorem storedLog_concat (h : stores c = true) :
    storedLog (calls ++ [c]) = (storedLog calls).write c.buf.bytes := by
  rw [storedLog, List.filter_append, List.map_append]
  simp [h, commandLog_concat, storedLog]

theorem storedLog_concat_of_not (h : stores c = false) :
    storedLog (calls ++ [c]) = storedLog calls := by
  rw [storedLog, List.filter_append]
  simp [h, storedLog]

theorem leavesNothing_interrupted (h : c.env.interrupted = true) :
    LeavesNothing (calls ++ [c]) ↔ LeavesNothing calls := by
  have hstores : stores c = false := by simp [stores, h]
  rw [LeavesNothing, LeavesNothing, storedLog_concat_of_not hstores, List.filter_append]
  simp [h]

theorem leavesNothing_concat (h : c.env.interrupted = false) :
    LeavesNothing (calls ++ [c]) ↔
      (newline ∈ c.buf.bytes ∧ c.env.fault.isNone = true) ∨
      (c.buf.bytes = [] ∧ (storedLog (calls ++ [c])).pending = []) := by
  rw [LeavesNothing, List.filter_append]
  simp [h]

/-- The write buffer has no block exactly when the run leaves nothing. -/
theorem buffer_of_run {limit : Nat} {fPos : Nat → Int} {rs : List Reply} {a : LogDevice}
    (h : run LogDevice.step (.init limit fPos) (calls.map .write) = some (rs, a))
    (hr : ∀ r ∈ rs, r.ret ≠ -eNoMem) :
    a.state.log = storedLog calls ∧
      (a.state.buffer = .nothing ↔ LeavesNothing calls) := by
  induction calls using List.reverseRecOn generalizing rs a with
  | nil =>
      cases h
      exact ⟨rfl, by simp [LogDevice.init, LeavesNothing]⟩
  | append_singleton calls c ih =>
      rw [List.map_append] at h
      obtain ⟨rs, b, r, hrun, hs, rfl⟩ := run_snoc.mp h
      obtain ⟨hlog, hbuf⟩ := ih hrun fun q hq => hr q (by simp [hq])
      obtain ⟨hret, -, hcases⟩ := LogState.write_cases (LogDevice.step_write hs).1
      rcases hcases with ⟨ho, ha⟩ | ⟨ho, -, -⟩ | ⟨ho, -, -⟩ | ⟨ho, -, ha⟩ | ⟨ho, -, hl, hb⟩
      · have hint : c.env.interrupted = true := writeOutcome_when ho
        rw [ha, leavesNothing_interrupted hint,
          storedLog_concat_of_not (by simp [stores, hint])]
        exact ⟨hlog, hbuf⟩
      · exact absurd (by rw [hret, ho]; rfl) (hr r (by simp))
      · exact absurd (by rw [hret, ho]; rfl) (hr r (by simp))
      · obtain ⟨hint, -, hf⟩ := writeOutcome_when ho
        simp only [Bool.and_eq_true, Option.isSome_iff_ne_none, decide_eq_true_eq] at hf
        rw [ha, leavesNothing_concat hint,
          storedLog_concat_of_not (by simp [stores, hf, Option.isSome_iff_ne_none])]
        exact ⟨hlog, by simp [hf]⟩
      · obtain ⟨hint, -, hf⟩ := writeOutcome_when ho
        have hstores : stores c = true := by
          cases hfault : c.env.fault <;> simp_all [stores]
        rw [hl, hb, leavesNothing_concat hint, storedLog_concat hstores, hlog]
        refine ⟨rfl, ?_⟩
        by_cases hn : newline ∈ c.buf.bytes
        · have hne : c.buf.bytes ≠ [] := List.ne_nil_of_mem hn
          have hfault : c.env.fault.isNone = true := by
            cases hfault : c.env.fault <;> simp_all
          simp [hn, hfault]
        · rw [(CommandLog.write_append _ hn).2]
          simp only [hn, false_and, not_false_eq_true, true_and, false_or]
          split <;> simp_all

end

/-! ## The cleanup -/

section
variable {s : DriverState} {log : CommandLog}

theorem Intact.freed_unreferenced (h : Intact s log) {id : Nat}
    (hid : id ∈ s.heap.freed) :
    Ptr.block id ≠ s.aesdDevice.pWriteBuffer ∧
      Ptr.block id ∉ slotPtrs s.aesdDevice.circularBuffer := by
  obtain ⟨es, hr⟩ := h.ring
  have hn := hr.owned.freed_notMem hid
  simpa [not_or] using hn

theorem aesdCleanupModule_eq (s : DriverState) :
    aesdCleanupModule s
      = (slotPtrs s.aesdDevice.circularBuffer).foldlM kfree s.heap := by
  have hslots : slotPtrs s.aesdDevice.circularBuffer
      = (List.range 10).map fun i => (s.aesdDevice.circularBuffer.at i).buffptr := by
    apply List.ext_getElem (by simp)
    intro i h _
    simp [slotPtrs_getElem]
  rw [hslots, List.foldlM_map]
  rfl

/-- **The cleanup of an intact device** frees everything but the block of the
write buffer. -/
theorem Intact.cleanup (h : Intact s log) :
    ∃ heap, aesdCleanupModule s = some heap ∧
      ((∀ id, heap.live id = none) ↔ isBlock s.aesdDevice.pWriteBuffer = false) := by
  obtain ⟨es, hr⟩ := h.ring
  have ho : s.heap.OwnedBy
      (slotPtrs s.aesdDevice.circularBuffer ++ [s.aesdDevice.pWriteBuffer]) :=
    hr.owned.perm (List.perm_append_singleton _ _).symm
  obtain ⟨heap, hfree, ho'⟩ := kfree_all ho
  refine ⟨heap, by rw [aesdCleanupModule_eq, hfree], ?_⟩
  constructor
  · intro hall
    cases hp : s.aesdDevice.pWriteBuffer with
    | block id =>
        rw [hp] at ho'
        have := ho'.live List.mem_cons_self
        rw [hall id] at this
        cases this
    | _ => rfl
  · intro hb id
    rw [← Option.not_isSome_iff_eq_none, ho'.live_iff]
    cases hp : s.aesdDevice.pWriteBuffer <;> simp_all [isBlock]

end

/-- **Exactly when unloading the module frees everything.** For every run of
writes in which the allocations succeed, and the cleanup after it: every block
is freed, once, and no freed block is still pointed to, if and only if the
run leaves no unfinished command in the write buffer. -/
theorem cleanup_frees_all_iff (limit : Nat) (hl : limit ≤ 2 ^ 56) (fPos : Nat → Int)
    (calls : List WriteCall)
    (hmem : ∀ r ∈ outputs Device.step (.init limit hl fPos) (calls.map .write),
      r.ret ≠ -eNoMem) :
    FreesAll limit hl fPos calls ↔ LeavesNothing calls := by
  obtain ⟨rs, d, h⟩ := run_writes_defined hmem
  rw [outputs_of_run h] at hmem
  obtain ⟨a, ha, ht, -⟩ := run_tracks h
  have hb := run_buffer ha hmem
  obtain ⟨heap, hclean, hlive⟩ := (ht.state.intact hb).cleanup
  have hleaves : (∀ id, heap.live id = none) ↔ LeavesNothing calls := by
    rw [hlive, ← (buffer_of_run ha hmem).2]
    have hheld := ht.state.held_iff hb
    cases hbuf : a.state.buffer <;> simp_all
  constructor
  · rintro ⟨rs', d', heap', h', -, hclean', -, hall⟩
    rw [h] at h'
    cases h'
    rw [hclean] at hclean'
    cases hclean'
    exact hleaves.mp hall
  · intro hn
    refine ⟨rs, d, heap, h, ?_, hclean, heap.freed_nodup, hleaves.mpr hn⟩
    rintro pre ⟨post, rfl⟩ rs' d' h' id hid
    -- the replies of the shorter run are among those of the whole one
    have hr' : ∀ r ∈ rs', r.ret ≠ -eNoMem := by
      rw [List.map_append] at h
      obtain ⟨rs₁, d₁, rs₂, h1, -, rfl⟩ := run_append.mp h
      rw [h'] at h1
      cases h1
      exact fun r hr => hmem r (List.mem_append_left _ hr)
    exact (run_intact h' hr').freed_unreferenced hid

/-- One byte without a newline is still there after the module is gone. -/
theorem cleanup_leaks_pending :
    ¬ FreesAll 4096 (by decide) (fun _ => 0) [.quiet 0 [97] (by decide)] := by
  rintro ⟨rs, d, heap, hr, -, hclean, -, hall⟩
  have h : (run Device.step (.init 4096 (by decide) fun _ => 0)
      ([WriteCall.quiet 0 [97] (by decide)].map .write)).bind
        (fun p => (aesdCleanupModule p.2.driver).map fun heap => heap.live 0)
      = some (some [97]) := by decide
  rw [hr, Option.bind_some, hclean, Option.map_some, hall 0] at h
  cases h

theorem cleanup_frees_all_iff_command :
    FreesAll 4096 (by decide) (fun _ => 0) [.quiet 0 [97, 10] (by decide)] ↔
      LeavesNothing [.quiet 0 [97, 10] (by decide)] :=
  cleanup_frees_all_iff 4096 (by decide) (fun _ => 0)
    [.quiet 0 [97, 10] (by decide)] (by decide)

end Aesd.Driver
